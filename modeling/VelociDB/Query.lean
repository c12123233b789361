/-
# Conditions on rows (`parser.rs`, `executor.rs`)

`Operator::evaluate`, the WHERE clause, and `compare_values`, the order behind ORDER BY
and UNIQUE.
-/
import VelociDB.Types

namespace VelociDB

/-- `Operator`. -/
inductive Operator where
  | equal
  | notEqual
  | greaterThan
  | lessThan
  | greaterThanOrEqual
  | lessThanOrEqual
  | like
  deriving DecidableEq

/-- `Condition`. -/
structure Condition where
  column : String
  operator : Operator
  value : Value
  deriving DecidableEq

/-- `WhereClause`. -/
structure WhereClause where
  conditions : List Condition
  deriving DecidableEq

/-- `OrderBy`. -/
structure OrderBy where
  column : String
  ascending : Bool
  deriving DecidableEq

variable (ext : Externals)

namespace Operator

/-- A comparison read off an `Ordering`; `none` is an unordered pair of floats. -/
def holds : Operator → Option Ordering → Bool
  | .equal, o => o == some .eq
  | .notEqual, o => o != some .eq
  | .greaterThan, o => o == some .gt
  | .lessThan, o => o == some .lt
  | .greaterThanOrEqual, o => o == some .gt || o == some .eq
  | .lessThanOrEqual, o => o == some .lt || o == some .eq
  | .like, _ => false

/-- The regular expression of a LIKE pattern. -/
def likeRegex (pattern : String) : String :=
  let special := ".+*?()[]\x7b\x7d|^$\\".toList
  let translate (ch : Char) : List Char :=
    if ch = '%' then ['.', '*']
    else if ch = '_' then ['.']
    else if ch ∈ special then ['\\', ch]
    else [ch]
  String.ofList ('^' :: pattern.toList.flatMap translate ++ ['$'])

/-- `Operator::evaluate`. -/
def evaluate (op : Operator) (left right : Value) : Except VelociError Bool :=
  match left, right with
  | .null, _ | _, .null => .ok false
  | .integer a, .integer b =>
      match op with
      | .like => .error (.typeMismatch (ext.debug right) (ext.debug left))
      | op => .ok (op.holds (some (compare a b)))
  | .text a, .text b =>
      match op with
      | .like => ext.regexIsMatch (likeRegex b) a
      | op => .ok (op.holds (some (compare a b)))
  | left, right =>
      match left.asFloat ext, right.asFloat ext with
      | .ok a, .ok b =>
          match op with
          | .like => .error (.parseError "LIKE not supported for numeric types")
          | op => .ok (op.holds (floatPartialCmp a b))
      | _, _ => .error (.typeMismatch (ext.debug right) (ext.debug left))

end Operator

/-- `compare_values`. -/
def compareValues (a b : Value) : Ordering :=
  match a, b with
  | .null, .null => .eq
  | .null, _ => .gt
  | _, .null => .lt
  | .integer x, .integer y => compare x y
  | .text x, .text y => compare x y
  | .blob x, .blob y => compare x y
  | lhs, rhs =>
      match lhs.asFloat ext, rhs.asFloat ext with
      | .ok x, .ok y => (floatPartialCmp x y).getD .eq
      | _, _ => compare (ext.debug a) (ext.debug b)

/-- `row.values[col_index]`. -/
def Row.index (row : Row) (i : Nat) : Except Fault Value :=
  match row.values[i]? with
  | some v => .ok v
  | none => .error .panic

/-- Position of the first column with a name. -/
def TableSchema.position (table : TableSchema) (name : String) : Option Nat :=
  table.columns.findIdx? fun c => c.name == name

/-- Position of the first PRIMARY KEY column. -/
def TableSchema.pkIndex (table : TableSchema) : Option Nat :=
  table.columns.findIdx? Column.primaryKey

/-- The conditions of a WHERE clause on a row, in order, up to the first that fails. -/
def evaluateConditions (table : TableSchema) (row : Row) : List Condition → Except Fault Bool
  | [] => .ok true
  | c :: rest =>
      match table.position c.column with
      | none => .error (.error (.notFound s!"Column '{c.column}' not found"))
      | some i => do
          let value ← row.index i
          match c.operator.evaluate ext value c.value with
          | .error e => .error (.error e)
          | .ok false => return false
          | .ok true => evaluateConditions table row rest

/-- `evaluate_where_clause` as the callers use it: an `Err` counts as false, a panic does
not. -/
def matchesWhere (table : TableSchema) (clause : WhereClause) (row : Row) : Except Fault Bool :=
  match evaluateConditions ext table row clause.conditions with
  | .error (.error _) => .ok false
  | r => r

/-- The rows that satisfy a clause, in order. -/
def keepMatching (table : TableSchema) (clause : WhereClause) :
    List (Int64 × Row) → Except Fault (List (Int64 × Row))
  | [] => .ok []
  | e :: rest => do
      let keep ← matchesWhere ext table clause e.2
      let kept ← keepMatching table clause rest
      return if keep then e :: kept else kept

/-- The rows a statement works on. -/
def filterRows (table : TableSchema) (clause : Option WhereClause) (rows : List (Int64 × Row)) :
    Except Fault (List (Int64 × Row)) :=
  match clause with
  | none => .ok rows
  | some clause => keepMatching ext table clause rows

end VelociDB
