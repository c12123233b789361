/-
# SELECT (`executor.rs`, `vector.rs`)

Filtering, ordering, LIMIT and projection.  The text of a distance expression is parsed
by `vector::parse_distance_expr`, distances are sums of floats, and the order in which
`select_nth_unstable_by` leaves its elements is unspecified; all three are parameters here
(`VectorFns`), so that what is proved holds for any of them.
-/
import VelociDB.Executor
import VelociDB.Lib.Sorting

namespace VelociDB

/-- `DistanceMetric`. -/
inductive DistanceMetric where
  | cosine
  | euclidean
  | dot
  deriving DecidableEq

/-- `DistanceExpr`. -/
structure DistanceExpr where
  metric : DistanceMetric
  column : String
  query : List UInt32

/-- A row with its distance. -/
abbrev Scored := UInt64 × Int64 × Row

/-- `parse_distance_expr`, `DistanceMetric::distance` and `select_nth_unstable_by`. -/
structure VectorFns where
  parseDistanceExpr : String → Option (Except VelociError DistanceExpr)
  distance : DistanceMetric → List UInt32 → List UInt32 → Except VelociError UInt64
  selection : Sorting.Selection Scored

variable (ext : Externals) (vec : VectorFns)

/-- `f64::INFINITY`. -/
def infinity : UInt64 := 0x7ff0000000000000

/-- `chunks_exact(4)` read as `f32`s. -/
def floatsOfBytes : Bytes → List UInt32
  | a :: b :: c :: d :: rest => UInt32.ofNat (Bytes.leNat [a, b, c, d]) :: floatsOfBytes rest
  | _ => []

/-- `value_as_vector`. -/
def valueAsVector : Value → Except VelociError (List UInt32)
  | .vector v => .ok v
  | .blob b =>
      if b.length % 4 = 0 then .ok (floatsOfBytes b)
      else .error (.typeMismatch "Vector" (ext.debug (.blob b)))
  | v => .error (.typeMismatch "Vector" (ext.debug v))

/-- The distance of one row: infinity where there is none. -/
def distanceOf (expr : DistanceExpr) (i : Nat) (row : Row) : UInt64 :=
  match row.values[i]? with
  | none => infinity
  | some value =>
      match valueAsVector ext value with
      | .ok v => ((vec.distance expr.metric v expr.query).toOption).getD infinity
      | .error _ => infinity

/-- `compute_distances`, with the rows. -/
def scoreRows (expr : DistanceExpr) (i : Nat) (rows : List (Int64 × Row)) : List Scored :=
  rows.map fun e => (distanceOf ext vec expr i e.2, e)

/-- Nearest first, ties by key. -/
def nearer (a b : Scored) : Ordering :=
  ((floatPartialCmp a.1 b.1).getD .eq).then (compare a.2.1 b.2.1)

/-- Farthest first, ties by key. -/
def farther (a b : Scored) : Ordering :=
  ((floatPartialCmp b.1 a.1).getD .eq).then (compare a.2.1 b.2.1)

/-- `sort_by`: stable. -/
def sortBy {α : Type} (cmp : α → α → Ordering) (l : List α) : List α :=
  l.mergeSort fun a b => cmp a b ≠ .gt

/-- `knn`. -/
def knn (expr : DistanceExpr) (i k : Nat) (rows : List (Int64 × Row)) : List Scored :=
  if k = 0 then []
  else
    let scored := scoreRows ext vec expr i rows
    let scored :=
      if k < scored.length then (vec.selection.select nearer (k - 1) scored).take k else scored
    sortBy nearer scored

/-- ORDER BY a plain column: NULL last, ties by key; descending reverses both. -/
def columnOrder (i : Nat) (ascending : Bool) (a b : Int64 × Row) : Ordering :=
  let primary := compareValues ext (a.2.values[i]?.getD .null) (b.2.values[i]?.getD .null)
  let combined := primary.then (compare a.1 b.1)
  if ascending then combined else combined.swap

/-- The ORDER BY clause of a SELECT. -/
def orderRows (name : String) (table : TableSchema) (order : Option OrderBy) (limit : Option Nat)
    (rows : List (Int64 × Row)) : Except Fault (List (Int64 × Row)) :=
  match order with
  | none => .ok rows
  | some order =>
      match vec.parseDistanceExpr order.column with
      | some (.error e) => .error (.error e)
      | some (.ok expr) =>
          match table.position expr.column with
          | none => .error (.error (.notFound
              s!"Vector column '{expr.column}' not found in table '{name}'"))
          | some i =>
              if order.ascending then
                let k := min (limit.getD rows.length) rows.length
                .ok ((knn ext vec expr i k rows).map Prod.snd)
              else .ok ((sortBy farther (scoreRows ext vec expr i rows)).map Prod.snd)
      | none =>
          match table.position order.column with
          | none => .error (.error (.notFound
              s!"ORDER BY column '{order.column}' not found in table '{name}'"))
          | some i => .ok (sortBy (columnOrder ext i order.ascending) rows)

/-- An item of the projection. -/
inductive ProjItem where
  | star
  | col (i : Nat)
  | distance (i : Nat) (expr : DistanceExpr)

/-- The item a column of the SELECT list stands for. -/
def projItem (name : String) (table : TableSchema) (column : String) : Except Fault ProjItem :=
  if column = "*" then .ok .star
  else
    match table.position column with
    | some i => .ok (.col i)
    | none =>
        match vec.parseDistanceExpr column with
        | some (.error e) => .error (.error e)
        | some (.ok expr) =>
            match table.position expr.column with
            | none => .error (.error (.notFound
                s!"Vector column '{expr.column}' not found in table '{name}'"))
            | some i => .ok (.distance i expr)
        | none => .error (.error (.notFound s!"Column '{column}' not found in table '{name}'"))

/-- The values of a row under an item. -/
def projectItem (row : Row) : ProjItem → List Value
  | .star => row.values
  | .col i => [row.values[i]?.getD .null]
  | .distance i expr =>
      let d := do
        let value ← row.values[i]?
        let v ← (valueAsVector ext value).toOption
        (vec.distance expr.metric v expr.query).toOption
      [match d with
        | some d => .float d
        | none => .null]

/-- The columns of the result under an item. -/
def projectColumns (table : TableSchema) (column : String) : ProjItem → List Column
  | .star => table.columns
  | .col i => table.columns[i]?.toList
  | .distance _ _ => [⟨column, .real, false, false, false⟩]

/-- `QueryResult`. -/
structure QueryResult where
  columns : List Column
  rows : List Row

/-- `COUNT(…)` as the only item. -/
def isCount (columns : List String) : Bool :=
  match columns with
  | [c] => c.toUpper.startsWith "COUNT("
  | _ => false

variable {m : Type → Type} [Monad m] [MonadExceptOf Fault m] {τ : Type} (trees : TreeOps m τ)

/-- The rows a SELECT returns, before projection. -/
def selectRows (table : String) (clause : Option WhereClause) (order : Option OrderBy)
    (limit : Option Nat) (db : Tables τ) : m (TableSchema × List (Int64 × Row)) := do
  let ts ← getTable db.schema table
  let tree ← getTree db table
  let candidates ← candidateRows trees tree clause ts
  let rows ← ofResult (filterRows ext ts clause candidates)
  let rows ← ofResult (orderRows ext vec table ts order limit rows)
  return (ts, match limit with
    | some n => rows.take n
    | none => rows)

/-- `execute_select`. -/
def executeSelect (table : String) (columns : List String) (clause : Option WhereClause)
    (order : Option OrderBy) (limit : Option Nat) (db : Tables τ) : m QueryResult := do
  let (ts, rows) ← selectRows ext vec trees table clause order limit db
  if isCount columns then
    return ⟨[⟨columns.headD "", .integer, false, true, false⟩],
      [⟨[.integer (Int64.ofNat rows.length)]⟩]⟩
  let items ← ofResult (columns.mapM fun c => projItem vec table ts c)
  return ⟨(columns.zip items).flatMap fun ci => projectColumns ts ci.1 ci.2,
    rows.map fun e => ⟨items.flatMap (projectItem ext vec e.2)⟩⟩

end VelociDB
