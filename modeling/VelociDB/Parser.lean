/-
# The parser (`parser.rs`)

`Parser::parse` picks a statement by the upper case of its first words and reads the rest
with a regular expression each, whose `\w`, `\s` and `\d` are those of Unicode.  A text is a
list of letters; an `unwrap` and a slice panic where Rust's do.
-/
import VelociDB.Literals
import VelociDB.LikeMatch
import VelociDB.QuerySteps

namespace VelociDB

open Text
open LikeRegex (dot)

/-- `Statement`. -/
inductive SqlStatement where
  | change (statement : Statement)
  | select (query : SelectQuery)
  | beginTransaction
  | commitTransaction
  | rollbackTransaction

/-- `Err(VelociError::ParseError(msg))`. -/
def refuse {α : Type} (msg : String) : Except Fault α := .error (.error (.parseError msg))

namespace Parser

variable (tx : TextFns)

/-! ## Regular expressions -/

/-- A letter under `(?i)`: `k` and `s` have a third form. -/
def foldsTo (c x : Char) : Bool :=
  x.toLower == c.toLower || (c.toLower == 'k' && x == '\u212a') ||
    (c.toLower == 's' && x == 'ſ')

/-- A keyword under `(?i)`. -/
def word (w : String) : Regex Char := Regex.seqs (w.toList.map fun c => .one (foldsTo c))

/-- `\s+`. -/
def blanks : Regex Char := Regex.some1 isWhite true

/-- `\s*`. -/
def blanks0 : Regex Char := .many isWhite true

/-- `(\w+)`. -/
def name (n : Nat) : Regex Char := .group n (Regex.some1 tx.isWord true)

/-- `(.+)`. -/
def line (n : Nat) : Regex Char := .group n (Regex.some1 dot true)

/-- `(.+?)`. -/
def lazyLine (n : Nat) : Regex Char := .group n (Regex.some1 dot false)

/-- A letter as such. -/
def letter (c : Char) : Regex Char := .one (· == c)

/-- `(?:\s+WHERE\s+(.+))?`. -/
def whereTail (n : Nat) : Regex Char :=
  Regex.opt (Regex.seqs [blanks, word "WHERE", blanks, line n])

/-- `(?i)CREATE\s+TABLE\s+(\w+)\s*\((.+)\)`. -/
def createRe : Regex Char := Regex.seqs
  [word "CREATE", blanks, word "TABLE", blanks, name tx 1, blanks0, letter '(', line 2, letter ')']

/-- `(?i)DROP\s+TABLE\s+(\w+)`. -/
def dropRe : Regex Char := Regex.seqs [word "DROP", blanks, word "TABLE", blanks, name tx 1]

/-- `(?i)^ALTER\s+TABLE\s+(\w+)\s+RENAME\s+TO\s+(\w+)$`. -/
def renameTableRe : Regex Char := Regex.seqs
  [.start, word "ALTER", blanks, word "TABLE", blanks, name tx 1, blanks, word "RENAME", blanks,
    word "TO", blanks, name tx 2, .stop]

/-- `(?:COLUMN\s+)?`. -/
def columnWord : Regex Char := Regex.opt (Regex.seqs [word "COLUMN", blanks])

/-- `(?i)^ALTER\s+TABLE\s+(\w+)\s+RENAME\s+(?:COLUMN\s+)?(\w+)\s+TO\s+(\w+)$`. -/
def renameColumnRe : Regex Char := Regex.seqs
  [.start, word "ALTER", blanks, word "TABLE", blanks, name tx 1, blanks, word "RENAME", blanks,
    columnWord, name tx 2, blanks, word "TO", blanks, name tx 3, .stop]

/-- `(?i)^ALTER\s+TABLE\s+(\w+)\s+ADD\s+(?:COLUMN\s+)?(.+)$`. -/
def addColumnRe : Regex Char := Regex.seqs
  [.start, word "ALTER", blanks, word "TABLE", blanks, name tx 1, blanks, word "ADD", blanks,
    columnWord, line 2, .stop]

/-- `(?i)^ALTER\s+TABLE\s+(\w+)\s+DROP\s+(?:COLUMN\s+)?(\w+)$`. -/
def dropColumnRe : Regex Char := Regex.seqs
  [.start, word "ALTER", blanks, word "TABLE", blanks, name tx 1, blanks, word "DROP", blanks,
    columnWord, name tx 2, .stop]

/-- `(?i)INSERT\s+INTO\s+(\w+)(?:\s*\(([^)]+)\))?\s+VALUES\s*\((.+)\)\s*;?\s*$`. -/
def insertRe : Regex Char := Regex.seqs
  [word "INSERT", blanks, word "INTO", blanks, name tx 1,
    Regex.opt (Regex.seqs
      [blanks0, letter '(', .group 2 (Regex.some1 (· != ')') true), letter ')']),
    blanks, word "VALUES", blanks0, letter '(', line 3, letter ')', blanks0,
    Regex.opt (letter ';'), blanks0, .stop]

/-- `(?i)\s+LIMIT\s+(\d+)\s*;?\s*$`. -/
def limitRe : Regex Char := Regex.seqs
  [blanks, word "LIMIT", blanks, .group 1 (Regex.some1 tx.isDigit true), blanks0,
    Regex.opt (letter ';'), blanks0, .stop]

/-- `(?i)^ORDER\s+BY\s+`. -/
def orderRe : Regex Char := Regex.seqs [.start, word "ORDER", blanks, word "BY", blanks]

/-- `(?i)^SELECT\s+(.+?)\s+FROM\s+(\w+)(?:\s+WHERE\s+(.+))?$`. -/
def selectRe : Regex Char := Regex.seqs
  [.start, word "SELECT", blanks, lazyLine 1, blanks, word "FROM", blanks, name tx 2,
    whereTail 3, .stop]

/-- `(?i)UPDATE\s+(\w+)\s+SET\s+(.+?)(?:\s+WHERE\s+(.+))?$`. -/
def updateRe : Regex Char := Regex.seqs
  [word "UPDATE", blanks, name tx 1, blanks, word "SET", blanks, lazyLine 2, whereTail 3, .stop]

/-- `(?i)DELETE\s+FROM\s+(\w+)(?:\s+WHERE\s+(.+))?`. -/
def deleteRe : Regex Char := Regex.seqs
  [word "DELETE", blanks, word "FROM", blanks, name tx 1, whereTail 2]

/-- The operators, in the order of the expression for a condition. -/
def operatorTexts : List String := [">=", "<=", "!=", "<>", "LIKE", "=", ">", "<"]

/-- `(\w+)\s*(>=|<=|!=|<>|LIKE|=|>|<)\s*(.+)`. -/
def conditionRe : Regex Char := Regex.seqs
  [name tx 1, blanks0,
    .group 2 (Regex.alts (operatorTexts.map fun op => Regex.seqs (op.toList.map letter))),
    blanks0, line 3]

/-! ## WHERE -/

/-- `Operator::from_str`. -/
def operatorFromStr (s : List Char) : Except Fault Operator :=
  if s = "=".toList then .ok .equal
  else if s = "!=".toList ∨ s = "<>".toList then .ok .notEqual
  else if s = ">".toList then .ok .greaterThan
  else if s = "<".toList then .ok .lessThan
  else if s = ">=".toList then .ok .greaterThanOrEqual
  else if s = "<=".toList then .ok .lessThanOrEqual
  else if s = "LIKE".toList then .ok .like
  else refuse ("Unknown operator: " ++ String.ofList s)

/-- Whether a text starts with an AND between two blanks. -/
def isAnd : List Char → Bool
  | before :: a :: n :: d :: behind :: _ =>
      isWhite before && (a = 'A' || a = 'a') && (n = 'N' || n = 'n') && (d = 'D' || d = 'd') &&
        isWhite behind
  | _ => false

/-- The loop of `split_on_and`; the first `skip` letters are of an AND. -/
def splitLoop : Nat → List Char → Option Char → List Char → List (List Char)
  | _, current, _, [] => if trim isWhite current = [] then [] else [current]
  | skip + 1, current, quote, _ :: rest => splitLoop skip current quote rest
  | 0, current, some q, c :: rest =>
      splitLoop 0 (current ++ [c]) (if c = q then none else some q) rest
  | 0, current, none, c :: rest =>
      if c = '\'' ∨ c = '"' then splitLoop 0 (current ++ [c]) (some c) rest
      else if isAnd (c :: rest) then current :: splitLoop 4 [] none rest
      else splitLoop 0 (current ++ [c]) none rest

/-- `Parser::split_on_and`. -/
def splitOnAnd (clause : List Char) : List (List Char) := splitLoop 0 [] none clause

/-- One condition of `parse_where_clause`. -/
def parseCondition (part : List Char) : Except Fault Condition := do
  let part := trim isWhite part
  match tx.captures (conditionRe tx) part with
  | none => refuse ("Invalid WHERE condition: " ++ String.ofList part)
  | some m => do
      let column ← orPanic (m.group 1)
      let operator ← operatorFromStr (← orPanic (m.group 2))
      let value ← parseValue tx (trim isWhite (← orPanic (m.group 3)))
      return ⟨String.ofList column, operator, value⟩

/-- `Parser::parse_where_clause`. -/
def parseWhereClause (clause : List Char) : Except Fault WhereClause := do
  let conditions ← (splitOnAnd clause).mapM (parseCondition tx)
  if conditions = [] then refuse ("Empty WHERE clause: " ++ String.ofList clause)
  else return ⟨conditions⟩

/-- The WHERE clause in group `n`. -/
def parseTail (m : Regex.Match Char) (n : Nat) : Except Fault (Option WhereClause) :=
  match m.group n with
  | some text => do return some (← parseWhereClause tx text)
  | none => .ok none

/-! ## Column definitions -/

/-- The loop of `parse_identifier` behind the opening quote, from byte `pos` of `s`. -/
def identifierLoop (s : List Char) (endQuote : Char) :
    Nat → Bool → List Char → List Char → Except Fault (List Char × List Char)
  | _, _, _, [] => refuse "Unterminated quoted identifier"
  | pos, escaped, identifier, ch :: rest =>
      let next := pos + ch.utf8Size
      if escaped then identifierLoop s endQuote next false (identifier ++ [ch]) rest
      else if ch = '\\' then identifierLoop s endQuote next true identifier rest
      else if ch = endQuote then do
        let remainder ← orPanic (sliceFrom s next)
        return (identifier, remainder)
      else identifierLoop s endQuote next false (identifier ++ [ch]) rest

/-- `Parser::parse_identifier`. -/
def parseIdentifier (s : List Char) : Except Fault (List Char × List Char) :=
  let s := trim isWhite s
  match s with
  | [] => .ok ([], [])
  | c :: rest =>
      if c = '"' ∨ c = '\x60' then identifierLoop s c c.utf8Size false [] rest
      else if c = '[' then identifierLoop s ']' c.utf8Size false [] rest
      else .ok (s.takeWhile fun c => !isWhite c, s.dropWhile fun c => !isWhite c)

/-- The loop of `split_sql_parts`. -/
def partsLoop : List Char → Option Char → Bool → List Char → List (List Char)
  | current, _, _, [] => if current = [] then [] else [current]
  | current, quote, escaped, ch :: rest =>
      if escaped then partsLoop (current ++ [ch]) quote false rest
      else if ch = '\\' then partsLoop (current ++ [ch]) quote true rest
      else if quote = none ∧ (ch = '"' ∨ ch = '\'') then
        partsLoop (current ++ [ch]) (some ch) false rest
      else if quote = some ch then partsLoop (current ++ [ch]) none false rest
      else if quote = none ∧ isWhite ch then
        if current = [] then partsLoop [] none false rest
        else current :: partsLoop [] none false rest
      else partsLoop (current ++ [ch]) quote false rest

/-- `Parser::split_sql_parts`. -/
def splitSqlParts (s : List Char) : List (List Char) := partsLoop [] none false s

/-- `s.strip_prefix(p)`. -/
def stripStart (p s : List Char) : Option (List Char) :=
  if p <+: s then some (s.drop p.length) else none

/-- `DataType::from_str`. -/
def dataTypeFromStr (s : List Char) : DataType :=
  let upper := tx.upper (trim isWhite s)
  let dimension : Option Nat := do
    let rest ← (stripStart "F32_BLOB(".toList upper).or (stripStart "VECTOR(".toList upper)
    if rest.getLast? = some ')' then
      (parseUnsigned (2 ^ 32 - 1) 10 (trim isWhite rest.dropLast)).toOption
    else none
  match dimension with
  | some dim => .vector (UInt32.ofNat dim)
  | none =>
      if upper ∈ ["INTEGER".toList, "INT".toList] then .integer
      else if upper ∈ ["REAL".toList, "FLOAT".toList, "DOUBLE".toList] then .real
      else if upper ∈ ["TEXT".toList, "VARCHAR".toList, "STRING".toList] then .text
      else if upper = "BLOB".toList then .blob
      else .text

/-- A column of CREATE TABLE. -/
def parseColumn (colDef : List Char) : Except Fault Column := do
  let (colName, remainder) ← parseIdentifier colDef
  let remainder := trim isWhite remainder
  if remainder = [] then
    refuse ("Missing data type for column '" ++ String.ofList colName ++ "'")
  else
    match splitSqlParts remainder with
    | [] => refuse ("Invalid column definition: " ++ String.ofList colDef)
    | type :: parts =>
        let upperParts := (type :: parts).map tx.upper
        let primaryKey :=
          decide ("PRIMARY".toList ∈ upperParts ∧ "KEY".toList ∈ upperParts)
        let notNull := decide ("NOT".toList ∈ upperParts ∧ "NULL".toList ∈ upperParts)
        return ⟨String.ofList colName, dataTypeFromStr tx type, primaryKey, primaryKey || notNull,
          decide ("UNIQUE".toList ∈ upperParts)⟩

/-- The column of ADD COLUMN. -/
def parseAddedColumn (colDef : List Char) : Except Fault Column := do
  let (colName, remainder) ← parseIdentifier colDef
  match splitSqlParts (trim isWhite remainder) with
  | [] => refuse ("Missing data type in ADD COLUMN: " ++ String.ofList colDef)
  | type :: parts =>
      let upperParts := (type :: parts).map tx.upper
      if "PRIMARY".toList ∈ upperParts then
        refuse "Cannot add a PRIMARY KEY column with ALTER TABLE"
      else if "NOT".toList ∈ upperParts ∧ "NULL".toList ∈ upperParts then
        refuse "Cannot add a NOT NULL column without a default value"
      else
        return ⟨String.ofList colName, dataTypeFromStr tx type, false, false,
          decide ("UNIQUE".toList ∈ upperParts)⟩

/-! ## Statements on tables -/

/-- A group as a name. -/
def groupName (m : Regex.Match Char) (n : Nat) : Except Fault String := do
  return String.ofList (← orPanic (m.group n))

/-- `Parser::parse_create_table`. -/
def parseCreateTable (sql : List Char) : Except Fault SqlStatement :=
  match tx.captures (createRe tx) sql with
  | none => refuse "Invalid CREATE TABLE syntax"
  | some m => do
      let table ← groupName m 1
      let text ← orPanic (m.group 2)
      let colDefs := ((text.splitOn ',').map (trim isWhite)).filter (· ≠ [])
      let columns ← colDefs.mapM (parseColumn tx)
      return .change (.createTable table columns)

/-- `Parser::parse_drop_table`. -/
def parseDropTable (sql : List Char) : Except Fault SqlStatement :=
  match tx.captures (dropRe tx) sql with
  | none => refuse "Invalid DROP TABLE syntax"
  | some m => do return .change (.dropTable (← groupName m 1))

/-- `Parser::parse_alter_table`. -/
def parseAlterTable (sql : List Char) : Except Fault SqlStatement :=
  let sql := trim isWhite (trimEnd (· == ';') (trim isWhite sql))
  match tx.captures (renameTableRe tx) sql with
  | some m => do
      return .change (.alterTable (← groupName m 1) (.renameTable (← groupName m 2)))
  | none =>
  match tx.captures (renameColumnRe tx) sql with
  | some m => do
      return .change (.alterTable (← groupName m 1)
        (.renameColumn (← groupName m 2) (← groupName m 3)))
  | none =>
  match tx.captures (addColumnRe tx) sql with
  | some m => do
      let table ← groupName m 1
      let column ← parseAddedColumn tx (trim isWhite (← orPanic (m.group 2)))
      return .change (.alterTable table (.addColumn column))
  | none =>
  match tx.captures (dropColumnRe tx) sql with
  | some m => do
      return .change (.alterTable (← groupName m 1) (.dropColumn (← groupName m 2)))
  | none => refuse ("Invalid ALTER TABLE syntax: " ++ String.ofList sql)

/-! ## Statements on rows -/

/-- `Parser::parse_insert`. -/
def parseInsert (sql : List Char) : Except Fault SqlStatement :=
  match tx.captures (insertRe tx) sql with
  | none => refuse "Invalid INSERT syntax"
  | some m => do
      let table ← groupName m 1
      let columns := (m.group 2).map fun text =>
        (text.splitOn ',').map fun column => String.ofList (trim isWhite column)
      let values ← parseValues tx (← orPanic (m.group 3))
      return .change (.insert table columns values)

/-- `assignments.insert(column, value)`. -/
def assign (assignments : List (String × Value)) (column : String) (value : Value) :
    List (String × Value) :=
  if column ∈ assignments.map Prod.fst then
    assignments.map fun e => if e.1 = column then (column, value) else e
  else assignments ++ [(column, value)]

/-- The loop over the assignments of an UPDATE. -/
def assignLoop : List (String × Value) → List (List Char) →
    Except Fault (List (String × Value))
  | assignments, [] => .ok assignments
  | assignments, assignment :: rest =>
      match assignment.splitOn '=' with
      | [column, value] => do
          let value ← parseValue tx (trim isWhite value)
          assignLoop (assign assignments (String.ofList (trim isWhite column)) value) rest
      | _ => refuse ("Invalid assignment: " ++ String.ofList assignment)

/-- `Parser::parse_update`. -/
def parseUpdate (sql : List Char) : Except Fault SqlStatement :=
  match tx.captures (updateRe tx) sql with
  | none => refuse "Invalid UPDATE syntax"
  | some m => do
      let table ← groupName m 1
      let assignments ← assignLoop tx [] ((← orPanic (m.group 2)).splitOn ',')
      let clause ← parseTail tx m 3
      return .change (.update table assignments clause)

/-- `Parser::parse_delete`. -/
def parseDelete (sql : List Char) : Except Fault SqlStatement :=
  match tx.captures (deleteRe tx) sql with
  | none => refuse "Invalid DELETE syntax"
  | some m => do
      let table ← groupName m 1
      let clause ← parseTail tx m 2
      return .change (.delete table clause)

/-! ## SELECT -/

/-- `u8::is_ascii_whitespace`. -/
def isAsciiWhite (b : UInt8) : Bool := b ∈ [0x20, 0x09, 0x0a, 0x0c, 0x0d]

/-- Whether `rest`, which starts with an O, starts with ORDER BY. -/
def isOrderBy (rest : List Char) : Except Fault Bool :=
  let upper := tx.upper (rest.take 9)
  if "ORDER ".toList <+: upper ∨ "ORDER\t".toList <+: upper ∨ "ORDER\n".toList <+: upper then do
    let afterOrder := trimStart isWhite (← orPanic (sliceFrom rest 5))
    if "BY".toList <+: tx.upper (afterOrder.take 3) then
      return (← orPanic (sliceFrom afterOrder 2)).head?.any isWhite
    else return false
  else .ok false

/-- The loop of `find_order_by` from byte `i` of `s`: the byte before, and the quote of the
string it is in. -/
def orderLoop (s : List Char) :
    Nat → Option UInt8 → Option UInt8 → List UInt8 → Except Fault (Option Nat)
  | _, _, _, [] => .ok none
  | i, _, some q, b :: bytes =>
      orderLoop s (i + 1) (some b) (if b = q then none else some q) bytes
  | i, before, none, b :: bytes =>
      if b = 0x27 ∨ b = 0x22 then orderLoop s (i + 1) (some b) (some b) bytes
      else if (b = 0x4f ∨ b = 0x6f) ∧ before.all isAsciiWhite then do
        let rest ← orPanic (sliceFrom s i)
        if 8 ≤ size rest then
          if ← isOrderBy tx rest then return some i
        orderLoop s (i + 1) (some b) none bytes
      else orderLoop s (i + 1) (some b) none bytes

/-- `find_order_by`. -/
def findOrderBy (s : List Char) : Except Fault (Option Nat) :=
  orderLoop tx s 0 none none (s.flatMap String.utf8EncodeChar)

/-- The loop of `split_top_level_commas`. -/
def commasLoop : List Char → Option Char → Nat → List Char → List (List Char)
  | current, _, _, [] => if trim isWhite current = [] then [] else [trim isWhite current]
  | current, some q, depth, ch :: rest =>
      commasLoop (current ++ [ch]) (if ch = q then none else some q) depth rest
  | current, none, depth, ch :: rest =>
      if ch = '\'' ∨ ch = '"' then commasLoop (current ++ [ch]) (some ch) depth rest
      else if ch = '(' ∨ ch = '[' then commasLoop (current ++ [ch]) none (depth + 1) rest
      else if ch = ')' ∨ ch = ']' then commasLoop (current ++ [ch]) none (depth - 1) rest
      else if ch = ',' ∧ depth = 0 then
        if trim isWhite current = [] then commasLoop [] none 0 rest
        else trim isWhite current :: commasLoop [] none 0 rest
      else commasLoop (current ++ [ch]) none depth rest

/-- `split_top_level_commas`. -/
def splitTopLevelCommas (s : List Char) : List (List Char) := commasLoop [] none 0 s

/-- `s.truncate(s.len() - n)`. -/
def truncateBy (s : List Char) (n : Nat) : Except Fault (List Char) :=
  if size s < n then .error .panic else orPanic (sliceTo s (size s - n))

/-- The LIMIT of a query, and the query without it. -/
def takeLimit (remaining : List Char) : Except Fault (Option Nat × List Char) :=
  match tx.captures (limitRe tx) remaining with
  | none => .ok (none, remaining)
  | some m => do
      match parseUnsigned (u64Size - 1) 10 (← orPanic (m.group 1)) with
      | .error e => refuse ("Invalid LIMIT value: " ++ e)
      | .ok n => return (some n, m.before ++ m.after)

/-- The direction at the end of an ORDER BY expression, and the expression without it. -/
def takeDirection (expr : List Char) : Except Fault (Bool × List Char) :=
  let upperExpr := tx.upper expr
  if " DESC".toList <:+ upperExpr then do return (false, ← truncateBy expr 5)
  else if " ASC".toList <:+ upperExpr then do return (true, ← truncateBy expr 4)
  else .ok (true, expr)

/-- The ORDER BY clause at byte `idx` of a query, and the query before it. -/
def takeOrderAt (remaining : List Char) (idx : Nat) : Except Fault (OrderBy × List Char) := do
  let clause := trim isWhite (← orPanic (sliceFrom remaining idx))
  match tx.captures orderRe clause with
  | none => refuse "Invalid ORDER BY"
  | some m => do
      let expr ← orPanic (sliceFrom clause (size clause - size m.after))
      let expr := trim isWhite (trimEnd (· == ';') (trim isWhite expr))
      let (ascending, expr) ← takeDirection tx expr
      let expr := trim isWhite expr
      if expr = [] then refuse "Empty ORDER BY expression"
      else
        let remaining ← orPanic (sliceTo remaining idx)
        return (⟨String.ofList expr, ascending⟩, trimEnd isWhite remaining)

/-- The ORDER BY clause of a query, and the query without it. -/
def takeOrder (remaining : List Char) : Except Fault (Option OrderBy × List Char) := do
  match ← findOrderBy tx remaining with
  | none => return (none, remaining)
  | some idx => do
      let (order, remaining) ← takeOrderAt tx remaining idx
      return (some order, remaining)

/-- The items of a SELECT list. -/
def selectColumns (text : List Char) : List String :=
  if text = ['*'] then ["*"]
  else if "COUNT(".toList <+: tx.upper text then [String.ofList text]
  else (splitTopLevelCommas text).map String.ofList

/-- A SELECT without its LIMIT and ORDER BY, as far as the semicolons. -/
def selectCore (remaining : List Char) : List Char :=
  trim isWhite (trimEnd (· == ';') remaining)

/-- The SELECT list, the table and the WHERE clause of a SELECT. -/
def parseCore (limit : Option Nat) (order : Option OrderBy) (remaining : List Char) :
    Except Fault SqlStatement :=
  match tx.captures (selectRe tx) (selectCore remaining) with
  | none => refuse "Invalid SELECT syntax"
  | some m => do
      let columns := selectColumns tx (trim isWhite (← orPanic (m.group 1)))
      let table ← groupName m 2
      let clause ← parseTail tx m 3
      return .select ⟨table, columns, clause, order, limit⟩

/-- `Parser::parse_select`. -/
def parseSelect (sql : List Char) : Except Fault SqlStatement := do
  let (limit, remaining) ← takeLimit tx (trim isWhite sql)
  let (order, remaining) ← takeOrder tx remaining
  parseCore tx limit order remaining

/-! ## Statements -/

/-- The statements by their first words. -/
inductive Kind where
  | createTable
  | dropTable
  | alterTable
  | insert
  | select
  | update
  | delete
  | beginTransaction
  | commitTransaction
  | rollbackTransaction
  deriving DecidableEq

/-- The first words, in upper case. -/
def kindOf (upper : List Char) : Option Kind :=
  if "CREATE TABLE".toList <+: upper then some .createTable
  else if "DROP TABLE".toList <+: upper then some .dropTable
  else if "ALTER TABLE".toList <+: upper then some .alterTable
  else if "INSERT INTO".toList <+: upper then some .insert
  else if "SELECT".toList <+: upper then some .select
  else if "UPDATE".toList <+: upper then some .update
  else if "DELETE FROM".toList <+: upper then some .delete
  else if upper = "BEGIN".toList ∨ upper = "BEGIN TRANSACTION".toList then
    some .beginTransaction
  else if upper = "COMMIT".toList ∨ upper = "COMMIT TRANSACTION".toList then
    some .commitTransaction
  else if upper = "ROLLBACK".toList ∨ upper = "ROLLBACK TRANSACTION".toList then
    some .rollbackTransaction
  else none

/-- The rest of a statement. -/
def parseKind (sql : List Char) : Kind → Except Fault SqlStatement
  | .createTable => parseCreateTable tx sql
  | .dropTable => parseDropTable tx sql
  | .alterTable => parseAlterTable tx sql
  | .insert => parseInsert tx sql
  | .select => parseSelect tx sql
  | .update => parseUpdate tx sql
  | .delete => parseDelete tx sql
  | .beginTransaction => .ok .beginTransaction
  | .commitTransaction => .ok .commitTransaction
  | .rollbackTransaction => .ok .rollbackTransaction

/-- `Parser::parse`. -/
def parse (sql : List Char) : Except Fault SqlStatement :=
  let sql := trim isWhite sql
  match kindOf (tx.upper sql) with
  | some kind => parseKind tx sql kind
  | none => refuse ("Unsupported statement: " ++ String.ofList sql)

/-! ## Distance expressions -/

/-- `DistanceMetric::from_function_name`. -/
def metricFromName (s : List Char) : Option DistanceMetric :=
  let lower := tx.lower s
  if lower = "vector_distance_cos".toList then some .cosine
  else if lower = "vector_distance_l2".toList ∨ lower = "vector_distance_euclidean".toList then
    some .euclidean
  else if lower = "vector_distance_dot".toList then some .dot
  else none

/-- The byte of the first comma outside quotes and brackets. -/
def commaLoop : Nat → Option Char → Nat → List Char → Option Nat
  | _, _, _, [] => none
  | i, some q, depth, ch :: rest =>
      commaLoop (i + ch.utf8Size) (if ch = q then none else some q) depth rest
  | i, none, depth, ch :: rest =>
      let next := i + ch.utf8Size
      if ch = '\'' ∨ ch = '"' then commaLoop next (some ch) depth rest
      else if ch = '(' ∨ ch = '[' then commaLoop next none (depth + 1) rest
      else if ch = ')' ∨ ch = ']' then commaLoop next none (depth - 1) rest
      else if ch = ',' ∧ depth = 0 then some i
      else commaLoop next none depth rest

/-- The two arguments of a distance function. -/
def parseDistanceArgs (metric : DistanceMetric) (s args : List Char) :
    Except Fault (Except VelociError DistanceExpr) :=
  match commaLoop 0 none 0 args with
  | none => .ok (.error (.parseError
      ("Distance function expects two arguments: " ++ String.ofList s)))
  | some splitAt => do
      let column := trim isWhite (← orPanic (sliceTo args splitAt))
      let vecArg := trim isWhite (← orPanic (sliceFrom args (splitAt + 1)))
      match ← parseVectorConstructor tx vecArg with
      | some (.ok query) => return .ok ⟨metric, String.ofList column, query⟩
      | some (.error e) => return .error e
      | none => return .error (.parseError
          ("Second argument of a distance function must be a vector literal: " ++
            String.ofList vecArg))

/-- `parse_distance_expr`; a fault is a panic. -/
def parseDistanceExpr (s : List Char) :
    Except Fault (Option (Except VelociError DistanceExpr)) :=
  let s := trim isWhite s
  let func := s.takeWhile (· != '(')
  if func = s then .ok none
  else do
    let funcName ← orPanic (sliceTo s (size func))
    match metricFromName tx (trim isWhite funcName) with
    | none => return none
    | some metric =>
        if s.getLast? = some ')' then do
          let args ← orPanic (slice s (size func + 1) (size s - 1))
          return some (← parseDistanceArgs tx metric s args)
        else return some (.error (.parseError
          ("Malformed distance expression: " ++ String.ofList s)))

end Parser

end VelociDB
