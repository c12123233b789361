/-
# The executor (`executor.rs`)

Statements act on the in-memory schema, the B-tree handles and the trees behind them.
The code is written once over an interface for the trees (`TreeOps`): a handle `τ` and
operations in a monad `m`.  A tree operation returns the handle to use from then on,
since an insert or a delete may move the root.  Two instances are used: the tree as an
ordered multimap (`Multimap`), and the tree as pages of the pager.

Locks and the MVCC bookkeeping around a statement are in `Session`.
-/
import VelociDB.Query

namespace VelociDB

/-- The operations of `BTree` the executor calls, and the root page
`execute_create_table` makes. -/
structure TreeOps (m : Type → Type) (τ : Type) where
  create : m τ
  search : τ → Int64 → m (Option Row)
  scan : τ → m (List (Int64 × Row))
  insert : τ → Int64 → Row → m τ
  delete : τ → Int64 → m (Bool × τ)

/-- `ChangeOp`. -/
inductive ChangeOp where
  | insert
  | update
  | delete
  deriving DecidableEq

/-- `StagedChange`. -/
structure StagedChange where
  table : String
  op : ChangeOp
  rowid : Int64
  before : Option Row
  after : Option Row
  deriving DecidableEq

/-- `AlterAction`. -/
inductive AlterAction where
  | renameTable (newName : String)
  | renameColumn (oldName newName : String)
  | addColumn (column : Column)
  | dropColumn (name : String)

/-- The statements that `execute` runs inside a write group.  The assignments of an
UPDATE are a `HashMap`: each column once, in any order. -/
inductive Statement where
  | createTable (name : String) (columns : List Column)
  | dropTable (name : String)
  | alterTable (table : String) (action : AlterAction)
  | insert (table : String) (columns : Option (List String)) (values : List Value)
  | update (table : String) (assignments : List (String × Value)) (clause : Option WhereClause)
  | delete (table : String) (clause : Option WhereClause)

/-- What the parser makes of ADD COLUMN: it refuses PRIMARY KEY and NOT NULL. -/
def Statement.Parsed : Statement → Prop
  | .alterTable _ (.addColumn column) => column.primaryKey = false ∧ column.notNull = false
  | _ => True

/-- `Schema` and the map of B-tree handles. -/
structure Tables (τ : Type) where
  schema : Std.ExtTreeMap String TableSchema
  btrees : Std.ExtTreeMap String τ

namespace Tables

variable {τ : Type}

/-- `Schema::new` and no handle. -/
def empty : Tables τ := ⟨∅, ∅⟩

end Tables

section

variable {m : Type → Type} [Monad m] [MonadExceptOf Fault m] {τ : Type}

/-- `return Err(e)`. -/
def fail {α : Type} (e : VelociError) : m α := throw (.error e)

/-- `if c { return Err(e) }`. -/
def errIf (c : Prop) [Decidable c] (e : VelociError) : m Unit := if c then fail e else pure ()

/-- A pure computation as a step. -/
def ofResult {α : Type} : Except Fault α → m α
  | .ok a => pure a
  | .error e => throw e

/-- `Schema::get_table`. -/
def getTable (schema : Std.ExtTreeMap String TableSchema) (name : String) : m TableSchema :=
  match schema[name]? with
  | some table => pure table
  | none => fail (.notFound s!"Table '{name}' not found")

/-- `Schema::create_table`. -/
def createTable (schema : Std.ExtTreeMap String TableSchema) (table : TableSchema) :
    m (Std.ExtTreeMap String TableSchema) := do
  errIf (table.name ∈ schema) (.constraintViolation s!"Table '{table.name}' already exists")
  return schema.insert table.name table

/-- `btrees.get(table)`. -/
def getTree (db : Tables τ) (table : String) : m τ :=
  match db.btrees[table]? with
  | some tree => pure tree
  | none => fail (.notFound s!"Table '{table}' not initialized")

variable (ext : Externals) (trees : TreeOps m τ)

/-- The key in a condition `<pk> = <integer>`. -/
def pkCondition (pk : String) (clause : WhereClause) : Option Int64 :=
  clause.conditions.findSome? fun c =>
    match c.operator, c.value with
    | .equal, .integer key => if c.column = pk then some key else none
    | _, _ => none

/-- `candidate_rows`. -/
def candidateRows (tree : τ) (clause : Option WhereClause) (table : TableSchema) :
    m (List (Int64 × Row)) :=
  let pkName := (table.columns.find? Column.primaryKey).map Column.name
  match clause.bind fun clause => pkName.bind fun pk => pkCondition pk clause with
  | some key => do
      let found ← trees.search tree key
      return (found.map fun row => (key, row)).toList
  | none => trees.scan tree

/-- `unique_columns`. -/
def uniqueColumns (table : TableSchema) : List Nat :=
  (List.range table.columns.length).filter fun i =>
    match table.columns[i]? with
    | some c => c.unique && !c.primaryKey
    | none => false

/-- `unique_violation`. -/
def uniqueViolation (table : TableSchema) (i : Nat) (value : Value) : VelociError :=
  let name := (table.columns[i]?.map Column.name).getD ""
  .constraintViolation
    s!"UNIQUE constraint failed: {table.name}.{name} (duplicate value {ext.display value})"

/-- The first UNIQUE column in which `existing` holds a value of `row`. -/
def findDuplicate (cols : List Nat) (existing row : Row) : Option (Nat × Value) :=
  cols.findSome? fun i =>
    match existing.values[i]?, row.values[i]? with
    | some v, some w =>
        if v ≠ .null ∧ compareValues ext v w = .eq then some (i, v) else none
    | _, _ => none

/-- `check_insert_unique`. -/
def checkInsertUnique (table : TableSchema) (tree : τ) (row : Row) : m Unit := do
  let cols := (uniqueColumns table).filter fun i =>
    row.values[i]? ≠ none ∧ row.values[i]? ≠ some .null
  if cols = [] then return
  else
    let rows ← trees.scan tree
    match rows.findSome? fun e => findDuplicate ext cols e.2 row with
    | some (i, v) => fail (uniqueViolation ext table i v)
    | none => return

/-- The first of two neighbours with the same value. -/
def adjacentDuplicate : List Value → Option Value
  | v :: w :: rest =>
      if compareValues ext v w = .eq then some v else adjacentDuplicate (w :: rest)
  | _ => none

/-- `check_unique`. -/
def checkUnique (table : TableSchema) (rows : List Row) : List Nat → m Unit
  | [] => pure ()
  | i :: rest =>
      let values := (rows.filterMap fun r => r.values[i]?).filter (· ≠ .null)
      let sorted := values.mergeSort fun a b => compareValues ext a b ≠ .gt
      match adjacentDuplicate ext sorted with
      | some v => fail (uniqueViolation ext table i v)
      | none => checkUnique table rows rest

/-! ## DDL -/

/-- `execute_create_table`. -/
def executeCreateTable (name : String) (columns : List Column) (db : Tables τ) : m (Tables τ) := do
  let root ← trees.create
  let schema ← createTable db.schema ⟨name, columns⟩
  return ⟨schema, db.btrees.insert name root⟩

/-- `execute_drop_table`. -/
def executeDropTable (name : String) (db : Tables τ) : m (Tables τ) := do
  let _ ← getTable db.schema name
  return ⟨db.schema.erase name, db.btrees.erase name⟩

/-- Rewrite every row of a tree: delete it and insert the new row under its key. -/
def rewriteRows (f : Row → Row) : τ → List (Int64 × Row) → m τ
  | tree, [] => pure tree
  | tree, (key, row) :: rest => do
      let (_, tree) ← trees.delete tree key
      let tree ← trees.insert tree key (f row)
      rewriteRows f tree rest

/-- `execute_alter_table`. -/
def executeAlterTable (table : String) (action : AlterAction) (db : Tables τ) : m (Tables τ) :=
  match action with
  | .renameTable newName => do
      errIf (newName ∈ db.schema) (.constraintViolation s!"Table '{newName}' already exists")
      let ts ← getTable db.schema table
      let schema ← createTable (db.schema.erase table) { ts with name := newName }
      match db.btrees[table]? with
      | some tree => return ⟨schema, (db.btrees.erase table).insert newName tree⟩
      | none => return ⟨schema, db.btrees⟩
  | .renameColumn oldName newName => do
      let ts ← getTable db.schema table
      errIf (∃ c ∈ ts.columns, c.name = newName)
        (.constraintViolation s!"Column '{newName}' already exists in table '{table}'")
      match ts.position oldName with
      | none => fail (.notFound s!"Column '{oldName}' not found in table '{table}'")
      | some i =>
          let columns := ts.columns.modify i fun c => { c with name := newName }
          return { db with schema := db.schema.insert table { ts with columns := columns } }
  | .addColumn column => do
      let ts ← getTable db.schema table
      errIf (∃ c ∈ ts.columns, c.name = column.name)
        (.constraintViolation s!"Column '{column.name}' already exists in table '{table}'")
      let tree ← getTree db table
      let rows ← trees.scan tree
      let tree ← rewriteRows trees (fun row => ⟨row.values ++ [.null]⟩) tree rows
      return ⟨db.schema.insert table { ts with columns := ts.columns ++ [column] },
        db.btrees.insert table tree⟩
  | .dropColumn name => do
      let ts ← getTable db.schema table
      match ts.position name with
      | none => fail (.notFound s!"Column '{name}' not found in table '{table}'")
      | some i =>
          errIf (ts.columns[i]?.any Column.primaryKey)
            (.constraintViolation "Cannot drop the primary key column")
          let tree ← getTree db table
          let rows ← trees.scan tree
          let tree ← rewriteRows trees (fun row => ⟨row.values.eraseIdx i⟩) tree rows
          return ⟨db.schema.insert table { ts with columns := ts.columns.eraseIdx i },
            db.btrees.insert table tree⟩

/-! ## INSERT -/

/-- NOT NULL and the vector dimension of one value of an INSERT. -/
def checkValue (table : TableSchema) (name : String) (value : Value) : Except Fault Unit :=
  match table.columns.find? fun c => c.name == name with
  | none => .ok ()
  | some col =>
      if col.notNull ∧ value = .null then
        .error (.error (.constraintViolation s!"Column '{name}' cannot be NULL"))
      else
        match col.dataType, value with
        | .vector dim, .vector v =>
            if v.length = dim.toNat then .ok ()
            else .error (.error (.constraintViolation
              s!"Column '{name}' expects a vector of dimension {dim}, got {v.length}"))
        | .vector _, .null => .ok ()
        | .vector dim, other =>
            .error (.error (.typeMismatch s!"Vector({dim})" (ext.debug other)))
        | _, _ => .ok ()

/-- The checks on all values, in order. -/
def checkValues (table : TableSchema) : List (String × Value) → Except Fault Unit
  | [] => .ok ()
  | (name, value) :: rest => do
      checkValue ext table name value
      checkValues table rest

/-- Put the named values into a row; a name without a column is skipped. -/
def fillRow (table : TableSchema) (row : List Value) : List (String × Value) → List Value
  | [] => row
  | (name, value) :: rest =>
      match table.position name with
      | some i => fillRow table (row.set i value) rest
      | none => fillRow table row rest

/-- `execute_insert`. -/
def executeInsert (table : String) (columns : Option (List String)) (values : List Value)
    (db : Tables τ) : m (Tables τ × List StagedChange) := do
  let ts ← getTable db.schema table
  let columnNames := columns.getD (ts.columns.map Column.name)
  errIf (columnNames.length ≠ values.length)
    (.constraintViolation "Column count doesn't match value count")
  match ts.columns.find? Column.primaryKey with
  | none => fail (.constraintViolation "No primary key defined")
  | some pk =>
      match (columnNames.zip values).find? fun e => e.1 == pk.name with
      | none => fail (.constraintViolation "Primary key value not provided")
      | some e =>
          let key ← ofResult ((e.2.asInteger ext).mapError .error)
          ofResult (checkValues ext ts (columnNames.zip values))
          let row : Row := ⟨fillRow ts (List.replicate ts.columns.length .null)
            (columnNames.zip values)⟩
          let tree ← getTree db table
          let found ← trees.search tree key
          errIf found.isSome
            (.constraintViolation s!"Primary key {key} already exists in table '{table}'")
          checkInsertUnique ext trees ts tree row
          let tree ← trees.insert tree key row
          return ({ db with btrees := db.btrees.insert table tree },
            [⟨table, .insert, key, none, some row⟩])

/-! ## UPDATE and DELETE -/

/-- The assignments applied to one row: its new key, whether the key was assigned, and
its new values. -/
def applyAssignments (table : TableSchema) (pkIndex : Nat) (key : Int64) (assigned : Bool)
    (row : Row) : List (String × Value) → Except Fault (Int64 × Bool × Row)
  | [] => .ok (key, assigned, row)
  | (name, value) :: rest =>
      match table.position name with
      | none => applyAssignments table pkIndex key assigned row rest
      | some i => do
          errIf (table.columns[i]?.any Column.notNull ∧ value = .null)
            (.constraintViolation s!"Column '{name}' cannot be NULL")
          let _ ← row.index i
          let row : Row := ⟨row.values.set i value⟩
          if i = pkIndex then
            let key ← (value.asInteger ext).mapError .error
            applyAssignments table pkIndex key true row rest
          else applyAssignments table pkIndex key assigned row rest

/-- One row of an UPDATE: its key, its new key, the row and the new row. -/
structure RowUpdate where
  key : Int64
  newKey : Int64
  row : Row
  updated : Row

/-- A key that an UPDATE assigns must be free. -/
def checkNewKey (name : String) (tree : τ) (key newKey : Int64) (assigned : Bool) : m Unit :=
  if assigned ∧ newKey ≠ key then do
    let found ← trees.search tree newKey
    errIf found.isSome
      (.constraintViolation s!"Primary key {newKey} already exists in table '{name}'")
  else pure ()

/-- Compute every updated row; nothing is changed yet. -/
def computeUpdates (name : String) (table : TableSchema) (tree : τ) (pkIndex : Nat)
    (assignments : List (String × Value)) : List (Int64 × Row) → m (List RowUpdate)
  | [] => pure []
  | (key, row) :: rest => do
      let (newKey, assigned, updated) ←
        ofResult (applyAssignments ext table pkIndex key false row assignments)
      checkNewKey trees name tree key newKey assigned
      return ⟨key, newKey, row, updated⟩ ::
        (← computeUpdates name table tree pkIndex assignments rest)

/-- UNIQUE against the final state of the table. -/
def checkUpdateUnique (table : TableSchema) (tree : τ) (assignments : List (String × Value))
    (updates : List RowUpdate) : m Unit := do
  let touched := (uniqueColumns table).filter fun i =>
    match table.columns[i]? with
    | some c => assignments.any fun a => a.1 == c.name
    | none => false
  if touched = [] ∨ updates.isEmpty then return
  else
    let rows ← trees.scan tree
    let untouched := rows.filter fun e => !(updates.any fun u => u.key == e.1)
    checkUnique ext table (untouched.map Prod.snd ++ updates.map RowUpdate.updated) touched

/-- Delete each old row and insert the new one. -/
def applyUpdates : τ → List RowUpdate → m τ
  | tree, [] => pure tree
  | tree, u :: rest => do
      let (_, tree) ← trees.delete tree u.key
      let tree ← trees.insert tree u.newKey u.updated
      applyUpdates tree rest

/-- `execute_update`. -/
def executeUpdate (table : String) (assignments : List (String × Value))
    (clause : Option WhereClause) (db : Tables τ) : m (Tables τ × List StagedChange) := do
  let ts ← getTable db.schema table
  let tree ← getTree db table
  let candidates ← candidateRows trees tree clause ts
  let rows ← ofResult (filterRows ext ts clause candidates)
  match ts.pkIndex with
  | none => fail (.constraintViolation "No primary key defined")
  | some pkIndex =>
      let updates ← computeUpdates ext trees table ts tree pkIndex assignments rows
      checkUpdateUnique ext trees ts tree assignments updates
      let tree ← applyUpdates trees tree updates
      return ({ db with btrees := db.btrees.insert table tree },
        updates.map fun u => ⟨table, .update, u.key, some u.row, some u.updated⟩)

/-- Delete rows by key. -/
def deleteRows : τ → List (Int64 × Row) → m τ
  | tree, [] => pure tree
  | tree, e :: rest => do
      let (_, tree) ← trees.delete tree e.1
      deleteRows tree rest

/-- `execute_delete`. -/
def executeDelete (table : String) (clause : Option WhereClause) (db : Tables τ) :
    m (Tables τ × List StagedChange) := do
  let ts ← getTable db.schema table
  let tree ← getTree db table
  let candidates ← candidateRows trees tree clause ts
  let rows ← ofResult (filterRows ext ts clause candidates)
  let tree ← deleteRows trees tree rows
  return ({ db with btrees := db.btrees.insert table tree },
    rows.map fun e => ⟨table, .delete, e.1, some e.2, none⟩)

/-- `execute_statement`, and the changes it stages. -/
def executeStatement (db : Tables τ) : Statement → m (Tables τ × List StagedChange)
  | .createTable name columns => return (← executeCreateTable trees name columns db, [])
  | .dropTable name => return (← executeDropTable name db, [])
  | .alterTable table action => return (← executeAlterTable trees table action db, [])
  | .insert table columns values => executeInsert ext trees table columns values db
  | .update table assignments clause => executeUpdate ext trees table assignments clause db
  | .delete table clause => executeDelete ext trees table clause db

end

end VelociDB
