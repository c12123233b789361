/-
# The database (`storage.rs`)

`Database` keeps the schema, the B-tree handles (a handle is a root page), the change log
and whether an explicit transaction is active.  Everything else is on pages, behind the
pager.  A method is a program over the calls it makes on the pager:

    PageOp      what a B-tree or `save_schema` does inside a write group
    PagerCall   page operations, and the calls that begin and end groups and savepoints

The B-trees stay a parameter (`TreeOps` with page programs): any reads, writes and
allocations, with any result.  A method hands back the database beside its result, since
what it has changed before an error stays changed.

The order in which `save_schema` meets the tables is that of a hash map (`KeyOrder`).
-/
import VelociDB.Cdc
import VelociDB.SchemaCodec

namespace VelociDB

open Bytes SchemaCodec

/-! ## Calls on the pager -/

/-- What happens to pages inside a write group. -/
inductive PageOp where
  | numPages
  | read (pageId : Nat)
  | write (pageId : Nat) (page : Page)
  | allocate

/-- What a page operation answers with on success. -/
@[reducible] def PageOp.Ans : PageOp → Type
  | .numPages | .allocate => Nat
  | .read _ => Page
  | .write .. => Unit

/-- The pager's methods as `Database` calls them. -/
inductive PagerCall where
  | page (op : PageOp)
  | inGroup
  | beginGroup
  | commitGroup
  | abortGroup
  | beginSavepoint
  | releaseSavepoint
  | rollbackToSavepoint
  | flush

/-- What a call answers with on success. -/
@[reducible] def PagerCall.Ans : PagerCall → Type
  | .page op => op.Ans
  | .inGroup => Bool
  | _ => Unit

/-- A program that works on pages. -/
abbrev PageProg (α : Type) := Prog PageOp PageOp.Ans Fault α

/-- A program that works on pages and groups. -/
abbrev DbProg (α : Type) := Prog PagerCall PagerCall.Ans Fault α

instance {Op : Type} {Ans : Op → Type} {ε : Type} : MonadExceptOf ε (Prog Op Ans ε) where
  throw := throw
  tryCatch := tryCatch

/-- A page operation. -/
def onPage (op : PageOp) : PageProg op.Ans := Prog.lift op

/-- A call. -/
def onPager (c : PagerCall) : DbProg c.Ans := Prog.lift c

/-- A page program among other calls. -/
def onPages {α : Type} : PageProg α → DbProg α
  | .ret a => .ret a
  | .fail e => .fail e
  | .call op k => .call (.page op) fun r => onPages (k r)

/-- An empty leaf, as `NodeHeader::new_leaf` serializes it. -/
def leafPage : Page := ⟨resize [1] pageSize, length_resize _ _⟩

/-- The root page `execute_create_table` makes. -/
def createRoot : PageProg Nat := do
  let root : Nat ← onPage .allocate
  onPage (.write root leafPage)
  return root

/-! ## The schema -/

/-- An iteration order of a hash map. -/
structure KeyOrder where
  order : List String → List String
  perm : ∀ names, (order names).Perm names

namespace Tables

/-- The tables `save_schema` writes, in the given order. -/
def entries (db : Tables Nat) (names : List String) : List TableEntry :=
  names.filterMap fun name => (db.schema[name]?).map fun table =>
    ⟨name, table.columns, (db.btrees[name]?).getD 0⟩

end Tables

/-- Allocate pages. -/
def allocatePages : Nat → PageProg Unit
  | 0 => return
  | n + 1 => do
      let _ ← onPage .allocate
      allocatePages n

/-- Write pages one after another. -/
def writePages : Nat → List Page → PageProg Unit
  | _, [] => return
  | pageId, page :: pages => do
      onPage (.write pageId page)
      writePages (pageId + 1) pages

/-- `save_schema`. -/
def saveSchema (keys : KeyOrder) (db : Tables Nat) : PageProg Unit := do
  let chain := chainPages (encode (db.entries (keys.order db.schema.keys)))
  let numPages : Nat ← onPage .numPages
  allocatePages (1 + chain.length - numPages)
  writePages 1 chain

/-- The loop of `load_schema` over the pages of the chain; `fuel` is the number of
pages. -/
def readChainFrom : Nat → Nat → PageProg Bytes
  | 0, _ => return []
  | fuel + 1, schemaPage => do
      let numPages : Nat ← onPage .numPages
      if numPages ≤ schemaPage then return []
      else
        let page : Page ← onPage (.read schemaPage)
        let chunkLen := leNat (page.data.take 4)
        let chunk := (page.data.drop 4).take chunkLen
        if chunkLen < usableSize then return chunk
        else return chunk ++ (← readChainFrom fuel (schemaPage + 1))

/-- All chunks of the chain. -/
def readSchemaPages : PageProg Bytes := do
  let numPages : Nat ← onPage .numPages
  readChainFrom numPages 1

/-- The fresh root for a table whose entry has none, in the active group or in a group of
its own. -/
def repairRoot : DbProg Nat := do
  let active : Bool ← onPager .inGroup
  if !active then onPager .beginGroup
  match ← Prog.attempt (onPages createRoot) with
  | .ok root => do
      if !active then onPager .commitGroup
      return root
  | .error e => do
      if !active then
        let _ ← Prog.attempt (onPager .abortGroup)
      throw e

/-- The loop of `load_schema` over the tables; what is loaded before an error stays. -/
def loadTables (data : Bytes) : Nat → Nat → Tables Nat → DbProg (Tables Nat × Except Fault Unit)
  | 0, _, db => return (db, .ok ())
  | n + 1, offset, db =>
      match readTable data offset with
      | .error e => return (db, .error (.error e))
      | .ok (entry, offset) => do
          match ← Prog.attempt (if entry.root = 0 then repairRoot else pure entry.root) with
          | .error e => return (db, .error e)
          | .ok root =>
              let btrees := db.btrees.insert entry.name root
              match (createTable db.schema ⟨entry.name, entry.columns⟩ : Except Fault _) with
              | .error e => return (⟨db.schema, btrees⟩, .error e)
              | .ok schema => loadTables data n offset ⟨schema, btrees⟩

/-- `load_schema`. -/
def loadSchema (db : Tables Nat) : DbProg (Tables Nat × Except Fault Unit) := do
  match ← Prog.attempt (onPages readSchemaPages) with
  | .error e => return (db, .error e)
  | .ok data =>
      if data.length < 4 then return (db, .ok ())
      else loadTables data (leNat (data.take 4)) 4 db

/-- `reload_schema`. -/
def reloadSchema : DbProg (Tables Nat × Except Fault Unit) := loadSchema .empty

/-! ## The methods -/

/-- `needs_schema_save`. -/
def Statement.needsSchemaSave : Statement → Bool
  | .createTable .. | .dropTable .. | .alterTable .. => true
  | _ => false

/-- `Database`; the transaction is `executor.active_transaction`. -/
structure Database where
  tables : Tables Nat
  inTransaction : Bool
  cdc : Cdc

namespace Database

/-- What a method ends with. -/
abbrev Outcome := Database × Except Fault Unit

variable (ext : Externals) (trees : TreeOps (fun α => PageProg α) Nat)

/-- The schema is saved after the statement. -/
def saves (stmt : Statement) (before after : Tables Nat) : Prop :=
  stmt.needsSchemaSave ∨ before.btrees.toList ≠ after.btrees.toList

instance (stmt : Statement) (before after : Tables Nat) : Decidable (saves stmt before after) :=
  inferInstanceAs (Decidable (_ ∨ _))

/-- The statement and the schema it leaves, in the group or the savepoint of the call. -/
def runStatement (keys : KeyOrder) (stmt : Statement) (db : Database) :
    PageProg (Tables Nat × List StagedChange) := do
  let (tables, changes) ← executeStatement ext trees db.tables stmt
  if saves stmt db.tables tables then saveSchema keys tables
  return (tables, changes)

/-- Undo the in-memory changes of a call that failed with `e`. -/
def reload (e : Fault) (db : Database) : DbProg Outcome := do
  let (tables, loaded) ← reloadSchema
  return ({ db with tables := tables }, loaded.bind fun _ => .error e)

/-- A statement runs under a savepoint inside a transaction, else in a group of its own. -/
def beginStatement (inTransaction : Bool) : DbProg Unit :=
  if inTransaction then onPager .beginSavepoint else onPager .beginGroup

/-- Undo the page writes of a failed statement. -/
def undoStatement (inTransaction : Bool) : DbProg Unit :=
  if inTransaction then onPager .rollbackToSavepoint else onPager .abortGroup

/-- `execute` of a statement. -/
def execute (keys : KeyOrder) (stmt : Statement) (db : Database) : DbProg Outcome := do
  let mark := db.cdc.stagedMark
  match ← Prog.attempt (beginStatement db.inTransaction) with
  | .error e => return (db, .error e)
  | .ok _ =>
      match ← Prog.attempt (onPages (runStatement ext trees keys stmt db)) with
      | .ok (tables, changes) =>
          let db : Database := { db with tables := tables, cdc := db.cdc.stageAll changes }
          if db.inTransaction then
            onPager .releaseSavepoint
            return (db, .ok ())
          else
            match ← Prog.attempt (onPager .commitGroup) with
            | .ok _ => return ({ db with cdc := db.cdc.publishStaged }, .ok ())
            | .error e => reload e { db with cdc := db.cdc.discardStagedFrom mark }
      | .error .panic => throw .panic
      | .error e =>
          match ← Prog.attempt (undoStatement db.inTransaction) with
          | .error e => return (db, .error e)
          | .ok _ => reload e { db with cdc := db.cdc.discardStagedFrom mark }

/-- `begin`. -/
def begin (db : Database) : DbProg Outcome := do
  if db.inTransaction then
    return (db, .error (.error (.transactionError "Transaction already in progress")))
  else
    match ← Prog.attempt (onPager .beginGroup) with
    | .error e => return (db, .error e)
    | .ok _ => return ({ db with inTransaction := true }, .ok ())

/-- `commit`. -/
def commit (db : Database) : DbProg Outcome := do
  if !db.inTransaction then
    return (db, .error (.error (.transactionError "No active transaction to commit")))
  else
    match ← Prog.attempt (onPager .commitGroup) with
    | .error e => reload e { db with inTransaction := false, cdc := db.cdc.discardStagedFrom 0 }
    | .ok _ => return ({ db with inTransaction := false, cdc := db.cdc.publishStaged }, .ok ())

/-- `rollback`.  When the reload fails the transaction stays active. -/
def rollback (db : Database) : DbProg Outcome := do
  if !db.inTransaction then
    return (db, .error (.error (.transactionError "No active transaction to rollback")))
  else
    match ← Prog.attempt (onPager .abortGroup) with
    | .error e => return (db, .error e)
    | .ok _ =>
        let (tables, loaded) ← reloadSchema
        let db : Database := { db with tables := tables, cdc := db.cdc.discardStagedFrom 0 }
        match loaded with
        | .error e => return (db, .error e)
        | .ok _ => return ({ db with inTransaction := false }, .ok ())

/-- `close`. -/
def close (db : Database) : DbProg Outcome := do
  match ← Prog.attempt (onPager .flush) with
  | .error e => return (db, .error e)
  | .ok _ => return (db, .ok ())

/-- The two pages of a new file. -/
def initialPages : DbProg Unit := do
  onPager .beginGroup
  match ← Prog.attempt (onPages (allocatePages 2)) with
  | .ok _ => onPager .commitGroup
  | .error e => do
      let _ ← Prog.attempt (onPager .abortGroup)
      throw e

/-- `Database::open`, once the pager is there: `initialize`. -/
def openDb : DbProg Database := do
  let numPages : Nat ← onPager (.page .numPages)
  if numPages = 0 then initialPages
  let (tables, loaded) ← loadSchema .empty
  match loaded with
  | .error e => throw e
  | .ok _ => return ⟨tables, false, .withCapacity 65536⟩

end Database

end VelociDB
