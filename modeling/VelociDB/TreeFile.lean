/-
# The database over maps (`storage.rs`)

Each B-tree is taken as a map from key to row.  A file holds the maps under their roots, and
what `save_schema` wrote last; a write group and a savepoint each keep a copy of it.  The
methods of `Database` are here once more, with calls on such a file:

    tree                  a call on a B-tree; one that fails may leave any file behind
    saveSchema            the same
    loadSchema            what was saved, or a part of it and an error
    group, savepoint      as in `PageStore`

Handles are roots, so a statement that fails half-way has changed the trees of the handles
in memory; its group or savepoint brings them back.
-/
import VelociDB.TableInv
import VelociDB.PageStore

namespace VelociDB

open Multimap

/-- The calls on a B-tree. -/
inductive TreeCall where
  | create
  | search (root : Nat) (key : Int64)
  | scan (root : Nat)
  | insert (root : Nat) (key : Int64) (row : Row)
  | delete (root : Nat) (key : Int64)

/-- What they return. -/
abbrev TreeCall.Ans : TreeCall → Type
  | .create => Nat
  | .search _ _ => Option Row
  | .scan _ => List (Int64 × Row)
  | .insert _ _ _ => Nat
  | .delete _ _ => Bool × Nat

/-- The calls of a method. -/
inductive FileCall where
  | tree (op : TreeCall)
  | saveSchema (tables : Tables Nat)
  | loadSchema
  | beginGroup
  | commitGroup
  | abortGroup
  | beginSavepoint
  | releaseSavepoint
  | rollbackToSavepoint

/-- What they return. -/
abbrev FileCall.Ans : FileCall → Type
  | .tree op => op.Ans
  | .loadSchema => Tables Nat × Except Fault Unit
  | _ => Unit

/-- A program over these calls. -/
abbrev FileProg (α : Type) := Prog FileCall FileCall.Ans Fault α

/-- One call. -/
def onFile (c : FileCall) : FileProg c.Ans := Prog.lift c

/-- The B-trees of the executor. -/
def treeCalls : TreeOps (fun α => FileProg α) Nat where
  create := onFile (.tree .create)
  search root key := onFile (.tree (.search root key))
  scan root := onFile (.tree (.scan root))
  insert root key row := onFile (.tree (.insert root key row))
  delete root key := onFile (.tree (.delete root key))

/-! ## The file -/

/-- The maps under their roots, the first free root, and the schema as saved. -/
structure TreeFile where
  trees : Nat → RowMap
  free : Nat
  saved : Tables Nat

/-- A map put under a root. -/
def TreeFile.set (f : TreeFile) (root : Nat) (es : RowMap) : TreeFile :=
  { f with trees := Function.update f.trees root es }

/-- A call on a B-tree. -/
def TreeCall.perform : (op : TreeCall) → TreeFile → op.Ans × TreeFile
  | .create, f => (f.free, { f.set f.free [] with free := f.free + 1 })
  | .search root key, f => (Multimap.search (f.trees root) key, f)
  | .scan root, f => (f.trees root, f)
  | .insert root key row, f => (root, f.set root (replace (f.trees root) key row.stored))
  | .delete root key, f => ((decide (key ∈ keys (f.trees root)), root),
      f.set root (Multimap.delete (f.trees root) key))

/-- The tables with a name in `keep`. -/
def Tables.keep (db : Tables Nat) (keep : String → Bool) : Tables Nat :=
  ⟨db.schema.filter fun name _ => keep name, db.btrees.filter fun name _ => keep name⟩

/-- The file, as it was when the group began, and when the savepoint did. -/
structure FileStore where
  view : TreeFile
  group : Option TreeFile
  savepoint : Option TreeFile

namespace FileStore

/-- A call that does not fail by itself. -/
def perform : (c : FileCall) → FileStore → Except Fault c.Ans × FileStore
  | .tree op, s => (.ok (op.perform s.view).1, { s with view := (op.perform s.view).2 })
  | .saveSchema tables, s => (.ok (), { s with view := { s.view with saved := tables } })
  | .loadSchema, s => (.ok (s.view.saved, .ok ()), s)
  | .beginGroup, s =>
      match s.group with
      | none => (.ok (), { s with group := some s.view })
      | some _ => (.error (PageStore.refused "Write group already active"), s)
  | .commitGroup, s =>
      match s.group with
      | none => (.error (PageStore.refused "No active write group to commit"), s)
      | some _ => (.ok (), { s with group := none, savepoint := none })
  | .abortGroup, s =>
      match s.group with
      | none => (.error (PageStore.refused "No active write group to abort"), s)
      | some v => (.ok (), ⟨v, none, none⟩)
  | .beginSavepoint, s =>
      match s.group, s.savepoint with
      | none, _ => (.error (PageStore.refused "Savepoint requires an active write group"), s)
      | some _, some _ => (.error (PageStore.refused "Savepoint already active"), s)
      | some _, none => (.ok (), { s with savepoint := some s.view })
  | .releaseSavepoint, s => (.ok (), { s with savepoint := none })
  | .rollbackToSavepoint, s =>
      match s.savepoint with
      | none => (.error (PageStore.refused "No active savepoint"), s)
      | some v => (.ok (), { s with view := v, savepoint := none })

/-- A call that may fail. -/
inductive Faulty : (c : FileCall) → FileStore → Except Fault c.Ans → FileStore → Prop
  | done (c : FileCall) (s : FileStore) : Faulty c s (perform c s).1 (perform c s).2
  | tree (op : TreeCall) (s : FileStore) (e : VelociError) (v : TreeFile) :
      Faulty (.tree op) s (.error (.error e)) { s with view := v }
  | saveSchema (tables : Tables Nat) (s : FileStore) (e : VelociError) (v : TreeFile) :
      Faulty (.saveSchema tables) s (.error (.error e)) { s with view := v }
  | loadSchema (s : FileStore) (keep : String → Bool) (e : VelociError) :
      Faulty .loadSchema s (.ok (s.view.saved.keep keep, .error (.error e))) s
  | commitGroup (s : FileStore) (v : TreeFile) (e : VelociError) :
      s.group = some v → Faulty .commitGroup s (.error (.error e)) ⟨v, none, none⟩

/-- What holds at the end of a program. -/
abbrev Ends {α : Type} (p : FileProg α) (s : FileStore) (Q : Except Fault α → FileStore → Prop) :
    Prop := Prog.wp Faulty (fun _ => True) p s Q

end FileStore

/-! ## The methods -/

/-- `Database` without its log. -/
structure TreeDb where
  tables : Tables Nat
  inTransaction : Bool

namespace TreeDb

/-- What a method ends with. -/
abbrev Outcome := TreeDb × Except Fault Unit

variable (ext : Externals)

/-- The statement and the schema it leaves. -/
def runStatement (stmt : Statement) (db : TreeDb) : FileProg (Tables Nat) := do
  let (tables, _) ← executeStatement ext treeCalls db.tables stmt
  if Database.saves stmt db.tables tables then onFile (.saveSchema tables)
  return tables

/-- Undo the in-memory changes of a call that failed with `e`. -/
def reload (e : Fault) (db : TreeDb) : FileProg Outcome := do
  let (tables, loaded) ← onFile .loadSchema
  return ({ db with tables := tables }, loaded.bind fun _ => .error e)

/-- A statement runs under a savepoint inside a transaction, else in a group of its own. -/
def beginStatement (inTransaction : Bool) : FileProg Unit :=
  if inTransaction then onFile .beginSavepoint else onFile .beginGroup

/-- Undo what a failed statement has written. -/
def undoStatement (inTransaction : Bool) : FileProg Unit :=
  if inTransaction then onFile .rollbackToSavepoint else onFile .abortGroup

/-- `execute` of a statement. -/
def execute (stmt : Statement) (db : TreeDb) : FileProg Outcome := do
  match ← Prog.attempt (beginStatement db.inTransaction) with
  | .error e => return (db, .error e)
  | .ok _ =>
      match ← Prog.attempt (runStatement ext stmt db) with
      | .ok tables =>
          let db : TreeDb := { db with tables := tables }
          if db.inTransaction then
            onFile .releaseSavepoint
            return (db, .ok ())
          else
            match ← Prog.attempt (onFile .commitGroup) with
            | .ok _ => return (db, .ok ())
            | .error e => reload e db
      | .error .panic => throw .panic
      | .error e =>
          match ← Prog.attempt (undoStatement db.inTransaction) with
          | .error e => return (db, .error e)
          | .ok _ => reload e db

/-- `begin`. -/
def begin (db : TreeDb) : FileProg Outcome := do
  if db.inTransaction then
    return (db, .error (PageStore.refused "Transaction already in progress"))
  else
    match ← Prog.attempt (onFile .beginGroup) with
    | .error e => return (db, .error e)
    | .ok _ => return ({ db with inTransaction := true }, .ok ())

/-- `commit`. -/
def commit (db : TreeDb) : FileProg Outcome := do
  if !db.inTransaction then
    return (db, .error (PageStore.refused "No active transaction to commit"))
  else
    match ← Prog.attempt (onFile .commitGroup) with
    | .error e => reload e { db with inTransaction := false }
    | .ok _ => return ({ db with inTransaction := false }, .ok ())

/-- `rollback`.  When the reload fails the transaction stays active. -/
def rollback (db : TreeDb) : FileProg Outcome := do
  if !db.inTransaction then
    return (db, .error (PageStore.refused "No active transaction to rollback"))
  else
    match ← Prog.attempt (onFile .abortGroup) with
    | .error e => return (db, .error e)
    | .ok _ =>
        let (tables, loaded) ← onFile .loadSchema
        let db : TreeDb := { db with tables := tables }
        match loaded with
        | .error e => return (db, .error e)
        | .ok _ => return ({ db with inTransaction := false }, .ok ())

end TreeDb

end VelociDB
