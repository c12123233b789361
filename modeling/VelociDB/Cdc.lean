/-
# Change data capture (`cdc.rs`)

The executor stages a change for every row it touches; `Database` publishes what is staged
when the write group commits and drops it when a statement or a transaction is undone.
The log is a list of changes that can be replayed: `Contents.replay` applies them to the
rows of the tables, each change finding the row it replaces and not the row it adds.

`CdcState.Step` is what `Database::execute`, `begin`, `commit` and `rollback` do to the
tables and the log.  A statement may fail anywhere (in its body, in `save_schema`, in
`commit_group`), after having staged anything.
-/
import VelociDB.TableInv

namespace VelociDB

open Multimap

/-- `ChangeEvent`. -/
structure ChangeEvent where
  seq : Nat
  change : StagedChange
  deriving DecidableEq

/-- `CdcManager`. -/
structure Cdc where
  enabled : Bool
  nextSeq : Nat
  capacity : Nat
  log : List ChangeEvent
  staged : List StagedChange

namespace Cdc

/-- `CdcManager::with_capacity`. -/
def withCapacity (capacity : Nat) : Cdc := ⟨false, 1, capacity, [], []⟩

/-- `enable`. -/
def enable (cdc : Cdc) : Cdc := { cdc with enabled := true }

/-- `record`. -/
def record (cdc : Cdc) (c : StagedChange) : Cdc :=
  if cdc.enabled then
    let log := if cdc.capacity ≤ cdc.log.length then cdc.log.tail else cdc.log
    { cdc with
      nextSeq := (cdc.nextSeq + 1) % u64Size
      log := log ++ [⟨cdc.nextSeq, c⟩] }
  else cdc

/-- `stage`. -/
def stage (cdc : Cdc) (c : StagedChange) : Cdc :=
  if cdc.enabled then { cdc with staged := cdc.staged ++ [c] } else cdc

/-- `staged_mark`. -/
def stagedMark (cdc : Cdc) : Nat := cdc.staged.length

/-- `discard_staged_from`. -/
def discardStagedFrom (cdc : Cdc) (mark : Nat) : Cdc :=
  { cdc with staged := cdc.staged.take mark }

/-- `publish_staged`. -/
def publishStaged (cdc : Cdc) : Cdc := cdc.staged.foldl record { cdc with staged := [] }

/-- `changes_since`. -/
def changesSince (cdc : Cdc) (since : Nat) : List ChangeEvent :=
  cdc.log.filter fun e => since < e.seq

/-- Stage a statement's changes. -/
def stageAll (cdc : Cdc) (changes : List StagedChange) : Cdc := changes.foldl stage cdc

end Cdc

/-! ## Replaying changes -/

/-- The rows of every table. -/
abbrev Contents := String → Multiset Row

namespace Contents

/-- One change: INSERT adds a row that is not there, DELETE removes one that is, UPDATE
puts a row that is not there in the place of one that is. -/
def apply (rows : Contents) (c : StagedChange) : Option Contents :=
  match c.op, c.before, c.after with
  | .insert, none, some after =>
      if after ∉ rows c.table then some (Function.update rows c.table (after ::ₘ rows c.table))
      else none
  | .delete, some before, none =>
      if before ∈ rows c.table then
        some (Function.update rows c.table ((rows c.table).erase before))
      else none
  | .update, some before, some after =>
      let others := (rows c.table).erase before
      if before ∈ rows c.table ∧ after ∉ others then
        some (Function.update rows c.table (after ::ₘ others))
      else none
  | _, _, _ => none

/-- A list of changes, in order. -/
def replay (rows : Contents) : List StagedChange → Option Contents
  | [] => some rows
  | c :: cs => (rows.apply c).bind fun rows => rows.replay cs

theorem replay_append (rows : Contents) (cs ds : List StagedChange) :
    rows.replay (cs ++ ds) = (rows.replay cs).bind fun rows => rows.replay ds := by
  induction cs generalizing rows with
  | nil => rfl
  | cons c cs ih =>
      rw [List.cons_append, replay, replay, Option.bind_assoc]
      exact congrArg _ (funext ih)

end Contents

/-- The rows in a tree. -/
def rowsOf (es : RowMap) : Multiset Row := (es.map Prod.snd : List Row)

/-- The rows of the tables. -/
def Tables.contents (db : Tables RowMap) : Contents := fun table =>
  rowsOf ((db.btrees[table]?).getD [])

/-! ## Statements and transactions -/

/-- The tables, the tables at BEGIN inside a transaction, and the change log. -/
structure CdcState where
  tables : Tables RowMap
  saved : Option (Tables RowMap)
  cdc : Cdc

namespace CdcState

/-- What the calls of a run are; a failed statement may have staged changes. -/
inductive Act where
  | statement (stmt : Statement)
  | failed (stmt : Statement) (staged : List StagedChange)
  | begin
  | commit
  | commitFailed
  | rollback
  | rejected

/-- What a call does.  `rejected` is a call that is refused before it does anything, such
as COMMIT outside a transaction. -/
inductive Step (ext : Externals) : CdcState → Act → CdcState → Prop
  | inTransaction {s : CdcState} {stmt : Statement} {tables : Tables RowMap}
      {changes : List StagedChange} : s.saved ≠ none →
      executeStatement ext multimaps s.tables stmt = .ok (tables, changes) →
      Step ext s (.statement stmt) ⟨tables, s.saved, s.cdc.stageAll changes⟩
  | autoCommit {s : CdcState} {stmt : Statement} {tables : Tables RowMap}
      {changes : List StagedChange} : s.saved = none →
      executeStatement ext multimaps s.tables stmt = .ok (tables, changes) →
      Step ext s (.statement stmt) ⟨tables, none, (s.cdc.stageAll changes).publishStaged⟩
  | failed {s : CdcState} {stmt : Statement} {staged : List StagedChange} :
      Step ext s (.failed stmt staged)
        { s with cdc := (s.cdc.stageAll staged).discardStagedFrom s.cdc.stagedMark }
  | begin {s : CdcState} : s.saved = none → Step ext s .begin { s with saved := some s.tables }
  | commit {s : CdcState} : s.saved ≠ none →
      Step ext s .commit ⟨s.tables, none, s.cdc.publishStaged⟩
  | commitFailed {s : CdcState} {tables : Tables RowMap} : s.saved = some tables →
      Step ext s .commitFailed ⟨tables, none, s.cdc.discardStagedFrom 0⟩
  | rollback {s : CdcState} {tables : Tables RowMap} : s.saved = some tables →
      Step ext s .rollback ⟨tables, none, s.cdc.discardStagedFrom 0⟩
  | rejected {s : CdcState} : Step ext s .rejected s

end CdcState

end VelociDB
