/-
# ROLLBACK (`Database::begin`, `execute`, `rollback`)

Between BEGIN and ROLLBACK every statement runs under a savepoint of one write group.  No
call a statement makes there ends the group: `commit_group` and `abort_group` are called for
a group the statement has begun itself, and `begin_group` refuses while one is active.  So
whatever the statements do, and however each of them ends, the group can still be aborted,
and then everything a read shows is as it was at BEGIN.

    InGroup      a program that makes no call that ends an active group
    Statements   statements of a transaction, each with any body and any end
-/
import VelociDB.StatementUndo

namespace VelociDB

open Bytes Wal PagerSys Snapshot Pager SchemaCodec

/-! ## Inside a group -/

/-- Where a group is active, no call of the program ends it. -/
def InGroup {α : Type} : DbProg α → Prop
  | .ret _ => True
  | .fail _ => True
  | .call .inGroup k => InGroup (k (.ok true))
  | .call (.page _) k => ∀ r, InGroup (k r)
  | .call .beginSavepoint k => ∀ r, InGroup (k r)
  | .call .releaseSavepoint k => ∀ r, InGroup (k r)
  | .call .rollbackToSavepoint k => ∀ r, InGroup (k r)
  | .call _ _ => False

section InGroup

variable {α β : Type} {x : DbProg α} {f : α → DbProg β}

theorem inGroup_bind (hx : InGroup x) (hf : ∀ a, InGroup (f a)) : InGroup (x.bind f) := by
  induction x with
  | ret a => exact hf a
  | fail e => exact trivial
  | call c k ih =>
      cases c with
      | inGroup => exact ih _ hx
      | page op => exact fun r => ih r (hx r)
      | beginSavepoint => exact fun r => ih r (hx r)
      | releaseSavepoint => exact fun r => ih r (hx r)
      | rollbackToSavepoint => exact fun r => ih r (hx r)
      | beginGroup => exact hx
      | commitGroup => exact hx
      | abortGroup => exact hx
      | flush => exact hx

theorem inGroup_attempt (hx : InGroup x) : InGroup (Prog.attempt x) := by
  induction x with
  | ret a => exact trivial
  | fail e => exact trivial
  | call c k ih =>
      cases c with
      | inGroup => exact ih _ hx
      | page op => exact fun r => ih r (hx r)
      | beginSavepoint => exact fun r => ih r (hx r)
      | releaseSavepoint => exact fun r => ih r (hx r)
      | rollbackToSavepoint => exact fun r => ih r (hx r)
      | beginGroup => exact hx
      | commitGroup => exact hx
      | abortGroup => exact hx
      | flush => exact hx

theorem inGroup_onPages (body : PageProg α) : InGroup (onPages body) := by
  induction body with
  | ret a => exact trivial
  | fail e => exact trivial
  | call op k ih => exact fun r => ih r

theorem inGroup_lift {c : PagerCall}
    (h : c = .beginSavepoint ∨ c = .releaseSavepoint ∨ c = .rollbackToSavepoint) :
    InGroup (onPager c) := by
  rcases h with rfl | rfl | rfl <;> · intro r; cases r <;> exact trivial

/-- A root is repaired in the group that is active. -/
theorem inGroup_repairRoot : InGroup repairRoot := by
  show InGroup ((Prog.attempt (onPages createRoot)).bind _)
  refine inGroup_bind (inGroup_attempt (inGroup_onPages _)) fun o => ?_
  cases o with
  | ok root => exact trivial
  | error e => exact trivial

theorem inGroup_loadTables (data : Bytes) : ∀ (n offset : Nat) (db : Tables Nat),
    InGroup (loadTables data n offset db)
  | 0, _, _ => trivial
  | n + 1, offset, db => by
      rw [loadTables]
      cases readTable data offset with
      | error e => exact trivial
      | ok r =>
          obtain ⟨entry, offset⟩ := r
          have hroot : InGroup (if entry.root = 0 then repairRoot else pure entry.root) := by
            split
            · exact inGroup_repairRoot
            · exact trivial
          refine inGroup_bind (inGroup_attempt hroot) fun o => ?_
          cases o with
          | error e => exact trivial
          | ok root =>
              dsimp only
              cases (createTable db.schema ⟨entry.name, entry.columns⟩ : Except Fault _) with
              | error e => exact trivial
              | ok schema => exact inGroup_loadTables data n offset _

theorem inGroup_reloadSchema : InGroup reloadSchema := by
  refine inGroup_bind (inGroup_attempt (inGroup_onPages _)) fun o => ?_
  cases o with
  | error e => exact trivial
  | ok data =>
      dsimp only
      split
      · exact trivial
      · exact inGroup_loadTables _ _ _ _

end InGroup

/-! ## The group of the transaction -/

section Group

variable {crc : Bytes → UInt32} {p : Pager} {d : Disk} {s s' : Store}

/-- A call inside the group leaves it to be aborted. -/
theorem Undoable.beginSavepoint {r : Except Fault Unit} (h : Undoable false p d s)
    (hc : StoreStep crc .beginSavepoint s r s') : Undoable false p d s' := by
  obtain ⟨b, hinv⟩ := h.inv
  have heq := beginSavepoint_eq (p := s.1)
  rw [if_neg h.active] at heq
  split at heq
  · obtain ⟨-, rfl⟩ := hc.2.of_ret heq
    exact h
  · obtain ⟨-, rfl⟩ := hc.2.of_ret heq
    exact ⟨⟨b, hinv.beginSavepoint h.active⟩, h.disk, h.committed, h.active, h.undo⟩

theorem Undoable.releaseSavepoint {r : Except Fault Unit} (h : Undoable false p d s)
    (hc : StoreStep crc .releaseSavepoint s r s') : Undoable false p d s' := by
  obtain ⟨b, hinv⟩ := h.inv
  have heq : PagerCall.releaseSavepoint.method crc s.1 =
      .ret (.ok (), { s.1 with savepoint := none }) := rfl
  obtain ⟨-, rfl⟩ := hc.2.of_ret heq
  exact ⟨⟨b, hinv.endSavepoint⟩, h.disk, h.committed, h.active, h.undo⟩

theorem Undoable.rollbackToSavepoint {r : Except Fault Unit} (h : Undoable false p d s)
    (hc : StoreStep crc .rollbackToSavepoint s r s') : Undoable false p d s' := by
  obtain ⟨b, hinv⟩ := h.inv
  have heq := rollbackToSavepoint_eq (p := s.1)
  cases hsp : s.1.savepoint with
  | none =>
      rw [hsp] at heq
      obtain ⟨-, rfl⟩ := hc.2.of_ret heq
      exact h
  | some sp =>
      rw [hsp] at heq
      obtain ⟨-, rfl⟩ := hc.2.of_ret heq
      exact ⟨⟨b, hinv.rollback hsp⟩, h.disk, h.committed, h.active, h.undo⟩

/-- A program that does not end the group. -/
theorem ends_inGroup {α : Type} {x : DbProg α} (hx : InGroup x) (h : Undoable false p d s) :
    StoreEnds crc x s fun _ s' => Undoable false p d s' := by
  induction x generalizing s with
  | ret a => exact ⟨trivial, h⟩
  | fail e => exact ⟨trivial, h⟩
  | call c k ih =>
      refine ⟨trivial, fun r s₁ hc => ?_⟩
      cases c with
      | inGroup =>
          have heq : PagerCall.inGroup.method crc s.1 = .ret (.ok s.1.inGroup, s.1) := rfl
          obtain ⟨rfl, rfl⟩ := hc.2.of_ret heq
          have hin : s.1.inGroup = true := Option.isSome_iff_ne_none.mpr h.active
          rw [hin]
          exact ih _ hx h
      | page op => exact ih r (hx r) (h.page hc)
      | beginSavepoint => exact ih r (hx r) (h.beginSavepoint hc)
      | releaseSavepoint => exact ih r (hx r) (h.releaseSavepoint hc)
      | rollbackToSavepoint => exact ih r (hx r) (h.rollbackToSavepoint hc)
      | beginGroup => exact absurd hx id
      | commitGroup => exact absurd hx id
      | abortGroup => exact absurd hx id
      | flush => exact absurd hx id

end Group

namespace Database

variable {crc : Bytes → UInt32} {b : Nat} {p : Pager} {d : Disk} {s s' s₁ s₂ s₃ : Store}
  {db db' db₁ db₂ db₃ : Database} {body : PageProg BodyEnd}

theorem inGroup_reloadThen (ended : Ended) (db : Database) : InGroup (reloadThen ended db) := by
  refine inGroup_bind inGroup_reloadSchema fun r => ?_
  obtain ⟨tables, loaded⟩ := r
  cases loaded with
  | ok u => exact trivial
  | error e => exact trivial

/-- A statement of a transaction, whatever its body does. -/
theorem inGroup_executeBody (h : db.inTransaction = true) : InGroup (executeBody body db) := by
  unfold executeBody
  rw [h]
  refine inGroup_bind (inGroup_attempt (inGroup_lift (.inl rfl))) fun o => ?_
  cases o with
  | error e => exact trivial
  | ok u =>
  refine inGroup_bind (inGroup_onPages body) fun bodyEnd => ?_
  dsimp only
  cases bodyEnd.result with
  | ok u =>
      show InGroup ((onPager .releaseSavepoint).bind _)
      exact inGroup_bind (inGroup_lift (.inr (.inl rfl))) fun _ => trivial
  | error e =>
      refine inGroup_bind (inGroup_attempt (inGroup_lift (.inr (.inr rfl)))) fun o => ?_
      cases o with
      | error e => exact trivial
      | ok u => exact inGroup_reloadThen _ _

/-! ## What the statements keep in memory -/

/-- The transaction is still active, and all that was published before it is. -/
def SameSession (db db' : Database) : Prop :=
  db'.inTransaction = db.inTransaction ∧ db'.cdc.discardStagedFrom 0 = db.cdc.discardStagedFrom 0

theorem stageAll_unpublished (cdc : Cdc) (changes : List StagedChange) :
    (cdc.stageAll changes).discardStagedFrom 0 = cdc.discardStagedFrom 0 := by
  induction changes generalizing cdc with
  | nil => rfl
  | cons c changes ih =>
      rw [Cdc.stageAll, List.foldl_cons, ← Cdc.stageAll, ih, Cdc.stage]
      split <;> rfl

theorem always_reloaded (ended : Ended) (h : SameSession db db') :
    (reloadThen ended db').Always fun out => SameSession db out.1 := by
  refine Prog.always_bind (Prog.always_true _) fun r _ => ?_
  obtain ⟨tables, loaded⟩ := r
  cases loaded with
  | ok u => exact h
  | error e => exact h

theorem always_statement (h : db.inTransaction = true) :
    (executeBody body db).Always fun out => SameSession db out.1 := by
  refine Prog.always_bind (Prog.always_true _) fun o _ => ?_
  cases o with
  | error e => exact ⟨rfl, rfl⟩
  | ok u =>
  refine Prog.always_bind (Prog.always_true _) fun bodyEnd _ => ?_
  have hstaged : SameSession db
      { db with tables := bodyEnd.tables, cdc := db.cdc.stageAll bodyEnd.changes } :=
    ⟨rfl, stageAll_unpublished _ _⟩
  dsimp only
  cases bodyEnd.result with
  | ok u =>
      dsimp only
      rw [if_pos h]
      exact Prog.always_bind (Prog.always_true _) fun _ _ => hstaged
  | error e =>
      refine Prog.always_bind (Prog.always_true _) fun o _ => ?_
      cases o with
      | error e => exact hstaged
      | ok u =>
          refine always_reloaded _ ⟨rfl, ?_⟩
          show ((db.cdc.stageAll bodyEnd.changes).discardStagedFrom db.cdc.stagedMark).discardStagedFrom
            0 = _
          rw [Cdc.discard_staged]

/-! ## The transaction -/

/-- Statements one after the other, any file operation failing. -/
inductive Statements (crc : Bytes → UInt32) (db : Database) (s : Store) : Database → Store → Prop
  | none : Statements crc db s db s
  | statement {db' db'' : Database} {s' s'' : Store} {body : PageProg BodyEnd} {ended : Ended} :
      Statements crc db s db' s' →
      Prog.Exec (StoreStep crc) (executeBody body db') s' (.ok (db'', ended)) s'' →
      Statements crc db s db'' s''

/-- A value that a program returns. -/
theorem of_always {α : Type} {x : DbProg α} {P : α → Prop} {a : α} (h : x.Always P)
    (hexec : Prog.Exec (StoreStep crc) x s (.ok a) s') : P a :=
  Prog.wp_exec hexec (Prog.wp_of_always (Q := fun o _ => ∀ a, o = .ok a → P a) h
    (fun _ _ ha _ heq => Except.ok.inj heq ▸ ha) fun _ _ _ heq => nomatch heq) a rfl

theorem Statements.kept (h : Undoable false p d s) (htxn : db.inTransaction = true)
    (hrun : Statements crc db s db' s') : Undoable false p d s' ∧ SameSession db db' := by
  induction hrun with
  | none => exact ⟨h, rfl, rfl⟩
  | statement _ hexec ih =>
      obtain ⟨hundo, htxn', hcdc⟩ := ih
      have hactive := htxn'.trans htxn
      obtain ⟨htxn'', hcdc'⟩ := of_always (always_statement hactive) hexec
      exact ⟨Prog.wp_exec hexec (ends_inGroup (inGroup_executeBody hactive) hundo),
        htxn''.trans htxn', hcdc'.trans hcdc⟩

end Database

end VelociDB
