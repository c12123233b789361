/-
# Runs of the pager, with crashes and I/O errors

The system is the two files and, while the process lives, a pager.  A step is one
method run to its end, a power failure somewhere inside a method, or `Pager::new` on
the files a failure left, again run to its end or cut short:

    run op        op ends, with Ok or Err
    crash op      the machine stops inside op; each file keeps one of the contents
                  its state allows (`Lib.Disk`)
    open          Pager::new ends
    crashOpen     the machine stops inside Pager::new

The file operations of a method obey a relation `H`: `Disk.Sound` when nothing fails,
`Disk.Faulty` when any seek, write, sync or `set_len` may return an error.  Recovery
itself runs without errors.

Beside the code's state the system remembers what the results are about: what
`num_pages` and `read_page` answered after the last group that committed (`last`) and
when the pager was opened (`base`), the groups that committed since it was opened
(`acked`), those whose commit has failed since the last one that did not (`failed`), and
the one whose commit the crash cut short (`flying`).
-/
import VelociDB.PagerLogic
import VelociDB.Lib.Transition

namespace VelociDB

open Bytes

/-- What `num_pages` and `read_page` answer. -/
@[ext] structure Snapshot where
  numPages : Nat
  page : Nat → Except VelociError Page

namespace Snapshot

/-- `read_page` past the last page. -/
def outOfBounds (q : Nat) : VelociError := .notFound s!"Page {q} out of bounds"

/-- A database without pages. -/
def empty : Snapshot := ⟨0, fun q => .error (outOfBounds q)⟩

/-- The number of pages once page `w.1` has been written. -/
def pagesAfter (n : Nat) (ws : List (Nat × Bytes)) : Nat :=
  ws.foldl (fun n w => max n (w.1 + 1)) n

/-- A snapshot and one more group: the pages of the group, and its page count.  A page
the group leaps over exists from now on but cannot be read. -/
def plus (v : Snapshot) (m : PageMap) : Snapshot where
  numPages := pagesAfter v.numPages (Pager.sortedPages m)
  page q :=
    match m[q]? with
    | some page => .ok page
    | none =>
        if v.numPages ≤ q ∧ q < pagesAfter v.numPages (Pager.sortedPages m) then
          .error Disk.unexpectedEof
        else v.page q

theorem plus_page_some {v : Snapshot} {m : PageMap} {q : Nat} {page : Page}
    (h : m[q]? = some page) : (v.plus m).page q = .ok page := by
  simp only [plus, h]

theorem plus_page_none {v : Snapshot} {m : PageMap} {q : Nat} (h : m[q]? = none) :
    (v.plus m).page q = if v.numPages ≤ q ∧ q < (v.plus m).numPages then
      .error Disk.unexpectedEof else v.page q := by
  simp only [plus, h]
  rfl

/-- `v` was found where `v₀` was expected: the same number of pages and the same answer
for each, except that a page below the end which was never written, and could not be
read, may now read as zeros. -/
def Recovered (v₀ v : Snapshot) : Prop :=
  v.numPages = v₀.numPages ∧
    ∀ q, v.page q = v₀.page q ∨
      (q < v₀.numPages ∧ v₀.page q = .error Disk.unexpectedEof ∧ v.page q = .ok Page.new)

end Snapshot

/-- What the pager answers in the given state of the files. -/
def Pager.snapshot (p : Pager) (d : Disk) : Snapshot :=
  ⟨p.numPages, fun q => ((Pager.readPage q).exec p d).1⟩

/-- The operations a run is made of. -/
inductive PagerOp where
  | beginGroup
  | writePage (pageId : Nat) (page : Page)
  | allocatePage
  | readPage (pageId : Nat)
  | beginSavepoint
  | releaseSavepoint
  | rollbackToSavepoint
  | commitGroup
  | abortGroup
  | checkpoint
  | flush

namespace PagerOp

/-- The method behind an operation; its result is kept only as `Ok` or `Err`. -/
def method (crc : Bytes → UInt32) : PagerOp → PagerM Unit
  | .beginGroup => do let _ ← Pager.beginGroup
  | .writePage pageId page => Pager.writePage crc pageId page
  | .allocatePage => do let _ ← Pager.allocatePage crc
  | .readPage pageId => do let _ ← Pager.readPage pageId
  | .beginSavepoint => Pager.beginSavepoint
  | .releaseSavepoint => Pager.releaseSavepoint
  | .rollbackToSavepoint => Pager.rollbackToSavepoint
  | .commitGroup => Pager.commitGroup crc
  | .abortGroup => Pager.abortGroup
  | .checkpoint => Pager.checkpoint
  | .flush => Pager.flush

/-- The page a `write_page` outside a group commits on its own. -/
def autoPage (p : Pager) : PagerOp → Option (Nat × Page)
  | .writePage pageId page => some (pageId, page)
  | .allocatePage => some (p.numPages, Page.new)
  | _ => none

/-- The group an operation hands to the WAL: its id and its pages. -/
def group (p : Pager) (op : PagerOp) : Option (Nat × PageMap) :=
  match p.activeGroup, op with
  | some id, .commitGroup => if p.pending.isEmpty then none else some (id, p.pending)
  | some _, _ => none
  | none, op => (op.autoPage p).map fun w => (p.wal.nextGroupId, p.pending.insert w.1 w.2)

end PagerOp

/-- The pages of a group in WAL order. -/
def walGroup (g : Nat × PageMap) : CommittedGroup := ⟨g.1, Pager.sortedPages g.2⟩

/-- The files, the pager, and what the results remember. -/
structure PagerSys where
  disk : Disk
  pager : Option Pager
  last : Snapshot
  base : Snapshot
  acked : List (Nat × PageMap)
  failed : List (Nat × PageMap)
  flying : Option (Nat × PageMap)

namespace PagerSys

/-- A new database file, not opened yet. -/
def init : PagerSys where
  disk := ⟨.stable [], .stable []⟩
  pager := none
  last := .empty
  base := .empty
  acked := []
  failed := []
  flying := none

/-- The steps of the system. -/
inductive Act where
  | run (op : PagerOp)
  | crash (op : PagerOp)
  | openPager (order : Nat → Nat)
  | crashOpen (order : Nat → Nat)

/-- The state after an operation that handed `g` to the WAL and answered `r`. -/
def ended (s : PagerSys) (g : Option (Nat × PageMap)) (r : Except VelociError Unit) (p : Pager)
    (d : Disk) : PagerSys :=
  match g, r with
  | none, _ => { s with disk := d, pager := some p }
  | some g, .ok _ =>
      { s with
        disk := d
        pager := some p
        last := p.snapshot d
        acked := s.acked ++ [g]
        failed := [] }
  | some g, .error _ => { s with disk := d, pager := some p, failed := g :: s.failed }

/-- The state after a `Pager::new` that answered `r`. -/
def opened (s : PagerSys) (r : Except VelociError Pager) (d : Disk) : PagerSys :=
  match r with
  | .ok p =>
      { s with
        disk := d
        pager := some p
        last := p.snapshot d
        base := p.snapshot d
        acked := []
        failed := []
        flying := none }
  | .error _ => { s with disk := d }

/-- What the groups committed since the pager was opened add up to. -/
def promised (s : PagerSys) : Snapshot := s.acked.foldl (fun v g => v.plus g.2) s.base

variable (H : (op : DiskOp) → Disk → Except VelociError op.Ans → Disk → Prop)
  (crc : Bytes → UInt32)

/-- One step. -/
inductive Step : PagerSys → Act → PagerSys → Prop
  | run {s : PagerSys} {p p' : Pager} {op : PagerOp} {r : Except VelociError Unit} {d' : Disk} :
      s.pager = some p → Prog.Exec H (op.method crc p) s.disk (.ok (r, p')) d' →
      Step s (.run op) (s.ended (op.group p) r p' d')
  | crash {s : PagerSys} {p : Pager} {op : PagerOp} {d' d'' : Disk} :
      s.pager = some p → Prog.Stops H (op.method crc p) s.disk d' → Disk.Crashed d' d'' →
      Step s (.crash op) { s with disk := d'', pager := none, flying := op.group p }
  | openPager {s : PagerSys} {order : Nat → Nat} {r : Except VelociError Pager} {d' : Disk} :
      s.pager = none → Prog.Exec Disk.Sound (Pager.new crc order) s.disk (.ok r) d' →
      Step s (.openPager order) (s.opened r d')
  | crashOpen {s : PagerSys} {order : Nat → Nat} {d' d'' : Disk} :
      s.pager = none → Prog.Stops Disk.Sound (Pager.new crc order) s.disk d' →
      Disk.Crashed d' d'' → Step s (.crashOpen order) { s with disk := d'' }

/-- Page ids whose byte offset fits a file offset (`i64`). -/
def maxPages : Nat := 2 ^ 51

/-- The operation of a step writes no page at or past `maxPages`. -/
def InRange (s : PagerSys) : Act → Prop
  | .run op | .crash op => ∀ p w, s.pager = some p → op.autoPage p = some w → w.1 < maxPages
  | _ => True

/-- When the step appends a group, the WAL file ends where the pager believes it does. -/
def InStep (s : PagerSys) : Act → Prop
  | .run op | .crash op => ∀ p, s.pager = some p → op.group p ≠ none →
      s.disk.wal.now.length = p.wal.len
  | _ => True

/-! ## Concrete runs

A run against a deterministic file system is a value that can be computed. -/

section Concrete

variable (h : (op : DiskOp) → Disk → Except VelociError op.Ans × Disk)

/-- The state after an operation. -/
def ran (op : PagerOp) (s : PagerSys) : PagerSys :=
  match s.pager with
  | none => s
  | some p =>
      match (op.method crc p).run h s.disk with
      | (.ok (r, p'), d') => s.ended (op.group p) r p' d'
      | _ => s

/-- The state after a crash between two operations that loses nothing. -/
def crashed (s : PagerSys) : PagerSys :=
  { s with disk := s.disk.settled, pager := none, flying := none }

/-- The state after a `Pager::new`. -/
def reopened (s : PagerSys) : PagerSys :=
  match (Pager.new crc fun _ => 0).run Disk.perform s.disk with
  | (.ok r, d') => s.opened r d'
  | _ => s

/-- The operation runs to an end. -/
def canRun (op : PagerOp) (s : PagerSys) : Bool :=
  match s.pager with
  | none => false
  | some p => ((op.method crc p).run h s.disk).1.isOk

variable {H crc h}

theorem ran_disk {s : PagerSys} {op : PagerOp} {p p' : Pager} {r : Except VelociError Unit}
    {d' : Disk} (hp : s.pager = some p)
    (hx : (op.method crc p).run h s.disk = (.ok (r, p'), d')) :
    ran crc h op s = s.ended (op.group p) r p' d' := by
  simp only [ran, hp, hx]

theorem canRun_eq {s : PagerSys} {op : PagerOp} (hok : canRun crc h op s = true) :
    ∃ p r p' d', s.pager = some p ∧ (op.method crc p).run h s.disk = (.ok (r, p'), d') := by
  unfold canRun at hok
  cases hp : s.pager with
  | none => simp [hp] at hok
  | some p =>
      simp only [hp] at hok
      rcases hx : (op.method crc p).run h s.disk with ⟨o, d'⟩
      rw [hx] at hok
      match o, hok with
      | .ok (r, p'), _ => exact ⟨p, r, p', d', rfl, hx⟩

theorem step_ran (hH : ∀ op d, H op d (h op d).1 (h op d).2) {s : PagerSys} {op : PagerOp}
    (hok : canRun crc h op s = true) : Step H crc s (.run op) (ran crc h op s) := by
  obtain ⟨p, r, p', d', hp, hx⟩ := canRun_eq hok
  rw [ran_disk hp hx]
  refine Step.run hp (Prog.Exec.mono ?_ (hx ▸ Prog.exec_run h (op.method crc p) s.disk))
  rintro op d r d' heq
  obtain ⟨rfl, rfl⟩ := Prod.mk.inj heq
  exact hH op d

theorem ended_disk (s : PagerSys) (g : Option (Nat × PageMap)) (r : Except VelociError Unit)
    (p : Pager) (d : Disk) : (s.ended g r p d).disk = d ∧ (s.ended g r p d).pager = some p := by
  cases g with
  | none => exact ⟨rfl, rfl⟩
  | some g => cases r <;> exact ⟨rfl, rfl⟩

theorem ran_consistent (hH : ∀ op d, Disk.Faulty op d (h op d).1 (h op d).2) {s : PagerSys}
    {op : PagerOp} (hok : canRun crc h op s = true) (hs : s.disk.Consistent) :
    (ran crc h op s).disk.Consistent ∧ (ran crc h op s).pager ≠ none := by
  obtain ⟨p, r, p', d', hp, hx⟩ := canRun_eq hok
  rw [ran_disk hp hx, (ended_disk _ _ _ _ _).1, (ended_disk _ _ _ _ _).2]
  refine ⟨?_, by simp⟩
  refine Disk.Consistent.exec ?_ (hx ▸ Prog.exec_run h (op.method crc p) s.disk) hs
  rintro op d r d' heq
  obtain ⟨rfl, rfl⟩ := Prod.mk.inj heq
  exact hH op d

theorem step_crashed {s : PagerSys} (hp : s.pager ≠ none) (hs : s.disk.Consistent) :
    Step H crc s (.crash .beginGroup) (crashed s) := by
  obtain ⟨p, hp⟩ := Option.ne_none_iff_exists'.mp hp
  have hnone : PagerOp.beginGroup.group p = none := by
    cases hact : p.activeGroup <;> simp [PagerOp.group, PagerOp.autoPage, hact]
  have hstep : Step H crc s (.crash .beginGroup) _ := Step.crash hp (.here _ _) hs.crashed
  rw [hnone] at hstep
  exact hstep

theorem step_reopened {s : PagerSys} (hp : s.pager = none)
    (hok : ((Pager.new crc fun _ => 0).run Disk.perform s.disk).1.isOk) :
    Step H crc s (.openPager fun _ => 0) (reopened crc s) := by
  have hexec := Prog.exec_run Disk.perform (Pager.new crc fun _ => 0) s.disk
  unfold reopened
  rcases hx : (Pager.new crc fun _ => 0).run Disk.perform s.disk with ⟨o, d'⟩
  rw [hx] at hok hexec
  match o, hok with
  | .ok r, _ => exact Step.openPager hp hexec

end Concrete

end PagerSys

end VelociDB
