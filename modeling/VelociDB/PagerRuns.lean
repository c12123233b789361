/-
# Writing a page outside a group, computed

A `write_page` outside a group is a group of its own.  What it does to the pager follows from
what `append_group` answers: the group becomes part of the log, or it is dropped and the error
is handed on.  Runs on fixed inputs are taken from here rather than from an evaluation that
counts every byte of the log.
-/
import VelociDB.PagerSys
import VelociDB.WalPrefix

namespace VelociDB

open Bytes Wal

variable {crc : Bytes → UInt32} {h : (op : DiskOp) → Disk → Except VelociError op.Ans × Disk}

namespace Pager

variable {p : Pager} {q : Nat} {page : Page} {d d' : Disk} {w : WalManager}

/-- The pager when the WAL has answered for its group. -/
def handed (q : Nat) (page : Page) (w : WalManager) (p : Pager) : Pager :=
  { bufferPage q page (begun p) with savepoint := none, wal := w }

/-- The group of one page. -/
def pageGroup (q : Nat) (page : Page) (p : Pager) : Nat × PageMap :=
  (p.wal.nextGroupId, p.pending.insert q page)

/-- What `commit_group` does once the group is in the log. -/
def settled : PagerM Unit := do
  modify logged
  if checkpointWalBytes ≤ (← get).wal.len then
    try checkpoint catch _ => pure ()

/-- `write_page` behind the answer of `append_group`. -/
theorem wp_handed {Q : Except VelociError Unit → Pager → Disk → Prop}
    {r : Except VelociError Unit} (hact : p.activeGroup = none)
    (happend : (p.wal.allocateGroupId.2.appendGroup crc (walGroup (pageGroup q page p))).run h d =
      (.ok (r, w), d'))
    (hQ : match r with
      | .ok _ => PagerM.wp (fun op d r d' => (r, d') = h op d) (fun _ => True) settled
          (handed q page w p) d' Q
      | .error e => Q (.error e) (aborted (handed q page w p)) d') :
    PagerM.wp (fun op d r d' => (r, d') = h op d) (fun _ => True) (writePage crc q page) p d Q := by
  have hne : ¬ (bufferPage q page (begun p)).pending.isEmpty := by
    show ¬ (p.pending.insert q page).isEmpty
    simp
  unfold writePage
  refine PagerM.wp_get ?_
  simp only [hact, Option.isNone_none, if_true]
  refine PagerM.wp_bind (PagerM.wp_ret (beginGroup_eq hact) trivial (PagerM.wp_modify ?_))
  unfold commitGroup
  refine PagerM.wp_get ?_
  have hgroup : (bufferPage q page (begun p)).activeGroup = some p.wal.nextGroupId := rfl
  simp only [hgroup]
  refine PagerM.wp_modify (PagerM.wp_get ?_)
  dsimp only
  rw [if_neg hne]
  have hlog : Prog.wp (fun op d r d' => (r, d') = h op d) (fun _ => True)
      (p.wal.allocateGroupId.2.appendGroup crc (walGroup (pageGroup q page p))) d
      fun o d₁ => o = .ok (r, w) ∧ d₁ = d' := by
    refine Prog.wp_run.mpr ?_
    rw [happend]
    exact ⟨rfl, rfl⟩
  refine PagerM.wp_bind (PagerM.wp_tryCatch (PagerM.wp_wal (Prog.wp_mono hlog ?_)))
  rintro _ _ - ⟨rfl, rfl⟩
  cases r with
  | ok u => exact hQ
  | error e =>
      exact PagerM.wp_bind (PagerM.wp_tryCatch (PagerM.wp_ret
        (abortGroup_eq (Option.some_ne_none p.wal.nextGroupId)) trivial
        (PagerM.wp_ret rfl trivial hQ)))

theorem run_of_wp {m : PagerM Unit} {r : Except VelociError Unit} {p' : Pager}
    (hwp : PagerM.wp (fun op d r d' => (r, d') = h op d) (fun _ => True) m p d
      fun r₁ p₁ d₁ => r₁ = r ∧ p₁ = p' ∧ d₁ = d') : (m p).run h d = (.ok (r, p'), d') := by
  obtain ⟨r₁, p₁, ho, rfl, rfl, rfl⟩ := PagerM.wp_exec hwp (Prog.exec_run h (m p) d)
  exact Prod.ext ho rfl

/-- The group is in the log, which is not due for a checkpoint. -/
theorem writePage_logged (hact : p.activeGroup = none)
    (happend : (p.wal.allocateGroupId.2.appendGroup crc (walGroup (pageGroup q page p))).run h d =
      (.ok (.ok (), w), d')) (hroom : w.len < checkpointWalBytes) :
    (writePage crc q page p).run h d =
      (.ok (.ok (), logged (handed q page w p)), d') := by
  refine run_of_wp (wp_handed hact happend ?_)
  have hnot : ¬ checkpointWalBytes ≤ (logged (handed q page w p)).wal.len :=
    Nat.not_le_of_lt hroom
  refine PagerM.wp_modify (PagerM.wp_get ?_)
  rw [if_neg hnot]
  exact PagerM.wp_ret rfl trivial ⟨rfl, rfl, rfl⟩

/-- The group is dropped. -/
theorem writePage_refused {e : VelociError} (hact : p.activeGroup = none)
    (happend : (p.wal.allocateGroupId.2.appendGroup crc (walGroup (pageGroup q page p))).run h d =
      (.ok (.error e, w), d')) :
    (writePage crc q page p).run h d =
      (.ok (.error e, aborted (handed q page w p)), d') :=
  run_of_wp (wp_handed hact happend ⟨rfl, rfl, rfl⟩)

theorem writes_pageGroup (hpending : p.pending = ∅) :
    (walGroup (pageGroup q page p)).writes = [(q, page.data)] := by
  rw [pageGroup, hpending]
  rfl

theorem valid_pageGroup (hpending : p.pending = ∅) (hid : p.wal.nextGroupId < 256 ^ 8)
    (hq : q < 256 ^ 8) : CommittedGroup.Valid (walGroup (pageGroup q page p)) := by
  refine ⟨hid, fun w hw => ?_⟩
  rw [writes_pageGroup hpending, List.mem_singleton] at hw
  subst hw
  exact ⟨hq, page.size⟩

theorem length_pageGroup (hpending : p.pending = ∅) :
    (groupBytes crc (walGroup (pageGroup q page p))).length = pageSize + 42 := by
  rw [groupBytes, groupRecords, writes_pageGroup hpending]
  simp [pageWriteRecord, page.size]
  omega

end Pager

/-- A write to the end of a log. -/
theorem length_written {f : DiskFile} {n m : Nat} {bs : Bytes} (hf : f.now.length = n)
    (hbs : bs.length = m) : (f.writeOrdered n bs).sync.now.length = n + m := by
  subst hf hbs
  rw [DiskFile.sync_now, DiskFile.writeOrdered_now, overwrite_append, List.length_append]

namespace PagerSys

open Pager

variable {s : PagerSys} {p p' : Pager} {q : Nat} {page : Page} {d' : Disk} {w : WalManager}

theorem ran_of_run {op : PagerOp} {r : Except VelociError Unit} (hp : s.pager = some p)
    (hrun : (op.method crc p).run h s.disk = (.ok (r, p'), d')) :
    canRun crc h op s = true ∧ ran crc h op s = s.ended (op.group p) r p' d' := by
  refine ⟨?_, ran_disk hp hrun⟩
  rw [canRun, hp]
  dsimp only
  rw [hrun]
  rfl

theorem group_writePage (hact : p.activeGroup = none) :
    (PagerOp.writePage q page).group p = some (pageGroup q page p) := by
  simp only [PagerOp.group, hact]
  rfl

/-- A page is refused, as `append_group` refuses its group. -/
theorem ran_refused {e : VelociError} (hp : s.pager = some p) (hact : p.activeGroup = none)
    (happend : (p.wal.allocateGroupId.2.appendGroup crc (walGroup (pageGroup q page p))).run h
      s.disk = (.ok (.error e, w), d')) :
    canRun crc h (.writePage q page) s = true ∧
      ran crc h (.writePage q page) s =
        s.ended (some (pageGroup q page p)) (.error e) (aborted (handed q page w p)) d' := by
  rw [← group_writePage hact]
  exact ran_of_run hp (writePage_refused hact happend)

/-- A page is written while nothing goes wrong. -/
theorem ran_logged (hp : s.pager = some p) (hact : p.activeGroup = none)
    (hpending : p.pending = ∅) (hid : p.wal.nextGroupId < 256 ^ 8) (hq : q < 256 ^ 8)
    (hroom : p.wal.len + (pageSize + 42) < checkpointWalBytes) :
    canRun crc Disk.perform (.writePage q page) s = true ∧
      ran crc Disk.perform (.writePage q page) s =
        s.ended (some (pageGroup q page p)) (.ok ())
          (logged (handed q page
            { p.wal.allocateGroupId.2 with len := p.wal.len + (pageSize + 42) } p))
          { s.disk with wal := (s.disk.wal.writeOrdered p.wal.len
              (groupBytes crc (walGroup (pageGroup q page p)))).sync } := by
  have hvalid : CommittedGroup.Valid (walGroup (pageGroup q page p)) :=
    valid_pageGroup hpending hid hq
  have happend := WalManager.appendGroup_run crc hvalid p.wal.allocateGroupId.2 s.disk
  rw [length_pageGroup hpending] at happend
  rw [← group_writePage hact]
  exact ran_of_run hp (writePage_logged hact happend hroom)

end PagerSys

end VelociDB
