/-
# Durability of committed groups

After any run with crashes, `Pager::new` finds the state after the last group that was
committed, or that state and one group whose commit had begun.

    crash_atomic        without I/O errors that group is the one the crash cut short
    committed_survive   with I/O errors it may also be one whose commit failed, as long
                        as every append starts where the log file ends
    failed_stay_out     and it is not one that failed, if besides no append fails once
                        all of its bytes are written

Each condition is needed: behind each theorem stands a run that violates the result
without it.
-/
import VelociDB.CrashInv
import VelociDB.PagerRuns

namespace VelociDB

open Bytes Blocks Wal PagerSys Snapshot Pager

variable {H : (op : DiskOp) → Disk → Except VelociError op.Ans → Disk → Prop}
  {crc : Bytes → UInt32}

namespace PagerSys

theorem sysInv_sound {s : PagerSys}
    (hs : Transition.Reaches (Step Disk.Sound crc) InRange init s) :
    ∃ S suspects, SysInv Disk.Sound crc s S suspects :=
  Transition.Reaches.invariant (I := fun s => ∃ S suspects, SysInv Disk.Sound crc s S suspects)
    ⟨[], [], sysInv_init⟩
    (fun _ _ _ ⟨_, _, h⟩ hok hst =>
      sysInv_step within_sound h hok (Or.inl reliable_sound) hst) hs

theorem sysInv_faulty (hH : WithinFaults H) {s : PagerSys}
    (hs : Transition.Reaches (Step H crc) (fun s a => InRange s a ∧ InStep s a) init s) :
    ∃ S suspects, SysInv H crc s S suspects :=
  Transition.Reaches.invariant (I := fun s => ∃ S suspects, SysInv H crc s S suspects)
    ⟨[], [], sysInv_init⟩
    (fun _ _ _ ⟨_, _, h⟩ hok hst => sysInv_step hH h hok.1 (Or.inr hok.2) hst) hs

/-- Crash atomicity and durability without I/O errors: whatever `Pager` operations were
run and wherever the machine stopped, the next `Pager::new` that ends finds the state
after the last committed group, or that state and the group being committed at the
crash. -/
theorem crash_atomic {s : PagerSys}
    (hs : Transition.Reaches (Step Disk.Sound crc) InRange init s) (hdown : s.pager = none)
    {order : Nat → Nat} {r : Except VelociError Pager} {d' : Disk}
    (hx : Prog.Exec Disk.Sound (Pager.new crc order) s.disk (.ok r) d') :
    ∃ p, r = .ok p ∧ (Recovered s.last (p.snapshot d') ∨
      ∃ x, s.flying = some x ∧ Recovered (s.last.plus x.2) (p.snapshot d')) := by
  obtain ⟨S, suspects, h⟩ := sysInv_sound hs
  obtain ⟨p, hr, -, hrec⟩ := h.recovers hdown hx
  refine ⟨p, hr, (hrec _ h.last).imp id ?_⟩
  rintro ⟨x, hxm, hrecx⟩
  rw [h.short fun _ _ _ _ hs => hs.shortFaults, List.append_nil] at hxm
  exact ⟨x, Option.mem_toList.mp hxm, hrecx⟩

theorem inRange_open (s : PagerSys) (order : Nat → Nat) : InRange s (.openPager order) := trivial

/-- A new file, opened. -/
def started : PagerSys := reopened crc32 init

theorem started_step {H : (op : DiskOp) → Disk → Except VelociError op.Ans → Disk → Prop} :
    Step H crc32 init (.openPager fun _ => 0) started := step_reopened rfl (by with_unfolding_all decide)

theorem started_consistent : started.disk.Consistent := ⟨rfl, rfl⟩

/-- The pager on it. -/
def startedPager : Pager := fresh 0 ⟨1, 0⟩ fun _ => 0

theorem started_pager : started.pager = some startedPager := rfl

theorem started_disk : started.disk = ⟨.stable [], .stable []⟩ := rfl

/-- A group of one page behind another is no reason for a checkpoint. -/
theorem room_for_two : pageSize + 42 + (pageSize + 42) < checkpointWalBytes := by
  rw [pageSize_eq]
  decide

theorem room_for_one : 0 + (pageSize + 42) < checkpointWalBytes :=
  lt_of_le_of_lt (Nat.add_le_add_right (Nat.zero_le _) _) room_for_two

/-- `write_page(1, …)` on a new file, which leaps over page 0, and a crash after it. -/
def leapt : PagerSys := crashed (ran crc32 Disk.perform (.writePage 1 Page.new) started)

/-- The run, evaluated. -/
theorem leapt_runs : canRun crc32 Disk.perform (.writePage 1 Page.new) started = true ∧
    leapt.last.numPages = 2 ∧ (leapt.last.page 0).isOk = false := by
  have hran : _ ∧ ran crc32 Disk.perform (.writePage 1 Page.new) started = _ :=
    ran_logged started_pager rfl rfl (by decide) (by decide) room_for_one
  refine ⟨hran.1, ?_⟩
  rw [leapt, hran.2, started_disk]
  with_unfolding_all decide

theorem leapt_reaches : Transition.Reaches (Step Disk.Sound crc32) InRange init leapt := by
  obtain ⟨hrun, -⟩ := leapt_runs
  obtain ⟨hcons, hup⟩ := ran_consistent Disk.Faulty.done hrun started_consistent
  refine .tail (.tail (.tail .refl (inRange_open _ _) started_step) ?_
    (step_ran (fun _ _ => rfl) hrun)) ?_
    (step_crashed hup hcons)
  · rintro p w - hw
    obtain rfl := Option.some.inj hw
    show 1 < maxPages
    decide
  · rintro p w - hw
    cases hw

theorem crash_atomic_leapt : ∃ p d',
    Prog.Exec Disk.Sound (Pager.new crc32 fun _ => 0) leapt.disk (.ok (.ok p)) d' ∧
      (Recovered leapt.last (p.snapshot d') ∨
        ∃ x, leapt.flying = some x ∧ Recovered (leapt.last.plus x.2) (p.snapshot d')) := by
  obtain ⟨S, suspects, h⟩ := sysInv_sound leapt_reaches
  obtain ⟨p, d', hx⟩ := h.opens rfl fun _ => 0
  obtain ⟨p', hp', hrec⟩ := crash_atomic leapt_reaches rfl hx
  obtain rfl := Except.ok.inj hp'
  exact ⟨p, d', hx, hrec⟩

/-- The exception for unwritten pages is needed: page 0 of the leap could not be read
before the crash and reads as zeros after it. -/
theorem not_crash_exact : ¬ ∀ s : PagerSys,
    Transition.Reaches (Step Disk.Sound crc32) InRange init s → s.pager = none →
    ∀ (order : Nat → Nat) (r : Except VelociError Pager) (d' : Disk),
      Prog.Exec Disk.Sound (Pager.new crc32 order) s.disk (.ok r) d' →
      ∃ p, r = .ok p ∧ (p.snapshot d' = s.last ∨
        ∃ x, s.flying = some x ∧ p.snapshot d' = s.last.plus x.2) := by
  intro hall
  obtain ⟨S, suspects, h⟩ := sysInv_sound leapt_reaches
  obtain ⟨p, d', hx⟩ := h.opens rfl fun _ => 0
  obtain ⟨p', hp', hfull, -⟩ := h.recovers rfl hx
  obtain rfl := Except.ok.inj hp'
  obtain ⟨p', hp', heq | ⟨x, hfly, -⟩⟩ := hall leapt leapt_reaches rfl _ _ d' hx
  · obtain rfl := Except.ok.inj hp'
    have hpages : p.numPages = leapt.last.numPages := congrArg Snapshot.numPages heq
    obtain ⟨-, htwo, herr⟩ := leapt_runs
    obtain ⟨page, hok⟩ := hfull 0 (by omega)
    rw [heq] at hok
    rw [hok] at herr
    cases herr
  · cases hfly

/-- Durability under I/O errors: as long as every append starts where the log file
ends, `Pager::new` after a crash finds every group whose commit returned `Ok`, in
order, and at most one group more, whose commit was cut short or failed. -/
theorem committed_survive {s : PagerSys}
    (hs : Transition.Reaches (Step Disk.Faulty crc) (fun s a => InRange s a ∧ InStep s a) init s)
    (hdown : s.pager = none) {order : Nat → Nat} {r : Except VelociError Pager} {d' : Disk}
    (hx : Prog.Exec Disk.Sound (Pager.new crc order) s.disk (.ok r) d') :
    ∃ p, r = .ok p ∧ (Recovered s.promised (p.snapshot d') ∨
      ∃ x ∈ s.flying.toList ++ s.failed, Recovered (s.promised.plus x.2) (p.snapshot d')) := by
  obtain ⟨S, suspects, h⟩ := sysInv_faulty (fun _ _ _ _ h => h) hs
  obtain ⟨p, hr, -, hrec⟩ := h.recovers hdown hx
  refine ⟨p, hr, (hrec _ h.promised).imp id ?_⟩
  rintro ⟨x, hxm, hrecx⟩
  refine ⟨x, ?_, hrecx⟩
  rcases List.mem_append.mp hxm with hxm | hxm
  · exact List.mem_append_left _ hxm
  · exact List.mem_append_right _ (h.sub x hxm)

/-- A page that starts with the given byte. -/
def markedPage (b : UInt8) : Page :=
  ⟨b :: List.replicate (pageSize - 1) 0, by
    rw [List.length_cons, List.length_replicate, pageSize_eq]⟩

/-- Syncing the WAL fails and has no effect. -/
def failSync : (op : DiskOp) → Disk → Except VelociError op.Ans × Disk
  | .walSync, d => (.error (.io "sync"), d)
  | op, d => Disk.perform op d

/-- Seeking in the WAL fails. -/
def failSeek : (op : DiskOp) → Disk → Except VelociError op.Ans × Disk
  | .walSeek _, d => (.error (.io "seek"), d)
  | op, d => Disk.perform op d

theorem failSync_faulty (op : DiskOp) (d : Disk) :
    Disk.Faulty op d (failSync op d).1 (failSync op d).2 := by
  cases op with
  | walSync => exact .walSyncLost d "sync"
  | _ => exact .done _ d

theorem failSeek_faulty (op : DiskOp) (d : Disk) :
    Disk.Faulty op d (failSeek op d).1 (failSeek op d).2 := by
  cases op with
  | walSeek o => exact .walSeek o d "seek"
  | _ => exact .done _ d

/-- The WAL file ends where the pager believes it does. -/
def logInStep (s : PagerSys) : Bool :=
  match s.pager with
  | some p => s.disk.wal.now.length == p.wal.len
  | none => true

theorem inStep_of_log {s : PagerSys} (h : logInStep s = true) (a : Act) : InStep s a := by
  have key : ∀ p, s.pager = some p → s.disk.wal.now.length = p.wal.len := by
    intro p hp
    simpa [logInStep, hp] using h
  cases a with
  | run op => exact fun p hp _ => key p hp
  | crash op => exact fun p hp _ => key p hp
  | openPager order => trivial
  | crashOpen order => trivial

theorem inRange_write (s : PagerSys) {q : Nat} (h : q < maxPages) (page : Page) :
    InRange s (.run (.writePage q page)) := by
  rintro p w - hw
  obtain rfl := Option.some.inj hw
  exact h

theorem inRange_crash (s : PagerSys) : InRange s (.crash .beginGroup) := by
  rintro p w - hw
  cases hw

/-- A commit fails in its sync, the next one succeeds, the machine stops. -/
def afterFailedSync : PagerSys := ran crc32 failSync (.writePage 0 Page.new) started

def retried : PagerSys := ran crc32 Disk.perform (.writePage 0 (markedPage 1)) afterFailedSync

theorem appendGroup_failSync {g : CommittedGroup} (hg : CommittedGroup.Valid g) (w : WalManager)
    (d : Disk) : (w.appendGroup crc g).run failSync d = (.ok (.error (.io "sync"), w),
      { d with wal := (d.wal.writeOrdered w.len (groupBytes crc g)).setLen w.len }) := by
  rw [WalManager.appendGroup, hg.no_short]
  rfl

theorem logInStep_ended (s : PagerSys) (g : Option (Nat × PageMap)) (r : Except VelociError Unit)
    (p : Pager) (d : Disk) : logInStep (s.ended g r p d) = (d.wal.now.length == p.wal.len) := by
  rw [logInStep, (ended_disk s g r p d).2, (ended_disk s g r p d).1]

theorem retried_runs : canRun crc32 failSync (.writePage 0 Page.new) started = true ∧
    canRun crc32 Disk.perform (.writePage 0 (markedPage 1)) afterFailedSync = true ∧
    logInStep started = true ∧ logInStep afterFailedSync = true ∧ logInStep retried = true := by
  have hfail : _ ∧ afterFailedSync = _ := ran_refused started_pager rfl
    (appendGroup_failSync (valid_pageGroup rfl (by decide) (by decide)) _ _)
  have hpager : afterFailedSync.pager = _ :=
    (congrArg PagerSys.pager hfail.2).trans (ended_disk _ _ _ _ _).2
  have hdisk : afterFailedSync.disk = _ :=
    (congrArg PagerSys.disk hfail.2).trans (ended_disk _ _ _ _ _).1
  have hran : _ ∧ retried = _ :=
    ran_logged hpager rfl rfl (by decide) (by decide) room_for_one
  have hcut : afterFailedSync.disk.wal.now.length = 0 := by
    rw [hdisk]
    exact length_resize _ 0
  refine ⟨hfail.1, hran.1, rfl, ?_, ?_⟩
  · rw [hfail.2, logInStep_ended]
    exact beq_iff_eq.mpr (length_resize _ 0)
  · rw [hran.2, logInStep_ended]
    exact beq_iff_eq.mpr (length_written hcut (length_pageGroup rfl))

theorem retried_reaches : Transition.Reaches (Step Disk.Faulty crc32)
    (fun s a => InRange s a ∧ InStep s a) init (crashed retried) := by
  obtain ⟨hrun, hrun', hlog₀, hlog₁, hlog₂⟩ := retried_runs
  obtain ⟨hcons, -⟩ := ran_consistent failSync_faulty hrun started_consistent
  obtain ⟨hcons', hup'⟩ := ran_consistent Disk.Faulty.done hrun' hcons
  have hmax : 0 < maxPages := by decide
  refine .tail (.tail (.tail (.tail .refl ⟨inRange_open _ _, inStep_of_log rfl _⟩ started_step)
    ⟨inRange_write _ hmax _, inStep_of_log hlog₀ _⟩ (step_ran failSync_faulty hrun))
    ⟨inRange_write _ hmax _, inStep_of_log hlog₁ _⟩ (step_ran Disk.Faulty.done hrun'))
    ⟨inRange_crash _, inStep_of_log hlog₂ _⟩ (step_crashed hup' hcons')

theorem committed_survive_retried : ∃ p d',
    Prog.Exec Disk.Sound (Pager.new crc32 fun _ => 0) (crashed retried).disk (.ok (.ok p)) d' ∧
      (Recovered (crashed retried).promised (p.snapshot d') ∨
        ∃ x ∈ (crashed retried).flying.toList ++ (crashed retried).failed,
          Recovered ((crashed retried).promised.plus x.2) (p.snapshot d')) := by
  obtain ⟨S, suspects, h⟩ := sysInv_faulty (fun _ _ _ _ h => h) retried_reaches
  obtain ⟨p, d', hx⟩ := h.opens rfl fun _ => 0
  obtain ⟨p', hp', hrec⟩ := committed_survive retried_reaches rfl hx
  obtain rfl := Except.ok.inj hp'
  exact ⟨p, d', hx, hrec⟩

/-- A group is committed and checkpointed, but the truncation of the log fails behind its
`set_len`; the next group is appended at the old length, behind a gap. -/
def cutShort : PagerSys :=
  ran crc32 failSeek .checkpoint (ran crc32 Disk.perform (.writePage 0 Page.new) started)

def gapped : PagerSys := crashed (ran crc32 Disk.perform (.writePage 0 (markedPage 1)) cutShort)

/-- A checkpoint of one page writes it, cuts the log and fails behind the cut. -/
theorem checkpoint_failSeek {p : Pager} {page : Page} {d : Disk}
    (hcommitted : p.committed = (∅ : PageMap).insert 0 page) (hpages : 0 < p.numPages) :
    (checkpoint p).run failSeek d = (.ok (.error (.io "seek"), p),
      ⟨(d.data.writeTorn 0 page.data).sync, d.wal.setLen 0⟩) := by
  have hne : ¬ p.committed.isEmpty := by
    rw [hcommitted]
    simp
  have hsorted : sortedPages p.committed = [(0, page.data)] := by
    rw [hcommitted]
    rfl
  have hlen : ¬ page.data.length ≠ pageSize := not_not.mpr page.size
  refine run_of_wp ?_
  unfold checkpoint
  refine PagerM.wp_get ?_
  dsimp only
  rw [if_neg hne, hsorted]
  refine PagerM.wp_modify (PagerM.wp_tryCatch (PagerM.wp_bind ?_))
  refine PagerM.wp_mono (Q := fun r p' d' => r = .ok () ∧ p' = { p with committed := ∅ } ∧
    d' = { d with data := d.data.writeTorn 0 page.data }) ?_ ?_
  · unfold writePagesRaw
    refine PagerM.wp_bind ?_
    unfold writePageRaw
    rw [if_neg hlen, Nat.zero_mul, Nat.zero_mod]
    refine PagerM.wp_bind (PagerM.wp_file trivial ?_)
    rintro _ _ ⟨⟩
    refine ⟨trivial, PagerM.wp_bind (PagerM.wp_file trivial ?_)⟩
    rintro _ _ ⟨⟩
    refine ⟨trivial, PagerM.wp_ret rfl trivial (PagerM.wp_ret rfl trivial ⟨rfl, ?_, rfl⟩)⟩
    exact congrArg (fun n => { p with committed := ∅, numPages := n })
      (if_neg (Nat.not_le_of_lt hpages))
  · rintro _ _ _ - ⟨rfl, rfl, rfl⟩
    refine PagerM.wp_bind (PagerM.wp_file trivial ?_)
    rintro _ _ ⟨⟩
    exact ⟨trivial, Prog.wp_run.mpr ⟨trivial, rfl, rfl, rfl⟩⟩

/-- The pager behind the first commit. -/
def committedPager : Pager :=
  logged (handed 0 Page.new ⟨2, 0 + (pageSize + 42)⟩ startedPager)

/-- The bytes of the first commit. -/
def firstBytes : Bytes := groupBytes crc32 (walGroup (pageGroup 0 Page.new startedPager))

/-- The bytes of the second. -/
def secondBytes : Bytes := groupBytes crc32 (walGroup (pageGroup 0 (markedPage 1) committedPager))

theorem secondBytes_ne_nil : secondBytes ≠ [] := by
  refine List.ne_nil_of_length_pos ?_
  rw [secondBytes, length_pageGroup rfl]
  exact Nat.succ_pos _

theorem committed_ran : canRun crc32 Disk.perform (.writePage 0 Page.new) started = true ∧
    ran crc32 Disk.perform (.writePage 0 Page.new) started =
      started.ended (some (pageGroup 0 Page.new startedPager)) (.ok ()) committedPager
        { started.disk with wal := (started.disk.wal.writeOrdered 0 firstBytes).sync } :=
  ran_logged started_pager rfl rfl (by decide) (by decide) room_for_one

theorem cutShort_ran :
    canRun crc32 failSeek .checkpoint (ran crc32 Disk.perform (.writePage 0 Page.new) started) =
      true ∧
    cutShort = (ran crc32 Disk.perform (.writePage 0 Page.new) started).ended none
      (.error (.io "seek")) committedPager
      ⟨(started.disk.data.writeTorn 0 Page.new.data).sync,
        ((started.disk.wal.writeOrdered 0 firstBytes).sync).setLen 0⟩ := by
  have hdisk : (ran crc32 Disk.perform (.writePage 0 Page.new) started).disk = _ :=
    (congrArg PagerSys.disk committed_ran.2).trans (ended_disk _ _ _ _ _).1
  have hpager : (ran crc32 Disk.perform (.writePage 0 Page.new) started).pager =
      some committedPager :=
    (congrArg PagerSys.pager committed_ran.2).trans (ended_disk _ _ _ _ _).2
  have hran : _ ∧ cutShort = _ := ran_of_run hpager (checkpoint_failSeek rfl (by decide))
  rw [hdisk] at hran
  exact hran

theorem gapped_ran : canRun crc32 Disk.perform (.writePage 0 (markedPage 1)) cutShort = true ∧
    ran crc32 Disk.perform (.writePage 0 (markedPage 1)) cutShort =
      cutShort.ended (some (pageGroup 0 (markedPage 1) committedPager)) (.ok ())
        (logged (handed 0 (markedPage 1) ⟨3, 0 + (pageSize + 42) + (pageSize + 42)⟩ committedPager))
        { cutShort.disk with
          wal := (cutShort.disk.wal.writeOrdered (0 + (pageSize + 42)) secondBytes).sync } := by
  have hpager : cutShort.pager = some committedPager :=
    (congrArg PagerSys.pager cutShort_ran.2).trans (ended_disk _ _ _ _ _).2
  have hroom : 0 + (pageSize + 42) + (pageSize + 42) < checkpointWalBytes := by
    rw [Nat.zero_add]
    exact room_for_two
  exact ran_logged hpager rfl rfl (by decide) (by decide) hroom

theorem gapped_runs : canRun crc32 Disk.perform (.writePage 0 Page.new) started = true ∧
    canRun crc32 failSeek .checkpoint
      (ran crc32 Disk.perform (.writePage 0 Page.new) started) = true ∧
    canRun crc32 Disk.perform (.writePage 0 (markedPage 1)) cutShort = true :=
  ⟨committed_ran.1, cutShort_ran.1, gapped_ran.1⟩

theorem gapped_reaches :
    Transition.Reaches (Step Disk.Faulty crc32) InRange init gapped := by
  obtain ⟨hrun₁, hrun₂, hrun₃⟩ := gapped_runs
  obtain ⟨hcons₁, -⟩ := ran_consistent Disk.Faulty.done hrun₁ started_consistent
  obtain ⟨hcons₂, -⟩ := ran_consistent failSeek_faulty hrun₂ hcons₁
  obtain ⟨hcons₃, hup₃⟩ := ran_consistent Disk.Faulty.done hrun₃ hcons₂
  have hmax : 0 < maxPages := by decide
  refine .tail (.tail (.tail (.tail (.tail .refl (inRange_open _ _)
    started_step) (inRange_write _ hmax _) (step_ran Disk.Faulty.done hrun₁)) ?_
    (step_ran failSeek_faulty hrun₂)) (inRange_write _ hmax _) (step_ran Disk.Faulty.done hrun₃))
    (inRange_crash _) (step_crashed hup₃ hcons₃)
  rintro p w - hw
  cases hw

/-- A log that starts with a gap has no record. -/
theorem decode_gap (rest : Bytes) : decode crc32 (List.replicate 17 0 ++ rest) = .ok [] := by
  have hlen : ¬ (List.replicate 17 (0 : UInt8) ++ rest).length < 1 + 8 + 4 + 4 := by
    rw [List.length_append, List.length_replicate]
    omega
  have hcrc : (crc32 (List.replicate 13 0)).toNat ≠ 0 := by decide +kernel
  have hparse : parseRecord crc32 (List.replicate 17 0 ++ rest) = none := by
    have hpayload : leNat (((List.replicate 17 0 ++ rest).drop 9).take 4) = 0 := rfl
    have hstored : leNat (((List.replicate 17 0 ++ rest).drop 13).take 4) = 0 := rfl
    have hbody : (List.replicate 17 (0 : UInt8) ++ rest).take 13 = List.replicate 13 0 := rfl
    rw [parseRecord, if_neg hlen]
    dsimp only
    rw [hpayload, if_neg hlen, hstored, hbody, if_pos hcrc]
  rw [decode, records, parseRecords, hparse]
  rfl

theorem overwrite_gap {f bs : Bytes} {n : Nat} (hf : f.length = 0) (hbs : bs ≠ []) :
    overwrite f n bs = List.replicate n 0 ++ bs := by
  obtain rfl := List.length_eq_zero_iff.mp hf
  rw [overwrite, if_neg hbs, resize, List.take_nil, List.nil_append, List.drop_nil, List.append_nil]
  rfl

theorem gapped_disk : gapped.disk = ⟨.stable Page.new.data,
    .stable (List.replicate (0 + (pageSize + 42)) 0 ++ secondBytes)⟩ := by
  rw [gapped, gapped_ran.2, cutShort_ran.2, committed_ran.2, started_disk]
  exact congrArg₂ (fun f w => (⟨.stable f, .stable w⟩ : Disk)) (overwrite_append [] Page.new.data)
    (overwrite_gap (length_resize _ 0) secondBytes_ne_nil)

theorem gapped_promised : gapped.promised.page 0 = .ok (markedPage 1) := by
  rw [gapped, gapped_ran.2, cutShort_ran.2, committed_ran.2]
  exact plus_page_some rfl

theorem gapped_failed : gapped.flying.toList ++ gapped.failed = [] := by
  rw [gapped, gapped_ran.2]
  rfl

/-- The page that was promised is not the one the data file has. -/
theorem not_recovered_gapped {v : Snapshot} (hshows : Shows Page.new.data v) :
    ¬ Recovered gapped.promised v := by
  rintro ⟨-, hrec⟩
  have hone : v.numPages = 1 := Nat.eq_of_mul_eq_mul_right pageSize_pos
    (hshows.pages.trans (Page.new.size.trans (Nat.one_mul _).symm))
  have hnew : v.page 0 = .ok (markedPage 1) := by
    rcases hrec 0 with heq | ⟨-, herr, -⟩
    · exact heq.trans gapped_promised
    · rw [gapped_promised] at herr
      cases herr
  rcases hshows.page 0 (by rw [hone]; exact Nat.one_pos) with ⟨page, hpage, hblock⟩ | ⟨hpage, -⟩
  · rw [hnew] at hpage
    obtain rfl := Except.ok.inj hpage
    have hbyte : byteAt (markedPage 1).data 0 = byteAt (block pageSize Page.new.data 0) 0 := by
      rw [hblock]
    rw [block, byteAt_window, if_pos pageSize_pos, Nat.zero_mul, Page.new,
      byteAt_replicate_zero] at hbyte
    cases hbyte
  · rw [hpage] at hnew
    cases hnew

/-- Without the condition a committed group is lost: recovery stops at the gap. -/
theorem not_committed_survive : ¬ ∀ s : PagerSys,
    Transition.Reaches (Step Disk.Faulty crc32) InRange init s → s.pager = none →
    ∀ (order : Nat → Nat) (r : Except VelociError Pager) (d' : Disk),
      Prog.Exec Disk.Sound (Pager.new crc32 order) s.disk (.ok r) d' →
      ∃ p, r = .ok p ∧ (Recovered s.promised (p.snapshot d') ∨
        ∃ x ∈ s.flying.toList ++ s.failed, Recovered (s.promised.plus x.2) (p.snapshot d')) := by
  intro hall
  have hlog : decode crc32 (List.replicate (0 + (pageSize + 42)) 0 ++ secondBytes) = .ok [] := by
    have hlen : 0 + (pageSize + 42) = 17 + (pageSize + 25) := by omega
    rw [hlen, List.replicate_add, List.append_assoc]
    exact decode_gap _
  have hwhole : (applied Page.new.data (allWrites [])).length = 1 * pageSize :=
    Page.new.size.trans (Nat.one_mul _).symm
  have hwp := wp_new (H := Disk.Sound) (congrArg Disk.data gapped_disk)
    (congrArg Disk.wal gapped_disk) hlog (fun g hg => absurd hg List.not_mem_nil) rfl
    (Dvd.intro_left 1 hwhole.symm) (hwhole ▸ Nat.mul_le_mul_right _ (by decide)) (fun _ => 0)
  have hexec := Prog.exec_run Disk.perform (Pager.new crc32 fun _ => 0) gapped.disk
  obtain ⟨p, ho, hE, hact, -⟩ := Prog.wp_exec hexec hwp
  rw [ho] at hexec
  obtain ⟨p', hp', hrec | ⟨x, hxm, -⟩⟩ := hall gapped gapped_reaches rfl _ _ _ hexec
  · obtain rfl := Except.ok.inj hp'
    exact not_recovered_gapped (hE.shows hact) hrec
  · rw [gapped_failed] at hxm
    exact absurd hxm List.not_mem_nil

/-- A failed commit never comes back, as long as besides no append fails once all of its
bytes are written: `Pager::new` after a crash finds the groups whose commit returned
`Ok`, and at most the one the crash cut short. -/
theorem failed_stay_out {s : PagerSys}
    (hs : Transition.Reaches (Step Disk.ShortFaults crc) (fun s a => InRange s a ∧ InStep s a)
      init s)
    (hdown : s.pager = none) {order : Nat → Nat} {r : Except VelociError Pager} {d' : Disk}
    (hx : Prog.Exec Disk.Sound (Pager.new crc order) s.disk (.ok r) d') :
    ∃ p, r = .ok p ∧ (Recovered s.promised (p.snapshot d') ∨
      ∃ x, s.flying = some x ∧ Recovered (s.promised.plus x.2) (p.snapshot d')) := by
  obtain ⟨S, suspects, h⟩ := sysInv_faulty (fun _ _ _ _ h => h.faulty) hs
  obtain ⟨p, hr, -, hrec⟩ := h.recovers hdown hx
  refine ⟨p, hr, (hrec _ h.promised).imp id ?_⟩
  rintro ⟨x, hxm, hrecx⟩
  rw [h.short fun _ _ _ _ hs => hs, List.append_nil] at hxm
  exact ⟨x, Option.mem_toList.mp hxm, hrecx⟩

/-- Writing to the WAL fails after a thousand bytes. -/
def failWrite : (op : DiskOp) → Disk → Except VelociError op.Ans × Disk
  | .walWrite offset bytes, d =>
      if 1000 < bytes.length then
        (.error (.io "write"), { d with wal := d.wal.writeOrdered offset (bytes.take 1000) })
      else Disk.perform (.walWrite offset bytes) d
  | op, d => Disk.perform op d

theorem failWrite_short (op : DiskOp) (d : Disk) :
    Disk.ShortFaults op d (failWrite op d).1 (failWrite op d).2 := by
  cases op with
  | walWrite o bs =>
      rw [failWrite]
      split
      · exact Or.inr ⟨1000, ‹_›, ⟨_, rfl⟩, rfl⟩
      · exact Or.inl ⟨rfl, rfl⟩
  | walSync => exact ⟨.done .walSync d, Or.inl rfl⟩
  | _ => exact .done _ d

/-- A commit fails half-way through its bytes, the machine stops. -/
def halfway : PagerSys := ran crc32 failWrite (.writePage 0 Page.new) started

theorem appendGroup_failWrite {g : CommittedGroup} (hg : CommittedGroup.Valid g)
    (hlong : 1000 < (groupBytes crc g).length) (w : WalManager) (d : Disk) :
    (w.appendGroup crc g).run failWrite d = (.ok (.error (.io "write"), w),
      { d with wal := (d.wal.writeOrdered w.len ((groupBytes crc g).take 1000)).setLen w.len }) := by
  have hseek : (io (.walSeek w.len)).run failWrite d = (.ok (), d) := rfl
  have hwrite : (io (.walWrite w.len (groupBytes crc g))).run failWrite d =
      (.error (.io "write"), _) := (Prog.run_lift failWrite _ d).trans (if_pos hlong)
  have hio : ((io (.walSeek w.len)).bind fun _ => (io (.walWrite w.len (groupBytes crc g))).bind
      fun _ => io .walSync).run failWrite d = (.error (.io "write"),
        { d with wal := d.wal.writeOrdered w.len ((groupBytes crc g).take 1000) }) := by
    rw [Prog.run_bind_ok hseek, Prog.run_bind, hwrite]
  have hwritten := Prog.run_attempt failWrite ((io (.walSeek w.len)).bind fun _ =>
    (io (.walWrite w.len (groupBytes crc g))).bind fun _ => io .walSync) d
  rw [hio] at hwritten
  rw [WalManager.appendGroup, hg.no_short]
  exact Prog.run_bind_ok hwritten

theorem halfway_runs : canRun crc32 failWrite (.writePage 0 Page.new) started = true ∧
    logInStep started = true ∧ logInStep halfway = true ∧ (crashed halfway).failed.length = 1 := by
  have hlong : 1000 < (groupBytes crc32
      (walGroup (pageGroup 0 Page.new startedPager))).length := by
    rw [length_pageGroup rfl, pageSize_eq]
    decide
  have hfail : _ ∧ halfway = _ := ran_refused started_pager rfl
    (appendGroup_failWrite (valid_pageGroup rfl (by decide) (by decide)) hlong _ _)
  refine ⟨hfail.1, rfl, ?_, ?_⟩
  · rw [hfail.2, logInStep_ended]
    exact beq_iff_eq.mpr (length_resize _ 0)
  · rw [hfail.2]
    rfl

theorem halfway_reaches : Transition.Reaches (Step Disk.ShortFaults crc32)
    (fun s a => InRange s a ∧ InStep s a) init (crashed halfway) := by
  obtain ⟨hrun, hlog, hlog', -⟩ := halfway_runs
  obtain ⟨hcons, hup⟩ :=
    ran_consistent (fun op d => (failWrite_short op d).faulty) hrun started_consistent
  refine .tail (.tail (.tail .refl ⟨inRange_open _ _, inStep_of_log rfl _⟩ started_step)
    ⟨inRange_write _ (by decide) _, inStep_of_log hlog _⟩ (step_ran failWrite_short hrun))
    ⟨inRange_crash _, inStep_of_log hlog' _⟩ (step_crashed hup hcons)

theorem failed_stay_out_halfway : (crashed halfway).failed ≠ [] ∧ ∃ p d',
    Prog.Exec Disk.Sound (Pager.new crc32 fun _ => 0) (crashed halfway).disk (.ok (.ok p)) d' ∧
      (Recovered (crashed halfway).promised (p.snapshot d') ∨
        ∃ x, (crashed halfway).flying = some x ∧
          Recovered ((crashed halfway).promised.plus x.2) (p.snapshot d')) := by
  obtain ⟨-, -, -, hfail⟩ := halfway_runs
  refine ⟨List.ne_nil_of_length_eq_add_one hfail, ?_⟩
  obtain ⟨S, suspects, h⟩ := sysInv_faulty (fun _ _ _ _ h => h.faulty) halfway_reaches
  obtain ⟨p, d', hx⟩ := h.opens rfl fun _ => 0
  obtain ⟨p', hp', hrec⟩ := failed_stay_out halfway_reaches rfl hx
  obtain rfl := Except.ok.inj hp'
  exact ⟨p, d', hx, hrec⟩

/-- Syncing the WAL and cutting it back both fail. -/
def failSyncAndCut : (op : DiskOp) → Disk → Except VelociError op.Ans × Disk
  | .walSync, d => (.error (.io "sync"), d)
  | .walSetLen _, d => (.error (.io "set_len"), d)
  | op, d => Disk.perform op d

theorem failSyncAndCut_faulty (op : DiskOp) (d : Disk) :
    Disk.Faulty op d (failSyncAndCut op d).1 (failSyncAndCut op d).2 := by
  cases op with
  | walSync => exact .walSyncLost d "sync"
  | walSetLen len => exact .walSetLenLost len d "set_len"
  | _ => exact .done _ d

/-- Then the bytes of the group stay where the append put them. -/
theorem appendGroup_failSyncAndCut {g : CommittedGroup} (hg : CommittedGroup.Valid g)
    (w : WalManager) (d : Disk) :
    (w.appendGroup crc g).run failSyncAndCut d = (.ok (.error (.io "sync"), w),
      { d with wal := d.wal.writeOrdered w.len (groupBytes crc g) }) := by
  rw [WalManager.appendGroup, hg.no_short]
  rfl

/-- A commit that fails in its sync with all of its bytes down; the crash keeps them. -/
def unsynced : PagerSys := ran crc32 failSyncAndCut (.writePage 0 (markedPage 1)) started

/-- The group of that commit. -/
def unsyncedGroup : Nat × PageMap := (1, (∅ : PageMap).insert 0 (markedPage 1))

theorem unsynced_valid : CommittedGroup.Valid (walGroup unsyncedGroup) := by
  have hwrites : (walGroup unsyncedGroup).writes = [(0, (markedPage 1).data)] := rfl
  refine ⟨by decide, fun w hw => ?_⟩
  rw [hwrites, List.mem_singleton] at hw
  subst hw
  exact ⟨by decide, (markedPage 1).size⟩

theorem unsynced_ran : canRun crc32 failSyncAndCut (.writePage 0 (markedPage 1)) started = true ∧
    unsynced = started.ended (some unsyncedGroup) (.error (.io "sync"))
      (aborted (handed 0 (markedPage 1) ⟨2, 0⟩ startedPager))
      { started.disk with
        wal := started.disk.wal.writeOrdered 0 (groupBytes crc32 (walGroup unsyncedGroup)) } :=
  ran_refused started_pager rfl (appendGroup_failSyncAndCut unsynced_valid _ _)

theorem unsynced_disk : (crashed unsynced).disk =
    ⟨.stable [], .stable (groupBytes crc32 (walGroup unsyncedGroup))⟩ := by
  have hnil := overwrite_append [] (groupBytes crc32 (walGroup unsyncedGroup))
  rw [unsynced_ran.2]
  exact congrArg (fun bs => (⟨.stable [], .stable bs⟩ : Disk)) hnil

theorem unsynced_runs :
    canRun crc32 failSyncAndCut (.writePage 0 (markedPage 1)) started = true ∧
      (crashed unsynced).promised.numPages = 0 := by
  refine ⟨unsynced_ran.1, ?_⟩
  rw [unsynced_ran.2]
  rfl

theorem unsynced_reaches :
    Transition.Reaches (Step Disk.Faulty crc32) InRange init (crashed unsynced) := by
  obtain ⟨hrun, -⟩ := unsynced_runs
  obtain ⟨hcons, hup⟩ := ran_consistent failSyncAndCut_faulty hrun started_consistent
  exact .tail (.tail (.tail .refl (inRange_open _ _) started_step)
    (inRange_write _ (by decide) _) (step_ran failSyncAndCut_faulty hrun))
    (inRange_crash _) (step_crashed hup hcons)

/-- Without the condition a failed commit comes back: its bytes are all in the log, and
recovery takes them for a committed group. -/
theorem not_failed_stay_out : ¬ ∀ s : PagerSys,
    Transition.Reaches (Step Disk.Faulty crc32) InRange init s → s.pager = none →
    ∀ (order : Nat → Nat) (r : Except VelociError Pager) (d' : Disk),
      Prog.Exec Disk.Sound (Pager.new crc32 order) s.disk (.ok r) d' →
      ∃ p, r = .ok p ∧ (Recovered s.promised (p.snapshot d') ∨
        ∃ x, s.flying = some x ∧ Recovered (s.promised.plus x.2) (p.snapshot d')) := by
  intro hall
  have hlog : decode crc32 (groupBytes crc32 (walGroup unsyncedGroup)) =
      .ok [walGroup unsyncedGroup] := by
    have hone : decode crc32 (groupsBytes crc32 [walGroup unsyncedGroup]) = _ :=
      decode_groupsBytes (by simpa using unsynced_valid)
    rwa [groupsBytes, List.flatMap_cons, List.flatMap_nil, List.append_nil] at hone
  have hlen : (applied [] (allWrites [walGroup unsyncedGroup])).length = 1 * pageSize := by
    rw [length_writeBlocks pageSize_pos [] (allWrites_whole (by simpa using unsynced_valid))]
    show max 0 (max ((0 + 1) * pageSize) 0) = 1 * pageSize
    omega
  have hwp := wp_new (H := Disk.Sound) (f := []) rfl rfl hlog (by simpa using unsynced_valid) rfl
    (Dvd.intro_left 1 hlen.symm) (hlen ▸ Nat.mul_le_mul_right _ (by decide)) (fun _ => 0)
    (d := ⟨.stable [], .stable (groupBytes crc32 (walGroup unsyncedGroup))⟩)
  have hexec := Prog.exec_run Disk.perform (Pager.new crc32 fun _ => 0)
    ⟨.stable [], .stable (groupBytes crc32 (walGroup unsyncedGroup))⟩
  obtain ⟨p, ho, hE, hact, -⟩ := Prog.wp_exec hexec hwp
  rw [ho] at hexec
  have hone : p.numPages = 1 :=
    Nat.eq_of_mul_eq_mul_right pageSize_pos ((hE.shows hact).pages.trans hlen)
  rw [← unsynced_disk] at hexec
  obtain ⟨p', hp', ⟨hpages, -⟩ | ⟨x, hfly, -⟩⟩ := hall _ unsynced_reaches rfl _ _ _ hexec
  · obtain rfl := Except.ok.inj hp'
    obtain ⟨-, hzero⟩ := unsynced_runs
    have hpages : p.numPages = (crashed unsynced).promised.numPages := hpages
    omega
  · cases hfly

end PagerSys

end VelociDB
