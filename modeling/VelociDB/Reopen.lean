/-
# Opening the files a crash left

`Pager::new` without I/O errors, on files from which `Σ` can be recovered: it returns a
pager over the data file `Σ` and an empty log, and a second crash on the way leaves
files from which `Σ` can be recovered again.
-/
import VelociDB.PagerOps

namespace VelociDB

open Bytes Blocks Wal PagerSys Snapshot Pager

variable {H : (op : DiskOp) → Disk → Except VelociError op.Ans → Disk → Prop}
  {crc : Bytes → UInt32} {S : Bytes} {gs : List CommittedGroup}

theorem within_sound : WithinFaults Disk.Sound := fun _ _ _ _ h => h.faulty

theorem reliable_sound : Reliable Disk.Sound := fun _ _ _ _ h => h

/-! ## Counting pages -/

theorem pagesAfter_mul (n : Nat) (ws : List (Nat × Bytes)) :
    pagesAfter n ws * pageSize = max (n * pageSize) (endOf pageSize ws) := by
  induction ws generalizing n with
  | nil => simp [pagesAfter, endOf]
  | cons w ws ih =>
      rw [pagesAfter, List.foldl_cons, ← pagesAfter, ih, endOf, ← max_assoc,
        Nat.mul_max_mul_right]

theorem dvd_endOf (ws : List (Nat × Bytes)) : pageSize ∣ endOf pageSize ws := by
  induction ws with
  | nil => exact ⟨0, by simp [endOf]⟩
  | cons w ws ih =>
      rw [endOf]
      rcases max_choice ((w.1 + 1) * pageSize) (endOf pageSize ws) with h | h
      · rw [h]
        exact Dvd.intro_left _ rfl
      · rw [h]
        exact ih

/-- The page count `new` reads off a file length. -/
def filePages (n : Nat) : Nat := if n = 0 then 0 else (n + pageSize - 1) / pageSize

theorem filePages_bounds (n : Nat) :
    n ≤ filePages n * pageSize ∧ filePages n * pageSize < n + pageSize := by
  unfold filePages
  have hpos := pageSize_pos
  split
  · omega
  · have h1 := Nat.div_add_mod (n + pageSize - 1) pageSize
    have h2 := Nat.mod_lt (n + pageSize - 1) hpos
    rw [mul_comm] at h1
    omega

theorem filePages_of_dvd {n : Nat} (h : pageSize ∣ n) : filePages n * pageSize = n := by
  obtain ⟨k, rfl⟩ := h
  obtain ⟨h1, h2⟩ := filePages_bounds (pageSize * k)
  rw [mul_comm pageSize k] at *
  have h3 : k ≤ filePages (k * pageSize) := Nat.le_of_mul_le_mul_right h1 pageSize_pos
  have h4 : filePages (k * pageSize) < k + 1 :=
    Nat.lt_of_mul_lt_mul_right (a := pageSize) (by rw [Nat.succ_mul]; exact h2)
  rw [show filePages (k * pageSize) = k by omega]

/-- Counting the pages of the file and of the writes gives the size of the result. -/
theorem pagesAfter_filePages {f : Bytes} {ws : List (Nat × Bytes)} (hws : Whole pageSize ws)
    (hdvd : pageSize ∣ (applied f ws).length) :
    pagesAfter (filePages f.length) ws * pageSize = (applied f ws).length := by
  have hlen := length_writeBlocks pageSize_pos f hws
  rw [pagesAfter_mul]
  rw [hlen] at hdvd ⊢
  have hlt := (filePages_bounds f.length).2
  by_cases hle : f.length ≤ endOf pageSize ws
  · rw [max_eq_right hle]
    obtain ⟨k, hk⟩ := dvd_endOf ws
    rw [mul_comm] at hk
    have hlt' : filePages f.length < k + 1 :=
      Nat.lt_of_mul_lt_mul_right (a := pageSize) (by rw [Nat.succ_mul]; omega)
    rw [hk]
    exact max_eq_right (Nat.mul_le_mul_right _ (by omega))
  · have hge : endOf pageSize ws ≤ f.length := by omega
    rw [max_eq_left hge] at hdvd ⊢
    rw [filePages_of_dvd hdvd]
    exact max_eq_left hge

/-! ## Recovery -/

/-- A pager with nothing buffered over the data file `Σ` and an empty log. -/
theorem pagerInv_fresh {d : Disk} {p : Pager} (hdata : d.data = .stable S)
    (hlen : p.wal.len = 0) (hnext : p.wal.nextGroupId < u64Size) (hact : p.activeGroup = none)
    (hpend : p.pending = ∅) (hcom : p.committed = ∅) (hcache : p.cache = ∅)
    (hsp : p.savepoint = none) (hpages : p.numPages * pageSize = S.length)
    (hmax : S.length ≤ maxPages * pageSize) : PagerInv crc S [] d p where
  base := by
    rw [hcom, sortedPages_empty, hdata]
    rfl
  consistent := by rw [hdata]; rfl
  tail := by
    rw [hdata]
    exact TailIn.of_dvd ⟨p.numPages, by rw [mul_comm]; exact hpages.symm⟩
  len := hlen
  nextId := hnext
  activeId := by simp [hact]
  pages := by
    rw [hpend, sortedPages_empty]
    exact hpages
  bound := by
    rw [← hpages] at hmax
    exact Nat.le_of_mul_le_mul_right hmax pageSize_pos
  idle := fun _ => ⟨hpend, hsp⟩
  start := fun h => absurd hact h
  savepoint := by simp [hsp]
  cache := by simp [hcache]

theorem observeGroupId_lt {w : WalManager} (h : w.nextGroupId < u64Size) (floor : Nat) :
    (w.observeGroupId floor).nextGroupId < u64Size := by
  unfold WalManager.observeGroupId
  split
  · exact Nat.mod_lt _ (by decide)
  · exact h

theorem observeGroupId_len (w : WalManager) (floor : Nat) :
    (w.observeGroupId floor).len = w.len := by
  unfold WalManager.observeGroupId
  split <;> rfl

theorem wp_recover {f w : Bytes} {d : Disk} (hdata : d.data = .stable f)
    (hwal : d.wal = .stable w) (hdec : decode crc w = .ok gs)
    (hval : ∀ g ∈ gs, CommittedGroup.Valid g) (hS : applied f (allWrites gs) = S)
    (hdvd : pageSize ∣ S.length) (hmax : S.length ≤ maxPages * pageSize) (order : Nat → Nat) :
    PagerM.wp Disk.Sound (Recoverable crc S []) (recover crc)
      (fresh (filePages f.length) ⟨1, w.length⟩ order) d fun r p' d' =>
        r = .ok () ∧ Engine crc H S [] p' d' ∧ p'.activeGroup = none ∧ d'.data.now = S := by
  have hws := allWrites_whole hval
  have hrec : ∀ d : Disk, d.wal = .stable w →
      (∀ f ∈ d.data.after, applied f (allWrites gs) = S) → Recoverable crc S [] d := by
    intro d hw hd f hf v hv
    rw [hw] at hv
    obtain rfl : v = w := hv
    exact ⟨gs, hdec, hval, Or.inl (hd f hf)⟩
  have hJd : Recoverable crc S [] d := by
    refine hrec d hwal fun g hg => ?_
    rw [hdata] at hg
    obtain rfl : g = f := hg
    exact hS
  unfold recover
  refine PagerM.wp_get ?_
  dsimp only [fresh]
  split
  · -- an empty log: nothing to replay
    rename_i hnil
    obtain rfl : w = [] := List.length_eq_zero_iff.mp hnil
    rw [decode_nil] at hdec
    obtain rfl : gs = [] := (Except.ok.inj hdec).symm
    obtain rfl : f = S := hS
    refine PagerM.wp_ret rfl hJd ⟨rfl, ⟨[], ?_, ?_, fun _ => by rw [hwal]; rfl⟩, rfl, by rw [hdata]; rfl⟩
    · exact DiskInv.emptied (by simp) (by rw [hdata]; rfl) hwal
    · exact pagerInv_fresh hdata rfl (show 1 < u64Size by decide) rfl rfl rfl rfl rfl (filePages_of_dvd hdvd) hmax
  · have hids : ∀ v ∈ allWrites gs, v.2.length = pageSize ∧ v.1 < maxPages := by
      intro v hv
      refine ⟨hws v hv, ?_⟩
      have hend : (v.1 + 1) * pageSize ≤ S.length := by
        rw [← hS, length_writeBlocks pageSize_pos f hws]
        exact le_trans (le_endOf hv) (le_max_right _ _)
      exact Nat.lt_of_succ_le (Nat.le_of_mul_le_mul_right (le_trans hend hmax) pageSize_pos)
    refine PagerM.wp_bind (PagerM.wp_wal (Prog.wp_bind (Prog.wp_attempt (Prog.wp_bind
      (Prog.wp_lift hJd ?_)))))
    rintro r d₁ h₁
    obtain ⟨rfl, rfl⟩ := Prod.mk.inj h₁
    refine ⟨hJd, Prog.wp_bind (Prog.wp_lift hJd ?_)⟩
    rintro r d₂ h₂
    obtain ⟨rfl, rfl⟩ := Prod.mk.inj h₂
    have hbuf : d₂.wal.now = w := by rw [hwal]; rfl
    refine ⟨hJd, hJd, hJd, ?_⟩
    dsimp only
    rw [hbuf, hdec]
    -- replay the groups
    refine PagerM.wp_bind (PagerM.wp_mono (wp_writePagesRaw within_sound
      (I := fun d => d.wal = .stable w ∧ d.data.now ∈ d.data.after ∧
        ∀ f ∈ d.data.after, applied f (allWrites gs) = S)
      (fun d hI => hrec d hI.1 hI.2.2) hids ?_ ⟨hwal, ?_, ?_⟩) ?_)
    · rintro v hv d n ⟨hw, hcons, hall⟩
      refine ⟨hw, DiskFile.writeTorn_consistent hcons _ _, ?_⟩
      rintro g ⟨g₀, hg₀, ht⟩
      refine writeBlocks_torn pageSize_pos hws (hall g₀ hg₀) ?_ (hws v hv) (Or.inl ⟨v, hv, rfl⟩) ht
      rw [← hall g₀ hg₀, length_writeBlocks pageSize_pos _ hws]
      exact le_trans (le_endOf hv) (le_max_right _ _)
    · rw [hdata]
      rfl
    · rw [hdata]
      rintro g rfl
      exact hS
    intro r p₁ d₁ hJ₁ ⟨⟨hw₁, hcons₁, hall₁⟩, _, hR₁, h₁⟩
    obtain rfl := hR₁ reliable_sound
    obtain ⟨hnow₁, rfl⟩ := h₁
    have hS₁ : d₁.data.now = S := by rw [hnow₁, hdata]; exact hS
    have hidem : applied S (allWrites gs) = S := hall₁ S (hS₁ ▸ hcons₁)
    -- the log goes once the data file is whole
    have htrunc : ∀ d₂ : Disk, d₂.data = .stable S → d₂.wal = .stable w →
        PagerM.wp Disk.Sound (Recoverable crc S []) truncateWal
          { fresh (filePages f.length) ⟨1, w.length⟩ order with
            numPages := pagesAfter (filePages f.length) (allWrites gs)
            wal := WalManager.observeGroupId ⟨1, w.length⟩ (highestGroup (records crc w)) } d₂
          fun r p' d' => r = .ok () ∧ Engine crc H S [] p' d' ∧ p'.activeGroup = none ∧
            d'.data.now = S := by
      intro d₂ hd₂ hw₂
      have hinv : DiskInv crc S [] [] d₂ := by
        refine ⟨by simp, by simp, ?_, ?_, Or.inl ⟨d₂.wal.now, rfl⟩⟩
        · rw [hd₂]
          rintro g rfl
          rfl
        · rw [hd₂, hw₂]
          rintro g rfl v rfl
          exact ⟨gs, hdec, hval, Or.inl hidem⟩
      refine PagerM.wp_mono (wp_truncateWal within_sound (fun _ h => h) hinv hd₂) ?_
      intro r p₃ d₃ hJ₃ ⟨hdata₃, hR₃, h₃⟩
      obtain rfl := hR₃ reliable_sound
      obtain ⟨hinv₃, hwal₃, rfl⟩ := h₃
      have hstable : d₃.data = .stable S := hdata₃.trans hd₂
      refine ⟨rfl, ⟨[], hinv₃, ?_, fun _ => by rw [hwal₃]; rfl⟩, rfl, by rw [hstable]; rfl⟩
      refine pagerInv_fresh hstable rfl ?_ rfl rfl rfl rfl rfl ?_ hmax
      · exact observeGroupId_lt (w := ⟨1, w.length⟩) (show 1 < u64Size by decide) _
      · rw [← hS]
        exact pagesAfter_filePages hws (hS ▸ hdvd)
    dsimp only
    split
    · refine PagerM.wp_bind (PagerM.wp_file hJ₁ fun r d₂ h₂ => ?_)
      obtain ⟨rfl, rfl⟩ := Prod.mk.inj h₂
      have hstable : d₁.data.sync = .stable S := by rw [DiskFile.sync, hS₁]
      refine ⟨?_, htrunc _ hstable hw₁⟩
      refine hrec _ hw₁ fun g hg => ?_
      rw [hstable] at hg
      obtain rfl : g = S := hg
      exact hidem
    · rename_i hnil
      obtain rfl : gs = [] := not_not.mp hnil
      refine htrunc d₁ ?_ hw₁
      have hafter : d₁.data.after = {S} :=
        Set.eq_singleton_iff_unique_mem.mpr ⟨hS₁ ▸ hcons₁, fun g hg => hall₁ g hg⟩
      obtain ⟨⟨now, after⟩, wal⟩ := d₁
      simp only at hS₁ hafter
      rw [hS₁, hafter]
      rfl

/-- `Pager::new` on recoverable files. -/
theorem wp_new {f w : Bytes} {d : Disk} (hdata : d.data = .stable f)
    (hwal : d.wal = .stable w) (hdec : decode crc w = .ok gs)
    (hval : ∀ g ∈ gs, CommittedGroup.Valid g) (hS : applied f (allWrites gs) = S)
    (hdvd : pageSize ∣ S.length) (hmax : S.length ≤ maxPages * pageSize) (order : Nat → Nat) :
    Prog.wp Disk.Sound (Recoverable crc S []) (Pager.new crc order) d fun o d' =>
      ∃ p, o = .ok (.ok p) ∧ Engine crc H S [] p d' ∧ p.activeGroup = none ∧
        d'.data.now = S := by
  have hrecover := wp_recover (H := H) hdata hwal hdec hval hS hdvd hmax order
  have hJd := Prog.wp_here hrecover
  unfold Pager.new
  refine Prog.wp_bind (Prog.wp_lift hJd fun r d₁ h₁ => ?_)
  obtain ⟨rfl, rfl⟩ := Prod.mk.inj h₁
  refine ⟨hJd, Prog.wp_bind (Prog.wp_bind (Prog.wp_lift hJd fun r d₂ h₂ => ?_))⟩
  obtain ⟨rfl, rfl⟩ := Prod.mk.inj h₂
  refine ⟨hJd, hJd, Prog.wp_bind ?_⟩
  have hlen : d₂.data.now.length = f.length ∧ d₂.wal.now.length = w.length := by
    rw [hdata, hwal]
    exact ⟨rfl, rfl⟩
  rw [hlen.1, hlen.2]
  refine Prog.wp_mono hrecover ?_
  intro o d' hJ' ho
  match o, ho with
  | .ok (r, p), ho =>
      obtain ⟨rfl, hE, hact, hnow⟩ := ho
      exact ⟨hJ', p, rfl, hE, hact, hnow⟩

end VelociDB
