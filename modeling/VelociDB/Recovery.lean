/-
# What a crash can leave

`Σ` below is the data file as it should be: the file recovery has to produce.  The
argument is about two facts.

    Recoverable   whatever pair of contents a crash leaves of the two files, replaying
                  the groups of the log over the data file gives `Σ`, or `Σ` and one
                  of the groups whose append was begun
    DiskInv       the same with the groups of the log named, and with what the log
                  holds now

`DiskInv` is kept by the three things the pager does to its files: copying committed
pages into the data file, truncating the log, and appending a group.
-/
import VelociDB.PagerSys
import VelociDB.WalCodec
import VelociDB.Lib.Blocks

namespace VelociDB

open Bytes Blocks Wal

/-- The writes of several groups in order. -/
abbrev allWrites (gs : List CommittedGroup) : List (Nat × Bytes) :=
  gs.flatMap CommittedGroup.writes

/-- The data file after page writes. -/
abbrev applied (f : Bytes) (ws : List (Nat × Bytes)) : Bytes := writeBlocks pageSize f ws

/-- No file operation fails. -/
def Reliable (H : (op : DiskOp) → Disk → Except VelociError op.Ans → Disk → Prop) : Prop :=
  ∀ op d r d', H op d r d' → Disk.Sound op d r d'

/-- No append fails once all of its bytes are down. -/
def FailsShort (H : (op : DiskOp) → Disk → Except VelociError op.Ans → Disk → Prop) : Prop :=
  ∀ op d r d', H op d r d' → Disk.ShortFaults op d r d'

/-- Every outcome is one that I/O errors allow. -/
def WithinFaults (H : (op : DiskOp) → Disk → Except VelociError op.Ans → Disk → Prop) : Prop :=
  ∀ op d r d', H op d r d' → Disk.Faulty op d r d'

section

variable (crc : Bytes → UInt32)

/-- A file after a crash reads back as `Σ`, or as `Σ` and one group of `tried`. -/
def Recoverable (S : Bytes) (tried : List CommittedGroup) (d : Disk) : Prop :=
  ∀ f ∈ d.data.after, ∀ w ∈ d.wal.after, ∃ gs, decode crc w = .ok gs ∧
    (∀ g ∈ gs, CommittedGroup.Valid g) ∧
    (applied f (allWrites gs) = S ∨ ∃ x ∈ tried, applied f (allWrites gs) = applied S x.writes)

/-- The files, with `gs` the groups in the log that are not in the data file for sure. -/
structure DiskInv (S : Bytes) (gs tried : List CommittedGroup) (d : Disk) : Prop where
  valid : ∀ g ∈ gs, CommittedGroup.Valid g
  tried_valid : ∀ x ∈ tried, CommittedGroup.Valid x
  data : ∀ f ∈ d.data.after, applied f (allWrites gs) = S
  images : ∀ f ∈ d.data.after, ∀ w ∈ d.wal.after, ∃ gs', decode crc w = .ok gs' ∧
    (∀ g ∈ gs', CommittedGroup.Valid g) ∧
    (applied f (allWrites gs') = S ∨
      ∃ x ∈ tried, x ∈ gs' ∧ applied f (allWrites gs') = applied S x.writes)
  log : (∃ t, d.wal.now = groupsBytes crc gs ++ t) ∨ d.wal.now = []

end

variable {crc : Bytes → UInt32} {S : Bytes} {gs tried : List CommittedGroup} {d : Disk}

theorem allWrites_whole (h : ∀ g ∈ gs, CommittedGroup.Valid g) :
    Whole pageSize (allWrites gs) := by
  intro w hw
  obtain ⟨g, hg, hw⟩ := List.mem_flatMap.mp hw
  exact ((h g hg).writes w hw).2

theorem Wal.CommittedGroup.Valid.whole {g : CommittedGroup} (h : CommittedGroup.Valid g) :
    Whole pageSize g.writes := fun w hw => (h.writes w hw).2

theorem DiskInv.recoverable (h : DiskInv crc S gs tried d) : Recoverable crc S tried d := by
  intro f hf w hw
  obtain ⟨gs', hdec, hval, hS⟩ := h.images f hf w hw
  refine ⟨gs', hdec, hval, hS.imp id ?_⟩
  rintro ⟨x, hx, -, heq⟩
  exact ⟨x, hx, heq⟩

/-- Recovering a committed group is recovering the state before it and that group. -/
theorem Recoverable.before {x : CommittedGroup}
    (h : Recoverable crc (applied S x.writes) [] d) : Recoverable crc S (x :: tried) d := by
  intro f hf w hw
  obtain ⟨gs', hdec, hval, hS⟩ := h f hf w hw
  refine ⟨gs', hdec, hval, Or.inr ⟨x, List.mem_cons_self, ?_⟩⟩
  rcases hS with hS | ⟨y, hy, -⟩
  · exact hS
  · cases hy

theorem DiskInv.weaken {tried' : List CommittedGroup} (h : DiskInv crc S gs tried d)
    (hsub : ∀ x ∈ tried, x ∈ tried') (hval : ∀ x ∈ tried', CommittedGroup.Valid x) :
    DiskInv crc S gs tried' d where
  valid := h.valid
  tried_valid := hval
  data := h.data
  images := by
    intro f hf w hw
    obtain ⟨gs', hdec, hv, hS⟩ := h.images f hf w hw
    refine ⟨gs', hdec, hv, hS.imp id ?_⟩
    rintro ⟨x, hx, hmem, heq⟩
    exact ⟨x, hsub x hx, hmem, heq⟩
  log := h.log

theorem length_le_applied (f : Bytes) {ws : List (Nat × Bytes)} (h : Whole pageSize ws) :
    f.length ≤ (applied f ws).length := by
  rw [length_writeBlocks pageSize_pos f h]
  exact le_max_left _ _

/-! ## Copying a page -/

/-- Writing a page of `Σ` into the data file, whole or in part, changes nothing that
matters. -/
theorem DiskInv.dataWrite (h : DiskInv crc S gs tried d) {q n : Nat} {bs : Bytes}
    (hbs : block pageSize S q = bs) (hq : (q + 1) * pageSize ≤ S.length) :
    DiskInv crc S gs tried { d with data := d.data.writeTorn (q * pageSize) (bs.take n) } where
  valid := h.valid
  tried_valid := h.tried_valid
  data := by
    rintro g ⟨f, hf, ht⟩
    have hlen : bs.length = pageSize := by rw [← hbs, length_block]
    exact writeBlocks_torn pageSize_pos (allWrites_whole h.valid) (h.data f hf) hq hlen
      (Or.inr hbs) ht
  images := by
    rintro g ⟨f, hf, ht⟩ w hw
    have hlen : bs.length = pageSize := by rw [← hbs, length_block]
    obtain ⟨gs', hdec, hval, hS⟩ := h.images f hf w hw
    refine ⟨gs', hdec, hval, ?_⟩
    rcases hS with hS | ⟨x, hx, hmem, hS⟩
    · exact Or.inl (writeBlocks_torn pageSize_pos (allWrites_whole hval) hS hq hlen
        (Or.inr hbs) ht)
    · have hxw := (h.tried_valid x hx).whole
      refine Or.inr ⟨x, hx, hmem, ?_⟩
      refine writeBlocks_torn pageSize_pos (allWrites_whole hval) hS
        (le_trans hq (length_le_applied S hxw)) hlen ?_ ht
      -- either the group rewrites the page, or it leaves it as it is in `Σ`
      rw [block_writeBlocks pageSize_pos S hxw]
      cases hl : lastWrite q x.writes with
      | none =>
          rw [Option.getD_none]
          exact Or.inr hbs
      | some cs =>
          have hin : (q, cs) ∈ allWrites gs' := List.mem_flatMap.mpr ⟨x, hmem, lastWrite_mem hl⟩
          exact Or.inl ⟨(q, cs), hin, rfl⟩
  log := h.log

theorem DiskInv.dataSync (h : DiskInv crc S gs tried d) (hnow : d.data.now ∈ d.data.after) :
    DiskInv crc S gs tried { d with data := d.data.sync } where
  valid := h.valid
  tried_valid := h.tried_valid
  data := by
    rintro f rfl
    exact h.data _ hnow
  images := by
    rintro f rfl w hw
    exact h.images _ hnow w hw
  log := h.log

/-! ## Truncating the log -/

theorem decode_nil : decode crc [] = .ok [] := by
  simp [decode, records, parseRecords, parseRecord, collectGroups]

/-- The WAL cut to nothing over a data file that is `Σ`: the medium may still have the
old log. -/
theorem DiskInv.images_cut (h : DiskInv crc S gs tried d) (hdata : d.data.after = {S})
    {wal' : DiskFile} (hafter : ∀ w ∈ wal'.after, w ∈ d.wal.after ∨ w = []) :
    ∀ f ∈ d.data.after, ∀ w ∈ wal'.after, ∃ gs', decode crc w = .ok gs' ∧
      (∀ g ∈ gs', CommittedGroup.Valid g) ∧ (applied f (allWrites gs') = S ∨
        ∃ x ∈ tried, x ∈ gs' ∧ applied f (allWrites gs') = applied S x.writes) := by
  intro f hf w hw
  rcases hafter w hw with hw | rfl
  · exact h.images f hf w hw
  · rw [hdata] at hf
    obtain rfl : f = S := hf
    exact ⟨[], decode_nil, by simp, Or.inl rfl⟩

theorem DiskInv.recoverable_cut (h : DiskInv crc S gs tried d) (hdata : d.data.after = {S})
    {wal' : DiskFile} (hafter : ∀ w ∈ wal'.after, w ∈ d.wal.after ∨ w = []) :
    Recoverable crc S tried { d with wal := wal' } := by
  intro f hf w hw
  obtain ⟨gs', hdec, hval, hS⟩ := h.images_cut hdata hafter f hf w hw
  refine ⟨gs', hdec, hval, hS.imp id ?_⟩
  rintro ⟨y, hy, -, heq⟩
  exact ⟨y, hy, heq⟩

/-- The truncation has failed behind the cut. -/
theorem DiskInv.cutFailed (h : DiskInv crc S gs tried d) (hdata : d.data.after = {S})
    {wal' : DiskFile} (hafter : ∀ w ∈ wal'.after, w ∈ d.wal.after ∨ w = [])
    (hnow : wal'.now = []) :
    DiskInv crc S gs tried { d with wal := wal' } where
  valid := h.valid
  tried_valid := h.tried_valid
  data := h.data
  images := h.images_cut hdata hafter
  log := Or.inr hnow

theorem setLen_zero_after {f : DiskFile} : ∀ w ∈ (f.setLen 0).after, w ∈ f.after ∨ w = [] := by
  rintro w (hw | hw)
  · exact Or.inl hw
  · refine Or.inr ?_
    rw [Set.mem_singleton_iff.mp hw]
    simp [resize]

theorem setLen_zero_now (f : DiskFile) : (f.setLen 0).now = [] := by simp [resize]

/-- An empty WAL over a data file that is `Σ`. -/
theorem DiskInv.emptied (htried : ∀ x ∈ tried, CommittedGroup.Valid x)
    (hdata : d.data.after = {S}) (hwal : d.wal = .stable []) :
    DiskInv crc S [] tried d where
  valid := by simp
  tried_valid := htried
  data := by
    intro f hf
    rw [hdata] at hf
    exact hf
  images := by
    intro f hf w hw
    rw [hdata] at hf
    rw [hwal] at hw
    obtain rfl : f = S := hf
    obtain rfl : w = [] := hw
    exact ⟨[], decode_nil, by simp, Or.inl rfl⟩
  log := Or.inr (by rw [hwal]; rfl)

/-! ## Appending a group -/

/-- While the bytes of `x` go to the end of the log, the medium has the old groups and
any initial part of `x`. -/
theorem DiskInv.images_appending {x : CommittedGroup} (h : DiskInv crc S gs tried d)
    (hx : CommittedGroup.Valid x) {wal' : DiskFile}
    (hafter : ∀ w ∈ wal'.after, w ∈ d.wal.after ∨
      ∃ n, w = groupsBytes crc gs ++ (groupBytes crc x).take n) :
    ∀ f ∈ d.data.after, ∀ w ∈ wal'.after, ∃ gs', decode crc w = .ok gs' ∧
      (∀ g ∈ gs', CommittedGroup.Valid g) ∧ (applied f (allWrites gs') = S ∨
        ∃ y ∈ x :: tried, y ∈ gs' ∧ applied f (allWrites gs') = applied S y.writes) := by
  intro f hf w hw
  rcases hafter w hw with hw | ⟨n, rfl⟩
  · obtain ⟨gs', hdec, hval, hS⟩ := h.images f hf w hw
    refine ⟨gs', hdec, hval, hS.imp id ?_⟩
    rintro ⟨y, hy, hrest⟩
    exact ⟨y, List.mem_cons_of_mem _ hy, hrest⟩
  · rw [decode_groupsBytes_take h.valid hx]
    split
    · exact ⟨gs, rfl, h.valid, Or.inl (h.data f hf)⟩
    · refine ⟨gs ++ [x], rfl, ?_, Or.inr ⟨x, List.mem_cons_self, by simp, ?_⟩⟩
      · intro g hg
        rcases List.mem_append.mp hg with hg | hg
        · exact h.valid g hg
        · exact List.mem_singleton.mp hg ▸ hx
      · have hS : writeBlocks pageSize f (List.flatMap CommittedGroup.writes gs) = S :=
          h.data f hf
        rw [allWrites, List.flatMap_append, applied, writeBlocks_append, hS]
        simp

/-- The append has failed and the log has been cut back, or not. -/
theorem DiskInv.appendFailed {x : CommittedGroup} (h : DiskInv crc S gs tried d)
    (hx : CommittedGroup.Valid x) {wal' : DiskFile}
    (hafter : ∀ w ∈ wal'.after, w ∈ d.wal.after ∨
      ∃ n, w = groupsBytes crc gs ++ (groupBytes crc x).take n)
    (hnow : ∃ t, wal'.now = groupsBytes crc gs ++ t) :
    DiskInv crc S gs (x :: tried) { d with wal := wal' } where
  valid := h.valid
  tried_valid := by
    intro y hy
    rcases List.mem_cons.mp hy with rfl | hy
    · exact hx
    · exact h.tried_valid y hy
  data := h.data
  images := h.images_appending hx hafter
  log := Or.inl hnow

/-- The same when the last byte of the group is missing from every image: the group will
not come back. -/
theorem DiskInv.appendFailed_short {x : CommittedGroup} (h : DiskInv crc S gs tried d)
    (hx : CommittedGroup.Valid x) {wal' : DiskFile}
    (hafter : ∀ w ∈ wal'.after, w ∈ d.wal.after ∨
      ∃ n < (groupBytes crc x).length, w = groupsBytes crc gs ++ (groupBytes crc x).take n)
    (hnow : ∃ t, wal'.now = groupsBytes crc gs ++ t) :
    DiskInv crc S gs tried { d with wal := wal' } where
  valid := h.valid
  tried_valid := h.tried_valid
  data := h.data
  images := by
    intro f hf w hw
    rcases hafter w hw with hw | ⟨n, hn, rfl⟩
    · exact h.images f hf w hw
    · rw [decode_groupsBytes_take h.valid hx, if_pos hn]
      exact ⟨gs, rfl, h.valid, Or.inl (h.data f hf)⟩
  log := Or.inl hnow

/-- The append is under way. -/
theorem DiskInv.recoverable_appending {x : CommittedGroup} (h : DiskInv crc S gs tried d)
    (hx : CommittedGroup.Valid x) {wal' : DiskFile}
    (hafter : ∀ w ∈ wal'.after, w ∈ d.wal.after ∨
      ∃ n, w = groupsBytes crc gs ++ (groupBytes crc x).take n) :
    Recoverable crc S (x :: tried) { d with wal := wal' } := by
  intro f hf w hw
  obtain ⟨gs', hdec, hval, hS⟩ := h.images_appending hx hafter f hf w hw
  refine ⟨gs', hdec, hval, hS.imp id ?_⟩
  rintro ⟨y, hy, -, heq⟩
  exact ⟨y, hy, heq⟩

/-- Once the bytes of `x` are on the medium, `Σ` includes it. -/
theorem DiskInv.appended {x : CommittedGroup} (h : DiskInv crc S gs tried d)
    (hx : CommittedGroup.Valid x) :
    DiskInv crc (applied S x.writes) (gs ++ [x]) []
      { d with wal := .stable (groupsBytes crc (gs ++ [x])) } := by
  have hval : ∀ g ∈ gs ++ [x], CommittedGroup.Valid g := by
    intro g hg
    rcases List.mem_append.mp hg with hg | hg
    · exact h.valid g hg
    · exact List.mem_singleton.mp hg ▸ hx
  have hdata : ∀ f ∈ d.data.after, applied f (allWrites (gs ++ [x])) = applied S x.writes := by
    intro f hf
    have hS : writeBlocks pageSize f (List.flatMap CommittedGroup.writes gs) = S := h.data f hf
    rw [allWrites, List.flatMap_append, applied, writeBlocks_append, hS]
    simp
  refine ⟨hval, by simp, hdata, ?_, Or.inl ⟨[], by simp⟩⟩
  rintro f hf w rfl
  exact ⟨gs ++ [x], decode_groupsBytes hval, hval, Or.inl (hdata f hf)⟩

end VelociDB
