/-
# Every initial part of a log

A log written by `append_group` alone, one group after the other from an empty file, is
the stream of its groups and also the stream of their records.  Cut after any byte it
reads back as the groups that end at or before the cut, which is where their COMMIT
records end (`groupBytes_commit`), and the reader has seen exactly the records that do.

    appended log     enc r₁ … enc rₖ | enc COMMIT | enc r₁ … enc rₖ | enc COMMIT | …
    cut at n         ------------------------------------|
    records          endedBy enc n (records of all groups)
    groups           endedBy groupBytes n groups
-/
import VelociDB.Lib.Frames
import VelociDB.WalCodec

namespace VelociDB

open Bytes Frames

namespace Wal

variable {crc : Bytes → UInt32}

/-- The bytes of a group end with its COMMIT record. -/
theorem groupBytes_commit (g : CommittedGroup) :
    groupBytes crc g = (g.writes.map (pageWriteRecord g.groupId)).flatMap (encodeRecord crc) ++
      encodeRecord crc ⟨recCommit, g.groupId, []⟩ := by
  rw [groupBytes, groupRecords, List.flatMap_append, List.flatMap_singleton]

/-! ## Pass 1 on a cut log -/

theorem records_endedBy (n : Nat) {rs : List ParsedRecord} (h : ∀ r ∈ rs, ParsedRecord.Fits r) :
    records crc ((rs.flatMap (encodeRecord crc)).take n) = endedBy (encodeRecord crc) n rs := by
  induction rs generalizing n with
  | nil => simp [records, parseRecords, parseRecord]
  | cons r rs ih =>
      have hr := h r List.mem_cons_self
      rw [List.flatMap_cons, endedBy_cons]
      split
      · rename_i hn
        rw [List.take_append, List.take_of_length_le hn,
          records_of_some (parseRecord_encode hr _),
          ih _ fun x hx => h x (List.mem_cons_of_mem _ hx)]
      · rename_i hn
        rw [List.take_append_of_le_length (by omega),
          records_of_none (parseRecord_take hr (by omega))]

/-! ## Pass 2 on what it has read -/

/-- The groups come out when the records of their COMMITs are there, and what is left of
the next group emits nothing. -/
theorem collectGroups_endedBy (n : Nat) {gs : List CommittedGroup}
    (h : ∀ g ∈ gs, CommittedGroup.Valid g) (acc : List CommittedGroup) :
    collectGroups (endedBy (encodeRecord crc) n (gs.flatMap groupRecords)) ∅ acc =
      .ok (acc ++ endedBy (groupBytes crc) n gs) := by
  induction gs generalizing n acc with
  | nil => simp [collectGroups]
  | cons g gs ih =>
      have hg := h g List.mem_cons_self
      rw [List.flatMap_cons, endedBy_append, endedBy_cons]
      change collectGroups (if (groupBytes crc g).length ≤ n then _ else _) ∅ acc = _
      split
      · rw [collectGroups_group hg]
        have hrest := ih (n - (groupBytes crc g).length)
          (fun x hx => h x (List.mem_cons_of_mem _ hx)) (acc ++ [g])
        rw [List.append_assoc] at hrest
        exact hrest
      · rename_i hn
        obtain ⟨k, hk, hlt⟩ := endedBy_eq_take (encodeRecord crc) n (groupRecords g)
        rw [hk, collectGroups_take hg (hlt (by rw [← groupBytes]; omega)), List.append_nil]

theorem decode_take (n : Nat) {gs : List CommittedGroup} (h : ∀ g ∈ gs, CommittedGroup.Valid g) :
    decode crc ((groupsBytes crc gs).take n) = .ok (endedBy (groupBytes crc) n gs) := by
  rw [decode, groupsBytes_eq, records_endedBy n (Valid.flatMap_fits h),
    collectGroups_endedBy n h, List.nil_append]

/-! ## Group ids -/

theorem foldl_highest (rs : List ParsedRecord) (m : Nat) :
    m ≤ rs.foldl (fun m r => max m r.groupId) m ∧
      (∀ r ∈ rs, r.groupId ≤ rs.foldl (fun m r => max m r.groupId) m) ∧
      ∀ b, m < b → (∀ r ∈ rs, r.groupId < b) →
        rs.foldl (fun m r => max m r.groupId) m < b := by
  induction rs generalizing m with
  | nil => exact ⟨le_rfl, nofun, fun b hb _ => hb⟩
  | cons r rs ih =>
      obtain ⟨hle, hmem, hlt⟩ := ih (max m r.groupId)
      rw [List.foldl_cons]
      refine ⟨(le_max_left _ _).trans hle, fun x hx => ?_, fun b hb h => ?_⟩
      · rcases List.mem_cons.mp hx with rfl | hx
        · exact (le_max_right _ _).trans hle
        · exact hmem x hx
      · exact hlt b (max_lt hb (h r List.mem_cons_self))
          fun x hx => h x (List.mem_cons_of_mem _ hx)

/-- The next id is past every id the reader has seen. -/
theorem allocate_observe {w : WalManager} {rs : List ParsedRecord}
    (hrs : ∀ r ∈ rs, r.groupId < u64Size - 1) {r : ParsedRecord} (hr : r ∈ rs) :
    r.groupId < (w.observeGroupId (highestGroup rs)).allocateGroupId.1 := by
  obtain ⟨-, hmem, hlt⟩ := foldl_highest rs 0
  have hle : r.groupId ≤ highestGroup rs := hmem r hr
  have hhigh : highestGroup rs < u64Size - 1 := hlt _ (by decide) hrs
  simp only [WalManager.allocateGroupId, WalManager.observeGroupId]
  split
  · have hmod : (highestGroup rs + 1) % u64Size = highestGroup rs + 1 :=
      Nat.mod_eq_of_lt (by omega)
    dsimp only
    rw [hmod]
    omega
  · omega

theorem groupId_of_groupRecords {g : CommittedGroup} {r : ParsedRecord}
    (h : r ∈ groupRecords g) : r.groupId = g.groupId := by
  simp only [groupRecords, List.mem_append, List.mem_map, List.mem_singleton] at h
  rcases h with ⟨w, -, rfl⟩ | rfl
  · rfl
  · rfl

end Wal

/-! ## Writing the log -/

namespace WalManager

open Wal

variable (crc : Bytes → UInt32)

/-- `append_group` for one group after the other. -/
def appendGroups : List CommittedGroup → WalManager →
    IoProg (Except VelociError Unit × WalManager)
  | [], w => return (.ok (), w)
  | g :: gs, w => do
      let (r, w') ← w.appendGroup crc g
      match r with
      | .ok _ => appendGroups gs w'
      | .error e => return (.error e, w')

theorem appendGroup_run {g : CommittedGroup} (hg : CommittedGroup.Valid g) (w : WalManager)
    (d : Disk) :
    (w.appendGroup crc g).run Disk.perform d =
      (.ok (.ok (), { w with len := w.len + (groupBytes crc g).length }),
        { d with wal := (d.wal.writeOrdered w.len (groupBytes crc g)).sync }) := by
  rw [appendGroup, hg.no_short]
  rfl

theorem appendGroups_run {gs : List CommittedGroup} (h : ∀ g ∈ gs, CommittedGroup.Valid g)
    {w : WalManager} {d : Disk} (hlen : w.len = d.wal.now.length) :
    ∃ w' d', (appendGroups crc gs w).run Disk.perform d = (.ok (.ok (), w'), d') ∧
      d'.wal.now = d.wal.now ++ groupsBytes crc gs ∧ w'.len = d'.wal.now.length := by
  induction gs generalizing w d with
  | nil => exact ⟨w, d, rfl, by simp [groupsBytes], hlen⟩
  | cons g gs ih =>
      have hg := h g List.mem_cons_self
      have hrun := appendGroup_run crc hg w d
      have hnow : ((d.wal.writeOrdered w.len (groupBytes crc g)).sync).now =
          d.wal.now ++ groupBytes crc g := by
        rw [DiskFile.sync_now, DiskFile.writeOrdered_now, hlen, overwrite_append]
      obtain ⟨w', d', hrest, hbytes, hlen'⟩ :=
        ih (fun x hx => h x (List.mem_cons_of_mem _ hx))
          (w := { w with len := w.len + (groupBytes crc g).length })
          (d := { d with wal := (d.wal.writeOrdered w.len (groupBytes crc g)).sync })
          (by rw [hnow, List.length_append, hlen])
      refine ⟨w', d', ?_, ?_, hlen'⟩
      · rw [appendGroups]
        exact (Prog.run_bind_ok hrun).trans hrest
      · rw [hbytes, hnow, groupsBytes, groupsBytes, List.flatMap_cons, List.append_assoc]

/-! ## Reading it back -/

theorem readCommittedGroups_run (w : WalManager) (d : Disk) :
    (w.readCommittedGroups crc).run Disk.perform d =
      (.ok (decode crc d.wal.now, w.observeGroupId (highestGroup (records crc d.wal.now))), d) :=
  rfl

/-- Any first part of a log of groups appended to an empty WAL reads back as the groups
whose COMMIT ends in it, and the ids allocated next are new. -/
theorem read_of_prefix {gs : List CommittedGroup} (h : ∀ g ∈ gs, CommittedGroup.Valid g)
    {d : Disk} (hd : d.wal.now = []) :
    ∃ w d', (openWal >>= appendGroups crc gs).run Disk.perform d = (.ok (.ok (), w), d') ∧
      ∀ (n : Nat) (reader : WalManager) (cut : Disk), cut.wal.now = d'.wal.now.take n →
        ∃ w', (reader.readCommittedGroups crc).run Disk.perform cut =
            (.ok (.ok (endedBy (groupBytes crc) n gs), w'), cut) ∧
          ((∀ g ∈ gs, g.groupId < u64Size - 1) →
            ∀ r ∈ endedBy (encodeRecord crc) n (gs.flatMap groupRecords),
              r.groupId < w'.allocateGroupId.1) := by
  have hopen : openWal.run Disk.perform d = (.ok ⟨1, 0⟩, d) := by
    show (Except.ok (⟨1, d.wal.now.length⟩ : WalManager), d) = _
    rw [hd]
    rfl
  obtain ⟨w, d', hrun, hnow, -⟩ := appendGroups_run crc h (w := ⟨1, 0⟩) (d := d) (by rw [hd]; rfl)
  rw [hd, List.nil_append] at hnow
  refine ⟨w, d', (Prog.run_bind_ok hopen).trans hrun, fun n reader cut hcut => ?_⟩
  have hrecords : records crc (((gs.flatMap groupRecords).flatMap (encodeRecord crc)).take n) =
      endedBy (encodeRecord crc) n (gs.flatMap groupRecords) :=
    records_endedBy n (Valid.flatMap_fits h)
  rw [← groupsBytes_eq, ← hnow, ← hcut] at hrecords
  refine ⟨reader.observeGroupId (highestGroup (records crc cut.wal.now)), ?_, fun hids r hr => ?_⟩
  · rw [readCommittedGroups_run, hcut, hnow, decode_take n h]
  · rw [← hrecords] at hr
    refine allocate_observe (fun x hx => ?_) hr
    rw [hrecords] at hx
    obtain ⟨g, hg, hx⟩ := List.mem_flatMap.mp (mem_of_mem_endedBy _ hx)
    rw [groupId_of_groupRecords hx]
    exact hids g hg

/-- A group with a page and a group without pages. -/
def twoGroups : List CommittedGroup := [⟨7, [(3, List.replicate pageSize 0)]⟩, ⟨8, []⟩]

theorem read_of_prefix_two :
    ∃ w d', (openWal >>= appendGroups crc32 twoGroups).run Disk.perform
        ⟨.stable [], .stable []⟩ = (.ok (.ok (), w), d') ∧
      ∀ (n : Nat) (reader : WalManager) (cut : Disk), cut.wal.now = d'.wal.now.take n →
        ∃ w', (reader.readCommittedGroups crc32).run Disk.perform cut =
            (.ok (.ok (endedBy (groupBytes crc32) n twoGroups), w'), cut) ∧
          ((∀ g ∈ twoGroups, g.groupId < u64Size - 1) →
            ∀ r ∈ endedBy (encodeRecord crc32) n (twoGroups.flatMap groupRecords),
              r.groupId < w'.allocateGroupId.1) := by
  refine read_of_prefix crc32 (fun g hg => ?_) rfl
  simp only [twoGroups, List.mem_cons, List.not_mem_nil, or_false] at hg
  rcases hg with rfl | rfl
  · refine ⟨by decide, fun x hx => ?_⟩
    rw [List.mem_singleton.mp hx]
    exact ⟨by decide, List.length_replicate⟩
  · exact ⟨by decide, nofun⟩

end WalManager

end VelociDB
