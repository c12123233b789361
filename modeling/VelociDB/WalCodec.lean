/-
# Decoding undoes encoding, on every initial part of the log

Pass 1 reads back the records of complete groups one by one (`records_encode`) and
stops inside a torn one (`parseRecord_take`): the length field of a torn record is
intact once the header is, and it points past the end.  Pass 2 holds the writes of a
group back until its COMMIT, so a group whose last byte is missing contributes
nothing.  No step looks at what the checksum is a checksum of.
-/
import VelociDB.Wal

namespace VelociDB

open Bytes

namespace Wal

variable {crc : Bytes → UInt32}

/-- The sizes the record format can carry. -/
def ParsedRecord.Fits (r : ParsedRecord) : Prop :=
  r.groupId < 256 ^ 8 ∧ r.payload.length < 256 ^ 4

/-! ## One record -/

@[simp] theorem length_recordBody (r : ParsedRecord) :
    (recordBody r).length = 13 + r.payload.length := by
  simp [recordBody]
  omega

@[simp] theorem length_encodeRecord (r : ParsedRecord) :
    (encodeRecord crc r).length = 17 + r.payload.length := by
  simp [encodeRecord]
  omega

/-- The three header fields of a buffer that starts with `recordBody r`. -/
theorem header_recordBody {r : ParsedRecord} (h : ParsedRecord.Fits r) (rest : Bytes) :
    byteAt (recordBody r ++ rest) 0 = r.recType ∧
      leNat (((recordBody r ++ rest).drop 1).take 8) = r.groupId ∧
      leNat (((recordBody r ++ rest).drop 9).take 4) = r.payload.length := by
  have hshape : recordBody r ++ rest =
      r.recType :: (leBytes 8 r.groupId ++ (leBytes 4 r.payload.length ++ (r.payload ++ rest))) := by
    simp [recordBody]
  rw [hshape]
  refine ⟨rfl, ?_, ?_⟩
  · rw [List.drop_succ_cons, List.drop_zero, List.take_left' (length_leBytes 8 _)]
    exact leNat_leBytes_of_lt h.1
  · have hdrop : (r.recType :: (leBytes 8 r.groupId ++
        (leBytes 4 r.payload.length ++ (r.payload ++ rest)))).drop 9 =
        leBytes 4 r.payload.length ++ (r.payload ++ rest) := by
      rw [List.drop_succ_cons, List.drop_left' (length_leBytes 8 _)]
    rw [hdrop, List.take_left' (length_leBytes 4 _)]
    exact leNat_leBytes_of_lt h.2

theorem parseRecord_encode {r : ParsedRecord} (h : ParsedRecord.Fits r) (rest : Bytes) :
    parseRecord crc (encodeRecord crc r ++ rest) = some (r, rest) := by
  have hbuf : encodeRecord crc r ++ rest =
      recordBody r ++ (leBytes 4 (crc (recordBody r)).toNat ++ rest) := by
    simp [encodeRecord]
  obtain ⟨htype, hid, hlen⟩ := header_recordBody h (leBytes 4 (crc (recordBody r)).toNat ++ rest)
  have hbody : (recordBody r).length = 13 + r.payload.length := length_recordBody r
  have hcrc : (crc (recordBody r)).toNat < 256 ^ 4 := by
    have := (crc (recordBody r)).toNat_lt
    simpa using this
  have hpay : ((recordBody r ++ (leBytes 4 (crc (recordBody r)).toNat ++ rest)).drop 13).take
      r.payload.length = r.payload := by
    have hshape : recordBody r ++ (leBytes 4 (crc (recordBody r)).toNat ++ rest) =
        (r.recType :: (leBytes 8 r.groupId ++ leBytes 4 r.payload.length)) ++
          (r.payload ++ (leBytes 4 (crc (recordBody r)).toNat ++ rest)) := by
      simp [recordBody]
    rw [hshape, List.drop_left' (by simp), List.take_left' rfl]
  unfold parseRecord
  rw [hbuf, if_neg (by simp only [List.length_append, hbody, length_leBytes]; omega)]
  simp only [htype, hid, hlen]
  rw [if_neg (by simp only [List.length_append, hbody, length_leBytes]; omega),
    List.take_left' hbody, List.drop_left' hbody, List.take_left' (length_leBytes 4 _),
    leNat_leBytes_of_lt hcrc, if_neg (by simp), hpay]
  have hrest : (recordBody r ++ (leBytes 4 (crc (recordBody r)).toNat ++ rest)).drop
      (13 + r.payload.length + 4) = rest := by
    rw [← List.drop_drop, List.drop_left' hbody, List.drop_left' (length_leBytes 4 _)]
  rw [hrest]

/-- A record that lacks its last byte is not read. -/
theorem parseRecord_take {r : ParsedRecord} (h : ParsedRecord.Fits r) {n : Nat}
    (hn : n < (encodeRecord crc r).length) :
    parseRecord crc ((encodeRecord crc r).take n) = none := by
  have hlen : ((encodeRecord crc r).take n).length = n := by
    rw [List.length_take]
    omega
  unfold parseRecord
  by_cases h17 : n < 17
  · rw [if_pos (by omega)]
  · rw [if_neg (by omega)]
    -- the header is whole, and its length field reaches past the end
    have hfield : leNat ((((encodeRecord crc r).take n).drop 9).take 4) = r.payload.length := by
      obtain ⟨-, -, hl⟩ := header_recordBody h (leBytes 4 (crc (recordBody r)).toNat)
      rw [List.drop_take, List.take_take, Nat.min_eq_left (by omega)]
      exact hl
    rw [length_encodeRecord] at hn
    simp only [hfield]
    rw [if_pos (by omega)]

theorem parseRecord_lt {buf rest : Bytes} {r : ParsedRecord}
    (h : parseRecord crc buf = some (r, rest)) : rest.length < buf.length := by
  unfold parseRecord at h
  split at h
  · cases h
  · dsimp only at h
    split at h
    · cases h
    · split at h
      · cases h
      · obtain ⟨-, rfl⟩ := Prod.mk.inj (Option.some.inj h)
        rw [List.length_drop]
        omega

/-! ## Pass 1 -/

theorem parseRecords_fuel : ∀ (fuel : Nat) (buf : Bytes), buf.length < fuel →
    parseRecords crc fuel buf = records crc buf := by
  have key : ∀ (fuel fuel' : Nat) (buf : Bytes), buf.length < fuel → buf.length < fuel' →
      parseRecords crc fuel buf = parseRecords crc fuel' buf := by
    intro fuel
    induction fuel with
    | zero => intro _ _ h; omega
    | succ fuel ih =>
        intro fuel' buf h h'
        cases fuel' with
        | zero => omega
        | succ fuel' =>
            simp only [parseRecords]
            cases hp : parseRecord crc buf with
            | none => rfl
            | some x =>
                obtain ⟨r, rest⟩ := x
                have hlt := parseRecord_lt hp
                simp only [List.cons.injEq, true_and]
                exact ih fuel' rest (by omega) (by omega)
  intro fuel buf h
  exact key fuel (buf.length + 1) buf h (by omega)

theorem records_of_none {buf : Bytes} (h : parseRecord crc buf = none) :
    records crc buf = [] := by
  simp [records, parseRecords, h]

theorem records_of_some {buf rest : Bytes} {r : ParsedRecord}
    (h : parseRecord crc buf = some (r, rest)) :
    records crc buf = r :: records crc rest := by
  rw [records, parseRecords, h]
  simp only [List.cons.injEq, true_and]
  exact parseRecords_fuel _ _ (parseRecord_lt h)

theorem records_encode : ∀ {rs : List ParsedRecord}, (∀ r ∈ rs, ParsedRecord.Fits r) →
    ∀ tail, records crc (rs.flatMap (encodeRecord crc) ++ tail) = rs ++ records crc tail
  | [], _, tail => by simp
  | r :: rs, h, tail => by
      rw [List.flatMap_cons, List.append_assoc,
        records_of_some (parseRecord_encode (h r List.mem_cons_self) _),
        records_encode (fun x hx => h x (List.mem_cons_of_mem _ hx)) tail, List.cons_append]

/-- An initial part of encoded records reads back as an initial part of the records,
all of them only when no byte is missing. -/
theorem records_take (crc : Bytes → UInt32) :
    ∀ {rs : List ParsedRecord}, (∀ r ∈ rs, ParsedRecord.Fits r) →
    ∀ n, ∃ k, records crc ((rs.flatMap (encodeRecord crc)).take n) = rs.take k ∧
      (n < (rs.flatMap (encodeRecord crc)).length → k < rs.length)
  | [], _, n => ⟨0, by simp [records, parseRecords, parseRecord], by simp⟩
  | r :: rs, h, n => by
      have hr := h r List.mem_cons_self
      rw [List.flatMap_cons]
      by_cases hn : n < (encodeRecord crc r).length
      · refine ⟨0, ?_, fun _ => by simp⟩
        rw [List.take_append_of_le_length (by omega), records_of_none (parseRecord_take hr hn)]
        rfl
      · obtain ⟨k, hk, hlt⟩ := records_take crc (fun x hx => h x (List.mem_cons_of_mem _ hx))
          (n - (encodeRecord crc r).length)
        refine ⟨k + 1, ?_, ?_⟩
        · rw [List.take_append, List.take_of_length_le (by omega),
            records_of_some (parseRecord_encode hr _), hk, List.take_succ_cons]
        · intro hlen
          rw [List.length_append] at hlen
          have := hlt (by omega)
          simpa using this

/-! ## Pass 2 -/

/-- The groups the log can carry: ids and page ids are `u64`, pages are whole. -/
structure CommittedGroup.Valid (g : CommittedGroup) : Prop where
  id : g.groupId < 256 ^ 8
  writes : ∀ w ∈ g.writes, w.1 < 256 ^ 8 ∧ w.2.length = pageSize

theorem CommittedGroup.Valid.no_short {g : CommittedGroup} (h : CommittedGroup.Valid g) :
    g.writes.find? (fun p => p.2.length ≠ pageSize) = none := by
  rw [List.find?_eq_none]
  intro w hw
  simp [(h.writes w hw).2]

theorem CommittedGroup.Valid.fits {g : CommittedGroup} (h : CommittedGroup.Valid g) :
    ∀ r ∈ groupRecords g, ParsedRecord.Fits r := by
  intro r hr
  simp only [groupRecords, List.mem_append, List.mem_map, List.mem_singleton] at hr
  rcases hr with ⟨w, hw, rfl⟩ | rfl
  · refine ⟨h.id, ?_⟩
    simp [pageWriteRecord, (h.writes w hw).2, pageSize]
  · exact ⟨h.id, by simp⟩

theorem collectGroups_pageWrite {g : Nat} {w : Nat × Bytes} (hid : w.1 < 256 ^ 8)
    (hlen : w.2.length = pageSize) (rest : List ParsedRecord) (pending : PendingWrites)
    (acc : List CommittedGroup) :
    collectGroups (pageWriteRecord g w :: rest) pending acc =
      collectGroups rest (pending.insert g (pending[g]?.getD [] ++ [w])) acc := by
  rw [collectGroups]
  have htype : (pageWriteRecord g w).recType = recPageWrite := rfl
  have hpay : (pageWriteRecord g w).payload = leBytes 8 w.1 ++ w.2 := rfl
  have hgid : (pageWriteRecord g w).groupId = g := rfl
  rw [if_pos htype, hpay, hgid, if_neg (by simp [hlen]), List.take_left' (length_leBytes 8 _),
    List.drop_left' (length_leBytes 8 _), leNat_leBytes_of_lt hid,
    List.take_of_length_le (by omega)]

/-- The writes of one group pile up under its id. -/
theorem collectGroups_pageWrites {g : Nat} : ∀ (ws : List (Nat × Bytes)),
    (∀ w ∈ ws, w.1 < 256 ^ 8 ∧ w.2.length = pageSize) →
    ∀ (rest : List ParsedRecord) (pending : PendingWrites) (acc : List CommittedGroup),
      collectGroups (ws.map (pageWriteRecord g) ++ rest) pending acc =
        collectGroups rest (if ws = [] then pending
          else pending.insert g (pending[g]?.getD [] ++ ws)) acc
  | [], _, rest, pending, acc => by simp
  | w :: ws, h, rest, pending, acc => by
      have hw := h w List.mem_cons_self
      rw [List.map_cons, List.cons_append, collectGroups_pageWrite hw.1 hw.2,
        collectGroups_pageWrites ws (fun x hx => h x (List.mem_cons_of_mem _ hx)),
        if_neg (List.cons_ne_nil w ws)]
      congr 1
      split
      · rename_i hnil
        rw [hnil]
      · apply Std.ExtTreeMap.ext_getElem?
        intro k
        simp only [Std.ExtTreeMap.getElem?_insert]
        split <;> simp

/-- A complete group is emitted and leaves nothing behind. -/
theorem collectGroups_group {g : CommittedGroup} (h : CommittedGroup.Valid g)
    (rest : List ParsedRecord) (acc : List CommittedGroup) :
    collectGroups (groupRecords g ++ rest) ∅ acc = collectGroups rest ∅ (acc ++ [g]) := by
  rw [groupRecords, List.append_assoc, collectGroups_pageWrites g.writes h.writes,
    List.singleton_append, collectGroups]
  have hpw : recCommit ≠ recPageWrite := by decide
  rw [if_neg hpw, if_pos rfl]
  by_cases hnil : g.writes = []
  · rw [if_pos hnil]
    have hg : (⟨g.groupId, []⟩ : CommittedGroup) = g := by rw [← hnil]
    simp [hg]
  · rw [if_neg hnil]
    congr 1
    · apply Std.ExtTreeMap.ext_getElem?
      intro k
      simp only [Std.ExtTreeMap.getElem?_erase, Std.ExtTreeMap.getElem?_insert]
      split <;> simp
    · simp

theorem collectGroups_groups : ∀ {gs : List CommittedGroup},
    (∀ g ∈ gs, CommittedGroup.Valid g) →
    ∀ (rest : List ParsedRecord) (acc : List CommittedGroup),
      collectGroups (gs.flatMap groupRecords ++ rest) ∅ acc =
        collectGroups rest ∅ (acc ++ gs)
  | [], _, rest, acc => by simp
  | g :: gs, h, rest, acc => by
      rw [List.flatMap_cons, List.append_assoc, collectGroups_group (h g List.mem_cons_self),
        collectGroups_groups (fun x hx => h x (List.mem_cons_of_mem _ hx))]
      simp

/-- Without its COMMIT a group emits nothing. -/
theorem collectGroups_take {g : CommittedGroup} (h : CommittedGroup.Valid g) {k : Nat}
    (hk : k < (groupRecords g).length) (acc : List CommittedGroup) :
    collectGroups ((groupRecords g).take k) ∅ acc = .ok acc := by
  have hlen : k ≤ (g.writes.map (pageWriteRecord g.groupId)).length := by
    simp only [groupRecords, List.length_append, List.length_map, List.length_singleton] at hk
    rw [List.length_map]
    omega
  have hws : ∀ w ∈ g.writes.take k, w.1 < 256 ^ 8 ∧ w.2.length = pageSize :=
    fun w hw => h.writes w (List.mem_of_mem_take hw)
  rw [groupRecords, List.take_append_of_le_length hlen, ← List.map_take,
    ← List.append_nil ((g.writes.take k).map _), collectGroups_pageWrites _ hws]
  rfl

/-! ## The whole log -/

theorem groupsBytes_eq (gs : List CommittedGroup) :
    groupsBytes crc gs = (gs.flatMap groupRecords).flatMap (encodeRecord crc) := by
  rw [groupsBytes, List.flatMap_assoc]
  rfl

theorem Valid.flatMap_fits {gs : List CommittedGroup} (h : ∀ g ∈ gs, CommittedGroup.Valid g) :
    ∀ r ∈ gs.flatMap groupRecords, ParsedRecord.Fits r := by
  intro r hr
  obtain ⟨g, hg, hr⟩ := List.mem_flatMap.mp hr
  exact (h g hg).fits r hr

/-- Complete groups decode to themselves, followed by whatever comes after them. -/
theorem decode_groupsBytes_append {gs : List CommittedGroup}
    (h : ∀ g ∈ gs, CommittedGroup.Valid g) (tail : Bytes) :
    decode crc (groupsBytes crc gs ++ tail) = collectGroups (records crc tail) ∅ gs := by
  rw [decode, groupsBytes_eq, records_encode (Valid.flatMap_fits h), collectGroups_groups h,
    List.nil_append]

theorem decode_groupsBytes {gs : List CommittedGroup} (h : ∀ g ∈ gs, CommittedGroup.Valid g) :
    decode crc (groupsBytes crc gs) = .ok gs := by
  rw [← List.append_nil (groupsBytes crc gs), decode_groupsBytes_append h]
  rfl

/-- A log of complete groups followed by an initial part of one more group decodes to
the complete ones, the last included exactly when all of its bytes are there. -/
theorem decode_groupsBytes_take {gs : List CommittedGroup} {x : CommittedGroup}
    (h : ∀ g ∈ gs, CommittedGroup.Valid g) (hx : CommittedGroup.Valid x) (n : Nat) :
    decode crc (groupsBytes crc gs ++ (groupBytes crc x).take n) =
      .ok (if n < (groupBytes crc x).length then gs else gs ++ [x]) := by
  split
  · rename_i hn
    obtain ⟨k, hk, hlt⟩ := records_take crc hx.fits n
    rw [decode_groupsBytes_append h, groupBytes, hk, collectGroups_take hx (hlt hn)]
  · rename_i hn
    have hall : groupsBytes crc gs ++ (groupBytes crc x).take n =
        groupsBytes crc (gs ++ [x]) := by
      rw [List.take_of_length_le (by omega)]
      simp [groupsBytes]
    rw [hall, decode_groupsBytes]
    intro g hg
    rcases List.mem_append.mp hg with hg | hg
    · exact h g hg
    · rw [List.mem_singleton.mp hg]
      exact hx

/-- Every group takes at least the bytes of its COMMIT. -/
theorem length_groupBytes (g : CommittedGroup) : 17 ≤ (groupBytes crc g).length := by
  simp only [groupBytes, groupRecords, List.flatMap_append, List.length_append,
    List.flatMap_singleton, length_encodeRecord]
  omega

end Wal

end VelociDB
