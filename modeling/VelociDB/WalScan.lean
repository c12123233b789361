/-
# Scanning arbitrary bytes

`scan` is `read_committed_groups` with its cursor and its slices as the source has them,
a slice outside the data being a panic.  On every byte string it stops after at most one
round a byte, no slice is out of range, and it computes `decode` (`scan_eq`).

What it reads does not depend on how it reads:

    pass 1   the leading run of whole records with a matching checksum (`leading_records`);
             two files with the same leading run read the same
    pass 2   at each COMMIT, the writes logged under its group id since the last COMMIT
             with that id (`collectGroups_eq`)

Group ids may repeat and interleave: a write belongs to the first COMMIT of its id after
it, so it is returned at most once.
-/
import VelociDB.Slices
import VelociDB.WalCodec

namespace VelociDB

open Bytes

namespace Wal

variable (crc : Bytes → UInt32)

/-! ## The scan of the source -/

/-- One round of pass 1; `none` is a `break`, otherwise the record and the next cursor. -/
def readRecord (buf : Bytes) (cursor : Nat) : Except Fault (Option (ParsedRecord × Nat)) := do
  if buf.length < cursor + 1 + 8 + 4 + 4 then return none
  let recType ← readLe 1 buf cursor
  let groupId ← readLe 8 buf (cursor + 1)
  let len ← readLe 4 buf (cursor + 9)
  let payloadStart := cursor + 13
  let payloadEnd := payloadStart + len
  let crcEnd := payloadEnd + 4
  if buf.length < crcEnd then return none
  let payload ← slice buf payloadStart len
  let storedCrc ← readLe 4 buf payloadEnd
  let covered ← slice buf cursor (payloadEnd - cursor)
  if (crc covered).toNat ≠ storedCrc then return none
  return some (⟨UInt8.ofNat recType, groupId, payload⟩, crcEnd)

/-- The loop of pass 1; `none` when the fuel runs out before the loop ends. -/
def readRecords (buf : Bytes) : Nat → Nat → List ParsedRecord →
    Option (Except Fault (List ParsedRecord))
  | 0, _, _ => none
  | fuel + 1, cursor, records =>
      if cursor < buf.length then
        match readRecord crc buf cursor with
        | .error e => some (.error e)
        | .ok none => some (.ok records)
        | .ok (some (r, next)) => readRecords buf fuel next (records ++ [r])
      else some (.ok records)

/-- The page write in the payload of a PAGE_WRITE. -/
def readPageWrite (payload : Bytes) : Except Fault (Nat × Bytes) := do
  if payload.length < 8 + pageSize then
    throw (.error (.corruption s!"WAL PAGE_WRITE record too short: {payload.length} bytes"))
  let pageId ← readLe 8 payload 0
  let data ← slice payload 8 pageSize
  return (pageId, data)

/-- Pass 2. -/
def commitGroups : List ParsedRecord → PendingWrites → List CommittedGroup →
    Except Fault (List CommittedGroup)
  | [], _, committed => .ok committed
  | r :: rest, pending, committed =>
      if r.recType = recPageWrite then do
        let w ← readPageWrite r.payload
        commitGroups rest (pending.insert r.groupId (pending[r.groupId]?.getD [] ++ [w])) committed
      else if r.recType = recCommit then
        commitGroups rest (pending.erase r.groupId)
          (committed ++ [⟨r.groupId, pending[r.groupId]?.getD []⟩])
      else .error (.error (.corruption s!"Unknown WAL record type: {r.recType}"))

/-- Both passes. -/
def scan (fuel : Nat) (buf : Bytes) : Option (Except Fault (List CommittedGroup)) :=
  (readRecords crc buf fuel 0 []).map fun r => r >>= fun rs => commitGroups rs ∅ []

variable {crc}

/-! ## The record at the front -/

theorem leBytes_word {buf : Bytes} {o n : Nat} (h : o + n ≤ buf.length) :
    leBytes n (leNat ((buf.drop o).take n)) = (buf.drop o).take n := by
  have hlen : ((buf.drop o).take n).length = n := by
    rw [List.length_take, List.length_drop]
    omega
  have hback := leBytes_leNat ((buf.drop o).take n)
  rwa [hlen] at hback

/-- The fields at the front of a buffer spell its first bytes. -/
theorem recordBody_front {buf : Bytes} {len : Nat} (hlen : leNat ((buf.drop 9).take 4) = len)
    (h : 13 + len ≤ buf.length) :
    ParsedRecord.Fits ⟨byteAt buf 0, leNat ((buf.drop 1).take 8), (buf.drop 13).take len⟩ ∧
      recordBody ⟨byteAt buf 0, leNat ((buf.drop 1).take 8), (buf.drop 13).take len⟩ =
        buf.take (13 + len) := by
  have hpay : ((buf.drop 13).take len).length = len := by
    rw [List.length_take, List.length_drop]
    omega
  have hword : leBytes 4 len = (buf.drop 9).take 4 := by
    rw [← hlen, leBytes_word (by omega)]
  have htype : buf.take 1 = [byteAt buf 0] := by
    cases buf with
    | nil => exact absurd h (by simp)
    | cons b buf => rfl
  refine ⟨⟨?_, ?_⟩, ?_⟩
  · have hlt := leNat_lt ((buf.drop 1).take 8)
    exact hlt.trans_le (Nat.pow_le_pow_right (by decide) (List.length_take_le _ _))
  · have hlt := leNat_lt ((buf.drop 9).take 4)
    rw [hlen] at hlt
    rw [hpay]
    exact hlt.trans_le (Nat.pow_le_pow_right (by decide) (List.length_take_le _ _))
  · rw [recordBody, hpay, hword, leBytes_word (by omega : 1 + 8 ≤ buf.length), List.take_add,
      show (13 : Nat) = 1 + 8 + 4 from rfl, List.take_add (i := 1 + 8), List.take_add, htype]
    simp

/-- What is read at the front is the encoding of the record, so the record's checksum
matches. -/
theorem parseRecord_iff {buf rest : Bytes} {r : ParsedRecord} :
    parseRecord crc buf = some (r, rest) ↔
      ParsedRecord.Fits r ∧ buf = encodeRecord crc r ++ rest := by
  constructor
  · intro h
    unfold parseRecord at h
    split at h
    · cases h
    dsimp only at h
    generalize hlen : leNat ((buf.drop 9).take 4) = len at h
    split at h
    · cases h
    rename_i htorn
    split at h
    · cases h
    rename_i hcrc
    obtain ⟨rfl, rfl⟩ := Prod.mk.inj (Option.some.inj h)
    obtain ⟨hfits, hbody⟩ := recordBody_front hlen (by omega)
    have hstored : leBytes 4 (crc (buf.take (13 + len))).toNat = (buf.drop (13 + len)).take 4 := by
      rw [not_not.mp hcrc, leBytes_word (by omega)]
    exact ⟨hfits, by
      rw [encodeRecord, hbody, hstored, ← List.take_add, List.take_append_drop]⟩
  · rintro ⟨hfits, rfl⟩
    exact parseRecord_encode hfits rest

theorem parseRecord_suffix {buf rest : Bytes} {r : ParsedRecord}
    (h : parseRecord crc buf = some (r, rest)) : rest <:+ buf :=
  ⟨_, (parseRecord_iff.mp h).2.symm⟩

/-! ## The scan stays inside the file -/

theorem ofNat_leNat_one (bs : Bytes) : UInt8.ofNat (leNat (bs.take 1)) = byteAt bs 0 := by
  cases bs with
  | nil => rfl
  | cons b bs => simp [leNat, byteAt]

theorem readRecord_eq (buf : Bytes) (cursor : Nat) :
    readRecord crc buf cursor = .ok ((parseRecord crc (buf.drop cursor)).map fun x =>
      (x.1, buf.length - x.2.length)) := by
  unfold readRecord parseRecord
  rw [List.length_drop]
  by_cases h17 : buf.length < cursor + 1 + 8 + 4 + 4
  · rw [if_pos h17, if_pos (by omega)]
    rfl
  · rw [if_neg h17, if_neg (by omega)]
    rw [readLe_ok (by omega : cursor + 1 ≤ buf.length),
      readLe_ok (by omega : cursor + 1 + 8 ≤ buf.length),
      readLe_ok (by omega : cursor + 9 + 4 ≤ buf.length)]
    simp only [ok_bind_fault, List.drop_drop]
    generalize hlen : leNat ((buf.drop (cursor + 9)).take 4) = len
    by_cases htorn : buf.length < cursor + 13 + len + 4
    · rw [if_pos htorn, if_pos (by omega)]
      rfl
    · rw [if_neg htorn, if_neg (by omega), slice_ok (by omega : cursor + 13 + len ≤ buf.length),
        readLe_ok (by omega : cursor + 13 + len + 4 ≤ buf.length), slice_ok (by omega),
        ofNat_leNat_one]
      simp only [ok_bind_fault]
      have hcovered : cursor + 13 + len - cursor = 13 + len := by omega
      have hnext : buf.length - (buf.length - (cursor + (13 + len + 4))) = cursor + 13 + len + 4 := by
        omega
      rw [hcovered, ← Nat.add_assoc cursor 13 len]
      split
      · rfl
      · rw [Option.map_some, List.length_drop, hnext]
        rfl

/-- Pass 1, from a cursor on, reads the records of the rest of the file. -/
theorem readRecords_eq (buf : Bytes) : ∀ (fuel cursor : Nat) (rs : List ParsedRecord),
    buf.length - cursor < fuel →
    readRecords crc buf fuel cursor rs = some (.ok (rs ++ records crc (buf.drop cursor))) := by
  intro fuel
  induction fuel with
  | zero => intro _ _ h; omega
  | succ fuel ih =>
      intro cursor rs hfuel
      rw [readRecords]
      split
      · rename_i hin
        rw [readRecord_eq]
        cases hp : parseRecord crc (buf.drop cursor) with
        | none => simp [records_of_none hp]
        | some x =>
            obtain ⟨r, rest⟩ := x
            have hlt := parseRecord_lt hp
            rw [List.length_drop] at hlt
            have hrest : rest = buf.drop (buf.length - rest.length) :=
              List.suffix_iff_eq_drop.mp
                ((parseRecord_suffix hp).trans (List.drop_suffix cursor buf))
            dsimp only [Option.map_some]
            rw [ih _ _ (by omega), ← hrest, records_of_some hp, List.append_assoc,
              List.singleton_append]
      · rename_i hout
        rw [List.drop_eq_nil_of_le (by omega), records_of_none (by simp [parseRecord]),
          List.append_nil]

theorem readPageWrite_ok {payload : Bytes} (h : ¬ payload.length < 8 + pageSize) :
    readPageWrite payload = .ok (leNat (payload.take 8), (payload.drop 8).take pageSize) := by
  rw [readPageWrite, if_neg h, readLe_ok (by omega), slice_ok (by omega)]
  rfl

theorem commitGroups_eq (rs : List ParsedRecord) (pending : PendingWrites)
    (committed : List CommittedGroup) :
    commitGroups rs pending committed = (collectGroups rs pending committed).mapError .error := by
  induction rs generalizing pending committed with
  | nil => rfl
  | cons r rs ih =>
      rw [commitGroups, collectGroups]
      split
      · by_cases hshort : r.payload.length < 8 + pageSize
        · rw [if_pos hshort, readPageWrite, if_pos hshort]
          rfl
        · rw [if_neg hshort, readPageWrite_ok hshort, ok_bind_fault]
          exact ih _ _
      · split
        · exact ih _ _
        · rfl

/-- The scan ends, no slice of it is out of range, and it computes `decode`. -/
theorem scan_eq {buf : Bytes} {fuel : Nat} (h : buf.length < fuel) :
    scan crc fuel buf = some ((decode crc buf).mapError .error) := by
  rw [scan, readRecords_eq buf fuel 0 [] (by omega), Option.map_some, ok_bind_fault,
    commitGroups_eq, List.nil_append, List.drop_zero]
  rfl

/-! ## Pass 1: the leading run -/

/-- A record whose stored checksum is not its own. -/
def Invalid (crc : Bytes → UInt32) (bad : Bytes) : Prop :=
  ∃ r stored, ParsedRecord.Fits r ∧ stored.length = 4 ∧
    stored ≠ leBytes 4 (crc (recordBody r)).toNat ∧ bad = recordBody r ++ stored

/-- `rs` are the records of the file up to the first place where no whole record with a
matching checksum stands. -/
structure LeadingRun (crc : Bytes → UInt32) (buf : Bytes) (rs : List ParsedRecord)
    (rest : Bytes) : Prop where
  split : buf = rs.flatMap (encodeRecord crc) ++ rest
  fits : ∀ r ∈ rs, ParsedRecord.Fits r
  ends : ∀ r tail, ParsedRecord.Fits r → rest ≠ encodeRecord crc r ++ tail

theorem parseRecord_none {rest : Bytes}
    (h : ∀ r tail, ParsedRecord.Fits r → rest ≠ encodeRecord crc r ++ tail) :
    parseRecord crc rest = none := by
  cases hp : parseRecord crc rest with
  | none => rfl
  | some x =>
      obtain ⟨hfits, heq⟩ := parseRecord_iff.mp hp
      exact absurd heq (h _ _ hfits)

/-- Every file has a leading run, and it is what pass 1 returns. -/
theorem leading_records (crc : Bytes → UInt32) (buf : Bytes) :
    ∃ rest, LeadingRun crc buf (records crc buf) rest := by
  induction hn : buf.length using Nat.strongRecOn generalizing buf with
  | ind n ih =>
      subst hn
      cases hp : parseRecord crc buf with
      | none =>
          refine ⟨buf, by rw [records_of_none hp]; rfl, by rw [records_of_none hp]; nofun, ?_⟩
          rintro r tail hfits rfl
          rw [parseRecord_encode hfits] at hp
          cases hp
      | some x =>
          obtain ⟨r, after⟩ := x
          obtain ⟨hfits, heq⟩ := parseRecord_iff.mp hp
          obtain ⟨rest, L⟩ := ih _ (parseRecord_lt hp) after rfl
          rw [records_of_some hp]
          refine ⟨rest, ?_, ?_, L.ends⟩
          · rw [List.flatMap_cons, List.append_assoc, ← L.split, heq]
          · intro x hx
            rcases List.mem_cons.mp hx with rfl | hx
            · exact hfits
            · exact L.fits x hx

theorem LeadingRun.records {buf rest : Bytes} {rs : List ParsedRecord}
    (L : LeadingRun crc buf rs rest) : Wal.records crc buf = rs := by
  rw [L.split, records_encode L.fits, records_of_none (parseRecord_none L.ends), List.append_nil]

/-- A record that fails its checksum ends the run, whatever follows it. -/
theorem LeadingRun.of_invalid {rs : List ParsedRecord} {bad : Bytes}
    (h : ∀ r ∈ rs, ParsedRecord.Fits r) (hbad : Invalid crc bad) (tail : Bytes) :
    LeadingRun crc (rs.flatMap (encodeRecord crc) ++ (bad ++ tail)) rs (bad ++ tail) := by
  refine ⟨rfl, h, ?_⟩
  rintro x after hx heq
  obtain ⟨r, stored, hr, hlen, hne, rfl⟩ := hbad
  -- both headers say how long the record is, so the checksums stand at one place
  have hleft := header_recordBody hr (stored ++ tail)
  have hright := header_recordBody hx (leBytes 4 (crc (recordBody x)).toNat ++ after)
  rw [List.append_assoc, encodeRecord, List.append_assoc] at heq
  rw [heq] at hleft
  have hlength : (recordBody r).length = (recordBody x).length := by
    rw [length_recordBody, length_recordBody, ← hleft.2.2, hright.2.2]
  obtain ⟨hbody, hrest⟩ := List.append_inj heq hlength
  obtain ⟨hstored, -⟩ := List.append_inj hrest (by rw [hlen, length_leBytes])
  exact hne (by rw [hstored, hbody])

/-- The file ends before the record at the front does. -/
def Truncated (rest : Bytes) : Prop :=
  rest.length < 17 ∨ rest.length < 17 + leNat ((rest.drop 9).take 4)

/-! ## Pass 2: which COMMIT a write belongs to -/

/-- The page write in a PAGE_WRITE record. -/
def pageWriteOf (r : ParsedRecord) : Nat × Bytes :=
  (leNat (r.payload.take 8), (r.payload.drop 8).take pageSize)

/-- The writes logged under a group id among the first `n` records and after the last COMMIT
of that id there. -/
def openWrites (rs : List ParsedRecord) (id : Nat) : Nat → List Nat
  | 0 => []
  | n + 1 =>
      match rs[n]? with
      | none => openWrites rs id n
      | some r =>
          if r.groupId ≠ id then openWrites rs id n
          else if r.recType = recPageWrite then openWrites rs id n ++ [n]
          else if r.recType = recCommit then []
          else openWrites rs id n

/-- The writes at the given places. -/
def writesAt (rs : List ParsedRecord) (places : List Nat) : List (Nat × Bytes) :=
  places.filterMap fun k => rs[k]?.map pageWriteOf

/-- The group a COMMIT at place `n` ends. -/
def groupAt (rs : List ParsedRecord) (n : Nat) : Option CommittedGroup :=
  match rs[n]? with
  | none => none
  | some r => if r.recType = recCommit
      then some ⟨r.groupId, writesAt rs (openWrites rs r.groupId n)⟩ else none

section Places

variable {rs : List ParsedRecord} {id n : Nat} {r : ParsedRecord}

theorem openWrites_other (hr : rs[n]? = some r) (h : r.groupId ≠ id) :
    openWrites rs id (n + 1) = openWrites rs id n := by
  simp [openWrites, hr, h]

theorem openWrites_write (hr : rs[n]? = some r) (h : r.recType = recPageWrite) :
    openWrites rs r.groupId (n + 1) = openWrites rs r.groupId n ++ [n] := by
  simp [openWrites, hr, h]

theorem openWrites_commit (hr : rs[n]? = some r) (h : r.recType = recCommit) :
    openWrites rs r.groupId (n + 1) = [] := by
  have hne : recCommit ≠ recPageWrite := by decide
  simp [openWrites, hr, h, hne]

theorem writesAt_append (hr : rs[n]? = some r) (places : List Nat) :
    writesAt rs (places ++ [n]) = writesAt rs places ++ [pageWriteOf r] := by
  simp [writesAt, List.filterMap_append, hr]

theorem groupAt_write (hr : rs[n]? = some r) (h : r.recType = recPageWrite) :
    groupAt rs n = none := by
  have hne : recPageWrite ≠ recCommit := by decide
  simp [groupAt, hr, h, hne]

theorem groupAt_commit (hr : rs[n]? = some r) (h : r.recType = recCommit) :
    groupAt rs n = some ⟨r.groupId, writesAt rs (openWrites rs r.groupId n)⟩ := by
  simp [groupAt, hr, h]

end Places

/-- What pass 2 returns, unless a record is malformed. -/
theorem collectGroups_from {rs : List ParsedRecord} : ∀ (rest : List ParsedRecord) (n : Nat)
    (pending : PendingWrites) (acc gs : List CommittedGroup), rest = rs.drop n →
    (∀ id, pending[id]?.getD [] = writesAt rs (openWrites rs id n)) →
    collectGroups rest pending acc = .ok gs →
    gs = acc ++ (List.range' n rest.length).filterMap (groupAt rs) := by
  intro rest
  induction rest with
  | nil =>
      intro n pending acc gs _ _ h
      rw [← Except.ok.inj h]
      simp
  | cons r rest ih =>
      intro n pending acc gs hrest hpending h
      have hr : rs[n]? = some r := by
        have hhead := congrArg (·[0]?) hrest
        simpa using hhead.symm
      have htail : rest = rs.drop (n + 1) := by
        rw [← List.drop_drop, ← hrest]
        rfl
      rw [List.length_cons, List.range'_succ, List.filterMap_cons]
      rw [collectGroups] at h
      split at h
      · rename_i hwrite
        split at h
        · cases h
        rw [groupAt_write hr hwrite]
        refine ih (n + 1) _ acc gs htail (fun id => ?_) h
        rw [Std.ExtTreeMap.getElem?_insert]
        by_cases hid : r.groupId = id
        · subst hid
          rw [openWrites_write hr hwrite, writesAt_append hr, ← hpending]
          simp [pageWriteOf]
        · rw [openWrites_other hr hid, if_neg (by simpa using hid), hpending]
      · split at h
        · rename_i hcommit
          have hgs := ih (n + 1) _ _ gs htail (fun id => ?_) h
          · rw [groupAt_commit hr hcommit, hgs, hpending]
            simp
          · rw [Std.ExtTreeMap.getElem?_erase]
            by_cases hid : r.groupId = id
            · subst hid
              rw [openWrites_commit hr hcommit]
              simp [writesAt]
            · rw [openWrites_other hr hid, if_neg (by simpa using hid), hpending]
        · cases h

theorem payload_of_collectGroups {rs : List ParsedRecord} {pending : PendingWrites}
    {acc gs : List CommittedGroup} (h : collectGroups rs pending acc = .ok gs) :
    ∀ r ∈ rs, r.recType = recPageWrite → 8 + pageSize ≤ r.payload.length := by
  induction rs generalizing pending acc with
  | nil => exact nofun
  | cons r rs ih =>
      intro x hx htype
      rw [collectGroups] at h
      split at h
      · split at h
        · cases h
        rename_i hlong
        rcases List.mem_cons.mp hx with rfl | hx
        · omega
        · exact ih h x hx htype
      · rename_i hother
        split at h
        · rcases List.mem_cons.mp hx with rfl | hx
          · exact absurd htype hother
          · exact ih h x hx htype
        · cases h

/-- The groups returned, one for each COMMIT in the order of the COMMITs. -/
theorem collectGroups_eq {rs : List ParsedRecord} {gs : List CommittedGroup}
    (h : collectGroups rs ∅ [] = .ok gs) :
    gs = (List.range rs.length).filterMap (groupAt rs) := by
  have hgs := collectGroups_from rs 0 ∅ [] gs rfl (fun id => by simp [openWrites, writesAt]) h
  rw [hgs, List.nil_append, List.range_eq_range']

/-- A write that is still open has not been committed since. -/
theorem mem_openWrites {rs : List ParsedRecord} {id n k : Nat} (h : k ∈ openWrites rs id n) :
    k < n ∧ (∃ r, rs[k]? = some r ∧ r.recType = recPageWrite ∧ r.groupId = id) ∧
      ∀ j r, k < j → j < n → rs[j]? = some r → r.groupId = id → r.recType ≠ recCommit := by
  induction n with
  | zero => cases h
  | succ n ih =>
      have hkeep (h : k ∈ openWrites rs id n)
          (hn : ∀ r, rs[n]? = some r → r.groupId = id → r.recType ≠ recCommit) :
          k < n + 1 ∧ (∃ r, rs[k]? = some r ∧ r.recType = recPageWrite ∧ r.groupId = id) ∧
            ∀ j r, k < j → j < n + 1 → rs[j]? = some r → r.groupId = id →
              r.recType ≠ recCommit := by
        obtain ⟨hlt, hrec, hbetween⟩ := ih h
        refine ⟨by omega, hrec, fun j r hkj hj hr hid => ?_⟩
        by_cases hjn : j = n
        · subst hjn
          exact hn r hr hid
        · exact hbetween j r hkj (by omega) hr hid
      cases hr : rs[n]? with
      | none =>
          rw [openWrites, hr] at h
          exact hkeep h (fun r hr' => by rw [hr] at hr'; cases hr')
      | some r =>
          have hsame {x : ParsedRecord} (hx : rs[n]? = some x) : x = r :=
            Option.some.inj (hx.symm.trans hr)
          by_cases hid : r.groupId = id
          · subst hid
            by_cases hwrite : r.recType = recPageWrite
            · rw [openWrites_write hr hwrite, List.mem_append, List.mem_singleton] at h
              rcases h with h | rfl
              · refine hkeep h fun x hx _ => ?_
                rw [hsame hx, hwrite]
                decide
              · exact ⟨by omega, ⟨r, hr, hwrite, rfl⟩, fun j _ hkj hj => by omega⟩
            · by_cases hcommit : r.recType = recCommit
              · rw [openWrites_commit hr hcommit] at h
                cases h
              · have hstay : openWrites rs r.groupId (n + 1) = openWrites rs r.groupId n := by
                  simp [openWrites, hr, hwrite, hcommit]
                rw [hstay] at h
                refine hkeep h fun x hx _ => ?_
                rw [hsame hx]
                exact hcommit
          · rw [openWrites_other hr hid] at h
            refine hkeep h fun x hx hxid => ?_
            rw [hsame hx] at hxid
            exact absurd hxid hid

theorem openWrites_nodup (rs : List ParsedRecord) (id n : Nat) : (openWrites rs id n).Nodup := by
  induction n with
  | zero => exact List.nodup_nil
  | succ n ih =>
      rw [openWrites]
      split
      · exact ih
      · split
        · exact ih
        · split
          · refine List.Nodup.append ih (List.nodup_singleton n) ?_
            intro k hk hn
            rw [List.mem_singleton] at hn
            have := (mem_openWrites hk).1
            omega
          · split
            · exact List.nodup_nil
            · exact ih

/-! ## Where the groups come from -/

/-- The places of a group's COMMIT and of its PAGE_WRITEs. -/
structure Origin where
  commit : Nat
  writes : List Nat

/-- The group was read from these places. -/
structure Origin.Gives (rs : List ParsedRecord) (o : Origin) (g : CommittedGroup) : Prop where
  commit : ∃ r, rs[o.commit]? = some r ∧ r.recType = recCommit ∧ r.groupId = g.groupId
  writes : List.Forall₂ (fun k w => k < o.commit ∧ w.2.length = pageSize ∧
    ∃ r, rs[k]? = some r ∧ r.recType = recPageWrite ∧ r.groupId = g.groupId ∧
      w = pageWriteOf r) o.writes g.writes

/-- Every group comes from a COMMIT, in order, and every write from a PAGE_WRITE before it
that no other write comes from. -/
def Attributed (rs : List ParsedRecord) (gs : List CommittedGroup) : Prop :=
  ∃ os : List Origin, List.Forall₂ (Origin.Gives rs) os gs ∧
    (os.map (·.commit)).Pairwise (· < ·) ∧ (os.flatMap (·.writes)).Nodup

/-- The origin of the group that ends at place `n`. -/
def originAt (rs : List ParsedRecord) (n : Nat) : Option Origin :=
  (groupAt rs n).map fun g => ⟨n, openWrites rs g.groupId n⟩

theorem originAt_some {rs : List ParsedRecord} {n : Nat} {o : Origin} (h : originAt rs n = some o) :
    ∃ r, rs[n]? = some r ∧ r.recType = recCommit ∧ o = ⟨n, openWrites rs r.groupId n⟩ := by
  rw [originAt, groupAt] at h
  split at h
  · cases h
  · rename_i r hr
    split at h
    · rename_i hcommit
      exact ⟨r, hr, hcommit, (Option.some.inj h).symm⟩
    · cases h

theorem gives_at {rs : List ParsedRecord} {n : Nat} {r : ParsedRecord}
    (hlong : ∀ r ∈ rs, r.recType = recPageWrite → 8 + pageSize ≤ r.payload.length)
    (hr : rs[n]? = some r) (hcommit : r.recType = recCommit) :
    Origin.Gives rs ⟨n, openWrites rs r.groupId n⟩
      ⟨r.groupId, writesAt rs (openWrites rs r.groupId n)⟩ := by
  refine ⟨⟨r, hr, hcommit, rfl⟩, ?_⟩
  have hopen := fun k (hk : k ∈ openWrites rs r.groupId n) => mem_openWrites hk
  generalize openWrites rs r.groupId n = places at hopen
  induction places with
  | nil => exact .nil
  | cons k places ih =>
      obtain ⟨hlt, ⟨x, hx, hwrite, hid⟩, -⟩ := hopen k List.mem_cons_self
      have hpayload := hlong x (List.mem_of_getElem? hx) hwrite
      have hhead : writesAt rs (k :: places) = pageWriteOf x :: writesAt rs places := by
        simp [writesAt, hx]
      show List.Forall₂ _ (k :: places) (writesAt rs (k :: places))
      rw [hhead]
      refine .cons ⟨hlt, ?_, x, hx, hwrite, hid, rfl⟩
        (ih fun k hk => hopen k (List.mem_cons_of_mem _ hk))
      simp only [pageWriteOf, List.length_take, List.length_drop]
      omega

theorem collectGroups_attributed {rs : List ParsedRecord} {gs : List CommittedGroup}
    (h : collectGroups rs ∅ [] = .ok gs) : Attributed rs gs := by
  have hlong := payload_of_collectGroups h
  refine ⟨(List.range rs.length).filterMap (originAt rs), ?_, ?_, ?_⟩
  · rw [collectGroups_eq h]
    generalize List.range rs.length = places
    induction places with
    | nil => exact .nil
    | cons n places ih =>
        rw [List.filterMap_cons, List.filterMap_cons]
        cases hg : groupAt rs n with
        | none =>
            have hnone : originAt rs n = none := by rw [originAt, hg]; rfl
            rw [hnone]
            exact ih
        | some g =>
            have horigin : originAt rs n = some ⟨n, openWrites rs g.groupId n⟩ := by
              rw [originAt, hg]
              rfl
            obtain ⟨r, hr, hcommit, -⟩ := originAt_some horigin
            have hgroup := (groupAt_commit hr hcommit).symm.trans hg
            rw [horigin, ← Option.some.inj hgroup]
            exact .cons (gives_at hlong hr hcommit) ih
  · rw [List.pairwise_map, List.pairwise_filterMap]
    refine List.Pairwise.imp ?_ List.pairwise_lt_range
    intro m n hlt o ho o' ho'
    obtain ⟨r, -, -, rfl⟩ := originAt_some ho
    obtain ⟨r', -, -, rfl⟩ := originAt_some ho'
    exact hlt
  · rw [List.nodup_flatMap]
    constructor
    · intro o ho
      obtain ⟨n, -, ho⟩ := List.mem_filterMap.mp ho
      obtain ⟨r, -, -, rfl⟩ := originAt_some ho
      exact openWrites_nodup rs r.groupId n
    · rw [List.pairwise_filterMap]
      refine List.Pairwise.imp ?_ List.pairwise_lt_range
      intro m n hlt o ho o' ho' k hk hk'
      obtain ⟨r, hr, hcommit, rfl⟩ := originAt_some ho
      obtain ⟨r', hr', hcommit', rfl⟩ := originAt_some ho'
      -- the write's id is both groups' id, so the earlier COMMIT has taken it
      obtain ⟨hkm, ⟨x, hx, -, hid⟩, -⟩ := mem_openWrites hk
      obtain ⟨-, ⟨x', hx', -, hid'⟩, hbetween⟩ := mem_openWrites hk'
      obtain rfl := Option.some.inj (hx.symm.trans hx')
      exact hbetween m r hkm hlt hr (hid.symm.trans hid') hcommit

/-! ## Arbitrary bytes -/

theorem LeadingRun.scan {buf rest : Bytes} {rs : List ParsedRecord}
    (L : LeadingRun crc buf rs rest) {fuel : Nat} (h : buf.length < fuel) :
    scan crc fuel buf = some ((collectGroups rs ∅ []).mapError .error) := by
  rw [scan_eq h, decode, L.records]

/-- Where the leading run of a file ends: the file ends, or a record fails its checksum. -/
theorem LeadingRun.rest_cases {buf rest : Bytes} {rs : List ParsedRecord}
    (L : LeadingRun crc buf rs rest) :
    Truncated rest ∨ ∃ bad tail, rest = bad ++ tail ∧ Invalid crc bad := by
  have hnone := parseRecord_none L.ends
  unfold parseRecord at hnone
  split at hnone
  · rename_i h17
    exact .inl (.inl h17)
  dsimp only at hnone
  generalize hlen : leNat ((rest.drop 9).take 4) = len at hnone
  split at hnone
  · rename_i htorn
    refine .inl (.inr ?_)
    rw [hlen]
    omega
  rename_i hwhole
  split at hnone
  · rename_i hcrc
    obtain ⟨hfits, hbody⟩ := recordBody_front hlen (by omega)
    have hstored : ((rest.drop (13 + len)).take 4).length = 4 := by
      rw [List.length_take, List.length_drop]
      omega
    refine .inr ⟨rest.take (13 + len + 4), rest.drop (13 + len + 4), ?_, _, _, hfits, hstored, ?_,
      ?_⟩
    · rw [List.take_append_drop]
    · rw [hbody]
      intro heq
      rw [heq, leNat_leBytes_of_lt] at hcrc
      · exact hcrc rfl
      · simpa using (crc (rest.take (13 + len))).toNat_lt
    · rw [hbody, ← List.take_add]
  · cases hnone

/-- Scanning any bytes ends without a slice out of range.  What it returns comes from the
leading run of valid records: no other file with this run reads differently, and every write
is a whole page from a PAGE_WRITE of its own before the COMMIT of its group. -/
theorem scan_safe (crc : Bytes → UInt32) (buf : Bytes) : ∃ rs rest, LeadingRun crc buf rs rest ∧
    (Truncated rest ∨ ∃ bad tail, rest = bad ++ tail ∧ Invalid crc bad ∧
      ∀ tail', LeadingRun crc (rs.flatMap (encodeRecord crc) ++ (bad ++ tail')) rs
        (bad ++ tail')) ∧
    ∃ r : Except VelociError (List CommittedGroup),
      (∀ buf' rest' fuel, LeadingRun crc buf' rs rest' → buf'.length < fuel →
        scan crc fuel buf' = some (r.mapError .error)) ∧
      ∀ gs, r = .ok gs → Attributed rs gs := by
  obtain ⟨rest, L⟩ := leading_records crc buf
  refine ⟨_, rest, L, ?_, _, fun buf' rest' fuel L' h => L'.scan h,
    fun gs h => collectGroups_attributed h⟩
  rcases L.rest_cases with h | ⟨bad, tail, hrest, hbad⟩
  · exact .inl h
  · exact .inr ⟨bad, tail, hrest, hbad, fun tail' => .of_invalid L.fits hbad tail'⟩

end Wal

end VelociDB
