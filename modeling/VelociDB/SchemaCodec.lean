/-
# The schema on pages (`storage.rs`)

`save_schema` writes all tables into one buffer and the buffer into pages 1, 2, …, each a
chunk behind its length:

    buffer   count, then for each table: name, number of columns, and for each column
             name, type, flags, root page of the table
    page     length of the chunk (4 bytes), chunk (at most 4092 bytes), zeros

`load_schema` concatenates chunks up to the first that is not full and reads the tables
back.  Reading undoes writing whatever comes behind the buffer (`readTables_encode`,
`readChain_chainPages`), as long as every length fits its 32 bits and no column has the
type NULL, whose byte the reader does not know.
-/
import VelociDB.Pager

namespace VelociDB

open Bytes

/-- A table as the schema pages hold it. -/
structure TableEntry where
  name : String
  columns : List Column
  root : Nat
  deriving DecidableEq

namespace SchemaCodec

/-! ## Writing -/

/-- `as_bytes`. -/
def utf8 (s : String) : Bytes := s.toByteArray.data.toList

/-- A string behind its length. -/
def encodeText (s : String) : Bytes := leBytes 4 (utf8 s).length ++ utf8 s

/-- The type byte, and the dimension of a vector. -/
def encodeType : DataType → Bytes
  | .integer => [0]
  | .real => [1]
  | .text => [2]
  | .blob => [3]
  | .null => [4]
  | .vector dim => 5 :: leBytes 4 dim.toNat

/-- The flags of a column. -/
def flags (c : Column) : Nat :=
  (if c.primaryKey then 1 else 0) + (if c.notNull then 2 else 0) + (if c.unique then 4 else 0)

/-- One column, with the root page of its table. -/
def encodeColumn (root : Nat) (c : Column) : Bytes :=
  encodeText c.name ++ encodeType c.dataType ++ [UInt8.ofNat (flags c)] ++ leBytes 8 root

/-- One table. -/
def encodeTable (e : TableEntry) : Bytes :=
  encodeText e.name ++ leBytes 4 e.columns.length ++ e.columns.flatMap (encodeColumn e.root)

/-- The buffer of `save_schema`. -/
def encode (es : List TableEntry) : Bytes := leBytes 4 es.length ++ es.flatMap encodeTable

/-! ## Reading -/

/-- Four bytes at an offset. -/
def readU32 (data : Bytes) (offset : Nat) (msg : String) : Except VelociError (Nat × Nat) :=
  if data.length < offset + 4 then .error (.corruption msg)
  else .ok (leNat ((data.drop offset).take 4), offset + 4)

/-- `String::from_utf8`. -/
def fromUtf8 (bs : Bytes) (msg : String) : Except VelociError String :=
  match String.fromUTF8? ⟨bs.toArray⟩ with
  | some s => .ok s
  | none => .error (.corruption msg)

/-- The type of a column. -/
def readType (data : Bytes) (offset : Nat) (table column : String) :
    Except VelociError (DataType × Nat) :=
  match (byteAt data offset).toNat with
  | 0 => .ok (.integer, offset + 1)
  | 1 => .ok (.real, offset + 1)
  | 2 => .ok (.text, offset + 1)
  | 3 => .ok (.blob, offset + 1)
  | 5 => do
      let (dim, offset) ← readU32 data (offset + 1)
        s!"Schema truncated at vector dimension for column '{column}'"
      return (.vector (UInt32.ofNat dim), offset)
  | b => .error (.corruption
      s!"Unknown data type byte {b} for column '{column}' in table '{table}'")

/-- One column, and the root page behind it. -/
def readColumn (data : Bytes) (offset : Nat) (table : String) :
    Except VelociError ((Column × Nat) × Nat) := do
  let (len, offset) ← readU32 data offset
    s!"Schema truncated at column name length in table '{table}'"
  if data.length < offset + len + 10 then
    throw (.corruption s!"Schema truncated at column data for table '{table}'")
  let name ← fromUtf8 ((data.drop offset).take len)
    s!"Invalid UTF-8 in column name at offset {offset}"
  let (dataType, offset) ← readType data (offset + len) table name
  if data.length < offset + 9 then
    throw (.corruption s!"Schema truncated at column flags for table '{table}'")
  let flags := (byteAt data offset).toNat
  let root := leNat ((data.drop (offset + 1)).take 8)
  return ((⟨name, dataType, flags.testBit 0, flags.testBit 1, flags.testBit 2⟩, root), offset + 9)

/-- The columns of a table, and its root page: the first that is not 0. -/
def readColumns (data : Bytes) (table : String) :
    Nat → Nat → Except VelociError ((List Column × Nat) × Nat)
  | 0, offset => .ok (([], 0), offset)
  | n + 1, offset => do
      let ((column, root), offset) ← readColumn data offset table
      let ((columns, rest), offset) ← readColumns data table n offset
      return ((column :: columns, if root = 0 then rest else root), offset)

/-- One table. -/
def readTable (data : Bytes) (offset : Nat) : Except VelociError (TableEntry × Nat) := do
  let (len, offset) ← readU32 data offset "Schema truncated at table name length"
  if data.length < offset + len then
    throw (.corruption s!"Schema truncated at table name (expected {len} bytes)")
  let name ← fromUtf8 ((data.drop offset).take len)
    s!"Invalid UTF-8 in table name at offset {offset}"
  let (count, offset) ← readU32 data (offset + len)
    s!"Schema truncated at column count for table '{name}'"
  let ((columns, root), offset) ← readColumns data name count offset
  return (⟨name, columns, root⟩, offset)

/-! ## Reading undoes writing -/

/-- What the format can carry. -/
def TextFits (s : String) : Prop := (utf8 s).length < 2 ^ 32

/-- A column the reader gives back as it was. -/
def ColumnFits (c : Column) : Prop := TextFits c.name ∧ c.dataType ≠ .null

/-- A table the reader gives back as it was. -/
structure TableFits (e : TableEntry) : Prop where
  name : TextFits e.name
  count : e.columns.length < 2 ^ 32
  columns : ∀ c ∈ e.columns, ColumnFits c

/-- The bytes from an offset on. -/
structure At (data : Bytes) (offset : Nat) (rest : Bytes) : Prop where
  le : offset ≤ data.length
  drop : data.drop offset = rest

variable {data rest xs ys : Bytes} {offset : Nat}

theorem at_zero (data : Bytes) : At data 0 data := ⟨Nat.zero_le _, rfl⟩

theorem At.length (h : At data offset rest) : data.length = offset + rest.length := by
  have hlen := congrArg List.length h.drop
  rw [List.length_drop] at hlen
  have hle := h.le
  omega

theorem At.take (h : At data offset (xs ++ ys)) : (data.drop offset).take xs.length = xs := by
  rw [h.drop, List.take_left]

theorem At.skip (h : At data offset (xs ++ ys)) : At data (offset + xs.length) ys := by
  refine ⟨?_, ?_⟩
  · rw [h.length, List.length_append]
    omega
  · rw [← List.drop_drop, h.drop, List.drop_left]

theorem At.byte {b : UInt8} (h : At data offset (b :: ys)) : byteAt data offset = b := by
  have hget : data[offset]? = some b := by
    have hhead := congrArg List.head? h.drop
    rwa [List.head?_drop] at hhead
  rw [byteAt, hget]
  rfl

theorem fromUtf8_utf8 (s m : String) : fromUtf8 (utf8 s) m = .ok s := by
  have hback : String.fromUTF8? ⟨(utf8 s).toArray⟩ = some s := by
    have hbytes : (⟨(utf8 s).toArray⟩ : ByteArray) = s.toByteArray := by simp [utf8]
    rw [hbytes, String.fromUTF8?, dif_pos s.isValidUTF8]
    rfl
  rw [fromUtf8, hback]

theorem readU32_at {n : Nat} {m : String} (h : At data offset (leBytes 4 n ++ ys))
    (hn : n < 2 ^ 32) : readU32 data offset m = .ok (n, offset + 4) ∧ At data (offset + 4) ys := by
  have hskip := h.skip
  have htake := h.take
  rw [length_leBytes] at hskip htake
  have hlen := h.length
  rw [List.length_append, length_leBytes] at hlen
  refine ⟨?_, hskip⟩
  rw [readU32, if_neg (by omega), htake, leNat_leBytes_of_lt (by simpa using hn)]

theorem readType_at {t x : String} {dt : DataType} (hdt : dt ≠ .null)
    (h : At data offset (encodeType dt ++ ys)) :
    readType data offset t x = .ok (dt, offset + (encodeType dt).length) ∧
      At data (offset + (encodeType dt).length) ys := by
  refine ⟨?_, h.skip⟩
  unfold readType
  cases dt with
  | null => exact absurd rfl hdt
  | integer | real | text | blob =>
      rw [At.byte h]
      rfl
  | vector dim =>
      have hcons : At data offset ([5] ++ (leBytes 4 dim.toNat ++ ys)) := h
      have hrest : At data (offset + 1) (leBytes 4 dim.toNat ++ ys) := hcons.skip
      rw [At.byte h]
      have hdim : dim.toNat < 2 ^ 32 := dim.toNat_lt
      show (readU32 data (offset + 1) _ >>= _) = _
      rw [(readU32_at hrest hdim).1]
      show Except.ok (DataType.vector (UInt32.ofNat dim.toNat), offset + 1 + 4) = _
      rw [UInt32.ofNat_toNat]
      simp [encodeType]

theorem flags_lt (c : Column) : flags c < 256 := by
  unfold flags
  split <;> split <;> split <;> decide

theorem testBit_flags (c : Column) : (flags c).testBit 0 = c.primaryKey ∧
    (flags c).testBit 1 = c.notNull ∧ (flags c).testBit 2 = c.unique := by
  unfold flags
  cases c.primaryKey <;> cases c.notNull <;> cases c.unique <;> decide

theorem encodeType_length_pos (dt : DataType) : 0 < (encodeType dt).length := by
  cases dt <;> simp [encodeType]

theorem ok_bind {α β : Type} (a : α) (f : α → Except VelociError β) : (Except.ok a >>= f) = f a :=
  rfl

theorem readColumn_at {t : String} {c : Column} {root : Nat} (hc : ColumnFits c)
    (h : At data offset (encodeColumn root c ++ ys)) : ∃ offset',
      readColumn data offset t = .ok ((c, root % 2 ^ 64), offset') ∧ At data offset' ys := by
  obtain ⟨hname, hdt⟩ := hc
  have hshape : encodeColumn root c ++ ys = leBytes 4 (utf8 c.name).length ++ (utf8 c.name ++
      (encodeType c.dataType ++ ([UInt8.ofNat (flags c)] ++ (leBytes 8 root ++ ys)))) := by
    simp [encodeColumn, encodeText]
  rw [hshape] at h
  have hlen := fun msg => (readU32_at (m := msg) h hname).1
  replace h := h.skip
  rw [length_leBytes] at h
  have htotal := h.length
  simp only [List.length_append, List.length_cons, List.length_nil, length_leBytes] at htotal
  have hpos := encodeType_length_pos c.dataType
  have htake := h.take
  replace h := h.skip
  have htype := fun table column => (readType_at (t := table) (x := column) hdt h).1
  replace h := h.skip
  have hbyte := At.byte h
  have hflags : (UInt8.ofNat (flags c)).toNat = flags c := by
    rw [UInt8.toNat_ofNat', Nat.mod_eq_of_lt (flags_lt c)]
  have hroot := h.skip.take
  rw [length_leBytes] at hroot
  refine ⟨_, ?_, h.skip.skip⟩
  obtain ⟨hpk, hnn, huniq⟩ := testBit_flags c
  unfold readColumn
  rw [hlen, ok_bind]
  dsimp only
  rw [if_neg (by omega), htake, fromUtf8_utf8, ok_bind, htype, ok_bind]
  dsimp only
  rw [if_neg (by omega), hbyte, hflags, hpk, hnn, huniq]
  simp only [List.length_cons, List.length_nil] at hroot
  rw [hroot, leNat_leBytes]
  simp [pure, Except.pure]

/-- The root page that is read back: it stands behind each column. -/
def rootRead (e : TableEntry) : Nat := if e.columns = [] then 0 else e.root % 2 ^ 64

theorem readColumns_at {t : String} {root : Nat} : ∀ {columns : List Column} {offset : Nat},
    (∀ c ∈ columns, ColumnFits c) →
    At data offset (columns.flatMap (encodeColumn root) ++ ys) → ∃ offset',
      readColumns data t columns.length offset =
        .ok ((columns, if columns = [] then 0 else root % 2 ^ 64), offset') ∧ At data offset' ys
  | [], offset, _, h => ⟨offset, rfl, h⟩
  | c :: cs, offset, hfits, h => by
      rw [List.flatMap_cons, List.append_assoc] at h
      obtain ⟨o₁, hcol, h⟩ := readColumn_at (t := t) (hfits c List.mem_cons_self) h
      obtain ⟨o₂, hcols, h⟩ := readColumns_at (fun d hd => hfits d (List.mem_cons_of_mem c hd)) h
      refine ⟨o₂, ?_, h⟩
      rw [List.length_cons, readColumns, hcol, ok_bind]
      dsimp only
      rw [hcols, ok_bind]
      dsimp only
      rw [if_neg (List.cons_ne_nil c cs)]
      by_cases hroot : root % 2 ^ 64 = 0
      · rw [if_pos hroot, hroot, ite_self]
        rfl
      · rw [if_neg hroot]
        rfl

/-- Reading a table back, whatever follows it. -/
theorem readTable_at {e : TableEntry} (he : TableFits e)
    (h : At data offset (encodeTable e ++ ys)) : ∃ offset',
      readTable data offset = .ok ({ e with root := rootRead e }, offset') ∧ At data offset' ys := by
  have hshape : encodeTable e ++ ys = leBytes 4 (utf8 e.name).length ++ (utf8 e.name ++
      (leBytes 4 e.columns.length ++ (e.columns.flatMap (encodeColumn e.root) ++ ys))) := by
    simp [encodeTable, encodeText]
  rw [hshape] at h
  have hlen := fun msg => (readU32_at (m := msg) h he.name).1
  replace h := h.skip
  rw [length_leBytes] at h
  have htotal := h.length
  rw [List.length_append] at htotal
  have htake := h.take
  replace h := h.skip
  have hcount := fun msg => (readU32_at (m := msg) h he.count).1
  replace h := h.skip
  rw [length_leBytes] at h
  obtain ⟨offset', hcols, h⟩ := readColumns_at (t := e.name) he.columns h
  refine ⟨offset', ?_, h⟩
  unfold readTable
  rw [hlen, ok_bind]
  dsimp only
  rw [if_neg (by omega), htake, fromUtf8_utf8, ok_bind, hcount, ok_bind]
  dsimp only
  rw [hcols, ok_bind]
  rfl

/-! ## The chain of pages -/

/-- The bytes of a page behind the length of its chunk. -/
def usableSize : Nat := pageSize - 4

/-- `num_pages_needed`. -/
def numPagesNeeded (buffer : Bytes) : Nat :=
  if buffer = [] then 1 else (buffer.length + usableSize - 1) / usableSize

/-- `&buffer[start..end]` of a page. -/
def chunk (buffer : Bytes) (pageIdx : Nat) : Bytes :=
  (buffer.drop (pageIdx * usableSize)).take usableSize

/-- A page of the chain. -/
def chunkPage (chunk : Bytes) : Page :=
  ⟨resize (leBytes 4 chunk.length ++ chunk) pageSize, length_resize _ _⟩

/-- The pages `save_schema` writes, from page 1 on. -/
def chainPages (buffer : Bytes) : List Page :=
  (List.range (numPagesNeeded buffer)).map fun i => chunkPage (chunk buffer i)

/-- What `load_schema` collects: the chunks up to the first that is not full. -/
def readChain : List Page → Bytes
  | [] => []
  | page :: pages =>
      let chunkLen := leNat (page.data.take 4)
      (page.data.drop 4).take chunkLen ++ if chunkLen < usableSize then [] else readChain pages

theorem usableSize_eq : usableSize = 4092 := by
  unfold usableSize
  rw [pageSize_eq]

theorem chunkPage_read {chunk : Bytes} (h : chunk.length ≤ usableSize) :
    leNat ((chunkPage chunk).data.take 4) = chunk.length ∧
      ((chunkPage chunk).data.drop 4).take chunk.length = chunk := by
  have hsize := usableSize_eq
  have hpage := pageSize_eq
  have hshape : (chunkPage chunk).data = leBytes 4 chunk.length ++ (chunk ++
      List.replicate (pageSize - (leBytes 4 chunk.length ++ chunk).length) 0) := by
    show resize _ _ = _
    rw [resize, List.take_of_length_le, List.append_assoc]
    rw [List.length_append, length_leBytes]
    omega
  rw [hshape]
  refine ⟨?_, ?_⟩
  · rw [List.take_left' (length_leBytes 4 _), leNat_leBytes_of_lt (by omega)]
  · rw [List.drop_left' (length_leBytes 4 _), List.take_left]

theorem chainPages_short {buffer : Bytes} (h : buffer.length ≤ usableSize) :
    chainPages buffer = [chunkPage buffer] := by
  have hsize := usableSize_eq
  have hone : numPagesNeeded buffer = 1 := by
    unfold numPagesNeeded
    split
    · rfl
    · rename_i hne
      have hpos := List.length_pos_iff.mpr hne
      rw [Nat.div_eq_of_lt_le] <;> omega
  rw [chainPages, hone]
  simp [chunk, List.take_of_length_le h]

theorem chainPages_long {buffer : Bytes} (h : usableSize < buffer.length) :
    chainPages buffer =
      chunkPage (buffer.take usableSize) :: chainPages (buffer.drop usableSize) := by
  have hsize := usableSize_eq
  have hne : buffer ≠ [] := by
    rintro rfl
    simp at h
  have hrest : buffer.drop usableSize ≠ [] := by
    rw [← List.length_pos_iff, List.length_drop]
    omega
  have hcount : numPagesNeeded buffer = numPagesNeeded (buffer.drop usableSize) + 1 := by
    rw [numPagesNeeded, numPagesNeeded, if_neg hne, if_neg hrest, List.length_drop,
      ← Nat.add_div_right _ (by omega)]
    congr 1
    omega
  rw [chainPages, chainPages, hcount, List.range_succ_eq_map, List.map_cons, List.map_map]
  congr 1
  · simp [chunk]
  · refine List.map_congr_left fun i _ => ?_
    simp only [Function.comp_apply, chunk, List.drop_drop]
    congr 3
    rw [Nat.succ_eq_add_one, Nat.add_mul]
    omega

/-- The chain is read back, and after a full last page what happens to follow it. -/
theorem readChain_chainPages (buffer : Bytes) (rest : List Page) : ∃ trailing,
    readChain (chainPages buffer ++ rest) = buffer ++ trailing ∧ (buffer = [] → trailing = []) := by
  have hsize := usableSize_eq
  induction hn : buffer.length using Nat.strong_induction_on generalizing buffer with | _ n ih
  subst hn
  by_cases hlen : buffer.length ≤ usableSize
  · obtain ⟨hcount, hchunk⟩ := chunkPage_read hlen
    rw [chainPages_short hlen, List.cons_append, readChain, hcount, hchunk]
    refine ⟨_, rfl, ?_⟩
    rintro rfl
    rw [if_pos (by rw [List.length_nil]; omega)]
  · have hlong : usableSize < buffer.length := by omega
    have htake : (buffer.take usableSize).length = usableSize := by
      rw [List.length_take]
      omega
    obtain ⟨hcount, hchunk⟩ := chunkPage_read htake.le
    obtain ⟨trailing, htail, -⟩ := ih _ (by rw [List.length_drop]; omega) (buffer.drop usableSize) rfl
    rw [chainPages_long hlong, List.cons_append, readChain, hcount, hchunk, htake,
      if_neg (Nat.lt_irrefl _), htail, ← List.append_assoc, List.take_append_drop]
    refine ⟨trailing, rfl, ?_⟩
    rintro rfl
    exact absurd hlong (Nat.not_lt_zero _)

end SchemaCodec

end VelociDB
