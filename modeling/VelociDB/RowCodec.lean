/-
# Rows in bytes (`serialize_row`, `deserialize_row`)

A row is a count and then one value after the other, each behind its tag:

    0   nothing          3   length (4 bytes), UTF-8
    1   8 bytes          4   length (4 bytes), bytes
    2   8 bytes          5   dimension (4 bytes), 4 bytes each

`deserialize_row` slices the input where the lengths it reads send it; a slice past the end
panics.  On what `serialize_row` writes it never does, whatever follows
(`deserialize_serialize`), as long as every length fits the 4 bytes it gets.
-/
import VelociDB.BTree
import VelociDB.Slices

namespace VelociDB.BTree

open Bytes SchemaCodec

/-! ## Reading -/

/-- The components of a vector. -/
def readComponents (data : Bytes) : Nat → Nat → Except Fault (List UInt32)
  | 0, _ => .ok []
  | dim + 1, offset => do
      let x ← readLe 4 data offset
      let rest ← readComponents data dim (offset + 4)
      return UInt32.ofNat x :: rest

/-- One value, and where the next one starts. -/
def deserializeValue (data : Bytes) (offset : Nat) : Except Fault (Value × Nat) := do
  let tag ← readLe 1 data offset
  match tag with
  | 0 => return (.null, offset + 1)
  | 1 => do
      let i ← readLe 8 data (offset + 1)
      return (.integer (UInt64.ofNat i).toInt64, offset + 9)
  | 2 => do
      let f ← readLe 8 data (offset + 1)
      return (.float (UInt64.ofNat f), offset + 9)
  | 3 => do
      let len ← readLe 4 data (offset + 1)
      let bs ← slice data (offset + 5) len
      match fromUtf8 bs "Invalid UTF-8" with
      | .ok s => return (.text s, offset + 5 + len)
      | .error e => .error (.error e)
  | 4 => do
      let len ← readLe 4 data (offset + 1)
      let b ← slice data (offset + 5) len
      return (.blob b, offset + 5 + len)
  | 5 => do
      let dim ← readLe 4 data (offset + 1)
      if data.length < offset + 5 + dim * 4 then
        .error (.error (.corruption "Vector data truncated"))
      else do
        let v ← readComponents data dim (offset + 5)
        return (.vector v, offset + 5 + dim * 4)
  | _ => .error (.error (.corruption ("Invalid type tag: " ++ toString tag)))

/-- `n` values, one after the other. -/
def deserializeValues (data : Bytes) : Nat → Nat → Except Fault (List Value)
  | 0, _ => .ok []
  | n + 1, offset => do
      let (value, offset) ← deserializeValue data offset
      let rest ← deserializeValues data n offset
      return value :: rest

/-- `deserialize_row`. -/
def deserializeRow (data : Bytes) : Except Fault Row := do
  let numValues ← readLe 4 data 0
  let values ← deserializeValues data numValues 4
  return ⟨values⟩

/-! ## Reading undoes writing -/

/-- The lengths of a value fit their 4 bytes. -/
def Fits32 : Value → Prop
  | .text s => (textBytes s).length < 2 ^ 32
  | .blob b => b.length < 2 ^ 32
  | .vector v => v.length < 2 ^ 32
  | _ => True

variable {data ys xs : Bytes} {offset n w : Nat}

theorem toList_loop (bs : ByteArray) (i : Nat) (r : List UInt8) :
    ByteArray.toList.loop bs i r = r.reverse ++ bs.data.toList.drop i := by
  fun_induction ByteArray.toList.loop bs i r with
  | case1 i r h ih =>
      have hi : i < bs.data.toList.length := h
      have hget : bs.get! i = bs.data.toList[i] := getElem!_pos bs.data i h
      rw [ih, List.drop_eq_getElem_cons hi, List.reverse_cons, List.append_assoc, hget]
      rfl
  | case2 i r h =>
      have hi : bs.data.toList.length ≤ i := not_lt.mp h
      rw [List.drop_eq_nil_of_le hi, List.append_nil]

theorem textBytes_eq (s : String) : textBytes s = utf8 s := by
  rw [textBytes, ByteArray.toList, toList_loop]
  rfl

theorem readComponents_at : ∀ {v : List UInt32} {offset : Nat},
    At data offset (v.flatMap (fun x => leBytes 4 x.toNat) ++ ys) →
      readComponents data v.length offset = .ok v ∧ At data (offset + v.length * 4) ys
  | [], offset, h => ⟨rfl, by simpa using h⟩
  | x :: v, offset, h => by
      rw [List.flatMap_cons, List.append_assoc] at h
      obtain ⟨hx, h⟩ := readLe_at h (by simpa using x.toNat_lt)
      obtain ⟨hv, h⟩ := readComponents_at h
      refine ⟨?_, ?_⟩
      · rw [List.length_cons, readComponents, hx]
        show (readComponents data v.length (offset + 4) >>= _) = _
        rw [hv]
        show Except.ok (UInt32.ofNat x.toNat :: v) = _
        rw [UInt32.ofNat_toNat]
      · rw [List.length_cons, Nat.succ_mul, Nat.add_comm (v.length * 4) 4, ← Nat.add_assoc]
        exact h

theorem readByte_at {b : UInt8} (h : At data offset (b :: ys)) :
    readLe 1 data offset = .ok b.toNat ∧ At data (offset + 1) ys := by
  have hcons : At data offset (leBytes 1 b.toNat ++ ys) := by simpa [leBytes] using h
  exact readLe_at hcons (by simpa using b.toNat_lt)

/-- One value, whatever follows it. -/
theorem deserializeValue_at {v : Value} (hv : Fits32 v)
    (h : At data offset (serializeValue v ++ ys)) : ∃ next,
      deserializeValue data offset = .ok (v.stored, next) ∧ At data next ys := by
  unfold deserializeValue
  cases v with
  | null =>
      obtain ⟨htag, h⟩ := readByte_at h
      exact ⟨offset + 1, by rw [htag]; rfl, h⟩
  | integer i =>
      obtain ⟨htag, h⟩ := readByte_at h
      obtain ⟨hi, h⟩ := readLe_at h (by simpa using i.toUInt64.toNat_lt)
      refine ⟨offset + 9, ?_, h⟩
      rw [htag]
      show (readLe 8 data (offset + 1) >>= _) = _
      rw [hi]
      show Except.ok (Value.integer (UInt64.ofNat i.toUInt64.toNat).toInt64, offset + 9) = _
      rw [UInt64.ofNat_toNat]
      rfl
  | float f | real f =>
      obtain ⟨htag, h⟩ := readByte_at h
      obtain ⟨hf, h⟩ := readLe_at h (by simpa using f.toNat_lt)
      refine ⟨offset + 9, ?_, h⟩
      rw [htag]
      show (readLe 8 data (offset + 1) >>= _) = _
      rw [hf]
      show Except.ok (Value.float (UInt64.ofNat f.toNat), offset + 9) = _
      rw [UInt64.ofNat_toNat]
      rfl
  | text s =>
      have hshape : At data offset
          (3 :: (leBytes 4 (textBytes s).length ++ (textBytes s ++ ys))) := by
        simpa [serializeValue] using h
      obtain ⟨htag, h⟩ := readByte_at hshape
      obtain ⟨hlen, h⟩ := readLe_at h (show _ < 256 ^ 4 from hv)
      refine ⟨offset + 5 + (textBytes s).length, ?_, h.skip⟩
      rw [htag]
      show (readLe 4 data (offset + 1) >>= _) = _
      rw [hlen]
      show (slice data (offset + 1 + 4) _ >>= _) = _
      rw [slice_at h]
      have hback := fromUtf8_utf8 s "Invalid UTF-8"
      rw [← textBytes_eq] at hback
      show (match fromUtf8 (textBytes s) "Invalid UTF-8" with
        | .ok s => Except.ok (Value.text s, offset + 5 + (textBytes _).length)
        | .error e => _) = _
      rw [hback]
      rfl
  | blob b =>
      have hshape : At data offset (4 :: (leBytes 4 b.length ++ (b ++ ys))) := by
        simpa [serializeValue] using h
      obtain ⟨htag, h⟩ := readByte_at hshape
      obtain ⟨hlen, h⟩ := readLe_at h (show _ < 256 ^ 4 from hv)
      refine ⟨offset + 5 + b.length, ?_, h.skip⟩
      rw [htag]
      show (readLe 4 data (offset + 1) >>= _) = _
      rw [hlen]
      show (slice data (offset + 1 + 4) _ >>= _) = _
      rw [slice_at h]
      rfl
  | vector v =>
      have hshape : At data offset (5 :: (leBytes 4 v.length ++
          (v.flatMap (fun x => leBytes 4 x.toNat) ++ ys))) := by
        simpa [serializeValue] using h
      obtain ⟨htag, h⟩ := readByte_at hshape
      obtain ⟨hlen, h⟩ := readLe_at h (show _ < 256 ^ 4 from hv)
      obtain ⟨hcomp, h⟩ := readComponents_at h
      have hroom : ¬ data.length < offset + 5 + v.length * 4 := by
        have := h.le
        omega
      refine ⟨offset + 5 + v.length * 4, ?_, h⟩
      rw [htag]
      show (readLe 4 data (offset + 1) >>= _) = _
      rw [hlen]
      show (if data.length < offset + 5 + v.length * 4 then _ else _) = _
      rw [if_neg hroom]
      show (readComponents data v.length (offset + 1 + 4) >>= _) = _
      rw [hcomp]
      rfl

theorem deserializeValues_at : ∀ {values : List Value} {offset : Nat},
    (∀ v ∈ values, Fits32 v) → At data offset (values.flatMap serializeValue ++ ys) →
      deserializeValues data values.length offset = .ok (values.map Value.stored)
  | [], _, _, _ => rfl
  | v :: values, offset, hfits, h => by
      rw [List.flatMap_cons, List.append_assoc] at h
      obtain ⟨next, hv, h⟩ := deserializeValue_at (hfits v List.mem_cons_self) h
      have hrest := deserializeValues_at (fun u hu => hfits u (List.mem_cons_of_mem v hu)) h
      rw [List.length_cons, deserializeValues, hv]
      show (deserializeValues data values.length next >>= _) = _
      rw [hrest]
      rfl

/-! ## Sizes -/

/-- `Value::size_bytes`. -/
def sizeBytes : Value → Nat
  | .null => 1
  | .integer _ => 9
  | .float _ => 9
  | .real _ => 9
  | .text s => 1 + 4 + (textBytes s).length
  | .blob b => 1 + 4 + b.length
  | .vector v => 1 + 4 + v.length * 4

theorem length_serializeValue (v : Value) : (serializeValue v).length = sizeBytes v := by
  cases v with
  | null => rfl
  | integer | float | real => simp [serializeValue, sizeBytes]
  | text | blob =>
      simp only [serializeValue, sizeBytes, List.length_cons, List.length_append, length_leBytes]
      omega
  | vector v =>
      have hsum : (v.flatMap fun x => leBytes 4 x.toNat).length = v.length * 4 := by
        simp [List.length_flatMap]
      simp only [serializeValue, sizeBytes, List.length_cons, List.length_append, length_leBytes,
        hsum]
      omega

theorem length_serializeRow (row : Row) :
    (serializeRow row).length = 4 + (row.values.map sizeBytes).sum := by
  rw [serializeRow, List.length_append, length_leBytes, List.length_flatMap]
  simp only [length_serializeValue]

/-- A row is read back as it was written, whatever follows it, and takes the bytes its values
say. -/
theorem deserialize_serialize (row : Row) (rest : Bytes) (hcount : row.values.length < 2 ^ 32)
    (hfits : ∀ v ∈ row.values, Fits32 v) :
    deserializeRow (serializeRow row ++ rest) = .ok row.stored ∧
      (serializeRow row).length = 4 + (row.values.map sizeBytes).sum := by
  refine ⟨?_, length_serializeRow row⟩
  generalize hdata : serializeRow row ++ rest = data
  have hstart : At data 0 (leBytes 4 row.values.length ++
      (row.values.flatMap serializeValue ++ rest)) := by
    rw [← List.append_assoc, ← serializeRow, hdata]
    exact at_zero data
  obtain ⟨hlen, h⟩ := readLe_at hstart (by simpa using hcount)
  have hvalues := deserializeValues_at hfits h
  rw [deserializeRow, hlen]
  show (deserializeValues data row.values.length 4 >>= _) = _
  rw [hvalues]
  rfl

theorem deserialize_serialize_pair :
    deserializeRow (serializeRow ⟨[.integer 7, .real 3]⟩ ++ [9]) =
        .ok ⟨[.integer 7, .float 3]⟩ ∧
      (serializeRow ⟨[.integer 7, .real 3]⟩).length = 22 :=
  deserialize_serialize ⟨[.integer 7, .real 3]⟩ [9] (by decide) (by simp [Fits32])

end VelociDB.BTree
