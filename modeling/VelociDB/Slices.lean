/-
# Slices of bytes read from storage

`data[offset..offset + n]` panics when it ends past the data, and so does `data[offset]`.
A decoder that is safe checks every length it has read before it slices.
-/
import VelociDB.SchemaCodec

namespace VelociDB

open Bytes SchemaCodec

/-- `data[offset..offset + n]`. -/
def slice (data : Bytes) (offset n : Nat) : Except Fault Bytes :=
  if offset + n ≤ data.length then .ok ((data.drop offset).take n) else .error .panic

/-- `from_le_bytes` of `n` bytes at an offset. -/
def readLe (n : Nat) (data : Bytes) (offset : Nat) : Except Fault Nat :=
  (slice data offset n).map leNat

variable {data xs ys : Bytes} {offset n w : Nat}

theorem slice_ok (h : offset + n ≤ data.length) :
    slice data offset n = .ok ((data.drop offset).take n) := if_pos h

theorem slice_panic (h : ¬ offset + n ≤ data.length) : slice data offset n = .error .panic :=
  if_neg h

theorem readLe_ok (h : offset + n ≤ data.length) :
    readLe n data offset = .ok (leNat ((data.drop offset).take n)) := by
  rw [readLe, slice_ok h]
  rfl

theorem readLe_panic (h : ¬ offset + n ≤ data.length) : readLe n data offset = .error .panic := by
  rw [readLe, slice_panic h]
  rfl

theorem slice_at (h : At data offset (xs ++ ys)) : slice data offset xs.length = .ok xs := by
  have hlen := h.length
  rw [List.length_append] at hlen
  rw [slice_ok (by omega), h.take]

theorem readLe_at (h : At data offset (leBytes w n ++ ys)) (hn : n < 256 ^ w) :
    readLe w data offset = .ok n ∧ At data (offset + w) ys := by
  have hslice := slice_at h
  have hskip := h.skip
  rw [length_leBytes] at hslice hskip
  refine ⟨?_, hskip⟩
  rw [readLe, hslice]
  show Except.ok (leNat (leBytes w n)) = _
  rw [leNat_leBytes_of_lt hn]

@[simp] theorem ok_bind_fault {α β : Type} (a : α) (f : α → Except Fault β) :
    (Except.ok a >>= f) = f a := rfl

@[simp] theorem error_bind_fault {α β : Type} (e : Fault) (f : α → Except Fault β) :
    (Except.error e >>= f) = .error e := rfl

theorem safe_slice (h : offset + n ≤ data.length) : Safe (slice data offset n) := by
  rw [slice_ok h]
  exact safe_ok _

theorem safe_readLe (h : offset + n ≤ data.length) : Safe (readLe n data offset) := by
  rw [readLe_ok h]
  exact safe_ok _

end VelociDB
