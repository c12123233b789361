/-
# Byte strings

Little-endian numbers, slices, and the in-place edits of a buffer, over `List UInt8`.

    leBytes w n       the `w` low-order bytes of `n`, low byte first
    leNat bs          the number they spell
    overwrite f o bs  write `bs` at offset `o`, zero-filling a gap past the end
    resize f n        cut or zero-extend to `n` bytes

A file is such a string.  What a reader sees at an offset is `byteAt`, which is `0`
past the end; `overwrite` and `resize` are characterised by `byteAt` and `length`.
-/
import Mathlib

/-- A byte string. -/
abbrev Bytes := List UInt8

namespace Bytes

/-! ## Little-endian numbers -/

/-- The `w` low-order bytes of `n`, low byte first. -/
def leBytes : Nat → Nat → Bytes
  | 0, _ => []
  | w + 1, n => UInt8.ofNat n :: leBytes w (n / 256)

/-- The number a byte string spells, low byte first. -/
def leNat : Bytes → Nat
  | [] => 0
  | b :: bs => b.toNat + 256 * leNat bs

@[simp] theorem length_leBytes (w n : Nat) : (leBytes w n).length = w := by
  induction w generalizing n with
  | zero => rfl
  | succ w ih => simp [leBytes, ih]

theorem leNat_leBytes (w n : Nat) : leNat (leBytes w n) = n % 256 ^ w := by
  induction w generalizing n with
  | zero => simp [leBytes, leNat, Nat.mod_one]
  | succ w ih =>
      have h8 : (UInt8.ofNat n).toNat = n % 256 := UInt8.toNat_ofNat'
      rw [leBytes, leNat, ih, h8, Nat.pow_succ', Nat.mod_mul]

theorem leNat_leBytes_of_lt {w n : Nat} (h : n < 256 ^ w) : leNat (leBytes w n) = n := by
  rw [leNat_leBytes, Nat.mod_eq_of_lt h]

theorem leBytes_leNat (bs : Bytes) : leBytes bs.length (leNat bs) = bs := by
  induction bs with
  | nil => rfl
  | cons b bs ih =>
      have hb : b.toNat < 256 := b.toNat_lt
      have hlow : UInt8.ofNat (b.toNat + 256 * leNat bs) = b := by
        apply UInt8.toNat_inj.mp
        rw [UInt8.toNat_ofNat']
        omega
      have hhigh : (b.toNat + 256 * leNat bs) / 256 = leNat bs := by omega
      rw [List.length_cons, leNat, leBytes, hlow, hhigh, ih]

theorem leNat_lt (bs : Bytes) : leNat bs < 256 ^ bs.length := by
  induction bs with
  | nil => simp [leNat]
  | cons b bs ih =>
      have hb : b.toNat < 256 := b.toNat_lt
      simp only [leNat, List.length_cons, Nat.pow_succ]
      omega

theorem leNat_replicate_zero (n : Nat) : leNat (List.replicate n 0) = 0 := by
  induction n with
  | zero => rfl
  | succ n ih => simp [List.replicate_succ, leNat, ih]

theorem leBytes_zero (w : Nat) : leBytes w 0 = List.replicate w 0 := by
  induction w with
  | zero => rfl
  | succ w ih => simp [leBytes, List.replicate_succ, ih]

/-! ## Files -/

/-- The byte at offset `i`, `0` past the end. -/
def byteAt (f : Bytes) (i : Nat) : UInt8 := f[i]?.getD 0

/-- `n` bytes from offset `o`, `0` past the end.  Irreducible, so that comparing two
windows never unfolds them byte by byte. -/
@[irreducible] def window (f : Bytes) (o n : Nat) : Bytes := List.ofFn fun i : Fin n => byteAt f (o + i)

/-- Cut or zero-extend to `n` bytes. -/
def resize (f : Bytes) (n : Nat) : Bytes := f.take n ++ List.replicate (n - f.length) 0

/-- Write `bs` at offset `o`; a gap past the end is filled with zeros.  Writing no
bytes does nothing. -/
def overwrite (f : Bytes) (o : Nat) (bs : Bytes) : Bytes :=
  if bs = [] then f else resize f o ++ bs ++ f.drop (o + bs.length)

@[simp] theorem length_window (f : Bytes) (o n : Nat) : (window f o n).length = n := by
  simp [window]

@[simp] theorem length_resize (f : Bytes) (n : Nat) : (resize f n).length = n := by
  simp only [resize, List.length_append, List.length_take, List.length_replicate]
  omega

theorem length_overwrite (f : Bytes) (o : Nat) {bs : Bytes} (h : bs ≠ []) :
    (overwrite f o bs).length = max f.length (o + bs.length) := by
  simp only [overwrite, if_neg h, List.length_append, length_resize, List.length_drop]
  omega

@[simp] theorem overwrite_nil (f : Bytes) (o : Nat) : overwrite f o [] = f := by
  simp [overwrite]

@[simp] theorem byteAt_nil (i : Nat) : byteAt [] i = 0 := by simp [byteAt]

theorem byteAt_of_length_le {f : Bytes} {i : Nat} (h : f.length ≤ i) : byteAt f i = 0 := by
  simp [byteAt, List.getElem?_eq_none h]

theorem byteAt_replicate_zero (n i : Nat) : byteAt (List.replicate n 0) i = 0 := by
  simp only [byteAt, List.getElem?_replicate]
  split <;> rfl

theorem byteAt_append (f g : Bytes) (i : Nat) :
    byteAt (f ++ g) i = if i < f.length then byteAt f i else byteAt g (i - f.length) := by
  unfold byteAt
  split
  · rename_i h
    rw [List.getElem?_append_left h]
  · rename_i h
    rw [List.getElem?_append_right (Nat.le_of_not_lt h)]

theorem byteAt_resize (f : Bytes) (n i : Nat) :
    byteAt (resize f n) i = if i < n then byteAt f i else 0 := by
  unfold resize
  rw [byteAt_append, List.length_take]
  by_cases hi : i < n
  · rw [if_pos hi]
    by_cases hf : i < f.length
    · rw [if_pos (by omega)]
      simp [byteAt, hi]
    · rw [if_neg (by omega), byteAt_of_length_le (f := f) (by omega), byteAt_replicate_zero]
  · rw [if_neg hi]
    by_cases hf : i < min n f.length
    · omega
    · rw [if_neg hf, byteAt_replicate_zero]

theorem byteAt_overwrite (f : Bytes) (o : Nat) (bs : Bytes) (i : Nat) :
    byteAt (overwrite f o bs) i =
      if o ≤ i ∧ i < o + bs.length then byteAt bs (i - o) else byteAt f i := by
  unfold overwrite
  split
  · rename_i h
    subst h
    rw [if_neg (by simp)]
  · rw [byteAt_append, byteAt_append, List.length_append, length_resize, byteAt_resize]
    by_cases h1 : i < o
    · rw [if_pos (by omega), if_pos h1, if_pos h1, if_neg (by omega)]
    · by_cases h2 : i < o + bs.length
      · rw [if_pos h2, if_neg h1, if_pos ⟨by omega, h2⟩]
      · rw [if_neg h2, if_neg (by omega)]
        simp only [byteAt, List.getElem?_drop]
        congr 2
        omega

/-- Two files of one length that read alike are equal. -/
theorem ext_byteAt {f g : Bytes} (hlen : f.length = g.length)
    (h : ∀ i, byteAt f i = byteAt g i) : f = g := by
  apply List.ext_getElem hlen
  intro i hf hg
  have := h i
  simpa [byteAt, List.getElem?_eq_getElem hf, List.getElem?_eq_getElem hg] using this

theorem window_congr {f g : Bytes} {o n : Nat}
    (h : ∀ i, o ≤ i → i < o + n → byteAt f i = byteAt g i) : window f o n = window g o n := by
  unfold window
  congr 1
  funext i
  exact h _ (by omega) (by omega)

theorem byteAt_window (f : Bytes) (o n i : Nat) :
    byteAt (window f o n) i = if i < n then byteAt f (o + i) else 0 := by
  unfold window
  by_cases h : i < n <;> simp [byteAt, h]

/-- The window over a write is what was written. -/
theorem window_overwrite_self (f : Bytes) (o : Nat) (bs : Bytes) :
    window (overwrite f o bs) o bs.length = bs := by
  refine ext_byteAt (by simp) fun i => ?_
  rw [byteAt_window, byteAt_overwrite]
  by_cases h : i < bs.length
  · rw [if_pos h, if_pos ⟨by omega, by omega⟩]
    congr 1
    omega
  · rw [if_neg h, byteAt_of_length_le (by omega)]

/-- A write past the window does not show in it. -/
theorem window_overwrite_of_disjoint (f : Bytes) (o n p : Nat) (bs : Bytes)
    (h : o + n ≤ p ∨ p + bs.length ≤ o) :
    window (overwrite f p bs) o n = window f o n := by
  refine window_congr fun i h1 h2 => ?_
  rw [byteAt_overwrite, if_neg (by omega)]

/-- Appending is writing at the end. -/
theorem overwrite_append (f bs : Bytes) : overwrite f f.length bs = f ++ bs := by
  unfold overwrite
  split
  · rename_i h
    simp [h]
  · simp [resize]

theorem resize_length (f : Bytes) : resize f f.length = f := by simp [resize]

theorem resize_append_left (f g : Bytes) : resize (f ++ g) f.length = f := by simp [resize]

end Bytes
