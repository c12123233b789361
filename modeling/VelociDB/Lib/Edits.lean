/-
# Edits in the middle of a buffer

What an `overwrite` does to a buffer that is given by its parts:

    overwrite_mid     one part is replaced by another of its length
    overwrite_join    two writes one behind the other are one
    shift_right       a part is copied up over a gap behind it
    shift_left        a part is copied down over a gap before it
    overwrite_next    a byte is put behind those already there

After a shift the part stands at its new place, and what is left in the gap is of the gap's
length and of no interest.
-/
import VelociDB.Lib.Bytes

namespace Bytes

variable {xs ys zs gap bs : Bytes}

theorem overwrite_mid (xs zs : Bytes) (h : bs.length = ys.length) :
    overwrite (xs ++ (ys ++ zs)) xs.length bs = xs ++ (bs ++ zs) := by
  unfold overwrite
  split
  · rename_i hbs
    have hys : ys = [] := by simpa [hbs] using h.symm
    rw [hbs, hys]
  · rw [resize_append_left, List.append_assoc, h, ← List.drop_drop, List.drop_left, List.drop_left]

theorem overwrite_join (f xs ys : Bytes) (o : Nat) :
    overwrite (overwrite f o xs) (o + xs.length) ys = overwrite f o (xs ++ ys) := by
  by_cases hxs : xs = []
  · simp [hxs]
  by_cases hys : ys = []
  · simp [hys]
  have hne : xs ++ ys ≠ [] := by simp [hxs]
  refine ext_byteAt ?_ fun i => ?_
  · rw [length_overwrite _ _ hys, length_overwrite _ _ hxs, length_overwrite _ _ hne,
      List.length_append]
    omega
  · rw [byteAt_overwrite, byteAt_overwrite, byteAt_overwrite, byteAt_append, List.length_append]
    by_cases hx : o ≤ i ∧ i < o + xs.length
    · rw [if_neg (by omega), if_pos hx, if_pos (by omega), if_pos (by omega)]
    · by_cases hy : o + xs.length ≤ i ∧ i < o + xs.length + ys.length
      · rw [if_pos hy, if_pos (by omega), if_neg (by omega), Nat.sub_sub]
      · rw [if_neg hy, if_neg hx, if_neg (by omega)]

/-- The part `ys` moves up by the length of the gap behind it. -/
theorem shift_right (xs ys gap zs : Bytes) :
    overwrite (xs ++ (ys ++ (gap ++ zs))) (xs.length + gap.length) ys =
      xs ++ ((ys ++ gap).take gap.length ++ (ys ++ zs)) := by
  have hlen : ys.length = ((ys ++ gap).drop gap.length).length := by
    simp
  have hhead : (xs ++ (ys ++ gap).take gap.length).length = xs.length + gap.length := by
    simp
  have hsplit : xs ++ (ys ++ (gap ++ zs)) = (xs ++ (ys ++ gap).take gap.length) ++
      ((ys ++ gap).drop gap.length ++ zs) := by
    rw [List.append_assoc xs, ← List.append_assoc (List.take _ _), List.take_append_drop,
      List.append_assoc]
  rw [hsplit, ← hhead, overwrite_mid _ _ hlen, List.append_assoc]

/-- The part `ys` moves down by the length of the gap before it. -/
theorem shift_left (xs gap ys zs : Bytes) :
    overwrite (xs ++ (gap ++ (ys ++ zs))) xs.length ys =
      xs ++ (ys ++ ((gap ++ ys).drop ys.length ++ zs)) := by
  have hlen : ys.length = ((gap ++ ys).take ys.length).length := by
    simp
  have hsplit : gap ++ (ys ++ zs) = (gap ++ ys).take ys.length ++
      ((gap ++ ys).drop ys.length ++ zs) := by
    rw [← List.append_assoc (List.take _ _), List.take_append_drop, List.append_assoc]
  rw [hsplit, overwrite_mid _ _ hlen]

/-- The window up to the byte just written. -/
theorem overwrite_next (f : Bytes) (o n : Nat) (b : UInt8) :
    window (overwrite f (o + n) [b]) o (n + 1) = window f o n ++ [b] := by
  refine ext_byteAt (by simp) fun i => ?_
  rw [byteAt_window, byteAt_overwrite, byteAt_append, byteAt_window, length_window,
    List.length_singleton]
  by_cases hi : i < n
  · rw [if_pos (by omega), if_neg (by omega), if_pos hi, if_pos hi]
  · rw [if_neg hi]
    by_cases hn : i = n
    · subst hn
      rw [if_pos (Nat.lt_succ_self _), if_pos (by omega), Nat.sub_self, Nat.sub_self]
    · rw [if_neg (by omega), byteAt_of_length_le (by rw [List.length_singleton]; omega)]

end Bytes
