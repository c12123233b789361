/-
# A stream of frames, cut at any place

A stream is the encodings of its items one after the other.  Cut after `n` elements it
still holds an item exactly when that item's encoding ends at or before `n`:

    ends       every item with the place where its encoding ends
    endedBy n  the items that end at or before `n`, in order

The items that are still there are an initial part of all items (`endedBy_eq_take`),
and a reader may take them off the front one by one (`endedBy_cons`).
-/
import Mathlib.Data.List.Basic

namespace Frames

variable {α β : Type} (enc : α → List β)

/-- The items with the places where their encodings end, the first encoding starting at
`start`. -/
def ends : Nat → List α → List (α × Nat)
  | _, [] => []
  | start, a :: as => (a, start + (enc a).length) :: ends (start + (enc a).length) as

/-- The items whose encoding ends at or before `n`. -/
def endedBy (n : Nat) (as : List α) : List α := ((ends enc 0 as).filter (·.2 ≤ n)).map (·.1)

theorem ends_shift (k start : Nat) (as : List α) :
    ends enc (k + start) as = (ends enc start as).map fun e => (e.1, k + e.2) := by
  induction as generalizing start with
  | nil => rfl
  | cons a as ih =>
      rw [ends, ends, List.map_cons, Nat.add_assoc, ih]

theorem le_ends {start : Nat} {as : List α} {e : α × Nat} (h : e ∈ ends enc start as) :
    start ≤ e.2 := by
  induction as generalizing start with
  | nil => cases h
  | cons a as ih =>
      rw [ends, List.mem_cons] at h
      rcases h with rfl | h
      · exact Nat.le_add_right _ _
      · exact Nat.le_trans (Nat.le_add_right _ _) (ih h)

@[simp] theorem endedBy_nil (n : Nat) : endedBy enc n [] = [] := rfl

theorem endedBy_cons (n : Nat) (a : α) (as : List α) :
    endedBy enc n (a :: as) =
      if (enc a).length ≤ n then a :: endedBy enc (n - (enc a).length) as else [] := by
  have hshift := ends_shift enc (enc a).length 0 as
  rw [Nat.add_zero] at hshift
  rw [endedBy, ends, Nat.zero_add, hshift]
  split
  · rename_i h
    rw [List.filter_cons_of_pos (by simpa using h), List.filter_map, List.map_cons, List.map_map]
    have hfilter : ((fun e : α × Nat => decide (e.2 ≤ n)) ∘
        fun e : α × Nat => (e.1, (enc a).length + e.2)) =
        fun e : α × Nat => decide (e.2 ≤ n - (enc a).length) := by
      funext e
      simp only [Function.comp_apply, decide_eq_decide]
      omega
    rw [hfilter]
    rfl
  · rename_i h
    rw [List.filter_eq_nil_iff.mpr, List.map_nil]
    intro e he
    rw [List.mem_cons, ← hshift] at he
    rcases he with rfl | he
    · simpa using h
    · have hle := le_ends enc he
      simp only [decide_eq_true_eq]
      omega

/-- A run of items that is whole stands in front of what follows it. -/
theorem endedBy_append (n : Nat) (as bs : List α) :
    endedBy enc n (as ++ bs) = if (as.flatMap enc).length ≤ n
      then as ++ endedBy enc (n - (as.flatMap enc).length) bs else endedBy enc n as := by
  induction as generalizing n with
  | nil => simp
  | cons a as ih =>
      rw [List.cons_append, endedBy_cons, endedBy_cons, ih, List.flatMap_cons, List.length_append]
      by_cases ha : (enc a).length ≤ n
      · rw [if_pos ha, if_pos ha]
        by_cases has : (as.flatMap enc).length ≤ n - (enc a).length
        · rw [if_pos has, if_pos (by omega), Nat.sub_add_eq]
          rfl
        · rw [if_neg has, if_neg (by omega)]
      · rw [if_neg ha, if_neg ha, if_neg (by omega)]

/-- Nothing is lost when the stream is whole. -/
theorem endedBy_of_le {n : Nat} {as : List α} (h : (as.flatMap enc).length ≤ n) :
    endedBy enc n as = as := by
  have happend := endedBy_append enc n as []
  rw [List.append_nil, if_pos h, endedBy_nil, List.append_nil] at happend
  exact happend

/-- The items still there are an initial part, a proper one when an element is missing. -/
theorem endedBy_eq_take (n : Nat) (as : List α) :
    ∃ k, endedBy enc n as = as.take k ∧ (n < (as.flatMap enc).length → k < as.length) := by
  induction as generalizing n with
  | nil => exact ⟨0, rfl, by simp⟩
  | cons a as ih =>
      rw [endedBy_cons]
      split
      · obtain ⟨k, hk, hlt⟩ := ih (n - (enc a).length)
        refine ⟨k + 1, by rw [hk, List.take_succ_cons], fun h => ?_⟩
        rw [List.flatMap_cons, List.length_append] at h
        have := hlt (by omega)
        rw [List.length_cons]
        omega
      · exact ⟨0, rfl, fun _ => by simp⟩

theorem mem_of_mem_endedBy {n : Nat} {as : List α} {a : α} (h : a ∈ endedBy enc n as) : a ∈ as := by
  obtain ⟨k, hk, -⟩ := endedBy_eq_take enc n as
  rw [hk] at h
  exact List.mem_of_mem_take h

end Frames
