/-
# Joins that pick the greater of two

An operation that returns one of its arguments, the one with the greater stamp, is a join on
any set whose members are told apart by their stamps.  Folding it over a list gives the
member with the greatest stamp, in whatever order and however often the members come.
-/
import Mathlib

namespace LastWrite

variable {α β : Type} [LinearOrder β] {stamp : α → β} {join : α → α → α} {S : Set α}
  {a b c r : α} {l : List α}

/-- On `S` the operation picks the argument with the greater stamp. -/
structure Picks (stamp : α → β) (join : α → α → α) (S : Set α) : Prop where
  inj : Set.InjOn stamp S
  choice : ∀ a ∈ S, ∀ b ∈ S, join a b = a ∨ join a b = b
  stamp_eq : ∀ a ∈ S, ∀ b ∈ S, stamp (join a b) = max (stamp a) (stamp b)

namespace Picks

variable (H : Picks stamp join S)
include H

theorem mem (ha : a ∈ S) (hb : b ∈ S) : join a b ∈ S := by
  rcases H.choice a ha b hb with h | h
  · rwa [h]
  · rwa [h]

theorem comm (ha : a ∈ S) (hb : b ∈ S) : join a b = join b a := by
  apply H.inj (H.mem ha hb) (H.mem hb ha)
  rw [H.stamp_eq a ha b hb, H.stamp_eq b hb a ha, max_comm]

theorem assoc (ha : a ∈ S) (hb : b ∈ S) (hc : c ∈ S) :
    join (join a b) c = join a (join b c) := by
  have hab := H.mem ha hb
  have hbc := H.mem hb hc
  apply H.inj (H.mem hab hc) (H.mem ha hbc)
  rw [H.stamp_eq _ hab c hc, H.stamp_eq a ha b hb, H.stamp_eq a ha _ hbc, H.stamp_eq b hb c hc,
    max_assoc]

omit H in
theorem idem (H : Picks stamp join S) (ha : a ∈ S) : join a a = a :=
  (H.choice a ha a ha).elim id id

/-- A fold ends at the greatest of the members. -/
theorem foldl_greatest (hr : r ∈ S) (hl : ∀ x ∈ l, x ∈ S) :
    l.foldl join r ∈ r :: l ∧ ∀ x ∈ r :: l, stamp x ≤ stamp (l.foldl join r) := by
  induction l generalizing r with
  | nil =>
      refine ⟨List.mem_cons_self, fun x hx => ?_⟩
      rw [List.mem_singleton.mp hx]
      exact le_rfl
  | cons y l ih =>
      have hy : y ∈ S := hl y List.mem_cons_self
      obtain ⟨hmem, hle⟩ := ih (H.mem hr hy) fun x hx => hl x (List.mem_cons_of_mem _ hx)
      have hstep := hle _ List.mem_cons_self
      rw [H.stamp_eq r hr y hy] at hstep
      rw [List.foldl_cons]
      refine ⟨?_, fun x hx => ?_⟩
      · rcases List.mem_cons.mp hmem with h | h
        · rw [h]
          rcases H.choice r hr y hy with h | h
          · rw [h]
            exact List.mem_cons_self
          · rw [h]
            exact List.mem_cons_of_mem _ List.mem_cons_self
        · exact List.mem_cons_of_mem _ (List.mem_cons_of_mem _ h)
      · rcases List.mem_cons.mp hx with rfl | hx
        · exact (le_max_left _ _).trans hstep
        rcases List.mem_cons.mp hx with rfl | hx
        · exact (le_max_right _ _).trans hstep
        · exact hle x (List.mem_cons_of_mem _ hx)

/-- Lists with the same members fold to the same one. -/
theorem foldl_congr {r' : α} {l' : List α} (hS : ∀ x ∈ r :: l, x ∈ S)
    (hsame : ∀ x, x ∈ r' :: l' ↔ x ∈ r :: l) : l'.foldl join r' = l.foldl join r := by
  have hS' : ∀ x ∈ r' :: l', x ∈ S := fun x hx => hS x ((hsame x).mp hx)
  obtain ⟨hmem, hle⟩ := H.foldl_greatest (hS r List.mem_cons_self)
    fun x hx => hS x (List.mem_cons_of_mem _ hx)
  obtain ⟨hmem', hle'⟩ := H.foldl_greatest (hS' r' List.mem_cons_self)
    fun x hx => hS' x (List.mem_cons_of_mem _ hx)
  apply H.inj (hS' _ hmem') (hS _ hmem)
  apply le_antisymm
  · exact hle _ ((hsame _).mp hmem')
  · exact hle' _ ((hsame _).mpr hmem)

end Picks

end LastWrite
