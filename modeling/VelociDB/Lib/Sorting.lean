/-
# Sorting

Merge sort under a comparison that is total but need not be transitive: neighbours of the
result are still in order (`isChain_mergeSort`).  Where the comparison orders the elements
of a list (`OrderedOn`), its sorted permutation is the only one (`eq_mergeSort`), so sorting
what a selection put in front is the front of the sorted list (`mergeSort_take`).
-/
import Mathlib

namespace Sorting

variable {α : Type} {le : α → α → Bool}

theorem head?_merge {xs ys : List α} {z : α} (h : z ∈ (xs.merge ys le).head?) :
    z ∈ xs.head? ∨ z ∈ ys.head? := by
  cases xs with
  | nil => exact Or.inr (by simpa using h)
  | cons x xs =>
      cases ys with
      | nil => exact Or.inl (by simpa using h)
      | cons y ys =>
          rw [List.cons_merge_cons] at h
          split at h
          · exact Or.inl h
          · exact Or.inr h

theorem isChain_merge (htotal : ∀ a b, le a b ∨ le b a) {xs ys : List α}
    (hxs : xs.IsChain fun a b => le a b) (hys : ys.IsChain fun a b => le a b) :
    (xs.merge ys le).IsChain fun a b => le a b := by
  induction xs generalizing ys with
  | nil => simpa using hys
  | cons x xs ihx =>
      induction ys with
      | nil => simpa using hxs
      | cons y ys ihy =>
          rw [List.isChain_cons] at hxs hys
          rw [List.cons_merge_cons]
          split
          · rename_i hxy
            refine List.isChain_cons.mpr ⟨fun z hz => ?_, ihx hxs.2 (List.isChain_cons.mpr hys)⟩
            rcases head?_merge hz with hz | hz
            · exact hxs.1 z hz
            · obtain rfl : y = z := by simpa using hz
              exact hxy
          · rename_i hxy
            refine List.isChain_cons.mpr ⟨fun z hz => ?_, ihy hys.2⟩
            rcases head?_merge hz with hz | hz
            · obtain rfl : x = z := by simpa using hz
              exact (htotal x y).resolve_left hxy
            · exact hys.1 z hz

theorem isChain_mergeSort (htotal : ∀ a b, le a b ∨ le b a) :
    ∀ l : List α, (l.mergeSort le).IsChain fun a b => le a b
  | [] => by simp
  | [a] => by simp
  | a :: b :: l => by
      rw [List.mergeSort]
      exact isChain_merge htotal (isChain_mergeSort htotal _) (isChain_mergeSort htotal _)
termination_by l => l.length

/-! ## Total orders on the elements of a list -/

variable {cmp : α → α → Ordering} {l l' : List α}

/-- `cmp` is a total order on the elements of `l`. -/
structure OrderedOn (cmp : α → α → Ordering) (l : List α) : Prop where
  swap : ∀ a ∈ l, ∀ b ∈ l, cmp b a = (cmp a b).swap
  trans : ∀ a ∈ l, ∀ b ∈ l, ∀ c ∈ l, cmp a b ≠ .gt → cmp b c ≠ .gt → cmp a c ≠ .gt

namespace OrderedOn

theorem mono (h : OrderedOn cmp l) (hsub : ∀ a ∈ l', a ∈ l) : OrderedOn cmp l' :=
  ⟨fun a ha b hb => h.swap a (hsub a ha) b (hsub b hb),
    fun a ha b hb c hc => h.trans a (hsub a ha) b (hsub b hb) c (hsub c hc)⟩

theorem total (h : OrderedOn cmp l) {a b : α} (ha : a ∈ l) (hb : b ∈ l) :
    cmp a b ≠ .gt ∨ cmp b a ≠ .gt := by
  rw [h.swap a ha b hb]
  cases cmp a b <;> simp

theorem refl (h : OrderedOn cmp l) {a : α} (ha : a ∈ l) : cmp a a ≠ .gt :=
  (h.total ha ha).elim id id

theorem pairwise_mergeSort (h : OrderedOn cmp l) :
    (l.mergeSort fun a b => cmp a b ≠ .gt).Pairwise fun a b => cmp a b ≠ .gt := by
  -- on the elements of `l` the comparison is total and transitive
  have hsub : (l.attach.mergeSort fun a b => cmp a.1 b.1 ≠ .gt).Pairwise
      fun a b => cmp a.1 b.1 ≠ .gt := by
    refine (List.pairwise_mergeSort ?_ ?_ _).imp fun hab => by simpa using hab
    · rintro ⟨a, ha⟩ ⟨b, hb⟩ ⟨c, hc⟩ hab hbc
      simp only [decide_eq_true_eq] at *
      exact h.trans a ha b hb c hc hab hbc
    · rintro ⟨a, ha⟩ ⟨b, hb⟩
      simpa using h.total ha hb
  have hmap : (l.attach.mergeSort fun a b => cmp a.1 b.1 ≠ .gt).map Subtype.val =
      l.mergeSort fun a b => cmp a b ≠ .gt := by
    rw [List.map_mergeSort (s := fun a b => cmp a b ≠ .gt) fun _ _ _ _ => rfl,
      List.attach_map_subtype_val]
  rw [← hmap, List.pairwise_map]
  exact hsub

/-- A sorted permutation is the sorted list, where only an element equals itself. -/
theorem eq_mergeSort (h : OrderedOn cmp l) (hanti : ∀ a ∈ l, ∀ b ∈ l, cmp a b = .eq → a = b)
    (hperm : l'.Perm l) (hsorted : l'.Pairwise fun a b => cmp a b ≠ .gt) :
    l' = l.mergeSort fun a b => cmp a b ≠ .gt := by
  refine List.Perm.eq_of_pairwise (fun a b ha hb hab hba => ?_) hsorted h.pairwise_mergeSort
    (hperm.trans (List.mergeSort_perm l _).symm)
  have ha : a ∈ l := hperm.subset ha
  have hb : b ∈ l := (List.mergeSort_perm l _).subset hb
  refine hanti a ha b hb ?_
  rw [h.swap a ha b hb] at hba
  cases hcmp : cmp a b <;> simp_all

/-- Whatever puts `k` smallest elements in front: sorting them gives the first `k` of the
sorted list. -/
theorem mergeSort_take (h : OrderedOn cmp l)
    (hanti : ∀ a ∈ l, ∀ b ∈ l, cmp a b = .eq → a = b) (hperm : l'.Perm l) {k : Nat}
    (hparts : ∀ a ∈ l'.take k, ∀ b ∈ l'.drop k, cmp a b ≠ .gt) :
    ((l'.take k).mergeSort fun a b => cmp a b ≠ .gt) =
      (l.mergeSort fun a b => cmp a b ≠ .gt).take k := by
  have htake : OrderedOn cmp (l'.take k) :=
    h.mono fun a ha => hperm.subset (List.mem_of_mem_take ha)
  have hdrop : OrderedOn cmp (l'.drop k) :=
    h.mono fun a ha => hperm.subset (List.mem_of_mem_drop ha)
  set front := (l'.take k).mergeSort fun a b => cmp a b ≠ .gt with hfront
  set back := (l'.drop k).mergeSort fun a b => cmp a b ≠ .gt with hback
  have hall : (front ++ back).Perm l := by
    refine List.Perm.trans ?_ hperm
    have hparts := (List.mergeSort_perm (l'.take k) fun a b => cmp a b ≠ .gt).append
      (List.mergeSort_perm (l'.drop k) fun a b => cmp a b ≠ .gt)
    rwa [List.take_append_drop] at hparts
  have hsorted : (front ++ back).Pairwise fun a b => cmp a b ≠ .gt :=
    List.pairwise_append.mpr ⟨htake.pairwise_mergeSort, hdrop.pairwise_mergeSort,
      fun a ha b hb => hparts a (List.mem_mergeSort.mp ha) b (List.mem_mergeSort.mp hb)⟩
  rw [← h.eq_mergeSort hanti hall hsorted]
  have hlen : front.length = min k l'.length := by
    rw [hfront, List.length_mergeSort, List.length_take]
  rcases Nat.le_total k l'.length with hk | hk
  · rw [List.take_left' (by omega)]
  · have hnil : back = [] := by
      rw [← List.length_eq_zero_iff, hback, List.length_mergeSort, List.length_drop]
      omega
    rw [hnil, List.append_nil, List.take_of_length_le (by omega)]

end OrderedOn

/-! ## Selection -/

/-- `select_nth_unstable_by`: the elements in another order; under a total order none
before position `n` is larger than the one there, and none behind it is smaller. -/
structure Selection (α : Type) where
  select : (α → α → Ordering) → Nat → List α → List α
  perm : ∀ (cmp : α → α → Ordering) {n : Nat} {l : List α}, n < l.length → (select cmp n l).Perm l
  parts : ∀ {cmp : α → α → Ordering} {n : Nat} {l : List α} {p : α}, OrderedOn cmp l →
    n < l.length → (select cmp n l)[n]? = some p →
    (∀ a ∈ (select cmp n l).take n, cmp a p ≠ .gt) ∧
      ∀ b ∈ (select cmp n l).drop (n + 1), cmp p b ≠ .gt

/-- Selection by sorting. -/
def Selection.bySort (α : Type) : Selection α where
  select cmp _ l := l.mergeSort fun a b => cmp a b ≠ .gt
  perm _ _ _ _ := List.mergeSort_perm _ _
  parts := by
    intro cmp n l p h _ hp
    have hsorted := h.pairwise_mergeSort
    obtain ⟨hn, rfl⟩ := List.getElem?_eq_some_iff.mp hp
    rw [← List.take_append_drop n (l.mergeSort _), List.drop_eq_getElem_cons hn,
      List.pairwise_append, List.pairwise_cons] at hsorted
    exact ⟨fun a ha => hsorted.2.2 a ha _ List.mem_cons_self, hsorted.2.1.1⟩

/-- What a selection puts in front, up to its position, is no larger than the rest. -/
theorem Selection.take_le_drop (S : Selection α) {n : Nat} (h : OrderedOn cmp l)
    (hn : n < l.length) : ∀ a ∈ (S.select cmp n l).take (n + 1),
      ∀ b ∈ (S.select cmp n l).drop (n + 1), cmp a b ≠ .gt := by
  intro a ha b hb
  have hperm := S.perm cmp hn
  have hn' : n < (S.select cmp n l).length := by rwa [hperm.length_eq]
  obtain ⟨hle, hge⟩ := S.parts h hn (List.getElem?_eq_getElem hn')
  have hmem : ∀ {x}, x ∈ S.select cmp n l → x ∈ l := fun hx => hperm.subset hx
  rw [List.take_succ_eq_append_getElem hn', List.mem_append, List.mem_singleton] at ha
  rcases ha with ha | rfl
  · exact h.trans a (hmem (List.mem_of_mem_take ha)) _ (hmem (List.getElem_mem hn')) b
      (hmem (List.mem_of_mem_drop hb)) (hle a ha) (hge b hb)
  · exact hge b hb

end Sorting
