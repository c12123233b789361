/-
# Listing a search tree

`inorder` visits the children of a node from left to right and the entries of a leaf in
their order.  In a search tree that gives the entries of a key range, each once and by
increasing keys (`Lists`): the ranges of two neighbours meet and do not overlap, so what the
children list can be put one behind the other.
-/
import VelociDB.Lib.SearchTree

namespace SearchTree

variable {K V P : Type}

/-- The entries below a page, with fuel for the height. -/
def inorder (view : P → Option (View K V P)) : Nat → P → List (K × V)
  | 0, _ => []
  | n + 1, p =>
      match view p with
      | some (.leaf entries) => entries
      | some (.inner first slots) => (first :: slots.map (·.2)).flatMap (inorder view n)
      | none => []

variable [LinearOrder K] {view : P → Option (View K V P)} {root p c : P} {L : Layout K P}
  {lo mid hi : Bound K} {es es' entries : List (K × V)} {slots : List (K × P)}

/-- The entries with keys in a range, in order. -/
structure Lists (L : Layout K P) (view : P → Option (View K V P)) (lo hi : Bound K)
    (entries : List (K × V)) : Prop where
  within : Within lo hi entries
  mem_iff : ∀ e, e ∈ entries ↔ L.Holds view e ∧ lo ≤ Bound.key e.1 ∧ Bound.key e.1 < hi

/-- Two ranges that meet. -/
theorem Lists.append (h : Lists L view lo mid es) (h' : Lists L view mid hi es') (hlo : lo ≤ mid)
    (hhi : mid ≤ hi) : Lists L view lo hi (es ++ es') := by
  refine ⟨h.within.append h'.within hlo hhi, fun e => ?_⟩
  rw [List.mem_append, h.mem_iff, h'.mem_iff]
  constructor
  · rintro (⟨hh, hl, hr⟩ | ⟨hh, hl, hr⟩)
    · exact ⟨hh, hl, hr.trans_le hhi⟩
    · exact ⟨hh, hlo.trans hl, hr⟩
  · rintro ⟨hh, hl, hr⟩
    rcases lt_or_ge (Bound.key e.1) mid with hm | hm
    · exact .inl ⟨hh, hl, hm⟩
    · exact .inr ⟨hh, hm, hr⟩

theorem Lists.all (h : Lists L view ⊥ ⊤ es) (e : K × V) : e ∈ es ↔ L.Holds view e := by
  rw [h.mem_iff]
  exact ⟨fun he => he.1, fun he => ⟨he, bot_le, key_lt_top⟩⟩

theorem Whole.lists_leaf (W : Whole view root L) (hp : p ∈ L.pages)
    (hv : view p = some (.leaf entries)) : Lists L view (L.lo p) (L.hi p) entries := by
  have hW := (Forest.suits_of W hp hv).2
  refine ⟨hW, fun e => ⟨fun he => ?_, fun ⟨hh, hlo, hhi⟩ => ?_⟩⟩
  · exact ⟨⟨p, hp, entries, hv, he⟩, hW.lo_le e he, hW.lt_hi e he⟩
  · exact (Whole.holds_iff W hp hv hlo hhi).mp hh

/-- Neighbours that tile a range list it together. -/
theorem lists_children {list : P → List (K × V)} (h : Tiles L.lo L.hi lo c slots hi)
    (hlist : ∀ x ∈ c :: slots.map (·.2), Lists L view (L.lo x) (L.hi x) (list x)) :
    Lists L view lo hi ((c :: slots.map (·.2)).flatMap list) := by
  induction slots generalizing lo c with
  | nil =>
      obtain ⟨rfl, rfl, -⟩ := h
      have hc := hlist c List.mem_cons_self
      rw [List.map_nil, List.flatMap_cons, List.flatMap_nil, List.append_nil]
      exact hc
  | cons slot slots ih =>
      obtain ⟨k, d⟩ := slot
      obtain ⟨hlo, hhi, hlt, hrest⟩ := h
      have hc := hlist c List.mem_cons_self
      rw [hlo, hhi] at hc
      have hd := ih hrest fun x hx => hlist x (List.mem_cons_of_mem _ hx)
      rw [List.flatMap_cons]
      exact hc.append hd hlt.le (tiles_lt hrest).le

/-- What is below a page of a search tree. -/
theorem Whole.lists_inorder (W : Whole view root L) {n : Nat} (hp : p ∈ L.pages)
    (hn : L.level p < n) : Lists L view (L.lo p) (L.hi p) (inorder view n p) := by
  induction n generalizing p with
  | zero => exact absurd hn (Nat.not_lt_zero _)
  | succ n ih =>
      obtain ⟨v, hv, hS⟩ := W.suits p hp
      rw [inorder, hv]
      cases v with
      | leaf entries => exact Whole.lists_leaf W hp hv
      | inner first slots =>
          refine lists_children hS.2 fun x hx => ?_
          obtain ⟨hmem, hlevel⟩ := hS.1 x hx
          exact ih hmem (by omega)

/-- What is below the root is everything. -/
theorem Whole.lists_root (W : Whole view root L) {n : Nat} (hn : L.level root < n) :
    Lists L view ⊥ ⊤ (inorder view n root) := by
  have h := Whole.lists_inorder W W.root_mem hn
  rwa [W.root_lo, W.root_hi] at h

end SearchTree
