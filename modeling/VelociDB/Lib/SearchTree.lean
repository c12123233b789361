/-
# Search trees laid out over pages

A store gives each page a view: a leaf with entries, or an inner node with a first child
and slots `(separator, child)`.  A layout says which pages belong to the tree, how high
each of them stands and which key range `[lo, hi)` the separators above leave it:

    Tiles     the ranges of the children of one node, from left to right, fill its range
    Forest    every page suits its range, every page but the root hangs below another one
    Whole     a forest with nothing loose: a search tree
    Hanging   a node `left` has been cut in two; its parent does not know `right` yet

The edits of a tree (replace the entries of a leaf, cut a node, hang the cut-off half into
the parent or under a new root, move a separator, merge two neighbours) take one of these
to another.  No edit touches the range of a page it does not name, so each is local.
-/
import Mathlib

namespace SearchTree

/-! ## Bounds -/

/-- An end of a key range: a key or an infinity. -/
abbrev Bound (K : Type) := WithBot (WithTop K)

variable {K V P : Type}

/-- A key as a bound. -/
def Bound.key (k : K) : Bound K := ((k : WithTop K) : WithBot (WithTop K))

section Order

variable [LinearOrder K] {k m : K}

@[simp] theorem key_le_key : Bound.key k ≤ Bound.key m ↔ k ≤ m := by
  simp [Bound.key]

@[simp] theorem key_lt_key : Bound.key k < Bound.key m ↔ k < m := by
  simp [Bound.key]

@[simp] theorem bot_lt_key : (⊥ : Bound K) < Bound.key k := WithBot.bot_lt_coe _

@[simp] theorem key_lt_top : Bound.key k < (⊤ : Bound K) :=
  WithBot.coe_lt_coe.mpr (WithTop.coe_lt_top k)

theorem bot_lt_top : (⊥ : Bound K) < ⊤ := WithBot.bot_lt_coe _

end Order

/-! ## Views -/

/-- What a page holds. -/
inductive View (K V P : Type) where
  | leaf (entries : List (K × V))
  | inner (first : P) (slots : List (K × P))

/-- The children of a page. -/
def View.children : View K V P → List P
  | .leaf _ => []
  | .inner first slots => first :: slots.map (·.2)

/-- The entries of a page. -/
def View.entries : View K V P → List (K × V)
  | .leaf entries => entries
  | .inner _ _ => []

/-- The last child of a node. -/
def lastOf : P → List (K × P) → P
  | c, [] => c
  | _, (_, d) :: slots => lastOf d slots

/-- The children before the last one. -/
def before : P → List (K × P) → List P
  | _, [] => []
  | c, (_, d) :: slots => c :: before d slots

/-- A node seen from one of its children. -/
theorem children_focus (c : P) (l r : List (K × P)) :
    c :: (l ++ r).map (·.2) = before c l ++ lastOf c l :: r.map (·.2) := by
  induction l generalizing c with
  | nil => rfl
  | cons e l ih => simpa [before, lastOf] using ih e.2

/-- Every child can be looked at. -/
theorem exists_focus {c x : P} {slots : List (K × P)} (h : x ∈ c :: slots.map (·.2)) :
    ∃ l r, slots = l ++ r ∧ lastOf c l = x := by
  induction slots generalizing c with
  | nil => exact ⟨[], [], rfl, by simpa [lastOf, eq_comm] using h⟩
  | cons e slots ih =>
      rcases List.mem_cons.mp h with rfl | h
      · exact ⟨[], e :: slots, rfl, rfl⟩
      · obtain ⟨l, r, rfl, hx⟩ := ih (c := e.2) (by simpa using h)
        exact ⟨e :: l, r, rfl, hx⟩

theorem lastOf_mem (c : P) (l r : List (K × P)) : lastOf c l ∈ c :: (l ++ r).map (·.2) := by
  rw [children_focus]
  simp

theorem next_mem (c : P) (l r : List (K × P)) (k : K) (d : P) :
    d ∈ c :: (l ++ (k, d) :: r).map (·.2) := by
  simp

/-! ## Tilings -/

section Tiles

variable [LinearOrder K]

/-- The ranges `[f, g)` of the children fill `[lo, hi)`, with the separators between
them. -/
def Tiles (f g : P → Bound K) : Bound K → P → List (K × P) → Bound K → Prop
  | lo, c, [], hi => f c = lo ∧ g c = hi ∧ lo < hi
  | lo, c, (k, d) :: slots, hi =>
      f c = lo ∧ g c = Bound.key k ∧ lo < Bound.key k ∧ Tiles f g (Bound.key k) d slots hi

instance decidableTiles (f g : P → Bound K) :
    ∀ (lo : Bound K) (c : P) (slots : List (K × P)) (hi : Bound K), Decidable (Tiles f g lo c slots hi)
  | lo, c, [], hi => inferInstanceAs (Decidable (f c = lo ∧ g c = hi ∧ lo < hi))
  | lo, c, (k, d) :: slots, hi =>
      have := decidableTiles f g (Bound.key k) d slots hi
      inferInstanceAs (Decidable (f c = lo ∧ g c = Bound.key k ∧ lo < Bound.key k ∧
        Tiles f g (Bound.key k) d slots hi))

/-- The children before the last one fill `[lo, a)`. -/
def Before (f g : P → Bound K) : Bound K → P → List (K × P) → Bound K → Prop
  | lo, _, [], a => a = lo
  | lo, c, (k, d) :: l, a =>
      f c = lo ∧ g c = Bound.key k ∧ lo < Bound.key k ∧ Before f g (Bound.key k) d l a

/-- The children of the slots fill `[b, hi)`. -/
def After (f g : P → Bound K) : Bound K → List (K × P) → Bound K → Prop
  | b, [], hi => b = hi
  | b, (k, d) :: r, hi => b = Bound.key k ∧ Tiles f g (Bound.key k) d r hi

variable {f g f' g' : P → Bound K} {lo hi a b : Bound K} {c x y : P} {l r slots : List (K × P)}

/-- A tiling seen from one of its tiles. -/
theorem tiles_focus :
    Tiles f g lo c (l ++ r) hi ↔
      Before f g lo c l (f (lastOf c l)) ∧ f (lastOf c l) < g (lastOf c l) ∧
        After f g (g (lastOf c l)) r hi := by
  induction l generalizing lo c with
  | nil =>
      rcases r with _ | ⟨⟨k, d⟩, r⟩
      · simp only [List.append_nil, Tiles, Before, After, lastOf]
        constructor
        · rintro ⟨rfl, rfl, h⟩
          exact ⟨rfl, h, rfl⟩
        · rintro ⟨rfl, h, rfl⟩
          exact ⟨rfl, rfl, h⟩
      · simp only [List.nil_append, Tiles, Before, After, lastOf]
        constructor
        · rintro ⟨rfl, h, hlt, ht⟩
          exact ⟨rfl, h ▸ hlt, h, ht⟩
        · rintro ⟨rfl, hlt, h, ht⟩
          exact ⟨rfl, h, h ▸ hlt, ht⟩
  | cons e l ih =>
      obtain ⟨k, d⟩ := e
      simp only [List.cons_append, Tiles, Before, lastOf, ih]
      tauto

/-- A tiling cut at a separator. -/
theorem tiles_append {k : K} {d : P} :
    Tiles f g lo c (l ++ (k, d) :: r) hi ↔
      Tiles f g lo c l (Bound.key k) ∧ Tiles f g (Bound.key k) d r hi := by
  induction l generalizing lo c with
  | nil => simp only [List.nil_append, Tiles]; tauto
  | cons e l ih =>
      obtain ⟨m, x⟩ := e
      simp only [List.cons_append, Tiles, ih]
      tauto

theorem tiles_lt (h : Tiles f g lo c slots hi) : lo < hi := by
  induction slots generalizing lo c with
  | nil => exact h.2.2
  | cons e slots ih =>
      obtain ⟨k, d⟩ := e
      exact h.2.2.1.trans (ih h.2.2.2)

theorem before_le (h : Before f g lo c l a) : lo ≤ a := by
  induction l generalizing lo c with
  | nil => exact h.symm.le
  | cons e l ih => exact h.2.2.1.le.trans (ih h.2.2.2)

theorem after_le (h : After f g b r hi) : b ≤ hi := by
  rcases r with _ | ⟨⟨k, d⟩, r⟩
  · exact h.le
  · exact h.1.le.trans (tiles_lt h.2).le

/-- Every tile is a range inside the tiled one. -/
theorem tiles_bounds (h : Tiles f g lo c slots hi) (hx : x ∈ c :: slots.map (·.2)) :
    lo ≤ f x ∧ f x < g x ∧ g x ≤ hi := by
  obtain ⟨l, r, rfl, rfl⟩ := exists_focus hx
  obtain ⟨h₁, h₂, h₃⟩ := tiles_focus.mp h
  exact ⟨before_le h₁, h₂, after_le h₃⟩

/-- Tiles before the focus end where it begins. -/
theorem before_tile (h : Before f g lo c l a) (hx : x ∈ before c l) :
    lo ≤ f x ∧ f x < g x ∧ g x ≤ a := by
  induction l generalizing lo c with
  | nil => simp [before] at hx
  | cons e l ih =>
      obtain ⟨k, d⟩ := e
      obtain ⟨h₁, h₂, h₃, h₄⟩ := h
      rcases List.mem_cons.mp hx with rfl | hx
      · exact ⟨h₁.ge, by rw [h₁, h₂]; exact h₃, h₂ ▸ before_le h₄⟩
      · obtain ⟨i₁, i₂, i₃⟩ := ih h₄ hx
        exact ⟨h₃.le.trans i₁, i₂, i₃⟩

/-- Tiles behind the focus begin where it ends. -/
theorem after_tile (h : After f g b r hi) (hx : x ∈ r.map (·.2)) :
    b ≤ f x ∧ f x < g x ∧ g x ≤ hi := by
  rcases r with _ | ⟨⟨k, d⟩, r⟩
  · simp at hx
  · rw [h.1]
    exact tiles_bounds h.2 (by simpa using hx)

/-- Two tiles with a common point are one. -/
theorem tiles_disjoint (h : Tiles f g lo c slots hi) (hx : x ∈ c :: slots.map (·.2))
    (hy : y ∈ c :: slots.map (·.2)) {p : Bound K} (hpx : f x ≤ p ∧ p < g x)
    (hpy : f y ≤ p ∧ p < g y) : x = y := by
  obtain ⟨l, r, rfl, rfl⟩ := exists_focus hx
  obtain ⟨h₁, h₂, h₃⟩ := tiles_focus.mp h
  rw [children_focus, List.mem_append, List.mem_cons] at hy
  rcases hy with hy | rfl | hy
  · exact absurd hpy.2 (((before_tile h₁ hy).2.2.trans hpx.1).not_gt)
  · rfl
  · exact absurd hpx.2 (((after_tile h₃ hy).1.trans hpy.1).not_gt)

/-- The tiles before and behind the focus are others. -/
theorem ne_focus (h : Tiles f g lo c (l ++ r) hi) :
    lastOf c l ∉ before c l ∧ lastOf c l ∉ r.map (·.2) := by
  obtain ⟨h₁, h₂, h₃⟩ := tiles_focus.mp h
  constructor
  · intro hx
    exact (before_tile h₁ hx).2.2.not_gt h₂
  · intro hx
    exact (after_tile h₃ hx).1.not_gt h₂

theorem before_congr (h : Before f g lo c l a)
    (hfg : ∀ x ∈ before c l, f' x = f x ∧ g' x = g x) : Before f' g' lo c l a := by
  induction l generalizing lo c with
  | nil => exact h
  | cons e l ih =>
      obtain ⟨h₁, h₂, h₃, h₄⟩ := h
      have hc := hfg c (by simp [before])
      exact ⟨hc.1.trans h₁, hc.2.trans h₂, h₃, ih h₄ fun x hx => hfg x (by simp [before, hx])⟩

theorem tiles_congr (h : Tiles f g lo c slots hi)
    (hfg : ∀ x ∈ c :: slots.map (·.2), f' x = f x ∧ g' x = g x) : Tiles f' g' lo c slots hi := by
  induction slots generalizing lo c with
  | nil =>
      have hc := hfg c (by simp)
      exact ⟨hc.1.trans h.1, hc.2.trans h.2.1, h.2.2⟩
  | cons e slots ih =>
      obtain ⟨h₁, h₂, h₃, h₄⟩ := h
      have hc := hfg c (by simp)
      refine ⟨hc.1.trans h₁, hc.2.trans h₂, h₃, ih h₄ fun x hx => hfg x ?_⟩
      simpa using Or.inr (by simpa using hx)

theorem after_congr (h : After f g b r hi)
    (hfg : ∀ x ∈ r.map (·.2), f' x = f x ∧ g' x = g x) : After f' g' b r hi := by
  rcases r with _ | ⟨⟨k, d⟩, r⟩
  · exact h
  · exact ⟨h.1, tiles_congr h.2 (by simpa using hfg)⟩

/-- The separators before the focus are at most its lower bound. -/
theorem before_keys (h : Before f g lo c l a) : ∀ e ∈ l, Bound.key e.1 ≤ a := by
  induction l generalizing lo c with
  | nil => simp
  | cons e l ih =>
      obtain ⟨-, -, -, h⟩ := h
      intro e' he'
      rcases List.mem_cons.mp he' with rfl | he'
      · exact before_le h
      · exact ih h e' he'

/-- The separators of a tiled node lie inside its range. -/
theorem tiles_keys (h : Tiles f g lo c slots hi) :
    ∀ e ∈ slots, lo < Bound.key e.1 ∧ Bound.key e.1 < hi := by
  intro e he
  obtain ⟨l, r, rfl⟩ := List.append_of_mem he
  obtain ⟨h₁, h₂⟩ := tiles_append.mp h
  exact ⟨tiles_lt h₁, tiles_lt h₂⟩

/-- The separators behind the focus are at least its upper bound. -/
theorem after_keys (h : After f g b r hi) : ∀ e ∈ r, b ≤ Bound.key e.1 := by
  rcases r with _ | ⟨⟨k, d⟩, r⟩
  · simp
  · intro e he
    rw [h.1]
    rcases List.mem_cons.mp he with rfl | he
    · exact le_rfl
    · exact (tiles_keys h.2 e he).1.le

/-! ### Edits of a tiling -/

variable {k m : K} {right : P}

/-- The focused tile is cut at `m`; `right` gets the upper part. -/
theorem tiles_insert (h : Tiles f g lo c (l ++ r) hi)
    (hlo : f (lastOf c l) < Bound.key m) (hhi : Bound.key m < g (lastOf c l))
    (hf : f' (lastOf c l) = f (lastOf c l)) (hg : g' (lastOf c l) = Bound.key m)
    (hf' : f' right = Bound.key m) (hg' : g' right = g (lastOf c l))
    (hfg : ∀ x ∈ c :: (l ++ r).map (·.2), x ≠ lastOf c l → f' x = f x ∧ g' x = g x) :
    Tiles f' g' lo c (l ++ (m, right) :: r) hi := by
  obtain ⟨hb, -, ha⟩ := tiles_focus.mp h
  obtain ⟨hnb, hna⟩ := ne_focus h
  rw [children_focus] at hfg
  have hb' : Before f' g' lo c l (f' (lastOf c l)) := by
    rw [hf]
    exact before_congr hb fun x hx => hfg x (by simp [hx]) fun heq => hnb (heq ▸ hx)
  have ha' : After f' g' (g' right) r hi := by
    rw [hg']
    exact after_congr ha fun x hx => hfg x (by simp [hx]) fun heq => hna (heq ▸ hx)
  have hright : Tiles f' g' (Bound.key m) right ([] ++ r) hi :=
    tiles_focus.mpr ⟨hf', by simpa [lastOf, hf', hg'] using hhi, ha'⟩
  exact tiles_focus.mpr ⟨hb', by rw [hf, hg]; exact hlo, hg, hright⟩

/-- The focused tile swallows the next one. -/
theorem tiles_merge (h : Tiles f g lo c (l ++ (k, right) :: r) hi)
    (hf : f' (lastOf c l) = f (lastOf c l)) (hg : g' (lastOf c l) = g right)
    (hfg : ∀ x ∈ c :: (l ++ r).map (·.2), x ≠ lastOf c l → f' x = f x ∧ g' x = g x) :
    Tiles f' g' lo c (l ++ r) hi := by
  obtain ⟨hb, hlt, hk, hright⟩ := tiles_focus.mp h
  obtain ⟨hnb, hna⟩ := ne_focus h
  obtain ⟨hfr, hltr, ha⟩ := (tiles_focus (l := [])).mp hright
  rw [children_focus] at hfg
  have hb' : Before f' g' lo c l (f' (lastOf c l)) := by
    rw [hf]
    exact before_congr hb fun x hx => hfg x (by simp [hx]) fun heq => hnb (heq ▸ hx)
  have ha' : After f' g' (g' (lastOf c l)) r hi := by
    rw [hg]
    refine after_congr ha fun x hx => hfg x (by simp [hx]) fun heq => hna ?_
    simp [← heq, hx]
  refine tiles_focus.mpr ⟨hb', ?_, ha'⟩
  rw [hf, hg]
  exact (hk ▸ hlt).trans (hfr ▸ hltr)

/-- The separator between the focused tile and the next one moves to `m`. -/
theorem tiles_shift (h : Tiles f g lo c (l ++ (k, right) :: r) hi)
    (hlo : f (lastOf c l) < Bound.key m) (hhi : Bound.key m < g right)
    (hf : f' (lastOf c l) = f (lastOf c l)) (hg : g' (lastOf c l) = Bound.key m)
    (hf' : f' right = Bound.key m) (hg' : g' right = g right)
    (hfg : ∀ x ∈ c :: (l ++ (k, right) :: r).map (·.2), x ≠ lastOf c l → x ≠ right →
      f' x = f x ∧ g' x = g x) :
    Tiles f' g' lo c (l ++ (m, right) :: r) hi := by
  obtain ⟨hb, hlt, hk, hright⟩ := tiles_focus.mp h
  obtain ⟨hnb, hna⟩ := ne_focus h
  obtain ⟨hfr, hltr, ha⟩ := (tiles_focus (l := [])).mp hright
  have hnr : right ∉ r.map (·.2) := (ne_focus (l := []) hright).2
  have hbr : right ∉ before c l := by
    intro hx
    have hle : g right ≤ f (lastOf c l) := (before_tile hb hx).2.2
    have hge : f (lastOf c l) < g right := (hk ▸ hlt).trans (hfr ▸ hltr)
    exact hle.not_gt hge
  rw [children_focus] at hfg
  have hb' : Before f' g' lo c l (f' (lastOf c l)) := by
    rw [hf]
    exact before_congr hb fun x hx =>
      hfg x (by simp [hx]) (fun heq => hnb (heq ▸ hx)) fun heq => hbr (heq ▸ hx)
  have ha' : After f' g' (g' right) r hi := by
    rw [hg']
    refine after_congr ha fun x hx => hfg x (by simp [hx]) (fun heq => hna ?_)
      fun heq => hnr (heq ▸ hx)
    simp [← heq, hx]
  have hright' : Tiles f' g' (Bound.key m) right ([] ++ r) hi :=
    tiles_focus.mpr ⟨hf', by simpa [lastOf, hf', hg'] using hhi, ha'⟩
  exact tiles_focus.mpr ⟨hb', by rw [hf, hg]; exact hlo, hg, hright'⟩

end Tiles

/-! ## Layouts -/

/-- The pages of a tree, their heights and their key ranges. -/
structure Layout (K P : Type) where
  pages : Set P
  level : P → Nat
  lo : P → Bound K
  hi : P → Bound K

/-- Strictly increasing keys inside a range. -/
structure Within [LinearOrder K] (lo hi : Bound K) (entries : List (K × V)) : Prop where
  sorted : entries.Pairwise fun a b => a.1 < b.1
  lo_le : ∀ e ∈ entries, lo ≤ Bound.key e.1
  lt_hi : ∀ e ∈ entries, Bound.key e.1 < hi

section Forest

variable [LinearOrder K] {view : P → Option (View K V P)} {root : P} {L L' : Layout K P}
  {seen seen' : P → Bound K} {loose : Set P} {lo hi : Bound K} {n : Nat} {v v₁ v₂ : View K V P}
  {p q c x y left right : P} {k m : K} {l r slots : List (K × P)} {first : P}

/-- A view suits a range and a height.  `seen` is what the node takes for the upper ends of
its children. -/
def Layout.Suits (L : Layout K P) (seen : P → Bound K) (lo hi : Bound K) (n : Nat) :
    View K V P → Prop
  | .leaf entries => n = 0 ∧ Within lo hi entries
  | .inner first slots =>
      (∀ c ∈ first :: slots.map (·.2), c ∈ L.pages ∧ n = L.level c + 1) ∧
        Tiles L.lo seen lo first slots hi

/-- Entries cut at one of them. -/
theorem Within.cut {es es' : List (K × V)} {e : K × V} (h : Within lo hi (es ++ e :: es'))
    (hes : es ≠ []) : Within lo (Bound.key e.1) es ∧ Within (Bound.key e.1) hi (e :: es') ∧
      lo < Bound.key e.1 ∧ Bound.key e.1 < hi := by
  obtain ⟨h₁, h₂, hcross⟩ := List.pairwise_append.mp h.sorted
  have hbelow : ∀ x ∈ es, Bound.key x.1 < Bound.key e.1 := fun x hx =>
    key_lt_key.mpr (hcross x hx e (by simp))
  have habove : ∀ x ∈ e :: es', Bound.key e.1 ≤ Bound.key x.1 := by
    intro x hx
    rcases List.mem_cons.mp hx with rfl | hx
    · exact le_rfl
    · exact key_le_key.mpr ((List.pairwise_cons.mp h₂).1 x hx).le
  obtain ⟨x, hx⟩ := List.exists_mem_of_ne_nil es hes
  exact ⟨⟨h₁, fun y hy => h.lo_le y (by simp [hy]), hbelow⟩,
    ⟨h₂, habove, fun y hy => h.lt_hi y (List.mem_append_right _ hy)⟩,
    (h.lo_le x (by simp [hx])).trans_lt (hbelow x hx), h.lt_hi e (by simp)⟩

/-- Entries of two ranges that meet. -/
theorem Within.append {mid : Bound K} {es es' : List (K × V)} (h : Within lo mid es)
    (h' : Within mid hi es') (hlo : lo ≤ mid) (hhi : mid ≤ hi) : Within lo hi (es ++ es') := by
  refine ⟨List.pairwise_append.mpr ⟨h.sorted, h'.sorted, fun x hx y hy => ?_⟩, fun x hx => ?_,
    fun x hx => ?_⟩
  · exact key_lt_key.mp ((h.lt_hi x hx).trans_le (h'.lo_le y hy))
  · exact (List.mem_append.mp hx).elim (h.lo_le x) fun hx => hlo.trans (h'.lo_le x hx)
  · exact (List.mem_append.mp hx).elim (fun hx => (h.lt_hi x hx).trans_le hhi) (h'.lt_hi x)

instance (lo hi : Bound K) (entries : List (K × V)) :
    Decidable (Within lo hi entries) :=
  decidable_of_iff (entries.Pairwise (fun a b => a.1 < b.1) ∧
    (∀ e ∈ entries, lo ≤ Bound.key e.1) ∧ ∀ e ∈ entries, Bound.key e.1 < hi)
    ⟨fun h => ⟨h.1, h.2.1, h.2.2⟩, fun h => ⟨h.sorted, h.lo_le, h.lt_hi⟩⟩

instance [DecidablePred (· ∈ L.pages)] : (v : View K V P) → Decidable (L.Suits seen lo hi n v)
  | .leaf entries => inferInstanceAs (Decidable (n = 0 ∧ Within lo hi entries))
  | .inner first slots => inferInstanceAs (Decidable
      ((∀ c ∈ first :: slots.map (·.2), c ∈ L.pages ∧ n = L.level c + 1) ∧
        Tiles L.lo seen lo first slots hi))

/-- The pages suit their ranges, and each but the root and the loose ones is a child. -/
structure Forest (view : P → Option (View K V P)) (root : P) (L : Layout K P)
    (seen : P → Bound K) (loose : Set P) : Prop where
  root_mem : root ∈ L.pages
  root_lo : L.lo root = ⊥
  root_hi : seen root = ⊤
  level_le : ∀ p ∈ L.pages, L.level p ≤ L.level root
  suits : ∀ p ∈ L.pages, ∃ v, view p = some v ∧ L.Suits seen (L.lo p) (L.hi p) (L.level p) v
  linked : ∀ p ∈ L.pages, p ≠ root → p ∉ loose →
    ∃ q ∈ L.pages, ∃ v, view q = some v ∧ p ∈ v.children

/-- A search tree. -/
abbrev Whole (view : P → Option (View K V P)) (root : P) (L : Layout K P) : Prop :=
  Forest view root L L.hi ∅

theorem Layout.Suits.child (h : L.Suits seen lo hi n v) (hc : c ∈ v.children) :
    c ∈ L.pages ∧ n = L.level c + 1 := by
  cases v with
  | leaf entries => simp [View.children] at hc
  | inner first slots => exact h.1 c hc

theorem Layout.Suits.bounds (h : L.Suits seen lo hi n v) (hc : c ∈ v.children) :
    lo ≤ L.lo c ∧ L.lo c < seen c ∧ seen c ≤ hi := by
  cases v with
  | leaf entries => simp [View.children] at hc
  | inner first slots => exact tiles_bounds h.2 hc

theorem Layout.Suits.disjoint (h : L.Suits seen lo hi n v) (hx : x ∈ v.children)
    (hy : y ∈ v.children) {b : Bound K} (hbx : L.lo x ≤ b ∧ b < seen x)
    (hby : L.lo y ≤ b ∧ b < seen y) : x = y := by
  cases v with
  | leaf entries => simp [View.children] at hx
  | inner first slots => exact tiles_disjoint h.2 hx hy hbx hby

/-- Only the ranges of the children matter. -/
theorem Layout.Suits.congr (h : L.Suits seen lo hi n v)
    (hc : ∀ c ∈ v.children, c ∈ L'.pages ∧ L'.level c = L.level c ∧ L'.lo c = L.lo c ∧
      seen' c = seen c) : L'.Suits seen' lo hi n v := by
  cases v with
  | leaf entries => exact h
  | inner first slots =>
      refine ⟨fun c hmem => ⟨(hc c hmem).1, ?_⟩, tiles_congr h.2 fun c hmem => (hc c hmem).2.2⟩
      rw [(hc c hmem).2.1]
      exact (h.1 c hmem).2

namespace Forest

variable (F : Forest view root L seen loose)
include F

theorem suits_of (hp : p ∈ L.pages) (hv : view p = some v) :
    L.Suits seen (L.lo p) (L.hi p) (L.level p) v := by
  obtain ⟨v', hv', h⟩ := F.suits p hp
  rw [hv] at hv'
  cases hv'
  exact h

/-- The page above. -/
theorem exists_parent (hp : p ∈ L.pages) (hr : p ≠ root) (hl : p ∉ loose) :
    ∃ q ∈ L.pages, ∃ v, view q = some v ∧ p ∈ v.children ∧ L.level q = L.level p + 1 ∧
      L.Suits seen (L.lo q) (L.hi q) (L.level q) v := by
  obtain ⟨q, hq, v, hv, hmem⟩ := F.linked p hp hr hl
  have hs := F.suits_of hq hv
  exact ⟨q, hq, v, hv, hmem, (hs.child hmem).2, hs⟩

/-- The root is nobody's child. -/
theorem root_not_child (hp : p ∈ L.pages) (hv : view p = some v) : root ∉ v.children := by
  intro h
  have hlevel := ((F.suits_of hp hv).child h).2
  have := F.level_le p hp
  omega

/-- From the height `N` on, where parents see the ranges as they are, two pages of one
height with a common key are one. -/
theorem covering {N : Nat}
    (hN : ∀ p ∈ L.pages, N ≤ L.level p → p ≠ root → seen p = L.hi p ∧ p ∉ loose)
    {b : Bound K} (hp : p ∈ L.pages) (hq : q ∈ L.pages) (hle : N ≤ L.level p)
    (hlevel : L.level p = L.level q) (hbp : L.lo p ≤ b ∧ b < L.hi p)
    (hbq : L.lo q ≤ b ∧ b < L.hi q) : p = q := by
  -- up the tree: the parents cover the key as well
  induction hd : L.level root - L.level p generalizing p q with
  | zero =>
      have top : ∀ x ∈ L.pages, L.level x = L.level p → x = root := by
        intro x hx hlx
        by_contra hr
        obtain ⟨z, hz, -, -, -, hlz, -⟩ := F.exists_parent hx hr (hN x hx (by omega) hr).2
        have := F.level_le z hz
        omega
      rw [top p hp rfl, top q hq hlevel.symm]
  | succ d ih =>
      have below : ∀ x, L.level x = L.level p → x ≠ root := by
        rintro x hlx rfl
        omega
      have hpr := below p rfl
      have hqr := below q hlevel.symm
      obtain ⟨hsp, hlp⟩ := hN p hp hle hpr
      obtain ⟨hsq, hlq⟩ := hN q hq (hlevel ▸ hle) hqr
      obtain ⟨zp, hzp, vp, hvp, hcp, hlzp, hSp⟩ := F.exists_parent hp hpr hlp
      obtain ⟨zq, hzq, vq, hvq, hcq, hlzq, hSq⟩ := F.exists_parent hq hqr hlq
      have hcover : ∀ {z x : P} {w : View K V P},
          L.Suits seen (L.lo z) (L.hi z) (L.level z) w → x ∈ w.children → seen x = L.hi x →
          L.lo x ≤ b ∧ b < L.hi x → L.lo z ≤ b ∧ b < L.hi z := by
        intro z x w hS hx hsx hbx
        obtain ⟨h₁, -, h₂⟩ := hS.bounds hx
        rw [hsx] at h₂
        exact ⟨h₁.trans hbx.1, hbx.2.trans_le h₂⟩
      have hz : zp = zq := ih hzp hzq (by omega) (by omega) (hcover hSp hcp hsp hbp)
        (hcover hSq hcq hsq hbq) (by omega)
      subst hz
      rw [hvp] at hvq
      cases hvq
      exact hSp.disjoint hcp hcq (by rwa [hsp]) (by rwa [hsq])

/-- A page has one parent. -/
theorem parent_unique {N : Nat}
    (hN : ∀ p ∈ L.pages, N ≤ L.level p → p ≠ root → seen p = L.hi p ∧ p ∉ loose)
    (hp : p ∈ L.pages) (hq : q ∈ L.pages) (hle : N ≤ L.level p) (hv₁ : view p = some v₁)
    (hv₂ : view q = some v₂) (hc₁ : c ∈ v₁.children) (hc₂ : c ∈ v₂.children) : p = q := by
  have hS₁ := F.suits_of hp hv₁
  have hS₂ := F.suits_of hq hv₂
  obtain ⟨hlo₁, hlt, hhi₁⟩ := hS₁.bounds hc₁
  obtain ⟨hlo₂, -, hhi₂⟩ := hS₂.bounds hc₂
  have hlevel : L.level p = L.level q := (hS₁.child hc₁).2.trans (hS₂.child hc₂).2.symm
  exact F.covering hN hp hq hle hlevel ⟨hlo₁, hlt.trans_le hhi₁⟩ ⟨hlo₂, hlt.trans_le hhi₂⟩

end Forest

/-- The entries of the tree. -/
def Layout.Holds (L : Layout K P) (view : P → Option (View K V P)) (e : K × V) : Prop :=
  ∃ p ∈ L.pages, ∃ entries, view p = some (.leaf entries) ∧ e ∈ entries

omit [LinearOrder K] in
theorem Layout.holds_def {e : K × V} :
    L.Holds view e ↔ ∃ p ∈ L.pages, ∃ v, view p = some v ∧ e ∈ v.entries := by
  constructor
  · rintro ⟨p, hp, es, hv, he⟩
    exact ⟨p, hp, _, hv, he⟩
  · rintro ⟨p, hp, _ | _, hv, he⟩
    · exact ⟨p, hp, _, hv, he⟩
    · simp [View.entries] at he

namespace Whole

variable (W : Whole view root L)
include W

theorem covering {b : Bound K} (hp : p ∈ L.pages) (hq : q ∈ L.pages)
    (hlevel : L.level p = L.level q) (hbp : L.lo p ≤ b ∧ b < L.hi p)
    (hbq : L.lo q ≤ b ∧ b < L.hi q) : p = q :=
  Forest.covering W (N := 0) (fun _ _ _ _ => ⟨rfl, not_false⟩) hp hq (Nat.zero_le _) hlevel hbp hbq

theorem parent_unique (hp : p ∈ L.pages) (hq : q ∈ L.pages) (hv₁ : view p = some v₁)
    (hv₂ : view q = some v₂) (hc₁ : c ∈ v₁.children) (hc₂ : c ∈ v₂.children) : p = q :=
  Forest.parent_unique W (N := 0) (fun _ _ _ _ => ⟨rfl, not_false⟩) hp hq (Nat.zero_le _) hv₁ hv₂
    hc₁ hc₂

/-- A key is looked for in the leaf whose range it is in. -/
theorem holds_iff {entries : List (K × V)} {e : K × V} (hp : p ∈ L.pages)
    (hv : view p = some (.leaf entries)) (hlo : L.lo p ≤ Bound.key e.1)
    (hhi : Bound.key e.1 < L.hi p) : L.Holds view e ↔ e ∈ entries := by
  constructor
  · rintro ⟨q, hq, es, hvq, he⟩
    obtain ⟨hlp, -⟩ := Forest.suits_of W hp hv
    obtain ⟨hlq, hW⟩ := Forest.suits_of W hq hvq
    have heq : p = q := covering W hp hq (hlp.trans hlq.symm) ⟨hlo, hhi⟩
      ⟨hW.lo_le e he, hW.lt_hi e he⟩
    subst heq
    rw [hv] at hvq
    cases hvq
    exact he
  · exact fun he => ⟨p, hp, entries, hv, he⟩

end Whole

/-! ## Cutting a node -/

/-- `left` has been cut at `m`; its upper half `right` hangs from nothing. -/
structure Hanging (view : P → Option (View K V P)) (root : P) (L : Layout K P)
    (seen : P → Bound K) (left right : P) (m : K) : Prop where
  forest : Forest view root L seen {right}
  seen_left : seen left = L.hi right
  seen_other : ∀ p ∈ L.pages, p ≠ left → p ≠ right → seen p = L.hi p
  left_mem : left ∈ L.pages
  right_mem : right ∈ L.pages
  level_eq : L.level right = L.level left
  hi_left : L.hi left = Bound.key m
  lo_right : L.lo right = Bound.key m
  lo_lt : L.lo left < Bound.key m
  lt_hi : Bound.key m < L.hi right
  detached : ∀ p ∈ L.pages, ∀ v, view p = some v → right ∉ v.children

namespace Hanging

variable {view : P → Option (View K V P)} {root : P} {L : Layout K P} {seen : P → Bound K}
  {left right : P} {m : K} (H : Hanging view root L seen left right m)
include H

theorem left_ne_right : left ≠ right := by
  rintro rfl
  exact H.lo_lt.ne H.lo_right

/-- Above the cut parents see the ranges as they are. -/
theorem seen_above : ∀ p ∈ L.pages, L.level left + 1 ≤ L.level p → p ≠ root →
    seen p = L.hi p ∧ p ∉ ({right} : Set P) := by
  intro p hp hle _
  have hl : p ≠ left := by
    rintro rfl
    omega
  have hr : p ≠ right := by
    rintro rfl
    have := H.level_eq
    omega
  exact ⟨H.seen_other p hp hl hr, hr⟩

/-- The separators of the parent leave room for `m` just behind `left`. -/
theorem keys_around {q first : P} {l r : List (K × P)} (hq : q ∈ L.pages)
    (hv : view q = some (.inner first (l ++ r))) (hleft : lastOf first l = left) :
    (∀ e ∈ l, e.1 < m) ∧ ∀ e ∈ r, m < e.1 := by
  have hS : L.Suits seen (L.lo q) (L.hi q) (L.level q) (.inner first (l ++ r)) :=
    H.forest.suits_of hq hv
  obtain ⟨hb, -, ha⟩ := tiles_focus.mp hS.2
  rw [hleft] at hb ha
  rw [H.seen_left] at ha
  exact ⟨fun e he => key_lt_key.mp ((before_keys hb e he).trans_lt H.lo_lt),
    fun e he => key_lt_key.mp (H.lt_hi.trans_le (after_keys ha e he))⟩

end Hanging

variable [DecidableEq P]

open Function (update update_self update_of_ne)

/-- A new page `q` takes the upper part of the range of `p`. -/
def Layout.cut (L : Layout K P) (p q : P) (m : K) : Layout K P where
  pages := {x | x ∈ L.pages ∨ x = q}
  level := update L.level q (L.level p)
  lo := update L.lo q (Bound.key m)
  hi := update (update L.hi q (L.hi p)) p (Bound.key m)

theorem Whole.cut (W : Whole view root L) (hp : p ∈ L.pages) (hq : q ∉ L.pages)
    (hlo : L.lo p < Bound.key m) (hhi : Bound.key m < L.hi p) (hv : view p = some v)
    (h₁ : L.Suits L.hi (L.lo p) (Bound.key m) (L.level p) v₁)
    (h₂ : L.Suits L.hi (Bound.key m) (L.hi p) (L.level p) v₂)
    (hch : ∀ c ∈ v.children, c ∈ v₁.children ∨ c ∈ v₂.children) :
    Hanging (update (update view p (some v₁)) q (some v₂)) root (L.cut p q m) L.hi p q m := by
  have hpq : p ≠ q := fun h => hq (h ▸ hp)
  have hne : ∀ x ∈ L.pages, x ≠ q := fun x hx h => hq (h ▸ hx)
  -- what a node sees of its children has not changed
  have hsame : ∀ c ∈ L.pages, c ∈ (L.cut p q m).pages ∧ (L.cut p q m).level c = L.level c ∧
      (L.cut p q m).lo c = L.lo c ∧ L.hi c = L.hi c := by
    intro c hc
    simp [Layout.cut, hc, hne c hc]
  have hview : ∀ x ∈ (L.cut p q m).pages, ∀ w,
      update (update view p (some v₁)) q (some v₂) x = some w →
      (x = q ∧ w = v₂) ∨ (x = p ∧ w = v₁) ∨ (x ∈ L.pages ∧ x ≠ p ∧ x ≠ q ∧ view x = some w) := by
    intro x hx w hw
    rcases eq_or_ne x q with rfl | hxq
    · exact .inl ⟨rfl, by simpa using hw.symm⟩
    rcases eq_or_ne x p with rfl | hxp
    · exact .inr (.inl ⟨rfl, by simpa [hxq] using hw.symm⟩)
    · exact .inr (.inr ⟨hx.resolve_right hxq, hxp, hxq, by simpa [hxq, hxp] using hw⟩)
  constructor
  case forest =>
    constructor
    case root_mem => exact .inl W.root_mem
    case root_lo => simpa [Layout.cut, hne root W.root_mem] using W.root_lo
    case root_hi => exact W.root_hi
    case level_le =>
      rintro x (hx | rfl)
      · simpa [Layout.cut, hne x hx, hne root W.root_mem] using W.level_le x hx
      · simpa [Layout.cut, hne root W.root_mem] using W.level_le p hp
    case suits =>
      rintro x (hx | rfl)
      · rcases eq_or_ne x p with rfl | hxp
        · refine ⟨v₁, by simp [hpq], ?_⟩
          simpa [Layout.cut, hpq] using h₁.congr fun c hc => hsame c (h₁.child hc).1
        · obtain ⟨w, hw, hS⟩ := W.suits x hx
          refine ⟨w, by simp [hxp, hne x hx, hw], ?_⟩
          simpa [Layout.cut, hxp, hne x hx] using hS.congr fun c hc => hsame c (hS.child hc).1
      · refine ⟨v₂, by simp, ?_⟩
        simpa [Layout.cut, hpq, hpq.symm] using h₂.congr fun c hc => hsame c (h₂.child hc).1
    case linked =>
      rintro x (hx | rfl) hr hl
      · obtain ⟨z, hz, w, hw, hxw⟩ := W.linked x hx hr not_false
        rcases eq_or_ne z p with rfl | hzp
        · rw [hv] at hw
          cases hw
          rcases hch x hxw with h | h
          · exact ⟨z, .inl hz, v₁, by simp [hpq], h⟩
          · exact ⟨q, .inr rfl, v₂, by simp, h⟩
        · exact ⟨z, .inl hz, w, by simp [hzp, hne z hz, hw], hxw⟩
      · exact absurd rfl hl
  case seen_left => simp [Layout.cut, hpq.symm]
  case seen_other =>
    rintro x (hx | rfl) hxp hxq
    · simp [Layout.cut, hxp, hxq]
    · exact absurd rfl hxq
  case left_mem => exact .inl hp
  case right_mem => exact .inr rfl
  case level_eq => simp [Layout.cut, hpq]
  case hi_left => simp [Layout.cut]
  case lo_right => simp [Layout.cut]
  case lo_lt => simpa [Layout.cut, hpq] using hlo
  case lt_hi => simpa [Layout.cut, hpq.symm] using hhi
  case detached =>
    intro x hx w hw hmem
    rcases hview x hx w hw with ⟨-, rfl⟩ | ⟨-, rfl⟩ | ⟨hx, -, -, hw⟩
    · exact hq (h₂.child hmem).1
    · exact hq (h₁.child hmem).1
    · exact hq ((Forest.suits_of W hx hw).child hmem).1

namespace Hanging

variable {view : P → Option (View K V P)} {root : P} {L : Layout K P} {seen : P → Bound K}
  {left right : P} {m : K} (H : Hanging view root L seen left right m)
include H

/-- The cut-off half is hung behind `left`. -/
theorem hang {q first : P} {l r : List (K × P)} (hq : q ∈ L.pages)
    (hv : view q = some (.inner first (l ++ r))) (hleft : lastOf first l = left) :
    Whole (update view q (some (.inner first (l ++ (m, right) :: r)))) root L := by
  have F := H.forest
  have hS : L.Suits seen (L.lo q) (L.hi q) (L.level q) (.inner first (l ++ r)) :=
    F.suits_of hq hv
  have hmem : left ∈ first :: (l ++ r).map (·.2) := hleft ▸ lastOf_mem first l r
  have hlevel : L.level q = L.level left + 1 := (hS.1 left hmem).2
  have hnr : ∀ c ∈ first :: (l ++ r).map (·.2), c ≠ right := by
    rintro c hc rfl
    exact H.detached q hq _ hv hc
  have hrootl : root ≠ left := by
    rintro rfl
    exact F.root_not_child hq hv hmem
  have hrootr : root ≠ right := by
    rintro rfl
    have := F.level_le q hq
    have := H.level_eq
    omega
  constructor
  case root_mem => exact F.root_mem
  case root_lo => exact F.root_lo
  case root_hi => rw [← H.seen_other root F.root_mem hrootl hrootr]; exact F.root_hi
  case level_le => exact F.level_le
  case suits =>
    intro x hx
    rcases eq_or_ne x q with rfl | hxq
    · refine ⟨.inner first (l ++ (m, right) :: r), by simp, ?_, ?_⟩
      · intro c hc
        rw [List.map_append, List.map_cons] at hc
        have hc' : c = right ∨ c ∈ first :: (l ++ r).map (·.2) := by
          rw [List.map_append]
          simp only [List.mem_cons, List.mem_append] at hc ⊢
          tauto
        rcases hc' with rfl | hc
        · exact ⟨H.right_mem, by rw [H.level_eq]; exact hlevel⟩
        · exact hS.1 c hc
      · subst hleft
        exact tiles_insert hS.2 H.lo_lt (by rw [H.seen_left]; exact H.lt_hi) rfl H.hi_left
          H.lo_right H.seen_left.symm fun c hc hcl =>
            ⟨rfl, (H.seen_other c (hS.1 c hc).1 hcl (hnr c hc)).symm⟩
    · obtain ⟨w, hw, hSx⟩ := F.suits x hx
      refine ⟨w, by simp [hxq, hw], hSx.congr fun c hc => ⟨(hSx.child hc).1, rfl, rfl, ?_⟩⟩
      have hcr : c ≠ right := by
        rintro rfl
        exact H.detached x hx w hw hc
      have hcl : c ≠ left := by
        rintro rfl
        have hlx := (hSx.child hc).2
        exact hxq (F.parent_unique H.seen_above hx hq hlx.ge hw hv hc hmem)
      exact (H.seen_other c (hSx.child hc).1 hcl hcr).symm
  case linked =>
    intro x hx hr _
    by_cases hxr : x = right
    · exact ⟨q, hq, _, Function.update_self .., by simp [View.children, hxr]⟩
    · obtain ⟨z, hz, w, hw, hxw⟩ := F.linked x hx hr hxr
      rcases eq_or_ne z q with rfl | hzq
      · rw [hv] at hw
        cases hw
        refine ⟨z, hz, _, Function.update_self .., ?_⟩
        simp only [View.children, List.map_append, List.map_cons, List.mem_cons,
          List.mem_append] at hxw ⊢
        tauto
      · exact ⟨z, hz, w, by simp [hzq, hw], hxw⟩

end Hanging

/-- A new root `q` over `p`. -/
def Layout.raise (L : Layout K P) (p q : P) : Layout K P where
  pages := {x | x ∈ L.pages ∨ x = q}
  level := update L.level q (L.level p + 1)
  lo := update L.lo q ⊥
  hi := update L.hi q ⊤

/-- The two halves of the root are hung under a new one. -/
theorem Hanging.raise {seen : P → Bound K} (H : Hanging view left L seen left right m)
    (hq : q ∉ L.pages) :
    Whole (update view q (some (.inner left [(m, right)]))) q (L.raise left q) := by
  have F := H.forest
  have hne : ∀ x ∈ L.pages, x ≠ q := fun x hx h => hq (h ▸ hx)
  have hl := hne left H.left_mem
  have hr := hne right H.right_mem
  constructor
  case root_mem => exact .inr rfl
  case root_lo => simp [Layout.raise]
  case root_hi => simp [Layout.raise]
  case level_le =>
    rintro x (hx | rfl)
    · have := F.level_le x hx
      simp only [Layout.raise, Function.update_self, Function.update_of_ne (hne x hx)]
      omega
    · exact le_rfl
  case suits =>
    rintro x (hx | rfl)
    · obtain ⟨w, hw, hS⟩ := F.suits x hx
      refine ⟨w, by simp [hne x hx, hw], ?_⟩
      have hcongr : (L.raise left q).Suits (L.raise left q).hi (L.lo x) (L.hi x) (L.level x) w := by
        refine hS.congr fun c hc => ?_
        have hcp := (hS.child hc).1
        have hcl : c ≠ left := by
          rintro rfl
          exact F.root_not_child hx hw hc
        have hcr : c ≠ right := by
          rintro rfl
          exact H.detached x hx w hw hc
        simp [Layout.raise, hne c hcp, hcp, H.seen_other c hcp hcl hcr]
      simpa [Layout.raise, hne x hx] using hcongr
    · refine ⟨.inner left [(m, right)], by simp, ?_, ?_⟩
      · intro c hc
        have hc' : c = left ∨ c = right := by simpa using hc
        rcases hc' with rfl | rfl
        · exact ⟨.inl H.left_mem, by simp [Layout.raise, hl]⟩
        · exact ⟨.inl H.right_mem, by simp [Layout.raise, hr, H.level_eq]⟩
      · have htop : L.hi right = ⊤ := H.seen_left.symm.trans F.root_hi
        simp [Tiles, Layout.raise, hl, hr, F.root_lo, H.hi_left, H.lo_right, htop]
  case linked =>
    rintro x (hx | rfl) hxq _
    · by_cases hxl : x = left
      · exact ⟨q, .inr rfl, _, Function.update_self .., by simp [View.children, hxl]⟩
      by_cases hxr : x = right
      · exact ⟨q, .inr rfl, _, Function.update_self .., by simp [View.children, hxr]⟩
      · obtain ⟨z, hz, w, hw, hxw⟩ := F.linked x hx hxl hxr
        exact ⟨z, .inl hz, w, by simp [hne z hz, hw], hxw⟩
    · exact absurd rfl hxq

/-! ## Editing nodes in place -/

/-- A node is replaced by one with the same children, or more. -/
theorem Whole.replace (W : Whole view root L) (hp : p ∈ L.pages) (hv : view p = some v)
    (hS : L.Suits L.hi (L.lo p) (L.hi p) (L.level p) v₁)
    (hch : ∀ c ∈ v.children, c ∈ v₁.children) : Whole (update view p (some v₁)) root L where
  root_mem := W.root_mem
  root_lo := W.root_lo
  root_hi := W.root_hi
  level_le := W.level_le
  suits x hx := by
    rcases eq_or_ne x p with rfl | hxp
    · exact ⟨v₁, by simp, hS⟩
    · simpa [hxp] using W.suits x hx
  linked x hx hr hl := by
    obtain ⟨z, hz, w, hw, hxw⟩ := W.linked x hx hr hl
    rcases eq_or_ne z p with rfl | hzp
    · rw [hv] at hw
      cases hw
      exact ⟨z, hz, v₁, by simp, hch x hxw⟩
    · exact ⟨z, hz, w, by simp [hzp, hw], hxw⟩

/-- Two neighbours under `q`: what every edit of such a pair starts from. -/
structure Neighbours (view : P → Option (View K V P)) (L : Layout K P) (q first : P)
    (l : List (K × P)) (k : K) (right : P) (r : List (K × P)) : Prop where
  mem : q ∈ L.pages
  view_eq : view q = some (.inner first (l ++ (k, right) :: r))

namespace Neighbours

variable (W : Whole view root L) (N : Neighbours view L q first l k right r)
include W N

omit [DecidableEq P]

theorem suits : L.Suits L.hi (L.lo q) (L.hi q) (L.level q)
    (View.inner first (l ++ (k, right) :: r) : View K V P) :=
  Forest.suits_of W N.mem N.view_eq

theorem tiles : Tiles L.lo L.hi (L.lo q) first (l ++ (k, right) :: r) (L.hi q) := (N.suits W).2

theorem left_mem : lastOf first l ∈ L.pages := ((N.suits W).1 _ (lastOf_mem first l _)).1

theorem right_mem : right ∈ L.pages := ((N.suits W).1 _ (next_mem first l r k right)).1

theorem level_left : L.level q = L.level (lastOf first l) + 1 :=
  ((N.suits W).1 _ (lastOf_mem first l _)).2

theorem level_right : L.level q = L.level right + 1 := ((N.suits W).1 _ (next_mem first l r k right)).2

theorem ne : lastOf first l ≠ right := by
  intro h
  have hn := (ne_focus (N.tiles W)).2
  rw [h] at hn
  simp at hn

theorem hi_left : L.hi (lastOf first l) = Bound.key k := (tiles_focus.mp (N.tiles W)).2.2.1

theorem lo_right : L.lo right = Bound.key k := by
  have h := (tiles_focus.mp (N.tiles W)).2.2.2
  exact ((tiles_focus (l := [])).mp h).1

theorem lo_lt : L.lo (lastOf first l) < Bound.key k :=
  (N.hi_left W) ▸ (tiles_focus.mp (N.tiles W)).2.1

theorem lt_hi : Bound.key k < L.hi right :=
  (N.lo_right W) ▸ (tiles_bounds (N.tiles W) (next_mem first l r k right)).2.1

/-- No other slot points to `right`. -/
theorem right_once : ∀ c ∈ first :: (l ++ r).map (·.2), c ≠ right := by
  intro c hc hcr
  have hb := tiles_focus.mp (N.tiles W)
  have hn := ne_focus (l := []) hb.2.2.2
  rw [children_focus, List.mem_append, List.mem_cons] at hc
  rcases hc with hc | rfl | hc
  · have hle := (before_tile hb.1 hc).2.2
    rw [hcr] at hle
    exact (hle.trans_lt (N.lo_lt W)).not_gt (N.lt_hi W)
  · exact N.ne W hcr
  · exact hn.2 (hcr ▸ hc)

/-- The separators before the pair are smaller. -/
theorem keys_lt : ∀ e ∈ l, e.1 < k := fun e he =>
  key_lt_key.mp (tiles_keys (tiles_append.mp (N.tiles W)).1 e he).2

/-- Neither of them is the root. -/
theorem root_ne : root ≠ lastOf first l ∧ root ≠ right := by
  have h := Forest.root_not_child W N.mem N.view_eq
  constructor
  · rintro rfl
    exact h (lastOf_mem first l _)
  · rintro rfl
    exact h (next_mem first l r k _)

/-- Their only parent is `q`. -/
theorem parent_eq (hx : x ∈ L.pages) (hv : view x = some v)
    (hc : lastOf first l ∈ v.children ∨ right ∈ v.children) : x = q := by
  rcases hc with hc | hc
  · exact Whole.parent_unique W hx N.mem hv N.view_eq hc (lastOf_mem first l _)
  · exact Whole.parent_unique W hx N.mem hv N.view_eq hc (next_mem first l r k right)

theorem left_ne_parent : lastOf first l ≠ q := by
  intro h
  have hll := N.level_left W
  rw [h] at hll
  omega

theorem right_ne_parent : right ≠ q := by
  rintro rfl
  have hlr := N.level_right W
  omega

/-- The children of a page as high as they are others. -/
theorem ne_of_child (hS : L.Suits seen lo hi n v) (hn : n = L.level right) (hc : c ∈ v.children) :
    c ≠ lastOf first l ∧ c ≠ right := by
  have hlevel := (hS.child hc).2
  have hl := N.level_left W
  have hr := N.level_right W
  constructor
  · rintro rfl
    omega
  · rintro rfl
    omega

end Neighbours

/-- The border between two neighbours moves to `m`. -/
def Layout.shift (L : Layout K P) (left right : P) (m : K) : Layout K P where
  pages := L.pages
  level := L.level
  lo := update L.lo right (Bound.key m)
  hi := update L.hi left (Bound.key m)

theorem Whole.shift {w₁ w₂ : View K V P} (W : Whole view root L)
    (N : Neighbours view L q first l k right r) (hleft : lastOf first l = left)
    (hv₁ : view left = some v₁) (hv₂ : view right = some v₂)
    (hlo : L.lo left < Bound.key m) (hhi : Bound.key m < L.hi right)
    (h₁ : L.Suits L.hi (L.lo left) (Bound.key m) (L.level left) w₁)
    (h₂ : L.Suits L.hi (Bound.key m) (L.hi right) (L.level right) w₂)
    (hch : ∀ c, c ∈ v₁.children ∨ c ∈ v₂.children → c ∈ w₁.children ∨ c ∈ w₂.children) :
    Whole (update (update (update view left (some w₁)) right (some w₂)) q
      (some (.inner first (l ++ (m, right) :: r)))) root (L.shift left right m) := by
  subst hleft
  have hlr := N.ne W
  have hll := N.level_left W
  have hlR := N.level_right W
  have hlq := N.left_ne_parent W
  have hrq := N.right_ne_parent W
  obtain ⟨hrl, hrr⟩ := N.root_ne W
  have hcongr : ∀ {lo hi : Bound K} {n : Nat} {w : View K V P}, L.Suits L.hi lo hi n w →
      (∀ c ∈ w.children, c ≠ lastOf first l ∧ c ≠ right) →
      (L.shift (lastOf first l) right m).Suits (L.shift (lastOf first l) right m).hi lo hi n w := by
    intro lo hi n w hS hne
    refine hS.congr fun c hc => ⟨(hS.child hc).1, rfl, ?_, ?_⟩
    · simp [Layout.shift, (hne c hc).2]
    · simp [Layout.shift, (hne c hc).1]
  constructor
  case root_mem => exact W.root_mem
  case root_lo => simpa [Layout.shift, hrr] using W.root_lo
  case root_hi => simpa [Layout.shift, hrl] using W.root_hi
  case level_le => exact W.level_le
  case suits =>
    intro x hx
    rcases eq_or_ne x q with rfl | hxq
    · refine ⟨.inner first (l ++ (m, right) :: r), by simp, ?_, ?_⟩
      · intro c hc
        exact (N.suits W).1 c (by simpa using hc)
      · have hloq : (L.shift (lastOf first l) right m).lo x = L.lo x := by
          simp [Layout.shift, hrq.symm]
        have hhiq : (L.shift (lastOf first l) right m).hi x = L.hi x := by
          simp [Layout.shift, hlq.symm]
        rw [hloq, hhiq]
        refine tiles_shift (N.tiles W) hlo hhi ?_ ?_ ?_ ?_ fun c _ hcl hcr => ?_
        · simp [Layout.shift, hlr]
        · simp [Layout.shift]
        · simp [Layout.shift]
        · simp [Layout.shift, hlr.symm]
        · simp [Layout.shift, hcl, hcr]
    rcases eq_or_ne x right with rfl | hxr
    · refine ⟨w₂, by simp [hxq], ?_⟩
      simpa [Layout.shift, hlr.symm] using hcongr h₂ fun c => N.ne_of_child W h₂ rfl
    rcases eq_or_ne x (lastOf first l) with rfl | hxl
    · refine ⟨w₁, by simp [hxq, hxr], ?_⟩
      simpa [Layout.shift, hxr] using hcongr h₁ fun c => N.ne_of_child W h₁ (by omega)
    · obtain ⟨w, hw, hS⟩ := W.suits x hx
      refine ⟨w, by simp [hxq, hxr, hxl, hw], ?_⟩
      have hne : ∀ c ∈ w.children, c ≠ lastOf first l ∧ c ≠ right := by
        intro c hc
        constructor
        · rintro rfl
          exact hxq (N.parent_eq W hx hw (.inl hc))
        · rintro rfl
          exact hxq (N.parent_eq W hx hw (.inr hc))
      simpa [Layout.shift, hxr, hxl] using hcongr hS hne
  case linked =>
    intro x hx hr _
    obtain ⟨z, hz, w, hw, hxw⟩ := W.linked x hx hr not_false
    have hpair : x ∈ w₁.children ∨ x ∈ w₂.children → ∃ y ∈ L.pages, ∃ u,
        update (update (update view (lastOf first l) (some w₁)) right (some w₂)) q
          (some (.inner first (l ++ (m, right) :: r))) y = some u ∧ x ∈ u.children := by
      rintro (h | h)
      · exact ⟨_, N.left_mem W, w₁, by simp [hlq, hlr], h⟩
      · exact ⟨_, N.right_mem W, w₂, by simp [hrq], h⟩
    rcases eq_or_ne z q with rfl | hzq
    · rw [N.view_eq] at hw
      cases hw
      exact ⟨z, hz, .inner first (l ++ (m, right) :: r), by simp,
        by simpa [View.children] using hxw⟩
    rcases eq_or_ne z right with rfl | hzr
    · rw [hv₂] at hw
      cases hw
      exact hpair (hch x (.inr hxw))
    rcases eq_or_ne z (lastOf first l) with rfl | hzl
    · rw [hv₁] at hw
      cases hw
      exact hpair (hch x (.inl hxw))
    · exact ⟨z, hz, w, by simp [hzq, hzr, hzl, hw], hxw⟩

/-- Entries that move from one neighbour to the other stay in the tree. -/
theorem Whole.holds_shift {w₁ w₂ : View K V P} (W : Whole view root L)
    (N : Neighbours view L q first l k right r) (hleft : lastOf first l = left)
    (hv₁ : view left = some v₁) (hv₂ : view right = some v₂) {slots : List (K × P)}
    (hentries : ∀ e, e ∈ w₁.entries ∨ e ∈ w₂.entries ↔ e ∈ v₁.entries ∨ e ∈ v₂.entries)
    (e : K × V) :
    (L.shift left right m).Holds (update (update (update view left (some w₁)) right (some w₂)) q
      (some (.inner first slots))) e ↔ L.Holds view e := by
  subst hleft
  have hlr := N.ne W
  have hlq := N.left_ne_parent W
  have hrq := N.right_ne_parent W
  rw [Layout.holds_def, Layout.holds_def]
  constructor
  · rintro ⟨x, hx, v, hv, he⟩
    have hpair : e ∈ w₁.entries ∨ e ∈ w₂.entries → ∃ p ∈ L.pages, ∃ v, view p = some v ∧
        e ∈ v.entries := fun h => ((hentries e).mp h).elim
      (fun h => ⟨_, N.left_mem W, v₁, hv₁, h⟩) fun h => ⟨_, N.right_mem W, v₂, hv₂, h⟩
    rcases eq_or_ne x q with rfl | hxq
    · rw [update_self] at hv
      cases hv
      simp [View.entries] at he
    rcases eq_or_ne x right with rfl | hxr
    · rw [update_of_ne hxq, update_self] at hv
      cases hv
      exact hpair (.inr he)
    rcases eq_or_ne x (lastOf first l) with rfl | hxl
    · rw [update_of_ne hxq, update_of_ne hxr, update_self] at hv
      cases hv
      exact hpair (.inl he)
    · rw [update_of_ne hxq, update_of_ne hxr, update_of_ne hxl] at hv
      exact ⟨x, hx, v, hv, he⟩
  · rintro ⟨x, hx, v, hv, he⟩
    have hpair : e ∈ v₁.entries ∨ e ∈ v₂.entries → ∃ p ∈ L.pages, ∃ v,
        update (update (update view (lastOf first l) (some w₁)) right (some w₂)) q
          (some (.inner first slots)) p = some v ∧ e ∈ v.entries := fun h =>
      ((hentries e).mpr h).elim (fun h => ⟨_, N.left_mem W, w₁, by simp [hlq, hlr], h⟩)
        fun h => ⟨_, N.right_mem W, w₂, by simp [hrq], h⟩
    rcases eq_or_ne x q with rfl | hxq
    · rw [N.view_eq] at hv
      cases hv
      simp [View.entries] at he
    rcases eq_or_ne x right with rfl | hxr
    · rw [hv₂] at hv
      cases hv
      exact hpair (.inr he)
    rcases eq_or_ne x (lastOf first l) with rfl | hxl
    · rw [hv₁] at hv
      cases hv
      exact hpair (.inl he)
    · exact ⟨x, hx, v, by simp [hxq, hxr, hxl, hv], he⟩

/-- `right` is gone; `left` has its range as well. -/
def Layout.merge (L : Layout K P) (left right : P) : Layout K P where
  pages := {x | x ∈ L.pages ∧ x ≠ right}
  level := L.level
  lo := L.lo
  hi := update L.hi left (L.hi right)

theorem Whole.merge {w : View K V P} (W : Whole view root L)
    (N : Neighbours view L q first l k right r) (hleft : lastOf first l = left)
    (hv₁ : view left = some v₁) (hv₂ : view right = some v₂)
    (h : L.Suits L.hi (L.lo left) (L.hi right) (L.level left) w)
    (hch : ∀ c, c ∈ v₁.children ∨ c ∈ v₂.children → c ∈ w.children) :
    Whole (update (update view left (some w)) q (some (.inner first (l ++ r)))) root
      (L.merge left right) := by
  subst hleft
  have hlr := N.ne W
  have hll := N.level_left W
  have hlR := N.level_right W
  have hlq := N.left_ne_parent W
  have hrq := N.right_ne_parent W
  obtain ⟨hrl, hrr⟩ := N.root_ne W
  have hkept := N.right_once W
  have hcongr : ∀ {lo hi : Bound K} {n : Nat} {u : View K V P}, L.Suits L.hi lo hi n u →
      (∀ c ∈ u.children, c ≠ lastOf first l ∧ c ≠ right) →
      (L.merge (lastOf first l) right).Suits (L.merge (lastOf first l) right).hi lo hi n u := by
    intro lo hi n u hS hne
    refine hS.congr fun c hc => ⟨⟨(hS.child hc).1, (hne c hc).2⟩, rfl, rfl, ?_⟩
    simp [Layout.merge, (hne c hc).1]
  constructor
  case root_mem => exact ⟨W.root_mem, hrr⟩
  case root_lo => exact W.root_lo
  case root_hi => simpa [Layout.merge, hrl] using W.root_hi
  case level_le => exact fun x hx => W.level_le x hx.1
  case suits =>
    rintro x ⟨hx, hxr⟩
    rcases eq_or_ne x q with rfl | hxq
    · refine ⟨.inner first (l ++ r), by simp, ?_, ?_⟩
      · intro c hc
        have hc' : c ∈ first :: (l ++ (k, right) :: r).map (·.2) := by
          simp only [List.map_append, List.map_cons, List.mem_cons, List.mem_append] at hc ⊢
          tauto
        obtain ⟨hmem, hlevel⟩ := (N.suits W).1 c hc'
        exact ⟨⟨hmem, hkept c hc⟩, hlevel⟩
      · have hhiq : (L.merge (lastOf first l) right).hi x = L.hi x := by
          simp [Layout.merge, hlq.symm]
        rw [hhiq]
        refine tiles_merge (N.tiles W) rfl ?_ fun c _ hcl => ⟨rfl, ?_⟩
        · simp [Layout.merge]
        · simp [Layout.merge, hcl]
    rcases eq_or_ne x (lastOf first l) with rfl | hxl
    · refine ⟨w, by simp [hxq], ?_⟩
      simpa [Layout.merge] using hcongr h fun c => N.ne_of_child W h (by omega)
    · obtain ⟨u, hu, hS⟩ := W.suits x hx
      refine ⟨u, by simp [hxq, hxl, hu], ?_⟩
      have hne : ∀ c ∈ u.children, c ≠ lastOf first l ∧ c ≠ right := by
        intro c hc
        constructor
        · rintro rfl
          exact hxq (N.parent_eq W hx hu (.inl hc))
        · rintro rfl
          exact hxq (N.parent_eq W hx hu (.inr hc))
      simpa [Layout.merge, hxl] using hcongr hS hne
  case linked =>
    rintro x ⟨hx, hxr⟩ hr _
    obtain ⟨z, hz, u, hu, hxu⟩ := W.linked x hx hr not_false
    have hnew : x ∈ w.children → ∃ y ∈ (L.merge (lastOf first l) right).pages,
        ∃ u, update (update view (lastOf first l) (some w)) q
          (some (.inner first (l ++ r))) y = some u ∧ x ∈ u.children := fun h =>
      ⟨_, ⟨N.left_mem W, hlr⟩, w, by simp [hlq], h⟩
    rcases eq_or_ne z q with rfl | hzq
    · rw [N.view_eq] at hu
      cases hu
      refine ⟨z, ⟨hz, hrq.symm⟩, .inner first (l ++ r), by simp, ?_⟩
      simp only [View.children, List.map_append, List.map_cons, List.mem_cons,
        List.mem_append] at hxu ⊢
      tauto
    rcases eq_or_ne z right with rfl | hzr
    · rw [hv₂] at hu
      cases hu
      exact hnew (hch x (.inr hxu))
    rcases eq_or_ne z (lastOf first l) with rfl | hzl
    · rw [hv₁] at hu
      cases hu
      exact hnew (hch x (.inl hxu))
    · exact ⟨z, ⟨hz, hzr⟩, u, by simp [hzq, hzl, hu], hxu⟩

/-- The entries of the merged neighbours stay in the tree. -/
theorem Whole.holds_merge {w : View K V P} (W : Whole view root L)
    (N : Neighbours view L q first l k right r) (hleft : lastOf first l = left)
    (hv₁ : view left = some v₁) (hv₂ : view right = some v₂) {slots : List (K × P)}
    (hentries : ∀ e, e ∈ w.entries ↔ e ∈ v₁.entries ∨ e ∈ v₂.entries) (e : K × V) :
    (L.merge left right).Holds (update (update view left (some w)) q (some (.inner first slots))) e ↔
      L.Holds view e := by
  subst hleft
  have hlr := N.ne W
  have hlq := N.left_ne_parent W
  rw [Layout.holds_def, Layout.holds_def]
  constructor
  · rintro ⟨x, ⟨hx, -⟩, v, hv, he⟩
    rcases eq_or_ne x q with rfl | hxq
    · rw [update_self] at hv
      cases hv
      simp [View.entries] at he
    rcases eq_or_ne x (lastOf first l) with rfl | hxl
    · rw [update_of_ne hxq, update_self] at hv
      cases hv
      exact ((hentries e).mp he).elim (fun h => ⟨_, hx, v₁, hv₁, h⟩)
        fun h => ⟨_, N.right_mem W, v₂, hv₂, h⟩
    · rw [update_of_ne hxq, update_of_ne hxl] at hv
      exact ⟨x, hx, v, hv, he⟩
  · rintro ⟨x, hx, v, hv, he⟩
    have hnew : e ∈ v₁.entries ∨ e ∈ v₂.entries → ∃ p ∈ (L.merge (lastOf first l) right).pages,
        ∃ v, update (update view (lastOf first l) (some w)) q (some (.inner first slots)) p = some v ∧
          e ∈ v.entries := fun h =>
      ⟨_, ⟨N.left_mem W, hlr⟩, w, by simp [hlq], (hentries e).mpr h⟩
    rcases eq_or_ne x q with rfl | hxq
    · rw [N.view_eq] at hv
      cases hv
      simp [View.entries] at he
    rcases eq_or_ne x right with rfl | hxr
    · rw [hv₂] at hv
      cases hv
      exact hnew (.inr he)
    rcases eq_or_ne x (lastOf first l) with rfl | hxl
    · rw [hv₁] at hv
      cases hv
      exact hnew (.inl he)
    · exact ⟨x, ⟨hx, hxr⟩, v, by simp [hxq, hxl, hv], he⟩

end Forest

end SearchTree
