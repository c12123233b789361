/-
# Two neighbours under one parent

An underflow is repaired between a node and the sibling `find_sibling_info` picks: the one
to the left, or the right one of a first child.  Either way there are two neighbours and
the separator between them (`Pair`).  Entries or children move from one to the other
(`Tree.shift`), or all into the left one (`Tree.merge`); who is whose parent follows.
-/
import VelociDB.BTreeShape

namespace VelociDB.BTree

open SearchTree Fuelled

variable {least : Nat} {s s' : State} {root p q parent first left right : Nat}
  {L : Layout Int64 Nat} {k m : Int64} {l r slots : List Slot}
  {v₁ v₂ w w₁ w₂ : View Int64 Bytes Nat} {n₁ n₂ : Node}

/-- Two neighbours, seen from the parent: the last child before the slot, and the slot's. -/
structure Pair (s : State) (L : Layout Int64 Nat) (q parent first : Nat) (l : List Slot)
    (k : Int64) (right : Nat) (r : List Slot) : Prop where
  mem : q ∈ L.pages
  node_eq : s.nodes q = some (.internal parent first (l ++ (k, right) :: r))

namespace Pair

variable (N : Pair s L q parent first l k right r)
include N

theorem neighbours : Neighbours s.view L q first l k right r :=
  ⟨N.mem, State.view_eq_inner.mpr ⟨_, N.node_eq⟩⟩

theorem parent_left (T : Tree least s root L) : s.parentOf (lastOf first l) = q :=
  T.pages.parent_eq q N.mem _ N.neighbours.view_eq _ (lastOf_mem first l _)

theorem parent_right (T : Tree least s root L) : s.parentOf right = q :=
  T.pages.parent_eq q N.mem _ N.neighbours.view_eq _ (next_mem first l r k right)

/-- Both with other contents, under the same headers. -/
theorem rewritten (T : Tree least s root L) (h₁ : n₁.parent = s.parentOf (lastOf first l))
    (h₂ : n₂.parent = s.parentOf right)
    (hs' : s' = (s.write (lastOf first l) n₁).write right n₂) :
    s'.view = Function.update (Function.update s.view (lastOf first l) (some n₁.view)) right
        (some n₂.view) ∧
      s'.numPages = s.numPages ∧ (∀ x, s'.parentOf x = s.parentOf x) ∧ s'.nodes q = s.nodes q := by
  have M := N.neighbours
  have hpar := State.parentOf_write_same h₁
  subst hs'
  refine ⟨?_, ?_, fun x => ?_, ?_⟩
  · simp only [State.view_write]
  · have := (T.pages.bounds _ (M.left_mem T.whole)).2
    have := (T.pages.bounds _ (M.right_mem T.whole)).2
    simp only [State.write_numPages]
    omega
  · rw [State.parentOf_write_same (h₂.trans (hpar right).symm), hpar]
  · simp only [State.write_nodes]
    rw [Function.update_of_ne (M.right_ne_parent T.whole).symm,
      Function.update_of_ne (M.left_ne_parent T.whole).symm]

end Pair

/-! ## Finding the sibling -/

theorem siblingBefore_eq (hp : p ∉ l.map (·.2)) :
    siblingBefore p first (l ++ (k, p) :: r) = (lastOf first l, k, true) := by
  induction l generalizing first with
  | nil => simp [siblingBefore, lastOf]
  | cons e l ih =>
      obtain ⟨k', d⟩ := e
      have hd : d ≠ p := fun h => hp (by simp [h])
      rw [List.cons_append, siblingBefore, if_neg hd, lastOf]
      exact ih fun h => hp (by simp [h])

/-- A node, its sibling and the separator between them. -/
structure SiblingOf (s : State) (L : Layout Int64 Nat) (p q parent first : Nat) (l : List Slot)
    (k : Int64) (right : Nat) (r : List Slot) (sibling : Nat) (isLeft : Bool) : Prop where
  pair : Pair s L q parent first l k right r
  side : if isLeft then p = right ∧ sibling = lastOf first l
    else p = lastOf first l ∧ sibling = right
  run : ∀ t, findSiblingInfo first (l ++ (k, right) :: r) p t = some (.ok (sibling, k, isLeft), t)

theorem exists_sibling (T : Tree least s root L) (hp : p ∈ L.pages) (hr : p ≠ root)
    (hkeys : s.numKeysOf (s.parentOf p) ≠ 0) :
    ∃ parent first l k right r sibling isLeft,
      SiblingOf s L p (s.parentOf p) parent first l k right r sibling isLeft := by
  obtain ⟨hq, -, -, first, slots, hv, hc⟩ := T.pages.parent_mem T.whole hp hr not_false
  obtain ⟨parent, hn⟩ := State.view_eq_inner.mp hv
  rw [State.numKeysOf_inner hv] at hkeys
  by_cases hfirst : first = p
  · -- a first child: the sibling is to the right
    rcases slots with _ | ⟨⟨k, right⟩, r⟩
    · simp at hkeys
    · refine ⟨parent, first, [], k, right, r, right, false, ⟨hq, hn⟩, by simp [lastOf, hfirst],
        fun t => ?_⟩
      unfold findSiblingInfo
      rw [if_pos hfirst]
      rfl
  · have hmem : p ∈ slots.map (·.2) := (List.mem_cons.mp hc).resolve_left (Ne.symm hfirst)
    obtain ⟨⟨k, _⟩, he, rfl⟩ := List.mem_map.mp hmem
    obtain ⟨l, r, rfl⟩ := List.append_of_mem he
    have N : Pair s L _ parent first l k _ r := ⟨hq, hn⟩
    refine ⟨parent, first, l, k, _, r, lastOf first l, true, N, by simp, fun t => ?_⟩
    unfold findSiblingInfo
    rw [if_neg hfirst, siblingBefore_eq]
    · rfl
    · exact fun h => N.neighbours.right_once T.whole _ (by simp [h]) rfl

namespace SiblingOf

variable {sibling : Nat} {isLeft : Bool}
  (S : SiblingOf s L p q parent first l k right r sibling isLeft)
include S

theorem mem (T : Tree least s root L) : sibling ∈ L.pages := by
  have hside := S.side
  cases isLeft
  · rw [hside.2]
    exact S.pair.neighbours.right_mem T.whole
  · rw [hside.2]
    exact S.pair.neighbours.left_mem T.whole

theorem inOrder_eq : inOrder p sibling isLeft = (lastOf first l, right) := by
  have hside := S.side
  cases isLeft
  · rw [hside.1, hside.2]
    rfl
  · rw [hside.1, hside.2]
    rfl

end SiblingOf

/-! ## Slots of the parent -/

theorem removeSlot_eq (hp : right ∉ l.map (·.2)) :
    removeSlot right (l ++ (k, right) :: r) = some (l ++ r) := by
  induction l with
  | nil => simp [removeSlot]
  | cons e l ih =>
      obtain ⟨k', d⟩ := e
      have hd : d ≠ right := fun h => hp (by simp [h])
      rw [List.cons_append, removeSlot, if_neg hd, ih fun h => hp (by simp [h])]
      rfl

theorem replaceKey_eq (hl : ∀ e ∈ l, e.1 < k) :
    replaceKey k m (l ++ (k, right) :: r) = l ++ (m, right) :: r := by
  induction l with
  | nil => simp [replaceKey]
  | cons e l ih =>
      obtain ⟨k', d⟩ := e
      have hk : k' ≠ k := (hl (k', d) (by simp)).ne
      rw [List.cons_append, replaceKey, if_neg hk, ih fun e he => hl e (by simp [he])]
      rfl

/-! ## The two edits -/

/-- From `s` to `s'` the pair has the contents `w₁` and `w₂`, with `m` between them. -/
structure Shifted (s s' : State) (L : Layout Int64 Nat) (q first : Nat) (l : List Slot)
    (right : Nat) (r : List Slot) (m : Int64) (w₁ w₂ : View Int64 Bytes Nat) : Prop where
  view_eq : s'.view = Function.update (Function.update (Function.update s.view (lastOf first l)
    (some w₁)) right (some w₂)) q (some (.inner first (l ++ (m, right) :: r)))
  numPages_eq : s'.numPages = s.numPages
  rootPage_eq : s'.rootPage = s.rootPage
  parent_left : ∀ c ∈ w₁.children, s'.parentOf c = lastOf first l
  parent_right : ∀ c ∈ w₂.children, s'.parentOf c = right
  parent_old : ∀ x ∈ L.pages, x ∉ w₁.children → x ∉ w₂.children → s'.parentOf x = s.parentOf x

/-- Moving the border keeps the tree and its entries. -/
theorem Tree.shift (T : Tree 0 s root L) (N : Pair s L q parent first l k right r)
    (E : Shifted s s' L q first l right r m w₁ w₂)
    (hv₁ : s.view (lastOf first l) = some v₁) (hv₂ : s.view right = some v₂)
    (hlo : L.lo (lastOf first l) < Bound.key m) (hhi : Bound.key m < L.hi right)
    (h₁ : L.Suits L.hi (L.lo (lastOf first l)) (Bound.key m) (L.level (lastOf first l)) w₁)
    (h₂ : L.Suits L.hi (Bound.key m) (L.hi right) (L.level right) w₂)
    (hfit₁ : Fits 0 (lastOf first l) w₁) (hfit₂ : Fits 0 right w₂)
    (hch : ∀ c, c ∈ w₁.children ∨ c ∈ w₂.children ↔ c ∈ v₁.children ∨ c ∈ v₂.children)
    (hentries : ∀ e, e ∈ w₁.entries ∨ e ∈ w₂.entries ↔ e ∈ v₁.entries ∨ e ∈ v₂.entries) :
    Tree 0 s' root (L.shift (lastOf first l) right m) ∧
      ∀ e, (L.shift (lastOf first l) right m).Holds s'.view e ↔ L.Holds s.view e := by
  have W := T.whole
  have G := T.pages
  have M := N.neighbours
  have hlq := M.left_ne_parent W
  have hrq := M.right_ne_parent W
  have hlr := M.ne W
  -- the children of other pages are not among those that moved
  have hkept : ∀ x ∈ L.pages, ∀ v, s.view x = some v → x ≠ lastOf first l → x ≠ right →
      ∀ c ∈ v.children, s'.parentOf c = x := by
    intro x hx v hv hxl hxr c hc
    have hpc := G.parent_eq x hx v hv c hc
    have hnot : ¬ (c ∈ w₁.children ∨ c ∈ w₂.children) := by
      intro h
      rcases (hch c).mp h with h | h
      · exact hxl (hpc.symm.trans (G.parent_eq _ (M.left_mem W) v₁ hv₁ c h))
      · exact hxr (hpc.symm.trans (G.parent_eq _ (M.right_mem W) v₂ hv₂ c h))
    rw [E.parent_old c ((Forest.suits_of W hx hv).child hc).1 (fun h => hnot (.inl h))
      fun h => hnot (.inr h)]
    exact hpc
  have hroot : s'.parentOf root = 0 := by
    rw [E.parent_old root W.root_mem (fun h => ?_) fun h => ?_]
    · exact G.root_parent
    · have := (h₁.child h).2
      have := W.level_le _ (M.left_mem W)
      omega
    · have := (h₂.child h).2
      have := W.level_le _ (M.right_mem W)
      omega
  refine ⟨⟨?_, hroot, fun x hx v hv c hc => ?_, fun x hx => ?_, fun x hx v hv => ?_⟩, fun e => ?_⟩
  · rw [E.view_eq]
    exact Whole.shift W M rfl hv₁ hv₂ hlo hhi h₁ h₂ fun c h => (hch c).mpr h
  · rw [E.view_eq] at hv
    rcases eq_or_ne x q with rfl | hxq
    · rw [Function.update_self] at hv
      cases hv
      exact hkept x hx _ M.view_eq hlq.symm hrq.symm c (by simpa [View.children] using hc)
    rw [Function.update_of_ne hxq] at hv
    rcases eq_or_ne x right with rfl | hxr
    · rw [Function.update_self] at hv
      cases hv
      exact E.parent_right c hc
    rw [Function.update_of_ne hxr] at hv
    rcases eq_or_ne x (lastOf first l) with rfl | hxl
    · rw [Function.update_self] at hv
      cases hv
      exact E.parent_left c hc
    rw [Function.update_of_ne hxl] at hv
    exact hkept x hx v hv hxl hxr c hc
  · rw [E.numPages_eq]
    exact G.bounds x hx
  · rw [E.view_eq] at hv
    rcases eq_or_ne x q with rfl | hxq
    · rw [Function.update_self] at hv
      cases hv
      obtain ⟨-, hsize, hnum⟩ := G.fits x hx _ M.view_eq
      exact ⟨Nat.zero_le _, by simpa using hsize, hnum⟩
    rw [Function.update_of_ne hxq] at hv
    rcases eq_or_ne x right with rfl | hxr
    · rw [Function.update_self] at hv
      cases hv
      exact hfit₂
    rw [Function.update_of_ne hxr] at hv
    rcases eq_or_ne x (lastOf first l) with rfl | hxl
    · rw [Function.update_self] at hv
      cases hv
      exact hfit₁
    rw [Function.update_of_ne hxl] at hv
    exact G.fits x hx v hv
  · rw [E.view_eq]
    exact Whole.holds_shift W M rfl hv₁ hv₂ hentries e

/-- From `s` to `s'` the left one of the pair has the contents `w`, and the slot of the right
one is gone. -/
structure Merged (s s' : State) (L : Layout Int64 Nat) (q first : Nat) (l : List Slot)
    (right : Nat) (r : List Slot) (w : View Int64 Bytes Nat) : Prop where
  view_eq : s'.view = Function.update (Function.update s.view (lastOf first l) (some w)) q
    (some (.inner first (l ++ r)))
  numPages_eq : s'.numPages = s.numPages
  rootPage_eq : s'.rootPage = s.rootPage
  parent_left : ∀ c ∈ w.children, s'.parentOf c = lastOf first l
  parent_old : ∀ x ∈ L.pages, x ∉ w.children → s'.parentOf x = s.parentOf x

/-- Merging keeps the tree and its entries. -/
theorem Tree.merge (T : Tree 0 s root L) (N : Pair s L q parent first l k right r)
    (E : Merged s s' L q first l right r w)
    (hv₁ : s.view (lastOf first l) = some v₁) (hv₂ : s.view right = some v₂)
    (h : L.Suits L.hi (L.lo (lastOf first l)) (L.hi right) (L.level (lastOf first l)) w)
    (hfit : Fits 0 (lastOf first l) w)
    (hch : ∀ c, c ∈ w.children ↔ c ∈ v₁.children ∨ c ∈ v₂.children)
    (hentries : ∀ e, e ∈ w.entries ↔ e ∈ v₁.entries ∨ e ∈ v₂.entries) :
    Tree 0 s' root (L.merge (lastOf first l) right) ∧
      ∀ e, (L.merge (lastOf first l) right).Holds s'.view e ↔ L.Holds s.view e := by
  have W := T.whole
  have G := T.pages
  have M := N.neighbours
  have hlq := M.left_ne_parent W
  have hrq := M.right_ne_parent W
  have hkept : ∀ x ∈ L.pages, ∀ v, s.view x = some v → x ≠ lastOf first l → x ≠ right →
      ∀ c ∈ v.children, s'.parentOf c = x := by
    intro x hx v hv hxl hxr c hc
    have hpc := G.parent_eq x hx v hv c hc
    have hnot : c ∉ w.children := by
      intro h
      rcases (hch c).mp h with h | h
      · exact hxl (hpc.symm.trans (G.parent_eq _ (M.left_mem W) v₁ hv₁ c h))
      · exact hxr (hpc.symm.trans (G.parent_eq _ (M.right_mem W) v₂ hv₂ c h))
    rw [E.parent_old c ((Forest.suits_of W hx hv).child hc).1 hnot]
    exact hpc
  have hroot : s'.parentOf root = 0 := by
    rw [E.parent_old root W.root_mem fun hc => ?_]
    · exact G.root_parent
    · have := (h.child hc).2
      have := W.level_le _ (M.left_mem W)
      omega
  refine ⟨⟨?_, hroot, ?_, ?_, ?_⟩, fun e => ?_⟩
  · rw [E.view_eq]
    exact Whole.merge W M rfl hv₁ hv₂ h fun c h => (hch c).mpr h
  · rintro x ⟨hx, hxr⟩ v hv c hc
    rw [E.view_eq] at hv
    rcases eq_or_ne x q with rfl | hxq
    · rw [Function.update_self] at hv
      cases hv
      refine hkept x hx _ M.view_eq hlq.symm hxr c ?_
      simp only [View.children, List.map_append, List.map_cons, List.mem_cons,
        List.mem_append] at hc ⊢
      tauto
    rw [Function.update_of_ne hxq] at hv
    rcases eq_or_ne x (lastOf first l) with rfl | hxl
    · rw [Function.update_self] at hv
      cases hv
      exact E.parent_left c hc
    rw [Function.update_of_ne hxl] at hv
    exact hkept x hx v hv hxl hxr c hc
  · rintro x ⟨hx, -⟩
    rw [E.numPages_eq]
    exact G.bounds x hx
  · rintro x ⟨hx, -⟩ v hv
    rw [E.view_eq] at hv
    rcases eq_or_ne x q with rfl | hxq
    · rw [Function.update_self] at hv
      cases hv
      obtain ⟨-, hsize, hnum⟩ := G.fits x hx _ M.view_eq
      refine ⟨Nat.zero_le _, ?_, hnum⟩
      simp only [List.length_append, List.length_cons] at hsize ⊢
      omega
    rw [Function.update_of_ne hxq] at hv
    rcases eq_or_ne x (lastOf first l) with rfl | hxl
    · rw [Function.update_self] at hv
      cases hv
      exact hfit
    rw [Function.update_of_ne hxl] at hv
    exact G.fits x hx v hv
  · rw [E.view_eq]
    exact Whole.holds_merge W M rfl hv₁ hv₂ hentries e

end VelociDB.BTree
