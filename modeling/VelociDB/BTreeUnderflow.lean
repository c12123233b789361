/-
# Underflow of internal nodes (`handle_internal_underflow`)

A node that has lost a key borrows from its sibling, or is merged with it; then the parent
has lost a key.  `handleInternalUnderflow_run` goes up from a node with few keys, even
none, in a tree whose other nodes have at least one:

    a sibling with more than `minKeys` keys    lends one, and nothing else happens
    else, a parent with keys to spare          loses one
    else, a parent that is not the root        loses one and is the next to repair
    else, the root with one key                is dropped for its only child

In the last case (`Collapse`) the child stays what it was: its header names the dropped
root.  In all others the tree is well-formed again, with the same entries.
-/
import VelociDB.BTreePair

namespace VelociDB.BTree

open SearchTree Fuelled

variable {s s' sm : State} {root p q parent first left right sibling : Nat}
  {L L' : Layout Int64 Nat} {k m : Int64} {l r slots : List Slot}
  {v₁ v₂ w : View Int64 Bytes Nat} {isLeft : Bool} {least : Nat}

/-! ## The sibling and the collapse -/

/-- The sibling `find_sibling_info` picks. -/
def siblingOf (s : State) (p : Nat) : Nat :=
  match s.view (s.parentOf p) with
  | some (.inner first slots) =>
      if first = p then (slots.head?.map (·.2)).getD 0 else (siblingBefore p first slots).1
  | _ => 0

/-- Repairing a page that has lost a key ends in dropping the root. -/
inductive Collapse (s : State) (root : Nat) : Nat → Prop
  | top {p : Nat} : s.parentOf p = root → s.numKeysOf (siblingOf s p) ≤ minKeys →
      s.numKeysOf root = 1 → Collapse s root p
  | up {p : Nat} : s.parentOf p ≠ root → s.numKeysOf (siblingOf s p) ≤ minKeys →
      s.numKeysOf (s.parentOf p) ≤ minKeys → Collapse s root (s.parentOf p) → Collapse s root p

theorem collapse_iff : Collapse s root p ↔ s.numKeysOf (siblingOf s p) ≤ minKeys ∧
    ((s.parentOf p = root ∧ s.numKeysOf root = 1) ∨ (s.parentOf p ≠ root ∧
      s.numKeysOf (s.parentOf p) ≤ minKeys ∧ Collapse s root (s.parentOf p))) := by
  constructor
  · intro h
    cases h with
    | top hq hs hn => exact ⟨hs, .inl ⟨hq, hn⟩⟩
    | up hq hs hn h => exact ⟨hs, .inr ⟨hq, hn, h⟩⟩
  · rintro ⟨hs, ⟨hq, hn⟩ | ⟨hq, hn, h⟩⟩
    · exact .top hq hs hn
    · exact .up hq hs hn h

/-- Every internal node but one has at least `least` keys. -/
def Keyed (least : Nat) (s : State) (L : Layout Int64 Nat) (p : Nat) : Prop :=
  ∀ x ∈ L.pages, x ≠ p → ∀ first slots, s.view x = some (.inner first slots) →
    least ≤ slots.length

theorem SiblingOf.siblingOf_eq (S : SiblingOf s L p q parent first l k right r sibling isLeft)
    (hq : s.parentOf p = q) : siblingOf s p = sibling := by
  have hrun := S.run s
  rw [siblingOf, hq, S.pair.neighbours.view_eq]
  dsimp only
  unfold findSiblingInfo at hrun
  split
  · rename_i hfirst
    rw [if_pos hfirst] at hrun
    generalize l ++ (k, right) :: r = slots at hrun ⊢
    cases slots with
    | nil => cases hrun
    | cons e slots => cases hrun; rfl
  · rename_i hfirst
    rw [if_neg hfirst] at hrun
    simp only [pure_run, Option.some.injEq, Prod.mk.injEq, Except.ok.injEq] at hrun
    rw [hrun.1]

/-- A node without keys has one child only. -/
theorem lone_child (T : Tree 0 s root L) (hp : p ∈ L.pages) (hr : p ≠ root)
    (hnone : s.numKeysOf (s.parentOf p) = 0) : s.view (s.parentOf p) = some (.inner p []) := by
  obtain ⟨-, -, -, first, slots, hv, hc⟩ := T.pages.parent_mem T.whole hp hr not_false
  rw [State.numKeysOf_inner hv] at hnone
  obtain rfl := List.length_eq_zero_iff.mp hnone
  have hfirst : p = first := by simpa using hc
  rw [hv, hfirst]

theorem siblingOf_eq_zero (T : Tree 0 s root L) (hp : p ∈ L.pages) (hr : p ≠ root)
    (hnone : s.numKeysOf (s.parentOf p) = 0) : siblingOf s p = 0 := by
  rw [siblingOf, lone_child T hp hr hnone]
  simp

namespace SiblingOf

variable (T : Tree 0 s root L) (S : SiblingOf s L p q parent first l k right r sibling isLeft)
include T S

theorem parent_eq : s.parentOf p = q := by
  have hside := S.side
  cases isLeft
  · rw [hside.1]
    exact S.pair.parent_left T
  · rw [hside.1]
    exact S.pair.parent_right T

theorem level_eq : L.level sibling = L.level p ∧ L.level q = L.level p + 1 := by
  have hside := S.side
  have hl := S.pair.neighbours.level_left T.whole
  have hr := S.pair.neighbours.level_right T.whole
  cases isLeft
  · rw [hside.1, hside.2]
    exact ⟨by omega, hl⟩
  · rw [hside.1, hside.2]
    exact ⟨by omega, hr⟩

theorem ne : sibling ≠ p := by
  have hside := S.side
  have hne := S.pair.neighbours.ne T.whole
  cases isLeft
  · rw [hside.1, hside.2]
    exact hne.symm
  · rw [hside.1, hside.2]
    exact hne

end SiblingOf

/-- `Collapse` looks at the pages as high as `q`, `q` itself apart, and above. -/
theorem collapse_congr (T : Tree 0 s root L)
    (hparent : ∀ x ∈ L.pages, L.level q ≤ L.level x → s'.parentOf x = s.parentOf x)
    (hview : ∀ x ∈ L.pages, L.level q ≤ L.level x → x ≠ q → s'.view x = s.view x)
    (hzero : s'.view 0 = s.view 0) (hq : q ∈ L.pages) (hr : q ≠ root) :
    Collapse s' root q ↔ Collapse s root q := by
  induction hd : L.level root - L.level q generalizing q with
  | zero =>
      obtain ⟨hz, -, hlevel, -⟩ := T.pages.parent_mem T.whole hq hr not_false
      have := T.whole.level_le _ hz
      omega
  | succ d ih =>
      obtain ⟨hz, -, hlevel, first, slots, hv, -⟩ := T.pages.parent_mem T.whole hq hr not_false
      have hpar := hparent q hq le_rfl
      have hzq : s.parentOf q ≠ q := by
        intro h
        rw [h] at hlevel
        omega
      have hvz := hview _ hz (by omega) hzq
      have hsib : siblingOf s' q = siblingOf s q := by
        rw [siblingOf, siblingOf, hpar, hvz]
      have hkeys := State.numKeysOf_congr hvz
      have hsibling : s'.numKeysOf (siblingOf s q) = s.numKeysOf (siblingOf s q) := by
        by_cases hnone : s.numKeysOf (s.parentOf q) = 0
        · rw [siblingOf_eq_zero T hq hr hnone]
          exact State.numKeysOf_congr hzero
        · obtain ⟨_, _, _, _, _, _, sibling, _, S⟩ := exists_sibling T hq hr hnone
          rw [S.siblingOf_eq rfl]
          exact State.numKeysOf_congr (hview _ (S.mem T) (S.level_eq T).1.ge (S.ne T))
      rw [collapse_iff (s := s') (p := q), collapse_iff (s := s) (p := q), hsib, hsibling, hpar,
        hkeys]
      by_cases hzr : s.parentOf q = root
      · rw [hzr] at hkeys
        rw [hkeys]
        tauto
      · rw [ih (fun x hx hle => hparent x hx (by omega))
          (fun x hx hle hne => hview x hx (by omega) (fun h => by subst h; omega)) hz hzr (by omega)]
        tauto

/-! ## What a repair achieves -/

/-- A tree again, and the same entries. -/
def Kept (least : Nat) (s s' : State) (root : Nat) (L : Layout Int64 Nat) : Prop :=
  ∃ L', Tree least s' root L' ∧ s'.rootPage = s.rootPage ∧
    ∀ e, L'.Holds s'.view e ↔ L.Holds s.view e

/-- The repair succeeds, and keeps the tree unless the root collapses; or it comes to a node
without keys and looks for a sibling there. -/
def Repaired (least : Nat) (x : Option (Except Halt Unit × State)) (s : State) (root : Nat)
    (L : Layout Int64 Nat) (p : Nat) : Prop :=
  (∃ s', x = some (.ok (), s') ∧ (Collapse s root p → s'.parentOf s'.rootPage ≠ 0) ∧
    (¬ Collapse s root p → Kept least s s' root L)) ∨
  least = 0 ∧ ∃ s', x = some (.error .misread, s')

theorem Tree.keyed (T : Tree 0 s root L)
    (h : ∀ x ∈ L.pages, ∀ first slots, s.view x = some (.inner first slots) →
      least ≤ slots.length) : Tree least s root L := by
  refine ⟨T.whole, T.pages.root_parent, T.pages.parent_eq, T.pages.bounds, fun x hx v hv => ?_⟩
  have hfit := T.pages.fits x hx v hv
  cases v with
  | leaf entries => exact hfit
  | inner first slots => exact ⟨h x hx first slots hv, hfit.2⟩

theorem Tree.weaken (T : Tree least s root L) : Tree 0 s root L := by
  refine ⟨T.whole, T.pages.root_parent, T.pages.parent_eq, T.pages.bounds, fun x hx v hv => ?_⟩
  have hfit := T.pages.fits x hx v hv
  cases v with
  | leaf entries => exact hfit
  | inner first slots => exact ⟨Nat.zero_le _, hfit.2⟩

theorem Tree.keyed_all (T : Tree least s root L) (p : Nat) : Keyed least s L p :=
  fun x hx _ _ _ hv => (T.pages.fits x hx _ hv).1

/-! ## Dropping the slot of a merged node -/

theorem Pair.removeChild_run (N : Pair s L q parent first l k right r) (T : Tree 0 s root L)
    (hn : sm.nodes q = some (.internal parent first (l ++ (k, right) :: r)))
    (h : Nat → Nat → BTreeM Unit) :
    removeChildFromParent h q right root sm =
      (if q = root ∧ l ++ r = [] then change fun t => { t with rootPage := first }
        else if q ≠ root ∧ (l ++ r).length < minKeys then h q root else pure ())
        (sm.write q (.internal parent first (l ++ r))) := by
  have hne := N.neighbours.right_once T.whole
  have hfirst : first ≠ right := hne first (by simp)
  have hl : right ∉ l.map (·.2) := fun h => hne right (by simp [h]) rfl
  rw [removeChildFromParent, bind_ok (readInternal_run hn)]
  simp only [if_neg hfirst, removeSlot_eq hl]
  rw [bind_ok (writeNode_run _ _ _)]

/-- After a merge: the parent loses the slot, and is repaired if it has to be. -/
theorem Repaired.of_merge (hleast : least ≤ 1) (T : Tree 0 s root L) (hkeyed : Keyed least s L p)
    (S : SiblingOf s L p q parent first l k right r sibling isLeft)
    (hsib : s.numKeysOf sibling ≤ minKeys) (hroot : s.rootPage = root)
    (hn : sm.nodes q = some (.internal parent first (l ++ (k, right) :: r)))
    (E : Merged s (sm.write q (.internal parent first (l ++ r))) L q first l right r w)
    (hv₁ : s.view (lastOf first l) = some v₁) (hv₂ : s.view right = some v₂)
    (hw : L.Suits L.hi (L.lo (lastOf first l)) (L.hi right) (L.level (lastOf first l)) w)
    (hfit : Fits 0 (lastOf first l) w)
    (hch : ∀ c, c ∈ w.children ↔ c ∈ v₁.children ∨ c ∈ v₂.children)
    (hentries : ∀ e, e ∈ w.entries ↔ e ∈ v₁.entries ∨ e ∈ v₂.entries)
    (hwkeyed : ∀ first slots, w = .inner first slots → least ≤ slots.length) {h : Nat → Nat → BTreeM Unit}
    (hh : ∀ {t : State} {L' : Layout Int64 Nat}, Tree 0 t root L' → Keyed least t L' q → q ∈ L'.pages →
      q ≠ root → t.rootPage = root → L'.level root = L.level root → L'.level q = L.level q →
      (∃ first slots, t.view q = some (.inner first slots) ∧ slots.length < minKeys) →
      Repaired least (h q root t) t root L' q) :
    Repaired least (removeChildFromParent h q right root sm) s root L p := by
  have N := S.pair
  have M := N.neighbours
  obtain ⟨Tm, hholds⟩ := T.merge N E hv₁ hv₂ hw hfit hch hentries
  have hlq := M.left_ne_parent T.whole
  have hrq := M.right_ne_parent T.whole
  have hpq := S.parent_eq T
  obtain ⟨hlevels, hlevelq⟩ := S.level_eq T
  have hkeysq : s.numKeysOf q = (l ++ r).length + 1 := by
    rw [State.numKeysOf_inner M.view_eq]
    simp only [List.length_append, List.length_cons]
    omega
  have hcollapse : Collapse s root p ↔ (q = root ∧ l ++ r = []) ∨
      (q ≠ root ∧ (l ++ r).length < minKeys ∧ Collapse s root q) := by
    rw [collapse_iff, S.siblingOf_eq hpq, hpq]
    constructor
    · rintro ⟨-, ⟨hqr, hone⟩ | ⟨hqr, hle, hc⟩⟩
      · rw [← hqr, hkeysq] at hone
        exact .inl ⟨hqr, List.length_eq_zero_iff.mp (by omega)⟩
      · exact .inr ⟨hqr, by omega, hc⟩
    · rintro (⟨hqr, hnil⟩ | ⟨hqr, hlt, hc⟩)
      · rw [hnil] at hkeysq
        exact ⟨hsib, .inl ⟨hqr, hqr ▸ hkeysq⟩⟩
      · exact ⟨hsib, .inr ⟨hqr, by omega, hc⟩⟩
  -- only `q` may be without keys now
  have hkeyed' : Keyed least (sm.write q (.internal parent first (l ++ r)))
      (L.merge (lastOf first l) right) q := by
    rintro x ⟨hx, hxr⟩ hxq f sl hv
    rw [E.view_eq, Function.update_of_ne hxq] at hv
    rcases eq_or_ne x (lastOf first l) with rfl | hxl
    · rw [Function.update_self, Option.some.injEq] at hv
      exact hwkeyed f sl hv
    · rw [Function.update_of_ne hxl] at hv
      refine hkeyed x hx (fun hxp => ?_) f sl hv
      have hside := S.side
      cases isLeft
      · exact hxl (hxp.trans hside.1)
      · exact hxr (hxp.trans hside.1)
  have hviewq : (sm.write q (.internal parent first (l ++ r))).view q =
      some (.inner first (l ++ r)) := by
    rw [E.view_eq, Function.update_self]
  have hrootm := E.rootPage_eq.trans hroot
  rw [N.removeChild_run T hn h]
  by_cases htop : q = root ∧ l ++ r = []
  · rw [if_pos htop]
    refine .inl ⟨_, rfl, fun _ => ?_, fun hc => absurd (hcollapse.mpr (.inl htop)) hc⟩
    -- the remaining child still names the old root
    obtain ⟨rfl, -⟩ := List.append_eq_nil_iff.mp htop.2
    have hpar : (sm.write q (.internal parent first ([] ++ r))).parentOf first = q := by
      have hmem : first ∈ L.pages := M.left_mem T.whole
      rw [E.parent_old first hmem fun hc => ?_]
      · exact N.parent_left T
      · have hlev := (hw.child hc).2
        simp only [lastOf] at hlev
        omega
    show (sm.write q (.internal parent first ([] ++ r))).parentOf first ≠ 0
    rw [hpar]
    exact (T.pages.bounds q N.mem).1.ne'
  rw [if_neg htop]
  by_cases hmore : q ≠ root ∧ (l ++ r).length < minKeys
  · rw [if_pos hmore]
    rcases hh Tm hkeyed' ⟨N.mem, hrq.symm⟩ hmore.1 hrootm rfl rfl ⟨_, _, hviewq, hmore.2⟩
      with ⟨s', hrun, hc₁, hc₂⟩ | hmis
    swap
    · exact .inr hmis
    have hsame : Collapse (sm.write q (.internal parent first (l ++ r))) root q ↔
        Collapse s root q := by
      refine collapse_congr T (fun x hx hle => ?_) (fun x hx hle hxq => ?_) ?_ N.mem hmore.1
      · refine E.parent_old x hx fun hc => ?_
        have := (hw.child hc).2
        have := M.level_left T.whole
        omega
      · rw [E.view_eq, Function.update_of_ne hxq, Function.update_of_ne]
        rintro rfl
        have := M.level_left T.whole
        omega
      · rw [E.view_eq, Function.update_of_ne (T.pages.bounds q N.mem).1.ne,
          Function.update_of_ne (T.pages.bounds _ (M.left_mem T.whole)).1.ne]
    refine .inl ⟨s', hrun, fun hc => hc₁ (hsame.mpr ?_), fun hc => ?_⟩
    · rcases hcollapse.mp hc with h | h
      · exact absurd h htop
      · exact h.2.2
    · obtain ⟨L', T', hr', hh'⟩ := hc₂ fun h =>
        hc (hcollapse.mpr (.inr ⟨hmore.1, hmore.2, hsame.mp h⟩))
      exact ⟨L', T', hr'.trans E.rootPage_eq, fun e => (hh' e).trans (hholds e)⟩
  · rw [if_neg hmore]
    refine .inl ⟨_, rfl, fun hc => ?_, fun _ => ⟨_, Tm.keyed ?_, E.rootPage_eq, hholds⟩⟩
    · rcases hcollapse.mp hc with h | h
      · exact absurd h htop
      · exact absurd ⟨h.1, h.2.1⟩ hmore
    · intro x hx f sl hv
      rcases eq_or_ne x q with rfl | hxq
      · rw [hviewq] at hv
        cases hv
        refine hleast.trans ?_
        by_cases hqr : x = root
        · exact List.length_pos_iff.mpr fun hnil => htop ⟨hqr, hnil⟩
        · have hmin : 1 ≤ minKeys := by decide
          have hlen : ¬ (l ++ r).length < minKeys := fun h => hmore ⟨hqr, h⟩
          omega
      · exact hkeyed' x hx hxq f sl hv

/-! ## A pair of internal nodes -/

variable {lp lf rp rf rf' : Nat} {ls rs ls' rs' : List Slot}

/-- Two internal neighbours. -/
structure InnerPair (s : State) (L : Layout Int64 Nat) (q parent first : Nat) (l : List Slot)
    (k : Int64) (right : Nat) (r : List Slot) (lp lf : Nat) (ls : List Slot) (rp rf : Nat)
    (rs : List Slot) : Prop where
  pair : Pair s L q parent first l k right r
  left_eq : s.nodes (lastOf first l) = some (.internal lp lf ls)
  right_eq : s.nodes right = some (.internal rp rf rs)

namespace InnerPair

variable (T : Tree 0 s root L) (I : InnerPair s L q parent first l k right r lp lf ls rp rf rs)
include T I

omit T in
theorem view_left : s.view (lastOf first l) = some (.inner lf ls) :=
  State.view_eq_inner.mpr ⟨_, I.left_eq⟩

omit T in
theorem view_right : s.view right = some (.inner rf rs) := State.view_eq_inner.mpr ⟨_, I.right_eq⟩

/-- The two nodes as one, with the separator between them. -/
theorem suits : L.Suits L.hi (L.lo (lastOf first l)) (L.hi right) (L.level (lastOf first l))
    (View.inner lf (ls ++ (k, rf) :: rs) : View Int64 Bytes Nat) := by
  have M := I.pair.neighbours
  have hl := Forest.suits_of T.whole (M.left_mem T.whole) I.view_left
  have hr := Forest.suits_of T.whole (M.right_mem T.whole) I.view_right
  have hlevel : L.level (lastOf first l) = L.level right := by
    have := M.level_left T.whole
    have := M.level_right T.whole
    omega
  refine ⟨fun c hc => ?_, tiles_append.mpr ⟨M.hi_left T.whole ▸ hl.2, M.lo_right T.whole ▸ hr.2⟩⟩
  have hc' : c ∈ lf :: ls.map (·.2) ∨ c ∈ rf :: rs.map (·.2) := by
    simp only [List.map_append, List.map_cons, List.mem_cons, List.mem_append] at hc ⊢
    tauto
  rcases hc' with hc' | hc'
  · exact hl.1 c hc'
  · rw [hlevel]
    exact hr.1 c hc'

/-- The same slots cut elsewhere. -/
theorem recut (hcut : ls ++ (k, rf) :: rs = ls' ++ (m, rf') :: rs') :
    L.Suits L.hi (L.lo (lastOf first l)) (Bound.key m) (L.level (lastOf first l))
        (View.inner lf ls' : View Int64 Bytes Nat) ∧
      L.Suits L.hi (Bound.key m) (L.hi right) (L.level right)
        (View.inner rf' rs' : View Int64 Bytes Nat) ∧
      L.lo (lastOf first l) < Bound.key m ∧ Bound.key m < L.hi right ∧
      ∀ c ∈ lf :: ls'.map (·.2), c ∉ rf' :: rs'.map (·.2) := by
  have M := I.pair.neighbours
  have hlevel : L.level (lastOf first l) = L.level right := by
    have := M.level_left T.whole
    have := M.level_right T.whole
    omega
  have hS := I.suits T
  rw [hcut] at hS
  obtain ⟨h₁, h₂⟩ := tiles_append.mp hS.2
  have hmem : ∀ c, c ∈ lf :: ls'.map (·.2) ∨ c ∈ rf' :: rs'.map (·.2) →
      c ∈ lf :: (ls' ++ (m, rf') :: rs').map (·.2) := by
    intro c hc
    simp only [List.map_append, List.map_cons, List.mem_cons, List.mem_append] at hc ⊢
    tauto
  refine ⟨⟨fun c hc => hS.1 c (hmem c (.inl hc)), h₁⟩,
    ⟨fun c hc => hlevel ▸ hS.1 c (hmem c (.inr hc)), h₂⟩, tiles_lt h₁, tiles_lt h₂,
    fun c hl hr => ?_⟩
  have hlo := (tiles_bounds h₁ hl).2
  have hhi := (tiles_bounds h₂ hr).1
  exact (hlo.1.trans_le hlo.2).not_ge hhi

omit T I in
/-- No child is lost. -/
theorem children_iff (hcut : ls ++ (k, rf) :: rs = ls' ++ (m, rf') :: rs') (c : Nat) :
    (c ∈ lf :: ls'.map (·.2) ∨ c ∈ rf' :: rs'.map (·.2)) ↔
      (c ∈ lf :: ls.map (·.2) ∨ c ∈ rf :: rs.map (·.2)) := by
  have h := congrArg (fun sl : List Slot => c ∈ lf :: sl.map (·.2)) hcut
  simp only [List.map_append, List.map_cons, List.mem_cons, List.mem_append, eq_iff_iff] at h ⊢
  tauto

/-- Borrowing keeps the tree. -/
theorem kept (hkeyed : Keyed least s L p) (hp : p = lastOf first l ∨ p = right)
    (hcut : ls ++ (k, rf) :: rs = ls' ++ (m, rf') :: rs')
    (E : Shifted s s' L q first l right r m (.inner lf ls') (.inner rf' rs'))
    (hl : least ≤ ls'.length) (hr : least ≤ rs'.length) (hl' : ls'.length ≤ btreeOrder)
    (hr' : rs'.length ≤ btreeOrder) : Kept least s s' root L := by
  have M := I.pair.neighbours
  obtain ⟨h₁, h₂, hlo, hhi, -⟩ := I.recut T hcut
  have hfl := T.pages.fits _ (M.left_mem T.whole) _ I.view_left
  have hfr := T.pages.fits _ (M.right_mem T.whole) _ I.view_right
  obtain ⟨T', hholds⟩ := T.shift I.pair E I.view_left I.view_right hlo hhi h₁ h₂
    ⟨Nat.zero_le _, hl', hfl.2.2⟩ ⟨Nat.zero_le _, hr', hfr.2.2⟩ (children_iff hcut)
    fun e => by simp [View.entries]
  refine ⟨_, T'.keyed fun x hx f sl hv => ?_, E.rootPage_eq, hholds⟩
  rw [E.view_eq] at hv
  rcases eq_or_ne x q with rfl | hxq
  · rw [Function.update_self] at hv
    cases hv
    by_cases hqp : x = p
    · exfalso
      rcases hp with h | h
      · exact M.left_ne_parent T.whole (h.symm.trans hqp.symm)
      · exact M.right_ne_parent T.whole (h.symm.trans hqp.symm)
    · simpa using hkeyed x hx hqp first _ M.view_eq
  rw [Function.update_of_ne hxq] at hv
  rcases eq_or_ne x right with rfl | hxr
  · rw [Function.update_self] at hv
    cases hv
    exact hr
  rw [Function.update_of_ne hxr] at hv
  rcases eq_or_ne x (lastOf first l) with rfl | hxl
  · rw [Function.update_self] at hv
    cases hv
    exact hl
  rw [Function.update_of_ne hxl] at hv
  refine hkeyed x hx (fun hxp => ?_) f sl hv
  rcases hp with h | h
  · exact hxl (hxp.trans h)
  · exact hxr (hxp.trans h)

end InnerPair

theorem updateParentKey_run (hl : ∀ e ∈ l, e.1 < k)
    (hn : s.nodes q = some (.internal parent first (l ++ (k, right) :: r))) :
    updateParentKey q k m s =
      some (.ok (), s.write q (.internal parent first (l ++ (m, right) :: r))) := by
  rw [updateParentKey, bind_ok (readInternal_run hn)]
  simp only [replaceKey_eq hl]
  rfl

theorem writeInternal_run (h : slots.length ≤ btreeOrder + 1) :
    writeInternal p parent first slots s =
      some (.ok (), s.write p (.internal parent first slots)) := by
  have hord : btreeOrder = 64 := rfl
  have hfit : ¬ pageSize < headerSize + 8 + slots.length * 16 := by
    rw [pageSize_eq]
    have : headerSize = 8 := rfl
    omega
  unfold writeInternal
  rw [if_neg hfit]
  rfl

theorem parentField_eq (h : p < 2 ^ 32) : parentField p = p := Nat.mod_eq_of_lt h

/-! ## Borrowing from a sibling -/

namespace InnerPair

variable (T : Tree 0 s root L) (I : InnerPair s L q parent first l k right r lp lf ls rp rf rs)
include T I

/-- The child `d` has moved to the parent `z`; then the separator follows. -/
theorem borrow {z d : Nat} (hkeyed : Keyed least s L p) (hp : p = lastOf first l ∨ p = right)
    (hsm : sm = (s.write (lastOf first l) (.internal lp lf ls')).write right
      (.internal rp rf' rs'))
    (hcut : ls ++ (k, rf) :: rs = ls' ++ (m, rf') :: rs')
    (hmoved : d ∈ lf :: ls'.map (·.2) ∨ d ∈ rf' :: rs'.map (·.2))
    (hl : ∀ c ∈ lf :: ls'.map (·.2), (if c = d then z else s.parentOf c) = lastOf first l)
    (hr : ∀ c ∈ rf' :: rs'.map (·.2), (if c = d then z else s.parentOf c) = right)
    (hl' : least ≤ ls'.length) (hr' : least ≤ rs'.length) (hlenl : ls'.length ≤ btreeOrder)
    (hlenr : rs'.length ≤ btreeOrder) :
    ∃ s', (setParentPointer d z >>= fun _ => updateParentKey q k m) sm = some (.ok (), s') ∧
      Kept least s s' root L := by
  have M := I.pair.neighbours
  obtain ⟨h₁, h₂, -⟩ := I.recut T hcut
  have hlp : (Node.internal lp lf ls').parent = _ := (State.parentOf_eq I.left_eq).symm
  have hrp : (Node.internal rp rf' rs').parent = _ := (State.parentOf_eq I.right_eq).symm
  obtain ⟨hview, hnum, hpar, hnq⟩ := I.pair.rewritten T hlp hrp hsm
  simp only [Node.view] at hview
  have hsome : ∀ x ∈ L.pages, sm.view x ≠ none := by
    intro x hx
    rw [hview]
    rcases eq_or_ne x right with rfl | hxr
    · simp
    rw [Function.update_of_ne hxr]
    rcases eq_or_ne x (lastOf first l) with rfl | hxl
    · simp
    rw [Function.update_of_ne hxl]
    exact Pages.view_ne_none T.whole hx
  have hmem : d ∈ L.pages ∧ d ≠ q := by
    have hlevel := M.level_right T.whole
    have hleft := M.level_left T.whole
    rcases hmoved with h | h
    · obtain ⟨hpage, hlevel⟩ := h₁.1 _ h
      exact ⟨hpage, fun hq => by rw [hq] at hlevel; omega⟩
    · obtain ⟨hpage, hlevel⟩ := h₂.1 _ h
      exact ⟨hpage, fun hq => by rw [hq] at hlevel; omega⟩
  have hadopt : ∀ x ∈ L.pages,
      (sm.adopt z [d]).parentOf x = if x = d then z else s.parentOf x := by
    intro x hx
    rw [State.parentOf_adopt (hsome x hx), hpar]
    simp only [List.mem_singleton]
  have hall : ∀ x ∈ L.pages, ((sm.adopt z [d]).write q
      (.internal parent first (l ++ (m, right) :: r))).parentOf x =
        if x = d then z else s.parentOf x := by
    intro x hx
    rw [State.parentOf_write_same, hadopt x hx]
    rw [hadopt q M.mem, if_neg hmem.2.symm]
    exact (State.parentOf_eq I.pair.node_eq).symm
  refine ⟨(sm.adopt z [d]).write q (.internal parent first (l ++ (m, right) :: r)), ?_,
    I.kept T hkeyed hp hcut ⟨?_, ?_, ?_, fun c hc => ?_, fun c hc => ?_,
      fun x hx hxl hxr => ?_⟩ hl' hr' hlenl hlenr⟩
  · rw [bind_ok (setParentPointer_run (hsome _ hmem.1) (hnum ▸ (T.pages.bounds _ hmem.1).2))]
    refine updateParentKey_run (M.keys_lt T.whole) ?_
    simp only [State.adopt, List.mem_singleton, hmem.2.symm, if_false, hnq]
    exact I.pair.node_eq
  · rw [State.view_write, State.view_adopt, hview]
    rfl
  · have := (T.pages.bounds q M.mem).2
    simp only [State.write_numPages, State.adopt_numPages, hnum]
    omega
  · rw [State.write_rootPage, State.adopt_rootPage, hsm]
    rfl
  · rw [hall c (h₁.1 c hc).1]
    exact hl c hc
  · rw [hall c (h₂.1 c hc).1]
    exact hr c hc
  · rw [hall x hx, if_neg]
    rintro rfl
    exact hmoved.elim hxl hxr

/-- The last child of the left one moves to the right. -/
theorem borrow_left (hleast : least ≤ 1) (hkeyed : Keyed least s L right) (hls : minKeys < ls.length)
    (hrs : rs.length < minKeys) :
    ∃ s', redistributeInternal right (lastOf first l) q k true s = some (.ok (), s') ∧
      Kept least s s' root L := by
  have hord : minKeys + minKeys = btreeOrder := rfl
  have M := I.pair.neighbours
  have hlsize : ls.length ≤ btreeOrder := (T.pages.fits _ (M.left_mem T.whole) _ I.view_left).2.1
  have hnum : right < 2 ^ 32 := (T.pages.fits _ (M.right_mem T.whole) _ I.view_right).2.2
  have hparent := T.pages.parent_eq
  obtain ⟨ls', ⟨m, moved⟩, rfl⟩ : ∃ ls' e, ls = ls' ++ [e] := by
    refine ⟨ls.dropLast, ls.getLast (fun h => by simp [h] at hls), ?_⟩
    rw [List.dropLast_append_getLast]
  have hlen : (ls' ++ [(m, moved)]).length = ls'.length + 1 := by simp
  have hcut : ls' ++ [(m, moved)] ++ (k, rf) :: rs = ls' ++ (m, moved) :: (k, rf) :: rs := by simp
  obtain ⟨-, -, -, -, hdisj⟩ := I.recut T hcut
  have hleft : ∀ c ∈ lf :: ls'.map (·.2),
      (if c = moved then right else s.parentOf c) = lastOf first l := by
    intro c hc
    rw [if_neg fun h => hdisj c hc (by simp [h])]
    refine hparent _ (M.left_mem T.whole) _ I.view_left c ?_
    simp only [View.children, List.map_append, List.mem_cons, List.mem_append] at hc ⊢
    tauto
  have hright : ∀ c ∈ moved :: ((k, rf) :: rs).map (·.2),
      (if c = moved then right else s.parentOf c) = right := by
    intro c hc
    by_cases h : c = moved
    · rw [if_pos h]
    · rw [if_neg h]
      exact hparent _ (M.right_mem T.whole) _ I.view_right c (List.mem_of_ne_of_mem h hc)
  obtain ⟨s', hrun, hkept⟩ := I.borrow T (p := right) (z := right) (d := moved) hkeyed (.inr rfl)
    rfl hcut (.inr (by simp)) hleft hright (by omega) (by simp; omega) (by omega)
    (by simp; omega)
  refine ⟨s', ?_, hkept⟩
  rw [redistributeInternal, bind_ok (readInternal_run I.left_eq)]
  dsimp only
  rw [bind_ok (readInternal_run I.right_eq)]
  simp only [if_true, List.getLast?_concat, List.dropLast_concat]
  rw [bind_ok (writeInternal_run (by omega)), bind_ok (writeInternal_run (by simp; omega)),
    parentField_eq hnum]
  exact hrun

/-- The first child of the right one moves to the left. -/
theorem borrow_right (hleast : least ≤ 1) (hkeyed : Keyed least s L (lastOf first l)) (hrs : minKeys < rs.length)
    (hls : ls.length < minKeys) :
    ∃ s', redistributeInternal (lastOf first l) right q k false s = some (.ok (), s') ∧
      Kept least s s' root L := by
  have hord : minKeys + minKeys = btreeOrder := rfl
  have M := I.pair.neighbours
  have hrsize : rs.length ≤ btreeOrder := (T.pages.fits _ (M.right_mem T.whole) _ I.view_right).2.1
  have hnum : lastOf first l < 2 ^ 32 := (T.pages.fits _ (M.left_mem T.whole) _ I.view_left).2.2
  have hparent := T.pages.parent_eq
  obtain ⟨⟨m, rf'⟩, rs', rfl⟩ : ∃ e rs', rs = e :: rs' :=
    List.exists_cons_of_ne_nil fun h => by simp [h] at hrs
  have hlen : ((m, rf') :: rs').length = rs'.length + 1 := rfl
  have hcut : ls ++ (k, rf) :: (m, rf') :: rs' = ls ++ [(k, rf)] ++ (m, rf') :: rs' := by simp
  obtain ⟨-, -, -, -, hdisj⟩ := I.recut T hcut
  have hleft : ∀ c ∈ lf :: (ls ++ [(k, rf)]).map (·.2),
      (if c = rf then lastOf first l else s.parentOf c) = lastOf first l := by
    intro c hc
    by_cases h : c = rf
    · rw [if_pos h]
    · rw [if_neg h]
      refine hparent _ (M.left_mem T.whole) _ I.view_left c ?_
      simp only [View.children, List.map_append, List.map_cons, List.map_nil, List.mem_cons,
        List.mem_append, List.not_mem_nil, or_false] at hc ⊢
      tauto
  have hright : ∀ c ∈ rf' :: rs'.map (·.2),
      (if c = rf then lastOf first l else s.parentOf c) = right := by
    intro c hc
    have hne : c ≠ rf := by
      rintro rfl
      exact hdisj c (by simp) hc
    rw [if_neg hne]
    refine hparent _ (M.right_mem T.whole) _ I.view_right c ?_
    simp only [View.children, List.map_cons, List.mem_cons] at hc ⊢
    tauto
  obtain ⟨s', hrun, hkept⟩ := I.borrow T (p := lastOf first l) (z := lastOf first l) (d := rf)
    hkeyed (.inl rfl) rfl hcut (.inl (by simp)) hleft hright (by simp; omega) (by omega)
    (by simp; omega) (by omega)
  refine ⟨s', ?_, hkept⟩
  rw [redistributeInternal, bind_ok (readInternal_run I.right_eq)]
  dsimp only
  rw [bind_ok (readInternal_run I.left_eq)]
  simp only [Bool.false_eq_true, if_false]
  rw [bind_ok (writeInternal_run (by omega)), bind_ok (writeInternal_run (by simp; omega)),
    parentField_eq hnum, State.write_comm (M.ne T.whole)]
  exact hrun

/-! ## Merging with a sibling -/

theorem merge_run (hleast : least ≤ 1) (S : SiblingOf s L p q parent first l k right r sibling isLeft)
    (hkeyed : Keyed least s L p) (hroot : s.rootPage = root)
    (hsib : s.numKeysOf sibling ≤ minKeys) (hlen : ls.length + rs.length < btreeOrder)
    {h : Nat → Nat → BTreeM Unit}
    (hh : ∀ {t : State} {L' : Layout Int64 Nat}, Tree 0 t root L' → Keyed least t L' q → q ∈ L'.pages →
      q ≠ root → t.rootPage = root → L'.level root = L.level root → L'.level q = L.level q →
      (∃ first slots, t.view q = some (.inner first slots) ∧ slots.length < minKeys) →
      Repaired least (h q root t) t root L' q) :
    Repaired least (mergeInternal h p sibling q k root isLeft s) s root L p := by
  have M := I.pair.neighbours
  have hnum : lastOf first l < 2 ^ 32 := (T.pages.fits _ (M.left_mem T.whole) _ I.view_left).2.2
  have hw := I.suits T
  have hlq := M.left_ne_parent T.whole
  have hlevel := M.level_left T.whole
  have hparent := T.pages.parent_eq
  let children := (rf :: rs.map (·.2)).reverse
  let sm := (s.adopt (lastOf first l) children).write (lastOf first l)
    (.internal lp lf (ls ++ (k, rf) :: rs))
  have hsize : (ls ++ (k, rf) :: rs).length ≤ btreeOrder := by
    simp only [List.length_append, List.length_cons]
    omega
  have hmoved : ∀ c ∈ children, c ∈ L.pages ∧ L.level (lastOf first l) = L.level c + 1 := by
    intro c hc
    refine hw.1 c ?_
    simp only [children, List.mem_reverse, List.mem_cons, List.map_append, List.map_cons,
      List.mem_append] at hc ⊢
    tauto
  have hadopt : ∀ x ∈ L.pages, (s.adopt (lastOf first l) children).parentOf x =
      if x ∈ children then lastOf first l else s.parentOf x :=
    fun x hx => State.parentOf_adopt (Pages.view_ne_none T.whole hx)
  have hstay : ∀ x ∈ L.pages, L.level (lastOf first l) ≤ L.level x → x ∉ children := by
    intro x _ hle hx
    have := (hmoved x hx).2
    omega
  have hnq : sm.nodes q = s.nodes q := by
    simp only [sm, State.write_nodes, State.adopt]
    rw [Function.update_of_ne hlq.symm, if_neg (hstay q M.mem (by omega))]
  have hall : ∀ x ∈ L.pages, (sm.write q (.internal parent first (l ++ r))).parentOf x =
      if x ∈ children then lastOf first l else s.parentOf x := by
    intro x hx
    have hsm : ∀ x, sm.parentOf x = (s.adopt (lastOf first l) children).parentOf x := by
      refine State.parentOf_write_same ?_
      rw [hadopt _ (M.left_mem T.whole), if_neg (hstay _ (M.left_mem T.whole) le_rfl)]
      exact (State.parentOf_eq I.left_eq).symm
    rw [State.parentOf_write_same, hsm, hadopt x hx]
    rw [hsm, hadopt q M.mem, if_neg (hstay q M.mem (by omega))]
    exact (State.parentOf_eq I.pair.node_eq).symm
  have E : Merged s (sm.write q (.internal parent first (l ++ r))) L q first l right r
      (.inner lf (ls ++ (k, rf) :: rs)) := by
    refine ⟨?_, ?_, rfl, fun c hc => ?_, fun x hx hxw => ?_⟩
    · simp only [sm, State.view_write, State.view_adopt]
      rfl
    · have := (T.pages.bounds _ (M.left_mem T.whole)).2
      have := (T.pages.bounds _ M.mem).2
      simp only [sm, State.write_numPages, State.adopt_numPages]
      omega
    · rw [hall c (hw.1 c hc).1]
      by_cases hcm : c ∈ children
      · rw [if_pos hcm]
      · rw [if_neg hcm]
        refine hparent _ (M.left_mem T.whole) _ I.view_left c ?_
        simp only [children, View.children, List.mem_reverse, List.mem_cons, List.map_append,
          List.map_cons, List.mem_append] at hc hcm ⊢
        tauto
    · rw [hall x hx, if_neg fun hxm => hxw ?_]
      simp only [children, View.children, List.mem_reverse, List.mem_cons, List.map_append,
        List.map_cons, List.mem_append] at hxm ⊢
      tauto
  have hrep := Repaired.of_merge hleast T hkeyed S hsib hroot (hnq.trans I.pair.node_eq) E I.view_left
    I.view_right hw ⟨Nat.zero_le _, hsize, hnum⟩ (fun c => ?_) (fun e => ?_) ?_ hh
  · rw [mergeInternal, S.inOrder_eq]
    dsimp only
    rw [bind_ok (readInternal_run I.left_eq)]
    dsimp only
    rw [bind_ok (readInternal_run I.right_eq)]
    dsimp only
    have hfit : ¬ pageSize < headerSize + 8 + (ls ++ (k, rf) :: rs).length * 16 := by
      have : pageSize = 4096 := pageSize_eq
      have : headerSize = 8 := rfl
      have : btreeOrder = 64 := rfl
      omega
    rw [if_neg hfit, parentField_eq hnum, bind_ok (setParentPointers_run ?_),
      bind_ok (writeInternal_run (by omega))]
    · exact hrep
    · intro c hc
      obtain ⟨hpage, -⟩ := hmoved c hc
      exact ⟨Pages.view_ne_none T.whole hpage, (T.pages.bounds c hpage).2⟩
  · simp only [View.children, List.map_append, List.map_cons, List.mem_cons, List.mem_append]
    tauto
  · simp [View.entries]
  · rintro f sl heq
    cases heq
    simp only [List.length_append, List.length_cons]
    omega

end InnerPair

/-! ## The repair -/

/-- `handle_internal_underflow` repairs a node with few keys, unless the root collapses. -/
theorem handleInternalUnderflow_run {fuel : Nat} (hleast : least ≤ 1) (T : Tree 0 s root L)
    (hkeyed : Keyed least s L p) (hp : p ∈ L.pages) (hr : p ≠ root) (hroot : s.rootPage = root)
    (hfuel : L.level root - L.level p < fuel)
    (hfew : ∃ first slots, s.view p = some (.inner first slots) ∧ slots.length < minKeys) :
    Repaired least (handleInternalUnderflow fuel p root s) s root L p := by
  induction fuel generalizing s L p with
  | zero => omega
  | succ fuel ih =>
      obtain ⟨pf, ps, hvp, hps⟩ := hfew
      obtain ⟨pp, hnp⟩ := State.view_eq_inner.mp hvp
      have hpp : s.parentOf p = pp := State.parentOf_eq hnp
      obtain ⟨hq, hq0, hlevel, -⟩ := T.pages.parent_mem T.whole hp hr not_false
      rw [handleInternalUnderflow, bind_ok (readNode_run hnp)]
      have hstart : ¬ ((Node.internal pp pf ps).parent = 0 ∨ p = root) := by
        rintro (h | h)
        · exact hq0 (hpp.trans h)
        · exact hr h
      rw [if_neg hstart]
      by_cases hnone : s.numKeysOf (s.parentOf p) = 0
      · -- a node without keys has no sibling to offer
        have hlone := lone_child T hp hr hnone
        refine .inr ⟨?_, s, ?_⟩
        · have := hkeyed _ hq (fun h => by rw [h] at hlevel; omega) p [] hlone
          simpa using this
        · obtain ⟨parent, hnq⟩ := State.view_eq_inner.mp hlone
          rw [hpp] at hnq
          rw [bind_ok (readInternal_run (show s.nodes (Node.internal pp pf ps).parent = _ from hnq))]
          unfold findSiblingInfo
          simp only [if_true]
          exact bind_error (fail_run _ _)
      obtain ⟨parent, first, l, k, right, r, sibling, isLeft, S⟩ := exists_sibling T hp hr hnone
      have hmem := S.mem T
      obtain ⟨hsiblevel, -⟩ := S.level_eq T
      -- the sibling is as high as the node, so it is internal too
      obtain ⟨sp, sf, ss, hns⟩ : ∃ sp sf ss, s.nodes sibling = some (.internal sp sf ss) := by
        obtain ⟨v, hv, hS⟩ := T.whole.suits sibling hmem
        have hlp := (Forest.suits_of T.whole hp hvp).1 pf (by simp)
        cases v with
        | leaf entries =>
            have := hS.1
            omega
        | inner sf ss =>
            obtain ⟨sp, hns⟩ := State.view_eq_inner.mp hv
            exact ⟨sp, sf, ss, hns⟩
      have hsib0 : sibling ≠ 0 := (T.pages.bounds sibling hmem).1.ne'
      rw [hpp] at S hq hlevel
      rw [bind_ok (readInternal_run (show s.nodes (Node.internal pp pf ps).parent =
        _ from S.pair.node_eq))]
      dsimp only
      rw [bind_ok (S.run s)]
      dsimp only
      rw [if_neg hsib0, bind_ok (readNode_run hns)]
      have hkeys : s.numKeysOf sibling = ss.length := State.numKeysOf_eq hns
      have hside := S.side
      by_cases hmany : minKeys < ss.length
      · -- the sibling lends a child
        have hno : ¬ Collapse s root p := by
          intro hc
          have := (collapse_iff.mp hc).1
          rw [S.siblingOf_eq hpp, hkeys] at this
          omega
        rw [if_pos (show minKeys < (Node.internal sp sf ss).numKeys from hmany)]
        cases isLeft
        · obtain ⟨rfl, rfl⟩ := hside
          have I : InnerPair s L pp parent first l k sibling r pp pf ps sp sf ss := ⟨S.pair, hnp, hns⟩
          obtain ⟨s', hrun, hkept⟩ := I.borrow_right T hleast hkeyed hmany hps
          exact .inl ⟨s', hrun, fun hc => absurd hc hno, fun _ => hkept⟩
        · obtain ⟨rfl, rfl⟩ := hside
          have I : InnerPair s L pp parent first l k p r sp sf ss pp pf ps := ⟨S.pair, hns, hnp⟩
          obtain ⟨s', hrun, hkept⟩ := I.borrow_left T hleast hkeyed hmany hps
          exact .inl ⟨s', hrun, fun hc => absurd hc hno, fun _ => hkept⟩
      · -- the two become one, and the parent is next
        rw [if_neg (show ¬ minKeys < (Node.internal sp sf ss).numKeys from hmany)]
        have hord : minKeys + minKeys = btreeOrder := rfl
        have hup : ∀ {t : State} {L' : Layout Int64 Nat}, Tree 0 t root L' → Keyed least t L' pp →
            pp ∈ L'.pages → pp ≠ root → t.rootPage = root → L'.level root = L.level root →
            L'.level pp = L.level pp →
            (∃ first slots, t.view pp = some (.inner first slots) ∧ slots.length < minKeys) →
            Repaired least (handleInternalUnderflow fuel pp root t) t root L' pp := by
          intro t L' T' hkeyed' hpage hne hroot' hlr hlq hfew'
          have := T.whole.level_le _ hq
          exact ih T' hkeyed' hpage hne hroot' (by omega) hfew'
        cases isLeft
        · obtain ⟨rfl, rfl⟩ := hside
          have I : InnerPair s L pp parent first l k sibling r pp pf ps sp sf ss := ⟨S.pair, hnp, hns⟩
          exact I.merge_run T hleast S hkeyed hroot (by omega) (by omega) hup
        · obtain ⟨rfl, rfl⟩ := hside
          have I : InnerPair s L pp parent first l k p r sp sf ss pp pf ps := ⟨S.pair, hns, hnp⟩
          exact I.merge_run T hleast S hkeyed hroot (by omega) (by omega) hup

end VelociDB.BTree
