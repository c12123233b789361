/-
# Linking a new page into the parent (`insert_into_parent`)

After a cut the upper half hangs loose.  `insertIntoParent_run` goes up from there: every
full node on the way is cut as well, until a node has room or a new root is made.  The
result is a tree again, and nothing up to the height of the cut has changed.

A new root is made exactly when every node above has `btreeOrder` keys (`Full`).  The last
conjunct looks ahead: whether further cuts below would make another root (`Grows`) is told
by the keys that were there before (`Lost`), since a node that has been cut has half of
them.
-/
import VelociDB.BTreeShape

namespace VelociDB.BTree

open SearchTree Fuelled

variable {least : Nat} {s s' : State} {root root' p q left right : Nat}
  {L L' : Layout Int64 Nat} {seen : Nat → Bound Int64} {loose : Set Nat} {m : Int64}

/-! ## Nodes without room -/

/-- Every node above the page is full. -/
inductive Full (s : State) : Nat → Prop
  | root {p : Nat} : s.parentOf p = 0 → Full s p
  | above {p : Nat} : s.parentOf p ≠ 0 → btreeOrder ≤ s.numKeysOf (s.parentOf p) →
      Full s (s.parentOf p) → Full s p

/-- `k` more slots are too many for the parent, and every node above it is full. -/
def Lost (s : State) (p k : Nat) : Prop :=
  s.parentOf p ≠ 0 ∧ s.numKeysOf (s.parentOf p) < btreeOrder ∧
    btreeOrder < s.numKeysOf (s.parentOf p) + k ∧ Full s (s.parentOf p)

/-- Cutting the page `k` times makes a new root. -/
def Grows (s : State) (p k : Nat) : Prop := (0 < k ∧ Full s p) ∨ Lost s p k

theorem full_of_parent (h : s.parentOf p ≠ 0) :
    Full s p ↔ btreeOrder ≤ s.numKeysOf (s.parentOf p) ∧ Full s (s.parentOf p) := by
  constructor
  · intro hf
    cases hf with
    | root h₀ => exact absurd h₀ h
    | above _ hn hf => exact ⟨hn, hf⟩
  · exact fun ⟨hn, hf⟩ => .above h hn hf

/-- Below a node with at most half of its keys, no root is made for a while. -/
theorem not_grows (hq : s.parentOf p ≠ 0) (hn : s.numKeysOf (s.parentOf p) ≤ minKeys) {k : Nat}
    (hk : k ≤ minKeys) : ¬ Grows s p k := by
  have hhalf : minKeys + minKeys = btreeOrder := rfl
  have hpos : 0 < minKeys := by decide
  rintro (⟨-, hf⟩ | ⟨-, -, hlt, -⟩)
  · have := ((full_of_parent hq).mp hf).1
    omega
  · omega

/-- Below a node that has taken a slot. -/
theorem grows_succ (hq : s.parentOf p ≠ 0) {n k : Nat} (hn : n < btreeOrder)
    (hkeys : s.numKeysOf (s.parentOf p) = n + 1) :
    Grows s p k ↔ btreeOrder < n + (k + 1) ∧ Full s (s.parentOf p) := by
  rw [Grows, Lost, full_of_parent hq, hkeys]
  constructor
  · rintro (⟨hk, hle, hf⟩ | ⟨-, -, hlt, hf⟩)
    · exact ⟨by omega, hf⟩
    · exact ⟨by omega, hf⟩
  · rintro ⟨hlt, hf⟩
    by_cases hfull : btreeOrder ≤ n + 1
    · exact .inl ⟨by omega, hfull, hf⟩
    · exact .inr ⟨hq, by omega, by omega, hf⟩

/-- `Full` looks at the parents from the page on and at the keys above it. -/
theorem full_congr (G : Pages least s root L) (F : Forest s.view root L seen loose)
    (hloose : ∀ x ∈ L.pages, L.level q ≤ L.level x → x ∉ loose)
    (hparent : ∀ x ∈ L.pages, L.level q ≤ L.level x → s'.parentOf x = s.parentOf x)
    (hview : ∀ x ∈ L.pages, L.level q < L.level x → s'.view x = s.view x) (hq : q ∈ L.pages) :
    Full s' q ↔ Full s q := by
  -- up the tree, from a page `x` at least as high as `q`
  suffices ∀ d x, x ∈ L.pages → L.level q ≤ L.level x → L.level root - L.level x = d →
      (Full s' x ↔ Full s x) from this _ q hq le_rfl rfl
  intro d
  induction d with
  | zero =>
      intro x hx hle hd
      have hroot : x = root := by
        by_contra hr
        obtain ⟨hz, -, hlevel, -⟩ := G.parent_mem F hx hr (hloose x hx hle)
        have := F.level_le _ hz
        omega
      subst hroot
      have h₀ := G.root_parent
      exact ⟨fun _ => .root h₀, fun _ => .root ((hparent x hx hle).trans h₀)⟩
  | succ d ih =>
      intro x hx hle hd
      have hr : x ≠ root := by
        rintro rfl
        omega
      obtain ⟨hz, hz₀, hlevel, -⟩ := G.parent_mem F hx hr (hloose x hx hle)
      have hpx := hparent x hx hle
      rw [full_of_parent hz₀, full_of_parent (hpx ▸ hz₀), hpx,
        ih _ hz (by omega) (by omega), State.numKeysOf_congr (hview _ hz (by omega))]

/-- `Lost` looks at the same places. -/
theorem lost_congr (G : Pages least s root L) (F : Forest s.view root L seen loose)
    (hloose : ∀ x ∈ L.pages, L.level q ≤ L.level x → x ∉ loose)
    (hparent : ∀ x ∈ L.pages, L.level q ≤ L.level x → s'.parentOf x = s.parentOf x)
    (hview : ∀ x ∈ L.pages, L.level q < L.level x → s'.view x = s.view x) (hq : q ∈ L.pages)
    {k : Nat} : Lost s' q k ↔ Lost s q k := by
  rw [Lost, Lost, hparent q hq le_rfl]
  by_cases h : s.parentOf q = 0
  · simp [h]
  · have hr : q ≠ root := by
      rintro rfl
      exact h G.root_parent
    obtain ⟨hz, -, hlevel, -⟩ := G.parent_mem F hq hr (hloose q hq le_rfl)
    rw [State.numKeysOf_congr (hview _ hz (by omega)),
      full_congr G F (fun x hx hle => hloose x hx (by omega))
        (fun x hx hle => hparent x hx (by omega)) (fun x hx hlt => hview x hx (by omega)) hz]

/-! ## What linking leaves alone -/

/-- From `s` to `s'` the tree has grown above the height `n` only. -/
structure Extends (s s' : State) (root root' : Nat) (L L' : Layout Int64 Nat) (n : Nat) :
    Prop where
  pages_sub : ∀ p ∈ L.pages, p ∈ L'.pages
  view_eq : ∀ p ∈ L.pages, L.level p ≤ n → s'.view p = s.view p
  level_eq : ∀ p ∈ L.pages, L.level p ≤ n → L'.level p = L.level p
  range_eq : ∀ p ∈ L.pages, L.level p ≤ n → L'.lo p = L.lo p ∧ L'.hi p = L.hi p
  parent_eq : ∀ p ∈ L.pages, L.level p < n → s'.parentOf p = s.parentOf p
  new_above : ∀ p ∈ L'.pages, p ∉ L.pages → n < L'.level p
  old_above : ∀ p ∈ L.pages, n < L.level p → n < L'.level p
  fresh : root' = root ∨ s.numPages ≤ root'
  rootPage_eq : s'.rootPage = s.rootPage
  numPages_le : s.numPages ≤ s'.numPages
  level_le : L'.level root' ≤ L.level root + 1
  numPages_lt : s'.numPages ≤ s.numPages + (L.level root - n) + 1

/-- No entry has moved. -/
theorem Extends.holds_iff {n : Nat} (E : Extends s s' root root' L L' n) (T' : Tree least s' root' L')
    (F : Forest s.view root L seen loose) (e : Entry) : L'.Holds s'.view e ↔ L.Holds s.view e := by
  constructor
  · rintro ⟨p, hp, es, hv, he⟩
    have hlevel : L'.level p = 0 := (Forest.suits_of T'.whole hp hv).1
    have hpL : p ∈ L.pages := by
      by_contra hpL
      have := E.new_above p hp hpL
      omega
    have hle : L.level p ≤ n := by
      by_contra hgt
      have := E.old_above p hpL (by omega)
      omega
    exact ⟨p, hpL, es, (E.view_eq p hpL hle) ▸ hv, he⟩
  · rintro ⟨p, hp, es, hv, he⟩
    have hlevel : L.level p = 0 := (F.suits_of hp hv).1
    exact ⟨p, E.pages_sub p hp, es, by rw [E.view_eq p hp (by omega)]; exact hv, he⟩

/-- What linking has done: the tree, its root, and what further cuts will do. -/
structure Linked (least : Nat) (s s' : State) (root root' : Nat) (L L' : Layout Int64 Nat)
    (left right : Nat) (newRoot : Option Nat) : Prop where
  tree : Tree least s' root' L'
  above : Extends s s' root root' L L' (L.level left)
  root_eq : newRoot.getD root = root'
  fresh : ∀ r, newRoot = some r → s.numPages ≤ r
  made : newRoot = none ↔ ¬ Full s left
  ahead : ∀ x, x = left ∨ x = right → ∀ k ≤ minKeys, Grows s' x k ↔ Lost s left (k + 1)

/-! ## A new root -/

/-- The state `create_new_root` leaves. -/
def State.withRoot (s : State) (left right : Nat) (m : Int64) : State :=
  ((((s.write s.numPages .zero).write s.numPages (.internal 0 left [(m, right)])).adopt
    s.numPages [left]).adopt s.numPages [right])

theorem view_withRoot : (s.withRoot left right m).view =
    Function.update s.view s.numPages (some (.inner left [(m, right)])) := by
  simp [State.withRoot, Node.view]

theorem parentOf_withRoot {x : Nat} (h : x = s.numPages ∨ s.view x ≠ none) :
    (s.withRoot left right m).parentOf x =
      if x = left ∨ x = right then s.numPages else if x = s.numPages then 0
      else s.parentOf x := by
  have hview : ∀ t : State, t.view = (s.withRoot left right m).view → t.view x ≠ none := by
    intro t ht
    rw [ht, view_withRoot]
    by_cases hx : x = s.numPages
    · simp [hx]
    · simpa [hx] using h.resolve_left hx
  rw [State.withRoot, State.parentOf_adopt (hview _ (by simp [State.withRoot])),
    State.parentOf_adopt (hview _ (by simp [State.withRoot])), State.parentOf_write,
    State.parentOf_write]
  simp only [List.mem_singleton, Node.parent]
  split_ifs <;> tauto

theorem createNewRoot_run (hl : s.view left ≠ none) (hr : s.view right ≠ none)
    (hll : left < s.numPages) (hlr : right < s.numPages) (hcap : s.numPages < 2 ^ 32) :
    createNewRoot left right m s = some (.ok s.numPages, s.withRoot left right m) := by
  have hfield : parentField s.numPages = s.numPages := Nat.mod_eq_of_lt hcap
  rw [createNewRoot, bind_ok (allocatePage_run s), bind_ok (writeNode_run _ _ _), hfield,
    bind_ok (setParentPointer_run (by simp [hl, hll.ne]) (by simp; omega)),
    bind_ok (setParentPointer_run (by simp [hr, hlr.ne]) (by simp; omega))]
  rfl

theorem linked_withRoot (H : Hanging s.view left L seen left right m) (G : Pages least s left L)
    (hleast : least ≤ 1) (hcap : s.numPages < 2 ^ 32) :
    Linked least s (s.withRoot left right m) left s.numPages L (L.raise left s.numPages) left right
      (some s.numPages) := by
  have F := H.forest
  have hlt : ∀ x ∈ L.pages, x ≠ s.numPages := fun x hx => (G.bounds x hx).2.ne
  have hfresh : s.numPages ∉ L.pages := fun h => hlt _ h rfl
  have hparent : ∀ x ∈ L.pages, (s.withRoot left right m).parentOf x =
      if x = left ∨ x = right then s.numPages else s.parentOf x := by
    intro x hx
    rw [parentOf_withRoot (.inr (Pages.view_ne_none F hx)), if_neg (hlt x hx)]
  have hview : ∀ x ∈ L.pages, (s.withRoot left right m).view x = s.view x := by
    intro x hx
    rw [view_withRoot, Function.update_of_ne (hlt x hx)]
  have hnum : (s.withRoot left right m).numPages = s.numPages + 1 := by
    simp [State.withRoot]
  have hroot : (s.withRoot left right m).view s.numPages = some (.inner left [(m, right)]) := by
    rw [view_withRoot, Function.update_self]
  have hpos : s.numPages ≠ 0 := by
    have := G.bounds left H.left_mem
    omega
  constructor
  case tree =>
    refine ⟨view_withRoot ▸ H.raise hfresh, ?_, ?_, ?_, ?_⟩
    · rw [parentOf_withRoot (.inl rfl), if_neg, if_pos rfl]
      simp [(hlt left H.left_mem).symm, (hlt right H.right_mem).symm]
    · rintro p (hp | rfl) v hv c hc
      · rw [hview p hp] at hv
        have hcp := ((F.suits_of hp hv).child hc).1
        have hcl : c ≠ left := by
          rintro rfl
          exact F.root_not_child hp hv hc
        have hcr : c ≠ right := by
          rintro rfl
          exact H.detached p hp v hv hc
        rw [hparent c hcp, if_neg (by simp [hcl, hcr])]
        exact G.parent_eq p hp v hv c hc
      · rw [hroot] at hv
        cases hv
        have hc' : c = left ∨ c = right := by simpa [View.children] using hc
        have hcp : c ∈ L.pages := by
          rcases hc' with rfl | rfl
          · exact H.left_mem
          · exact H.right_mem
        rw [hparent c hcp, if_pos hc']
    · rintro p (hp | rfl)
      · have := G.bounds p hp
        omega
      · omega
    · rintro p (hp | rfl) v hv
      · exact G.fits p hp v (hview p hp ▸ hv)
      · rw [hroot] at hv
        cases hv
        exact ⟨hleast, Nat.succ_le_of_lt (by decide), hcap⟩
  case above =>
    have hne : ∀ x ∈ L.pages, x ≠ s.numPages := hlt
    constructor
    case pages_sub => exact fun p hp => .inl hp
    case view_eq => exact fun p hp _ => hview p hp
    case level_eq => exact fun p hp _ => by simp [Layout.raise, hne p hp]
    case range_eq => exact fun p hp _ => by simp [Layout.raise, hne p hp]
    case parent_eq =>
      intro p hp hle
      have hl : p ≠ left := by
        rintro rfl
        omega
      have hr : p ≠ right := by
        rintro rfl
        have := H.level_eq
        omega
      rw [hparent p hp, if_neg (by simp [hl, hr])]
    case new_above =>
      rintro p (hp | rfl) hnot
      · exact absurd hp hnot
      · simp [Layout.raise]
    case old_above =>
      intro p hp hlt
      simpa [Layout.raise, hne p hp] using hlt
    case fresh => exact .inr le_rfl
    case rootPage_eq => rfl
    case numPages_le => omega
    case level_le => simp [Layout.raise]
    case numPages_lt => omega
  case root_eq => rfl
  case fresh =>
    rintro r ⟨⟩
    exact le_rfl
  case made => simp [Full.root G.root_parent]
  case ahead =>
    intro x hx k hk
    have hxp : x ∈ L.pages := by
      rcases hx with rfl | rfl
      · exact H.left_mem
      · exact H.right_mem
    have hpx := hparent x hxp
    rw [if_pos hx] at hpx
    have hkeys : (s.withRoot left right m).numKeysOf s.numPages = 1 :=
      State.numKeysOf_inner hroot
    constructor
    · intro hg
      exact absurd hg (not_grows (hpx ▸ hpos) (by rw [hpx, hkeys]; decide) hk)
    · exact fun hlost => absurd G.root_parent hlost.1

/-! ## A parent with room -/

theorem insertSlot_eq {stop : Int64 → Bool} {slot : Slot} {l r : List Slot}
    (hl : ∀ e ∈ l, stop e.1 = false) (hr : ∀ e ∈ r, stop e.1 = true) :
    insertSlot stop slot (l ++ r) = l ++ slot :: r := by
  induction l with
  | nil =>
      rcases r with _ | ⟨e, r⟩
      · rfl
      · simp [insertSlot, hr e (by simp)]
  | cons e l ih =>
      have he := hl e (by simp)
      simp [insertSlot, he, ih fun e' h => hl e' (by simp [h])]

variable {first parent : Nat} {l r : List Slot}

/-- The parent of the page that has been cut. -/
structure ParentOf (s : State) (L : Layout Int64 Nat) (left q parent first : Nat)
    (l r : List Slot) : Prop where
  mem : q ∈ L.pages
  node_eq : s.nodes q = some (.internal parent first (l ++ r))
  lastOf_eq : lastOf first l = left

namespace ParentOf

variable (Q : ParentOf s L left q parent first l r)
include Q

theorem view_eq : s.view q = some (.inner first (l ++ r)) := State.view_eq_inner.mpr ⟨_, Q.node_eq⟩

theorem child : left ∈ first :: (l ++ r).map (·.2) := Q.lastOf_eq ▸ lastOf_mem first l r

theorem level (F : Forest s.view root L seen loose) : L.level q = L.level left + 1 :=
  ((F.suits_of Q.mem Q.view_eq).child Q.child).2

theorem parentOf (G : Pages least s root L) : s.parentOf left = q :=
  G.parent_eq q Q.mem _ Q.view_eq left Q.child

theorem numKeys : s.numKeysOf q = (l ++ r).length := State.numKeysOf_eq Q.node_eq

theorem small (G : Pages least s root L) : least ≤ (l ++ r).length ∧
    (l ++ r).length ≤ btreeOrder ∧ q < 2 ^ 32 := G.fits q Q.mem _ Q.view_eq

end ParentOf

/-- Below the root a cut page has a parent. -/
theorem exists_parentOf (H : Hanging s.view root L seen left right m) (G : Pages least s root L)
    (hp : s.parentOf left ≠ 0) :
    ∃ parent first l r, ParentOf s L left (s.parentOf left) parent first l r := by
  have hr : left ≠ root := by
    rintro rfl
    exact hp G.root_parent
  obtain ⟨hz, -, -, first, slots, hv, hc⟩ :=
    G.parent_mem H.forest H.left_mem hr H.left_ne_right
  obtain ⟨parent, hn⟩ := State.view_eq_inner.mp hv
  obtain ⟨l, r, rfl, hl⟩ := exists_focus hc
  exact ⟨parent, first, l, r, hz, hn, hl⟩

/-- The state `insert_into_internal` leaves in a parent with room. -/
def State.withSlot (s : State) (q parent first right : Nat) (slots : List Slot) : State :=
  (s.adopt q [right]).write q (.internal parent first slots)

theorem view_withSlot {slots : List Slot} : (s.withSlot q parent first right slots).view =
    Function.update s.view q (some (.inner first slots)) := by
  simp [State.withSlot, Node.view]

theorem parentOf_withSlot {slots : List Slot} (hq : s.parentOf q = parent) (hqr : q ≠ right)
    {x : Nat} (h : s.view x ≠ none) :
    (s.withSlot q parent first right slots).parentOf x =
      if x = right then q else s.parentOf x := by
  rw [State.withSlot, State.parentOf_write, State.parentOf_adopt h]
  simp only [List.mem_singleton, Node.parent]
  split_ifs with h₁ h₂
  · exact absurd (h₁.symm.trans h₂) hqr
  · rw [h₁, hq]
  · rfl
  · rfl

theorem linked_withSlot (H : Hanging s.view root L seen left right m) (G : Pages least s root L)
    (hleast : least ≤ 1) (Q : ParentOf s L left q parent first l r)
    (hroom : (l ++ r).length < btreeOrder) :
    Linked least s (s.withSlot q parent first right (l ++ (m, right) :: r)) root root L L left right
      none := by
  have F := H.forest
  have hlevel := Q.level F
  have hqr : q ≠ right := by
    rintro rfl
    have := H.level_eq
    omega
  have hparent : ∀ x ∈ L.pages,
      (s.withSlot q parent first right (l ++ (m, right) :: r)).parentOf x =
        if x = right then q else s.parentOf x := fun x hx =>
    parentOf_withSlot (State.parentOf_eq Q.node_eq) hqr (Pages.view_ne_none F hx)
  have hview : ∀ x, x ≠ q →
      (s.withSlot q parent first right (l ++ (m, right) :: r)).view x = s.view x := by
    intro x hx
    rw [view_withSlot, Function.update_of_ne hx]
  have hviewq : (s.withSlot q parent first right (l ++ (m, right) :: r)).view q =
      some (.inner first (l ++ (m, right) :: r)) := by
    rw [view_withSlot, Function.update_self]
  have hnum : (s.withSlot q parent first right (l ++ (m, right) :: r)).numPages = s.numPages := by
    have := (G.bounds q Q.mem).2
    simp only [State.withSlot, State.write_numPages, State.adopt_numPages]
    omega
  have hlen : (l ++ (m, right) :: r).length = (l ++ r).length + 1 := by
    simp only [List.length_append, List.length_cons]
    omega
  have hfull : Full (s.withSlot q parent first right (l ++ (m, right) :: r)) q ↔ Full s q := by
    have hnr : ∀ x, L.level q ≤ L.level x → x ≠ right := by
      rintro x hle rfl
      have := H.level_eq
      omega
    refine full_congr G F (fun x _ hle => hnr x hle) (fun x hx hle => ?_) (fun x hx hlt => ?_) Q.mem
    · rw [hparent x hx, if_neg (hnr x hle)]
    · exact hview x fun h => by
        rw [h] at hlt
        omega
  constructor
  case tree =>
    refine ⟨view_withSlot ▸ H.hang Q.mem Q.view_eq Q.lastOf_eq, ?_, ?_, ?_, ?_⟩
    · have hrr : root ≠ right := by
        rintro rfl
        have := F.level_le q Q.mem
        have := H.level_eq
        omega
      rw [hparent root F.root_mem, if_neg hrr]
      exact G.root_parent
    · intro p hp v hv c hc
      rcases eq_or_ne p q with rfl | hpq
      · rw [hviewq] at hv
        cases hv
        have hc' : c = right ∨ c ∈ first :: (l ++ r).map (·.2) := by
          simp only [View.children, List.map_append, List.map_cons, List.mem_cons,
            List.mem_append] at hc ⊢
          tauto
        rcases hc' with rfl | hc'
        · rw [hparent c H.right_mem, if_pos rfl]
        · have hcr : c ≠ right := by
            rintro rfl
            exact H.detached p hp _ Q.view_eq hc'
          rw [hparent c ((F.suits_of hp Q.view_eq).child hc').1, if_neg hcr]
          exact G.parent_eq p hp _ Q.view_eq c hc'
      · rw [hview p hpq] at hv
        have hcr : c ≠ right := by
          rintro rfl
          exact H.detached p hp v hv hc
        rw [hparent c ((F.suits_of hp hv).child hc).1, if_neg hcr]
        exact G.parent_eq p hp v hv c hc
    · intro p hp
      rw [hnum]
      exact G.bounds p hp
    · intro p hp v hv
      rcases eq_or_ne p q with rfl | hpq
      · rw [hviewq] at hv
        cases hv
        exact ⟨by omega, by omega, (Q.small G).2.2⟩
      · exact G.fits p hp v (hview p hpq ▸ hv)
  case above =>
    constructor
    case pages_sub => exact fun p hp => hp
    case view_eq =>
      refine fun p _ hle => hview p ?_
      rintro rfl
      omega
    case level_eq => exact fun _ _ _ => rfl
    case range_eq => exact fun _ _ _ => ⟨rfl, rfl⟩
    case parent_eq =>
      intro p hp hlt
      have hr : p ≠ right := by
        rintro rfl
        have := H.level_eq
        omega
      rw [hparent p hp, if_neg hr]
    case new_above => exact fun p hp hnot => absurd hp hnot
    case old_above => exact fun _ _ h => h
    case fresh => exact .inl rfl
    case rootPage_eq => rfl
    case numPages_le => omega
    case level_le => omega
    case numPages_lt => omega
  case root_eq => rfl
  case fresh => simp
  case made =>
    have hq₀ : s.parentOf left ≠ 0 := by
      rw [Q.parentOf G]
      exact (G.bounds q Q.mem).1.ne'
    rw [full_of_parent hq₀, Q.parentOf G, Q.numKeys]
    exact ⟨fun _ h => absurd h.1 hroom.not_ge, fun _ => rfl⟩
  case ahead =>
    intro x hx k hk
    have hpx : (s.withSlot q parent first right (l ++ (m, right) :: r)).parentOf x = q := by
      rcases hx with rfl | rfl
      · rw [hparent x H.left_mem, if_neg H.left_ne_right]
        exact Q.parentOf G
      · rw [hparent x H.right_mem, if_pos rfl]
    have hq₀ : q ≠ 0 := (G.bounds q Q.mem).1.ne'
    have hkeys := State.numKeysOf_inner hviewq
    rw [grows_succ (by rw [hpx]; exact hq₀) hroom (by rw [hpx, hkeys, hlen]), hpx, hfull, Lost, Q.parentOf G,
      Q.numKeys]
    tauto

/-! ## A full parent -/

variable {k : Int64} {child : Nat} {l' r' : List Slot}

/-- The state in which `split_internal_node` goes on to the next parent. -/
def State.withCut (s : State) (q parent first right : Nat) (l' : List Slot) (child : Nat)
    (r' : List Slot) : State :=
  ((((s.adopt q [right]).write s.numPages .zero).adopt s.numPages (child :: r'.map (·.2))).write
    s.numPages (.internal 0 child r')).write q (.internal parent first l')

theorem view_withCut : (s.withCut q parent first right l' child r').view =
    Function.update (Function.update s.view s.numPages (some (.inner child r'))) q
      (some (.inner first l')) := by
  simp [State.withCut, Node.view]

/-- What a cut of the parent `q` needs: the slots with the new one, and where they are cut. -/
structure CutOf (s : State) (L : Layout Int64 Nat) (left right : Nat) (m : Int64)
    (q parent first : Nat) (l r l' : List Slot) (k : Int64) (child : Nat) (r' : List Slot) :
    Prop where
  parent : ParentOf s L left q parent first l r
  slots_eq : l ++ (m, right) :: r = l' ++ (k, child) :: r'

namespace CutOf

variable (H : Hanging s.view root L seen left right m) (G : Pages least s root L)
  (C : CutOf s L left right m q parent first l r l' k child r')
include H G C

omit G in
/-- The tree in which the parent holds the new slot as well. -/
theorem whole : Whole (Function.update s.view q (some (.inner first (l' ++ (k, child) :: r'))))
    root L :=
  C.slots_eq ▸ H.hang C.parent.mem C.parent.view_eq C.parent.lastOf_eq

omit G in
theorem suits : L.Suits L.hi (L.lo q) (L.hi q) (L.level q)
    (View.inner first (l' ++ (k, child) :: r') : View Int64 Bytes Nat) :=
  Forest.suits_of (C.whole H) C.parent.mem (Function.update_self ..)

omit G in
theorem ne_right : q ≠ right := by
  rintro rfl
  have := H.level_eq
  have := C.parent.level H.forest
  omega

omit G in
/-- The children in the lower half are others than those in the upper half. -/
theorem lower_not_upper {c : Nat} (hl : c ∈ first :: l'.map (·.2))
    (hr : c ∈ child :: r'.map (·.2)) : False := by
  obtain ⟨h₁, h₂⟩ := tiles_append.mp (C.suits H).2
  have hlo := (tiles_bounds h₁ hl).2
  have hhi := (tiles_bounds h₂ hr).1
  exact (hlo.1.trans_le hlo.2).not_ge hhi

omit H G in
/-- The children of either half were children of `q`, or are the new one. -/
theorem of_half {c : Nat} (hc : c ∈ first :: l'.map (·.2) ∨ c ∈ child :: r'.map (·.2)) :
    c = right ∨ (c ≠ right ∧ c ∈ first :: (l ++ r).map (·.2)) := by
  have hc' : c ∈ first :: (l ++ (m, right) :: r).map (·.2) := by
    rw [C.slots_eq]
    simp only [List.map_append, List.map_cons, List.mem_cons, List.mem_append] at hc ⊢
    tauto
  by_cases hcr : c = right
  · exact .inl hcr
  · refine .inr ⟨hcr, ?_⟩
    simp only [List.map_append, List.map_cons, List.mem_cons, List.mem_append] at hc' ⊢
    tauto

omit G in
theorem upper_child {c : Nat} (hc : c ∈ child :: r'.map (·.2)) :
    c ∈ L.pages ∧ L.level q = L.level c + 1 := by
  refine (C.suits H).1 c ?_
  simp only [List.map_append, List.map_cons, List.mem_cons, List.mem_append] at hc ⊢
  tauto

omit G in
theorem lower_child {c : Nat} (hc : c ∈ first :: l'.map (·.2)) :
    c ∈ L.pages ∧ L.level q = L.level c + 1 := by
  refine (C.suits H).1 c ?_
  simp only [List.map_append, List.map_cons, List.mem_cons, List.mem_append] at hc ⊢
  tauto

theorem hanging : Hanging (s.withCut q parent first right l' child r').view root
    (L.cut q s.numPages k) L.hi q s.numPages k := by
  have hne := G.ne_new C.parent.mem
  have hS := C.suits H
  obtain ⟨h₁, h₂⟩ := tiles_append.mp hS.2
  have hS₁ : L.Suits L.hi (L.lo q) (Bound.key k) (L.level q)
      (View.inner first l' : View Int64 Bytes Nat) := ⟨fun c hc => C.lower_child H hc, h₁⟩
  have hS₂ : L.Suits L.hi (Bound.key k) (L.hi q) (L.level q)
      (View.inner child r' : View Int64 Bytes Nat) := ⟨fun c hc => C.upper_child H hc, h₂⟩
  have hcut := Whole.cut (C.whole H) C.parent.mem (fun h => G.ne_new h rfl)
    (tiles_lt h₁) (tiles_lt h₂) (Function.update_self ..) hS₁ hS₂
    (by
      intro c hc
      simp only [View.children, List.map_append, List.map_cons, List.mem_cons,
        List.mem_append] at hc ⊢
      tauto)
  rwa [Function.update_idem, Function.update_comm hne, ← view_withCut] at hcut

/-- Who is whose parent after the cut. -/
theorem parentOf_old {x : Nat} (hx : x ∈ L.pages) :
    (s.withCut q parent first right l' child r').parentOf x =
      if x ∈ child :: r'.map (·.2) then s.numPages else if x = right then q else s.parentOf x := by
  have hne := G.ne_new hx
  have hqup : q ∉ child :: r'.map (·.2) := by
    intro h
    have := (C.upper_child H h).2
    omega
  have hview : (s.adopt q [right]).view x ≠ none := by
    simpa using Pages.view_ne_none H.forest hx
  rw [State.withCut, State.parentOf_write, State.parentOf_write,
    State.parentOf_adopt (by simpa [hne] using hview), State.parentOf_write,
    State.parentOf_adopt (by simpa using hview)]
  by_cases hxq : x = q
  · subst hxq
    rw [if_pos rfl, if_neg hqup, if_neg (C.ne_right H)]
    exact (State.parentOf_eq C.parent.node_eq).symm
  · simp [hxq, hne]

omit H C in
theorem view_old {x : Nat} (hx : x ∈ L.pages) (hxq : x ≠ q) :
    (s.withCut q parent first right l' child r').view x = s.view x := by
  rw [view_withCut, Function.update_of_ne hxq, Function.update_of_ne (G.ne_new hx)]

omit H G C in
theorem view_left :
    (s.withCut q parent first right l' child r').view q = some (.inner first l') := by
  rw [view_withCut, Function.update_self]

omit H in
theorem view_new : (s.withCut q parent first right l' child r').view s.numPages =
    some (.inner child r') := by
  rw [view_withCut, Function.update_of_ne (G.ne_new C.parent.mem).symm,
    Function.update_self]

omit H in
theorem numPages_eq :
    (s.withCut q parent first right l' child r').numPages = s.numPages + 1 := by
  have := (G.bounds q C.parent.mem).2
  simp only [State.withCut, State.write_numPages, State.adopt_numPages]
  omega

theorem pages (hl : least ≤ l'.length) (hr : least ≤ r'.length) (hl' : l'.length ≤ btreeOrder)
    (hr' : r'.length ≤ btreeOrder) (hcap : s.numPages < 2 ^ 32) :
    Pages least (s.withCut q parent first right l' child r') root (L.cut q s.numPages k) := by
  have F := H.forest
  have hold := fun x hx => C.parentOf_old H G (x := x) hx
  constructor
  case root_parent =>
    have hup : root ∉ child :: r'.map (·.2) := by
      intro h
      have := F.level_le q C.parent.mem
      have := (C.upper_child H h).2
      omega
    have hrr : root ≠ right := by
      rintro rfl
      have := F.level_le q C.parent.mem
      have := H.level_eq
      have := C.parent.level F
      omega
    rw [hold root F.root_mem, if_neg hup, if_neg hrr]
    exact G.root_parent
  case parent_eq =>
    have hnew : ∀ v, (s.withCut q parent first right l' child r').view s.numPages = some v →
        ∀ c ∈ v.children,
          (s.withCut q parent first right l' child r').parentOf c = s.numPages := by
      intro v hv c hc
      rw [C.view_new G] at hv
      cases hv
      have hup : c ∈ child :: r'.map (·.2) := hc
      rw [hold c (C.upper_child H hup).1, if_pos hup]
    rintro p (hp | rfl) v hv c hc
    · rcases eq_or_ne p q with rfl | hpq
      · rw [view_left] at hv
        cases hv
        rw [hold c (C.lower_child H hc).1, if_neg fun h => C.lower_not_upper H hc h]
        rcases C.of_half (.inl hc) with hcr | ⟨hcr, hmem⟩
        · rw [if_pos hcr]
        · rw [if_neg hcr]
          exact G.parent_eq p hp _ C.parent.view_eq c hmem
      · rw [view_old G hp hpq] at hv
        have hcp := ((F.suits_of hp hv).child hc).1
        have hcr : c ≠ right := by
          rintro rfl
          exact H.detached p hp v hv hc
        have hpc := G.parent_eq p hp v hv c hc
        have hup : c ∉ child :: r'.map (·.2) := by
          intro h
          rcases C.of_half (.inr h) with h | ⟨-, h⟩
          · exact hcr h
          · exact hpq (hpc.symm.trans (G.parent_eq q C.parent.mem _ C.parent.view_eq c h))
        rw [hold c hcp, if_neg hup, if_neg hcr]
        exact hpc
    · exact hnew v hv c hc
  case bounds =>
    rw [C.numPages_eq G]
    rintro p (hp | rfl)
    · have := G.bounds p hp
      omega
    · have := G.bounds q C.parent.mem
      omega
  case fits =>
    rintro p (hp | rfl) v hv
    · rcases eq_or_ne p q with rfl | hpq
      · rw [view_left] at hv
        cases hv
        exact ⟨hl, hl', (C.parent.small G).2.2⟩
      · exact G.fits p hp v (view_old G hp hpq ▸ hv)
    · rw [C.view_new G] at hv
      cases hv
      exact ⟨hr, hr', hcap⟩

/-- What the nodes above `q` do with the cut is what linking does. -/
theorem linked {newRoot : Option Nat} (hl : l'.length ≤ minKeys) (hr : r'.length ≤ minKeys)
    (hfull : btreeOrder ≤ (l ++ r).length)
    (K : Linked least (s.withCut q parent first right l' child r') s' root root'
      (L.cut q s.numPages k) L' q s.numPages newRoot) :
    Linked least s s' root root' L L' left right newRoot := by
  have F := H.forest
  have hlevel := C.parent.level F
  have hq₀ : q ≠ 0 := (G.bounds q C.parent.mem).1.ne'
  have hpl := C.parent.parentOf G
  have hcutlevel : ∀ p ∈ L.pages, (L.cut q s.numPages k).level p = L.level p := fun p hp => by
    simp [Layout.cut, G.ne_new hp]
  have hcutq := hcutlevel q C.parent.mem
  have hcutnew : (L.cut q s.numPages k).level s.numPages = L.level q := by simp [Layout.cut]
  have hnum := C.numPages_eq G
  have hbelow : ∀ p, L.level p ≤ L.level left → p ≠ q := by
    rintro p hle rfl
    omega
  have hfullq : Full (s.withCut q parent first right l' child r') q ↔ Full s q := by
    have hnr : ∀ x, L.level q ≤ L.level x → x ≠ right := by
      rintro x hle rfl
      have := H.level_eq
      omega
    refine full_congr G F (fun x _ hle => hnr x hle) (fun x hx hle => ?_)
      (fun x hx hlt => view_old G hx ?_) C.parent.mem
    · rw [C.parentOf_old H G hx, if_neg, if_neg (hnr x hle)]
      intro h
      have := (C.upper_child H h).2
      omega
    · rintro rfl
      omega
  constructor
  case tree => exact K.tree
  case above =>
    constructor
    case pages_sub => exact fun p hp => K.above.pages_sub p (.inl hp)
    case view_eq =>
      intro p hp hle
      rw [K.above.view_eq p (.inl hp) (by rw [hcutlevel p hp, hcutq]; omega)]
      exact view_old G hp (hbelow p hle)
    case level_eq =>
      intro p hp hle
      rw [K.above.level_eq p (.inl hp) (by rw [hcutlevel p hp, hcutq]; omega)]
      exact hcutlevel p hp
    case range_eq =>
      intro p hp hle
      obtain ⟨h₁, h₂⟩ := K.above.range_eq p (.inl hp) (by rw [hcutlevel p hp, hcutq]; omega)
      rw [h₁, h₂]
      simp [Layout.cut, G.ne_new hp, hbelow p hle]
    case parent_eq =>
      intro p hp hlt
      rw [K.above.parent_eq p (.inl hp) (by rw [hcutlevel p hp, hcutq]; omega),
        C.parentOf_old H G hp, if_neg, if_neg]
      · rintro rfl
        have := H.level_eq
        omega
      · intro h
        have := (C.upper_child H h).2
        omega
    case new_above =>
      intro p hp hnot
      by_cases hpc : p = s.numPages
      · rw [hpc, K.above.level_eq s.numPages (.inr rfl) (by omega), hcutnew]
        omega
      · have := K.above.new_above p hp fun h => h.elim hnot hpc
        omega
    case old_above =>
      intro p hp hlt
      by_cases hle : L.level p ≤ L.level q
      · rw [K.above.level_eq p (.inl hp) (by rw [hcutlevel p hp, hcutq]; exact hle),
          hcutlevel p hp]
        exact hlt
      · have := K.above.old_above p (.inl hp) (by rw [hcutlevel p hp, hcutq]; omega)
        omega
    case fresh => exact K.above.fresh.imp_right fun h => by omega
    case rootPage_eq => exact K.above.rootPage_eq
    case numPages_le =>
      have := K.above.numPages_le
      omega
    case level_le =>
      have := K.above.level_le
      rwa [hcutlevel root F.root_mem] at this
    case numPages_lt =>
      have hle := F.level_le q C.parent.mem
      have hlt := K.above.numPages_lt
      rw [hcutlevel root F.root_mem, hcutq] at hlt
      omega
  case root_eq => exact K.root_eq
  case fresh =>
    intro R hR
    have := K.fresh R hR
    omega
  case made =>
    rw [K.made, hfullq, full_of_parent (p := left) (by rw [hpl]; exact hq₀), hpl,
      C.parent.numKeys]
    tauto
  case ahead =>
    intro x hx n hn
    have hxp : x ∈ L.pages := by
      rcases hx with rfl | rfl
      · exact H.left_mem
      · exact H.right_mem
    have hxlevel : L.level x = L.level left := by
      rcases hx with rfl | rfl
      · rfl
      · exact H.level_eq
    have hpx : s'.parentOf x = q ∨ s'.parentOf x = s.numPages := by
      rw [K.above.parent_eq x (.inl hxp) (by rw [hcutlevel x hxp, hcutq]; omega),
        C.parentOf_old H G hxp]
      rcases hx with rfl | rfl
      · rw [if_neg H.left_ne_right, hpl]
        split_ifs
        · exact .inr rfl
        · exact .inl rfl
      · rw [if_pos rfl]
        split_ifs
        · exact .inr rfl
        · exact .inl rfl
    have hkeys : s'.numKeysOf (s'.parentOf x) ≤ minKeys := by
      rcases hpx with hpx | hpx
      · rw [hpx, State.numKeysOf_inner ((K.above.view_eq q (.inl C.parent.mem) le_rfl).trans
          view_left)]
        exact hl
      · rw [hpx, State.numKeysOf_inner ((K.above.view_eq s.numPages (.inr rfl) (by omega)).trans
          (C.view_new G))]
        exact hr
    have hpx₀ : s'.parentOf x ≠ 0 := by
      have := G.bounds q C.parent.mem
      rcases hpx with hpx | hpx <;> omega
    constructor
    · exact fun hg => absurd hg (not_grows hpx₀ hkeys hn)
    · rintro ⟨-, hlt, -⟩
      rw [hpl, C.parent.numKeys] at hlt
      omega

/-- `split_internal_node` gets there. -/
theorem run {insertIntoParent : Nat → Nat → Int64 → BTreeM (Option Nat)}
    (hhalf : l'.length = (l' ++ (k, child) :: r').length / 2) (hcap : s.numPages < 2 ^ 32) :
    splitInternalNode insertIntoParent q right m (s.adopt q [right]) =
      insertIntoParent q s.numPages k (s.withCut q parent first right l' child r') := by
  have hnode : (s.adopt q [right]).nodes q = some (.internal parent first (l ++ r)) := by
    simp [State.adopt, C.ne_right H, C.parent.node_eq]
  obtain ⟨hl, hr⟩ := H.keys_around C.parent.mem C.parent.view_eq C.parent.lastOf_eq
  have hall : insertSlot (fun x => !decide (x < m)) (m, right) (l ++ r) = l' ++ (k, child) :: r' := by
    rw [← C.slots_eq]
    exact insertSlot_eq (fun e he => by simpa using hl e he)
      (fun e he => by simpa using (hr e he).le)
  have hdrop : (l' ++ (k, child) :: r').drop ((l' ++ (k, child) :: r').length / 2) =
      (k, child) :: r' := by
    rw [← hhalf, List.drop_left]
  have htake : (l' ++ (k, child) :: r').take ((l' ++ (k, child) :: r').length / 2) = l' := by
    rw [← hhalf, List.take_left]
  have hfield : parentField s.numPages = s.numPages := Nat.mod_eq_of_lt hcap
  have hchild : ∀ c ∈ child :: r'.map (·.2),
      ((s.adopt q [right]).write s.numPages .zero).view c ≠ none ∧
        c < ((s.adopt q [right]).write s.numPages .zero).numPages := by
    intro c hc
    have hcp := (C.upper_child H hc).1
    have hlt := (G.bounds c hcp).2
    exact ⟨by simpa [G.ne_new hcp] using Pages.view_ne_none H.forest hcp, by simp; omega⟩
  rw [splitInternalNode, bind_ok (readInternal_run hnode)]
  simp only [hall, hdrop, htake]
  rw [bind_ok (allocatePage_run _), State.adopt_numPages, hfield,
    bind_ok (setParentPointers_run hchild), bind_ok (writeNode_run _ _ _),
    bind_ok (writeNode_run _ _ _)]
  rfl

end CutOf

/-! ## The whole way up -/

/-- `insert_into_parent` links the new page, however many nodes it has to cut. -/
theorem insertIntoParent_run (hleast : least ≤ 1) (fuel : Nat)
    (H : Hanging s.view root L seen left right m) (G : Pages least s root L)
    (hfuel : L.level root - L.level left < fuel)
    (hcap : s.numPages + (L.level root - L.level left) + 1 ≤ 2 ^ 32) :
    ∃ newRoot s' root' L', insertIntoParent fuel left right m s = some (.ok newRoot, s') ∧
      Linked least s s' root root' L L' left right newRoot := by
  -- the fuel is the number of nodes still above
  induction fuel generalizing s L seen left right m with
  | zero => omega
  | succ fuel ih =>
      have F := H.forest
      have hvl := Pages.view_ne_none F H.left_mem
      have hvr := Pages.view_ne_none F H.right_mem
      obtain ⟨node, hn⟩ : ∃ node, s.nodes left = some node := by
        rcases h : s.nodes left with _ | node
        · simp [State.view, h] at hvl
        · exact ⟨node, rfl⟩
      have hpn : node.parent = s.parentOf left := (State.parentOf_eq hn).symm
      rw [insertIntoParent, bind_ok (readNode_run hn), hpn]
      by_cases hp : s.parentOf left = 0
      · obtain rfl := G.eq_root F H.left_mem H.left_ne_right hp
        rw [if_pos hp, bind_ok (createNewRoot_run hvl hvr (G.bounds _ H.left_mem).2
          (G.bounds _ H.right_mem).2 (by omega))]
        exact ⟨_, _, _, _, rfl, linked_withRoot H G hleast (by omega)⟩
      · obtain ⟨parent, first, l, r, Q⟩ := exists_parentOf H G hp
        have hlevel := Q.level F
        have hle := F.level_le _ Q.mem
        obtain ⟨hsize, hsize', hq⟩ := Q.small G
        have hfield : parentField (s.parentOf left) = s.parentOf left := Nat.mod_eq_of_lt hq
        have hqr : s.parentOf left ≠ right := by
          intro h
          rw [h] at hlevel
          have := H.level_eq
          omega
        have hnode : (s.adopt (s.parentOf left) [right]).nodes (s.parentOf left) =
            some (.internal parent first (l ++ r)) := by
          simp [State.adopt, hqr, Q.node_eq]
        rw [if_neg hp, insertIntoInternal, hfield,
          bind_ok (setParentPointer_run hvr (G.bounds _ H.right_mem).2),
          bind_ok (readInternal_run hnode)]
        dsimp only
        by_cases hroom : (l ++ r).length < btreeOrder
        · obtain ⟨hkl, hkr⟩ := H.keys_around Q.mem Q.view_eq Q.lastOf_eq
          rw [if_neg hroom.not_ge, insertSlot_eq (fun e he => by simpa using (hkl e he).le)
            (fun e he => by simpa using hkr e he), bind_ok (writeNode_run _ _ _)]
          exact ⟨_, _, _, _, rfl, linked_withSlot H G hleast Q hroom⟩
        · rw [if_pos (not_lt.mp hroom)]
          -- the slots with the new one, cut in the middle
          have hlen : (l ++ (m, right) :: r).length = btreeOrder + 1 := by
            simp only [List.length_append, List.length_cons] at hroom hsize' ⊢
            omega
          obtain ⟨l', ⟨k, child⟩, r', hall, hl'⟩ : ∃ l' e r',
              l ++ (m, right) :: r = l' ++ e :: r' ∧ l'.length = minKeys := by
            have hdrop := List.take_append_drop minKeys (l ++ (m, right) :: r)
            rcases hd : (l ++ (m, right) :: r).drop minKeys with _ | ⟨e, r'⟩
            · have := congrArg List.length hd
              rw [List.length_drop, hlen] at this
              exact absurd this (by decide)
            · refine ⟨_, e, r', (hd ▸ hdrop).symm, ?_⟩
              rw [List.length_take, hlen]
              rfl
          have hr' : r'.length = minKeys := by
            have hsum := congrArg List.length hall
            rw [hlen, List.length_append, List.length_cons, hl'] at hsum
            have hhalf : minKeys + minKeys = btreeOrder := rfl
            omega
          have C : CutOf s L left right m (s.parentOf left) parent first l r l' k child r' :=
            ⟨Q, hall⟩
          have hpos : 1 ≤ minKeys := by decide
          have hmin : minKeys ≤ btreeOrder := by decide
          rw [C.run H G (by rw [← hall, hlen, hl']; rfl) (by omega)]
          have hcutlevel : ∀ p ∈ L.pages,
              (L.cut (s.parentOf left) s.numPages k).level p = L.level p := fun p hp => by
            simp [Layout.cut, G.ne_new hp]
          have hnum := C.numPages_eq G
          obtain ⟨newRoot, s', root', L', hrun, K⟩ := ih (C.hanging H G)
            (C.pages H G (by omega) (by omega) (by omega) (by omega) (by omega))
            (by rw [hcutlevel root F.root_mem, hcutlevel _ Q.mem]; omega)
            (by rw [hcutlevel root F.root_mem, hcutlevel _ Q.mem]; omega)
          exact ⟨newRoot, s', root', L', hrun,
            C.linked H G hl'.le hr'.le (not_lt.mp hroom) K⟩

end VelociDB.BTree
