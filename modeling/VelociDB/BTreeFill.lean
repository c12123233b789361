/-
# How full the internal nodes are: insert

    Reached     the pages below the page the handle names
    Occupied    of these, the handle's own page has 1 to `btreeOrder` keys if it is internal,
                every other internal page `minKeys` to `btreeOrder`
    Shelf       pages as an insert finds and leaves them, the cut-off half among them

A cut leaves `minKeys` keys on either side, so both halves may hang below another page,
and a new root has one key.  An insert only adds pages to a shelf; which of its pages the
handle names in the end does not matter (`insert_occupied`).
-/
import VelociDB.BTreeChildren

namespace VelociDB.BTree

open SearchTree Fuelled
open Degrees (Filled Enough)

variable {s s' t : State} {root p q x left right : Nat} {L : Layout Int64 Nat} {key : Int64}
  {slots : List Slot} {node : Node} {P short : Set Nat} {data : Bytes} {r : Option Nat}

/-! ## Occupancy -/

/-- The pages below the page the handle names. -/
def Reached (s : State) (p : Nat) : Prop :=
  Relation.ReflTransGen (fun x c => c ∈ s.children x) s.rootPage p

/-- The bounds on the number of keys, for all internal nodes but those in `short`. -/
def OccupiedBut (short : Set Nat) (s : State) : Prop :=
  ∀ p, Reached s p → p ∉ short → ∀ first slots, s.view p = some (.inner first slots) →
    (if p = s.rootPage then 1 else minKeys) ≤ slots.length ∧ slots.length ≤ btreeOrder

/-- `MIN_KEYS` to `BTREE_ORDER` keys in every internal node, in the root at least one. -/
abbrev Occupied (s : State) : Prop := OccupiedBut ∅ s

/-- The same by the number of children. -/
abbrev Stocked (s : State) (P short : Set Nat) : Prop :=
  Filled (minKeys + 1) (btreeOrder + 1) s.children P short

theorem State.children_length {first : Nat} (h : s.view p = some (.inner first slots)) :
    (s.children p).length = slots.length + 1 := by
  rw [State.children_eq h]
  simp [View.children]

theorem Stocked.occupied (F : Stocked s P ∅) (hroot : s.rootPage ∈ P) : Occupied s := by
  intro p hp _ first slots hv
  have hlen := State.children_length hv
  have hsome : s.children p ≠ [] := by
    intro h
    rw [h] at hlen
    cases hlen
  obtain ⟨hmem, henough⟩ := F.reachable hroot hp
  obtain ⟨htwo, hmost⟩ := (F.size p hmem).resolve_left hsome
  refine ⟨?_, by omega⟩
  split
  · omega
  · rename_i hne
    have := (henough.resolve_left hne).resolve_left hsome
    omega

/-- Every page of a tree is below its root. -/
theorem Tree.reached {least : Nat} (T : Tree least s s.rootPage L) (hp : p ∈ L.pages) :
    Reached s p := by
  induction hd : L.level s.rootPage - L.level p generalizing p with
  | zero =>
      by_cases hr : p = s.rootPage
      · rw [hr]
        exact .refl
      · obtain ⟨hz, -, hlevel, -⟩ := T.pages.parent_mem T.whole hp hr not_false
        have := T.whole.level_le _ hz
        omega
  | succ d ih =>
      by_cases hr : p = s.rootPage
      · rw [hr]
        exact .refl
      · obtain ⟨hz, -, hlevel, first, slots, hv, hc⟩ := T.pages.parent_mem T.whole hp hr not_false
        refine (ih hz (by omega)).tail ?_
        rw [State.children_eq hv]
        exact hc

theorem Tree.stocked (T : Tree 0 s s.rootPage L) (O : OccupiedBut short s)
    (hshort : ∀ p ∈ short, 2 ≤ (s.children p).length ∧ (s.children p).length ≤ btreeOrder + 1) :
    Stocked s L.pages short := by
  have G := T.grove
  have hkeys : ∀ p ∈ L.pages, p ∉ short → s.children p = [] ∨
      (if p = s.rootPage then 2 else minKeys + 1) ≤ (s.children p).length ∧
        (s.children p).length ≤ btreeOrder + 1 := by
    intro p hp hnot
    by_cases hnone : s.children p = []
    · exact .inl hnone
    obtain ⟨first, slots, hv⟩ := State.view_of_children hnone
    obtain ⟨hlo, hhi⟩ := O p (T.reached hp) hnot first slots hv
    rw [State.children_length hv]
    refine .inr ⟨?_, by omega⟩
    split
    · rename_i hr
      rw [if_pos hr] at hlo
      omega
    · rename_i hr
      rw [if_neg hr] at hlo
      omega
  have hmin : 2 ≤ minKeys + 1 := by decide
  refine ⟨fun p hp => ?_, fun p hp c hc => (G.links.child p hp c hc).1, fun p hp c hc => ?_⟩
  · by_cases hnot : p ∈ short
    · exact .inr (hshort p hnot)
    · rcases hkeys p hp hnot with h | ⟨hlo, hhi⟩
      · exact .inl h
      · refine .inr ⟨?_, hhi⟩
        split at hlo
        · exact hlo
        · exact hmin.trans hlo
  · by_cases hnot : c ∈ short
    · exact .inl hnot
    · have hr : c ≠ s.rootPage := by
        rintro rfl
        exact G.links.root_not_child hp hc
      rcases hkeys c (G.links.child p hp c hc).1 hnot with h | ⟨hlo, -⟩
      · exact .inr (.inl h)
      · rw [if_neg hr] at hlo
        exact .inr (.inr hlo)

/-! ## Slots -/

theorem route_mem (key : Int64) (child : Nat) (slots : List Slot) :
    route key child slots ∈ child :: slots.map (·.2) := by
  induction slots generalizing child with
  | nil => exact List.mem_cons_self
  | cons e slots ih =>
      rw [route]
      split
      · exact List.mem_cons_self
      · exact List.mem_cons_of_mem _ (ih e.2)

theorem insertSlot_length (stop : Int64 → Bool) (slot : Slot) (slots : List Slot) :
    (insertSlot stop slot slots).length = slots.length + 1 := by
  induction slots with
  | nil => rfl
  | cons e slots ih =>
      rw [insertSlot]
      split
      · rfl
      · rw [List.length_cons, ih, List.length_cons]

theorem mem_insertSlot {stop : Int64 → Bool} {slot e : Slot} :
    e ∈ insertSlot stop slot slots ↔ e = slot ∨ e ∈ slots := by
  induction slots with
  | nil => simp [insertSlot]
  | cons e' slots ih =>
      rw [insertSlot]
      split
      · simp only [List.mem_cons]
      · simp only [List.mem_cons, ih]
        tauto

/-- The children of the halves are those of the node and the new one. -/
theorem mem_halves {stop : Int64 → Bool} {lower upper : List Slot} {promoted : Int64}
    {child first c : Nat}
    (hall : insertSlot stop (key, right) slots = lower ++ (promoted, child) :: upper)
    (hc : c ∈ first :: lower.map (·.2) ∨ c ∈ child :: upper.map (·.2)) :
    c = right ∨ c ∈ first :: slots.map (·.2) := by
  have hslot : ∀ e ∈ lower ++ (promoted, child) :: upper,
      e.2 = right ∨ e.2 ∈ first :: slots.map (·.2) := by
    intro e he
    rw [← hall] at he
    rcases mem_insertSlot.mp he with rfl | he
    · exact .inl rfl
    · exact .inr (List.mem_cons_of_mem _ (List.mem_map_of_mem he))
  rcases hc with hc | hc
  · rcases List.mem_cons.mp hc with rfl | hc
    · exact .inr List.mem_cons_self
    · obtain ⟨e, he, rfl⟩ := List.mem_map.mp hc
      exact hslot e (List.mem_append_left _ he)
  · rcases List.mem_cons.mp hc with rfl | hc
    · exact hslot (promoted, c) (by simp)
    · obtain ⟨e, he, rfl⟩ := List.mem_map.mp hc
      exact hslot e (by simp [he])

/-- What `split_internal_node` does up to the link into the parent. -/
theorem splitInternalNode_inv {f : Nat → Nat → Int64 → BTreeM (Option Nat)} {parent first : Nat}
    (hn : s.nodes p = some (.internal parent first slots))
    (h : splitInternalNode f p right key s = some (.ok r, s')) :
    ∃ promoted child lower upper sm, insertSlot (fun k => !decide (k < key)) (key, right) slots =
        lower ++ (promoted, child) :: upper ∧ lower.length = (slots.length + 1) / 2 ∧
      setParentPointers (parentField s.numPages) (child :: upper.map (·.2))
        (s.write s.numPages .zero) = some (.ok (), sm) ∧
      f p s.numPages promoted ((sm.write s.numPages (.internal 0 child upper)).write p
        (.internal parent first lower)) = some (.ok r, s') := by
  rw [splitInternalNode, bind_ok (readInternal_run hn)] at h
  dsimp only at h
  have hlen := insertSlot_length (fun k => !decide (k < key)) (key, right) slots
  generalize insertSlot (fun k => !decide (k < key)) (key, right) slots = all at h hlen ⊢
  have hcut := List.take_append_drop (all.length / 2) all
  have htake : (all.take (all.length / 2)).length = (slots.length + 1) / 2 := by
    rw [List.length_take]
    omega
  rcases hdrop : all.drop (all.length / 2) with _ | ⟨⟨promoted, child⟩, upper⟩
  · rw [hdrop] at h
    cases h
  · rw [hdrop] at h hcut
    dsimp only at h
    rw [bind_ok (allocatePage_run s)] at h
    obtain ⟨⟨⟩, sm, hset, h⟩ := bind_eq_ok.mp h
    rw [bind_ok (writeNode_run _ _ _), bind_ok (writeNode_run _ _ _)] at h
    exact ⟨promoted, child, _, upper, sm, hcut.symm, htake, hset, h⟩

/-! ## Shelves -/

/-- Filled pages whose headers name pages of the set, or none. -/
structure Shelf (s : State) (P : Set Nat) : Prop where
  stocked : Stocked s P ∅
  there : ∀ p ∈ P, s.view p ≠ none ∧ p < s.numPages
  up : ∀ p ∈ P, s.parentOf p = 0 ∨ s.parentOf p ∈ P

/-- A page that may hang below another one. -/
def State.Enough (s : State) (p : Nat) : Prop := Degrees.Enough (minKeys + 1) s.children p

namespace Shelf

theorem ne_new (H : Shelf s P) (hp : p ∈ P) : p ≠ s.numPages := (H.there p hp).2.ne

/-- Other parents, all of them on the shelf. -/
theorem reparent (H : Shelf s P) (hchildren : t.children = s.children)
    (hview : ∀ p ∈ P, t.view p ≠ none) (hnum : s.numPages ≤ t.numPages)
    (hup : ∀ p ∈ P, t.parentOf p = 0 ∨ t.parentOf p ∈ P) : Shelf t P := by
  refine ⟨?_, fun p hp => ⟨hview p hp, (H.there p hp).2.trans_le hnum⟩, hup⟩
  have F := H.stocked
  rwa [Stocked, ← hchildren] at F

theorem adopt (H : Shelf s P) (hq : q ∈ P) {cs : List Nat} : Shelf (s.adopt q cs) P := by
  refine H.reparent State.children_adopt (fun p hp => ?_) le_rfl fun p hp => ?_
  · rw [State.view_adopt]
    exact (H.there p hp).1
  · rw [State.parentOf_adopt (H.there p hp).1]
    split
    · exact .inr hq
    · exact H.up p hp

/-- A page written with its parent. -/
theorem write (H : Shelf s P) (hparent : node.parent = s.parentOf q)
    (F : Stocked (s.write q node) P ∅) : Shelf (s.write q node) P := by
  refine ⟨F, fun p hp => ⟨State.view_write_ne_none (H.there p hp).1, ?_⟩, fun p hp => ?_⟩
  · exact (H.there p hp).2.trans_le (le_max_left _ _)
  · rw [State.parentOf_write_same hparent]
    exact H.up p hp

/-- A page written behind the others. -/
theorem add (H : Shelf s P) (node : Node) (hparent : node.parent = 0) (hmem : ∀ c ∈ node.view.children,
      c ∈ P ∧ s.Enough c) (hsize : node.view.children = [] ∨
      2 ≤ node.view.children.length ∧ node.view.children.length ≤ btreeOrder + 1) :
    Shelf (s.write s.numPages node) (P ∪ {s.numPages}) := by
  have hold : ∀ p ∈ P, (s.write s.numPages node).children p = s.children p := fun p hp =>
    State.children_write_of_ne (H.ne_new hp)
  have hnew : (s.write s.numPages node).children s.numPages = node.view.children :=
    State.children_write_self
  refine ⟨H.stocked.edit (fun c hc _ h => ?_) ?_, ?_, ?_⟩
  · rwa [Enough, hold c hc]
  · rintro p (hp | rfl)
    · exact .inl ⟨hp, hold p hp, fun c hc => .inl (H.stocked.child_mem p hp c hc)⟩
    · rw [hnew]
      rcases hsize with hnone | ⟨hlo, hhi⟩
      · exact .inr (.inr hnone)
      · refine .inr (.inl ⟨hlo, hhi, fun c hc => ?_⟩)
        obtain ⟨hcP, hc⟩ := hmem c hc
        exact ⟨.inl hcP, .inr (by rwa [Enough, hold c hcP])⟩
  · rintro p (hp | rfl)
    · exact ⟨State.view_write_ne_none (H.there p hp).1, (H.there p hp).2.trans_le (le_max_left _ _)⟩
    · exact ⟨by simp, by simp⟩
  · rintro p (hp | rfl)
    · rw [State.parentOf_write, if_neg (H.ne_new hp)]
      exact (H.up p hp).imp_right .inl
    · exact .inl (by simp [State.parentOf_write, hparent])

end Shelf

/-! ## Linking a half -/

theorem State.write_write {node' : Node} : (s.write p node).write p node' = s.write p node' := by
  simp only [State.write, Function.update_idem]
  congr 1
  omega

variable {parent first : Nat} {f : Nat → Nat → Int64 → BTreeM (Option Nat)}

/-- What linking a half does to a shelf: it grows, and a new root is on it. -/
def Stacked (s' : State) (P : Set Nat) (r : Option Nat) : Prop :=
  s'.numPages ≤ 2 ^ 32 → ∃ P', P ⊆ P' ∧ Shelf s' P' ∧ ∀ root ∈ r, root ∈ P'

namespace Shelf

variable (H : Shelf s P)
include H

theorem createNewRoot (hl : left ∈ P) (hr : right ∈ P) (el : s.Enough left) (er : s.Enough right)
    (h : createNewRoot left right key s = some (.ok root, s')) : Stacked s' P (some root) := by
  intro hcap
  have hlt : s.numPages < s'.numPages := by
    obtain ⟨n, s₁, halloc, hrest⟩ := bind_eq_ok.mp h
    cases halloc
    have hsteady : Steady (s.write s.numPages .zero) s' := by
      refine Keeps.bind (writeNode_steady _ _) (fun _ => ?_) _ _ _ hrest
      exact (setParentPointer_steady _ _).bind fun _ =>
        (setParentPointer_steady _ _).bind fun _ => .pure _
    have hle := hsteady.1
    simp only [State.write_numPages] at hle
    omega
  have hrun := createNewRoot_run (m := key) (H.there left hl).1 (H.there right hr).1
    (H.there left hl).2 (H.there right hr).2 (hlt.trans_le hcap)
  rw [h] at hrun
  cases hrun
  refine ⟨P ∪ {s.numPages}, Set.subset_union_left, ?_, fun root hroot => ?_⟩
  · rw [State.withRoot, State.write_write]
    have hadd := H.add (.internal 0 left [(key, right)]) rfl ?_
      (.inr ⟨le_rfl, show 2 ≤ btreeOrder + 1 by decide⟩)
    · exact (hadd.adopt (.inr rfl)).adopt (.inr rfl)
    · intro c hc
      rcases List.mem_pair.mp hc with rfl | rfl
      · exact ⟨hl, el⟩
      · exact ⟨hr, er⟩
  · cases hroot
    exact .inr rfl

/-- A parent with room takes the half. -/
theorem grow (hq : q ∈ P) (hn : s.nodes q = some (.internal parent first slots))
    (hroom : slots.length < btreeOrder) (hr : right ∈ P) (er : s.Enough right)
    (stop : Int64 → Bool) :
    Shelf (s.write q (.internal parent first (insertSlot stop (key, right) slots))) P := by
  have hold := State.children_inner hn
  have hnew : (s.write q (.internal parent first (insertSlot stop (key, right) slots))).children q =
      first :: (insertSlot stop (key, right) slots).map (·.2) := State.children_write_self
  have hlen := insertSlot_length stop (key, right) slots
  have hkeep : ∀ c, s.Enough c →
      (s.write q (.internal parent first (insertSlot stop (key, right) slots))).Enough c := by
    intro c hc
    by_cases hcq : c = q
    · subst hcq
      refine .inr ?_
      rw [State.Enough, Degrees.Enough, hold] at hc
      have := hc.resolve_left (List.cons_ne_nil _ _)
      rw [hnew]
      simp only [List.length_cons, List.length_map] at this ⊢
      omega
    · rwa [State.Enough, Degrees.Enough, State.children_write_of_ne hcq]
  refine H.write (State.parentOf_eq hn).symm (H.stocked.edit (fun c _ _ h => ?_) fun p hp => ?_)
  · exact h.imp_right (hkeep c)
  · by_cases hpq : p = q
    · subst hpq
      refine .inr (.inl ?_)
      rw [hnew]
      refine ⟨?_, ?_, fun c hc => ?_⟩
      · simp only [List.length_cons, List.length_map]
        omega
      · simp only [List.length_cons, List.length_map]
        omega
      · have hin : c = right ∨ c ∈ s.children p := by
          rw [hold]
          rcases List.mem_cons.mp hc with rfl | hc
          · exact .inr List.mem_cons_self
          · obtain ⟨e, he, rfl⟩ := List.mem_map.mp hc
            rcases mem_insertSlot.mp he with rfl | he
            · exact .inl rfl
            · exact .inr (List.mem_cons_of_mem _ (List.mem_map_of_mem he))
        rcases hin with rfl | hin
        · exact ⟨hr, .inr (hkeep c er)⟩
        · refine ⟨H.stocked.child_mem p hp c hin, .inr (hkeep c ?_)⟩
          exact (H.stocked.enough p hp c hin).resolve_left (Set.notMem_empty c)
    · exact .inl ⟨hp, State.children_write_of_ne hpq, H.stocked.child_mem p hp⟩

/-- A full parent is cut in two halves of `minKeys` keys. -/
theorem cut (hq : q ∈ P) (hn : s.nodes q = some (.internal parent first slots)) (hr : right ∈ P)
    (er : s.Enough right) {stop : Int64 → Bool} {lower upper : List Slot} {promoted : Int64}
    {child : Nat} (hall : insertSlot stop (key, right) slots = lower ++ (promoted, child) :: upper)
    (hlower : lower.length = minKeys) (hupper : upper.length = minKeys)
    (ht : t = (((s.write s.numPages .zero).adopt s.numPages (child :: upper.map (·.2))).write
      s.numPages (.internal 0 child upper)).write q (.internal parent first lower)) :
    Shelf t (P ∪ {s.numPages}) ∧ t.Enough q ∧ t.Enough s.numPages := by
  have hqn := H.ne_new hq
  have hold : s.children q = first :: slots.map (·.2) := State.children_inner hn
  have hq' : t.children q = first :: lower.map (·.2) := by
    rw [ht, State.children_write_self]
    rfl
  have hn' : t.children s.numPages = child :: upper.map (·.2) := by
    rw [ht, State.children_write_of_ne hqn.symm, State.children_write_self]
    rfl
  have hsame : ∀ x ∈ P, x ≠ q → t.children x = s.children x := by
    intro x hx hxq
    rw [ht, State.children_write_of_ne hxq, State.children_write_of_ne (H.ne_new hx),
      State.children_adopt, State.children_write_of_ne (H.ne_new hx)]
  have hlen : ∀ c cs, (c :: (cs : List Slot).map (·.2)).length = cs.length + 1 := by simp
  have eq : t.Enough q := .inr (by rw [hq', hlen, hlower])
  have en : t.Enough s.numPages := .inr (by rw [hn', hlen, hupper])
  have hkeep : ∀ c ∈ P, s.Enough c → t.Enough c := by
    intro c hc hcs
    by_cases hcq : c = q
    · rw [hcq]
      exact eq
    · rwa [State.Enough, Degrees.Enough, hsame c hc hcq]
  -- the children of the halves
  have hhalf : ∀ c, c ∈ first :: lower.map (·.2) ∨ c ∈ child :: upper.map (·.2) →
      c ∈ P ∧ t.Enough c := by
    intro c hc
    have hin := mem_halves hall hc
    rw [← hold] at hin
    rcases hin with rfl | hin
    · exact ⟨hr, hkeep c hr er⟩
    · have hcP := H.stocked.child_mem q hq c hin
      exact ⟨hcP, hkeep c hcP ((H.stocked.enough q hq c hin).resolve_left (Set.notMem_empty c))⟩
  refine ⟨⟨H.stocked.edit (fun c hc _ h => h.imp_right (hkeep c hc)) ?_, ?_, ?_⟩, eq, en⟩
  · have hmin : 2 ≤ minKeys + 1 ∧ minKeys + 1 ≤ btreeOrder + 1 := by decide
    have hmem : ∀ c, c ∈ first :: lower.map (·.2) ∨ c ∈ child :: upper.map (·.2) →
        c ∈ P ∪ {s.numPages} ∧ (c ∈ (∅ : Set Nat) ∨ t.Enough c) := fun c hc =>
      ⟨.inl (hhalf c hc).1, .inr (hhalf c hc).2⟩
    rintro x (hx | rfl)
    · by_cases hxq : x = q
      · subst hxq
        refine .inr (.inl ?_)
        rw [hq', hlen, hlower]
        exact ⟨hmin.1, hmin.2, fun c hc => hmem c (.inl hc)⟩
      · exact .inl ⟨hx, hsame x hx hxq, fun c hc => .inl (H.stocked.child_mem x hx c hc)⟩
    · refine .inr (.inl ?_)
      rw [hn', hlen, hupper]
      exact ⟨hmin.1, hmin.2, fun c hc => hmem c (.inr hc)⟩
  · have hnum : s.numPages + 1 ≤ t.numPages := by
      rw [ht]
      simp only [State.write_numPages, State.adopt_numPages]
      omega
    rintro x (hx | rfl)
    · refine ⟨?_, by have := (H.there x hx).2; omega⟩
      rw [ht]
      refine State.view_write_ne_none (State.view_write_ne_none ?_)
      rw [State.view_adopt]
      exact State.view_write_ne_none (H.there x hx).1
    · refine ⟨?_, hnum⟩
      rw [ht]
      exact State.view_write_ne_none (by simp)
  · rintro x (hx | rfl)
    · have hview : (s.write s.numPages .zero).view x ≠ none :=
        State.view_write_ne_none (H.there x hx).1
      have hxn := H.ne_new hx
      rw [ht, State.parentOf_write, State.parentOf_write, if_neg hxn, State.parentOf_adopt hview,
        State.parentOf_write, if_neg hxn]
      split
      · have hup := H.up q hq
        rw [State.parentOf_eq hn] at hup
        exact hup.imp_right .inl
      · split
        · exact .inr (.inr rfl)
        · exact (H.up x hx).imp_right .inl
    · rw [ht, State.parentOf_write, if_neg hqn.symm, State.parentOf_write, if_pos rfl]
      exact .inl rfl

end Shelf

theorem Stacked.mono {P₁ : Set Nat} (h : Stacked s' P₁ r) (hsub : P ⊆ P₁) : Stacked s' P r := by
  intro hcap
  obtain ⟨P', hP, H', hr⟩ := h hcap
  exact ⟨P', hsub.trans hP, H', hr⟩

/-- The half goes into a parent of the shelf. -/
theorem Shelf.insertIntoInternal (H : Shelf s P) (hq : q ∈ P) (hr : right ∈ P)
    (er : s.Enough right) (hf : ∀ l r k, Keeps Steady (f l r k))
    (hup : ∀ {l r' : Nat} {k : Int64} {t : State} {P₁ : Set Nat}, Shelf t P₁ → l ∈ P₁ → r' ∈ P₁ →
      t.Enough l → t.Enough r' → f l r' k t = some (.ok r, s') → Stacked s' P₁ r)
    (h : insertIntoInternal f q right key s = some (.ok r, s')) : Stacked s' P r := by
  intro hcap
  have hnum : s.numPages ≤ s'.numPages := (insertIntoInternal_steady hf q right key _ _ _ h).1
  have hfield : parentField q = q := by
    have := (H.there q hq).2
    exact parentField_eq (by omega)
  dsimp only [BTree.insertIntoInternal] at h
  rw [hfield, bind_ok (setParentPointer_run (H.there right hr).1 (H.there right hr).2)] at h
  -- the half has its parent from here on
  have H₁ : Shelf (s.adopt q [right]) P := H.adopt hq
  have er₁ : (s.adopt q [right]).Enough right := by
    rwa [State.Enough, State.children_adopt]
  obtain ⟨⟨parent, first, slots⟩, t, hread, h⟩ := bind_eq_ok.mp h
  obtain ⟨hn, rfl⟩ := readInternal_inv hread
  dsimp only at hn h
  by_cases hfull : btreeOrder ≤ slots.length
  · rw [if_pos hfull] at h
    have hlen : slots.length = btreeOrder := by
      have hsize := (H₁.stocked.size q hq).resolve_left
        (by rw [State.children_inner hn]; exact List.cons_ne_nil _ _)
      rw [State.children_inner hn, List.length_cons, List.length_map] at hsize
      omega
    obtain ⟨promoted, child, lower, upper, sm, hall, hlower, hset, h⟩ := splitInternalNode_inv hn h
    have hupper : upper.length = minKeys := by
      have := congrArg List.length hall
      rw [insertSlot_length, hlen, List.length_append, List.length_cons, hlower, hlen] at this
      have : btreeOrder = 64 := rfl
      have : minKeys = 32 := rfl
      omega
    have hqn := H₁.ne_new hq
    have hpages := (hf _ _ _ _ _ _ h).1
    simp only [State.write_numPages] at hpages
    have hcs : ∀ c ∈ child :: upper.map (·.2), c ∈ P := by
      intro c hc
      rcases mem_halves hall (.inr hc) with rfl | hin
      · exact hr
      · refine H₁.stocked.child_mem q hq c ?_
        rwa [State.children_inner hn]
    have hset' : setParentPointers (parentField (s.adopt q [right]).numPages)
        (child :: upper.map (·.2)) ((s.adopt q [right]).write (s.adopt q [right]).numPages .zero) =
          some (.ok (), State.adopt _ _ _) :=
      setParentPointers_run fun c hc =>
        ⟨State.view_write_ne_none (H₁.there c (hcs c hc)).1,
          (H₁.there c (hcs c hc)).2.trans_le (le_max_left _ _)⟩
    rw [hset] at hset'
    cases hset'
    rw [parentField_eq (by omega)] at h
    have hlower' : lower.length = minKeys := by
      rw [hlower, hlen]
      rfl
    obtain ⟨H₂, eq₂, en₂⟩ := H₁.cut hq hn hr er₁ hall hlower' hupper rfl
    have hstack := hup H₂ (.inl hq) (.inr rfl) eq₂ en₂ h
    exact hstack.mono Set.subset_union_left hcap
  · rw [if_neg hfull] at h
    cases h
    exact ⟨P, subset_rfl, H₁.grow hq hn (by omega) hr er₁ _, by simp⟩

theorem Shelf.insertIntoParent {fuel : Nat} (H : Shelf s P) (hl : left ∈ P) (hr : right ∈ P)
    (el : s.Enough left) (er : s.Enough right)
    (h : insertIntoParent fuel left right key s = some (.ok r, s')) : Stacked s' P r := by
  induction fuel generalizing s left right key P with
  | zero => cases h
  | succ fuel ih =>
      rw [BTree.insertIntoParent] at h
      obtain ⟨node, t, hread, h⟩ := bind_eq_ok.mp h
      obtain ⟨hn, rfl⟩ := readNode_inv hread
      by_cases htop : node.parent = 0
      · rw [if_pos htop] at h
        obtain ⟨newRoot, t, hnew, h⟩ := bind_eq_ok.mp h
        cases h
        exact H.createNewRoot hl hr el er hnew
      · rw [if_neg htop] at h
        have hq : node.parent ∈ P := by
          have hup := H.up left hl
          rw [State.parentOf_eq hn] at hup
          exact hup.resolve_left htop
        exact H.insertIntoInternal hq hr er (insertIntoParent_steady fuel)
          (fun H' hl' hr' el' er' h' => ih H' hl' hr' el' er' h') h

/-! ## Insert -/

theorem splitLeafNode_inv {n : Nat} (h : splitLeafNode p s = some (.ok (n, key), s')) :
    ∃ parent entries, s.nodes p = some (.leaf parent entries) ∧ n = s.numPages ∧
      s' = s.withHalves p parent entries := by
  obtain ⟨⟨parent, entries⟩, t, hread, hrest⟩ := bind_eq_ok.mp h
  obtain ⟨hn, rfl⟩ := readLeaf_inv hread
  dsimp only at hn
  rcases hget : entries[splitIndex entries]? with _ | ⟨splitKey, stored⟩
  · rw [splitLeafNode_panics hn hget] at h
    cases h
  · rw [splitLeafNode_run hn hget] at h
    cases h
    exact ⟨parent, entries, hn, rfl, rfl⟩

/-- Two halves of a leaf. -/
theorem Shelf.withHalves {entries : List Entry} (H : Shelf s P) (hp : p ∈ P)
    (hn : s.nodes p = some (.leaf parent entries)) :
    Shelf (s.withHalves p parent entries) (P ∪ {s.numPages}) ∧
      (s.withHalves p parent entries).Enough p ∧
      (s.withHalves p parent entries).Enough s.numPages := by
  have hpn := H.ne_new hp
  have hwrite : s.withHalves p parent entries = (s.write s.numPages
      (.leaf 0 (entries.drop (splitIndex entries)))).write p
        (.leaf parent (entries.take (splitIndex entries))) := by
    rw [State.withHalves, State.write_comm hpn.symm, State.write_write]
  have H₁ := H.add (.leaf 0 (entries.drop (splitIndex entries))) rfl
    (fun c hc => absurd hc List.not_mem_nil) (.inl rfl)
  have hold := State.children_leaf hn
  have hchildren : (s.withHalves p parent entries).children =
      (s.write s.numPages (.leaf 0 (entries.drop (splitIndex entries)))).children := by
    rw [hwrite]
    refine State.children_write_same ?_
    rw [State.children_write_of_ne hpn, hold]
    rfl
  refine ⟨?_, .inl ?_, .inl ?_⟩
  · rw [hwrite] at hchildren ⊢
    refine H₁.write ?_ ?_
    · rw [State.parentOf_write, if_neg hpn]
      exact (State.parentOf_eq hn).symm
    · have F := H₁.stocked
      rwa [Stocked, ← hchildren] at F
  · rw [hchildren, State.children_write_of_ne hpn, hold]
  · rw [hchildren, State.children_write_self]
    rfl

theorem Shelf.insertIntoLeaf {fuel : Nat} (H : Shelf s P) (hp : p ∈ P)
    (h : insertIntoLeaf fuel p key data s = some (.ok r, s')) : Stacked s' P r := by
  induction fuel generalizing s p r P with
  | zero => cases h
  | succ fuel ih =>
      intro hcap
      rw [BTree.insertIntoLeaf] at h
      obtain ⟨⟨parent, entries⟩, t, hread, h⟩ := bind_eq_ok.mp h
      obtain ⟨hn, rfl⟩ := readLeaf_inv hread
      obtain ⟨offset, t, hend, h⟩ := bind_eq_ok.mp h
      obtain rfl := ofExcept_inv hend
      dsimp only at hn h
      by_cases hfull : pageSize < offset + entrySize data
      · rw [if_pos hfull] at h
        obtain ⟨⟨n, splitKey⟩, t, hsplit, h⟩ := bind_eq_ok.mp h
        obtain ⟨newRoot, t', hlink, h⟩ := bind_eq_ok.mp h
        obtain ⟨dropped, t'', hrec, h⟩ := bind_eq_ok.mp h
        cases h
        obtain ⟨parent', entries', hn', rfl, rfl⟩ := splitLeafNode_inv hsplit
        obtain ⟨H₁, ep, en⟩ := H.withHalves hp hn'
        have hsteady := insertIntoLeaf_steady fuel _ key data _ _ _ hrec
        obtain ⟨P₂, hP₂, H₂, hr₂⟩ := H₁.insertIntoParent (.inl hp) (.inr rfl) ep en hlink
          (hsteady.1.trans hcap)
        -- the half that is tried again is on the shelf, and so is the new root
        have hhalf : (if key < splitKey then p else s.numPages) ∈ P₂ := by
          split
          · exact hP₂ (.inl hp)
          · exact hP₂ (.inr rfl)
        obtain ⟨P₃, hP₃, H₃, -⟩ := ih H₂ hhalf hrec hcap
        exact ⟨P₃, fun x hx => hP₃ (hP₂ (.inl hx)), H₃, fun root hroot => hP₃ (hr₂ root hroot)⟩
      · rw [if_neg hfull] at h
        cases h
        refine ⟨P, subset_rfl, H.write (State.parentOf_eq hn).symm ?_, by simp⟩
        rw [Stocked, State.children_write_same]
        · exact H.stocked
        · rw [State.children_leaf hn]
          rfl

/-- The way down stays in a set that is closed under children. -/
theorem findLeaf_mem {fuel : Nat} (hclosed : ∀ x ∈ P, ∀ c ∈ s.children x, c ∈ P) (hp : p ∈ P)
    (h : findLeaf fuel p key s = some (.ok q, s')) : q ∈ P ∧ s = s' := by
  induction fuel generalizing p with
  | zero => cases h
  | succ fuel ih =>
      rw [findLeaf] at h
      obtain ⟨node, t, hread, h⟩ := bind_eq_ok.mp h
      obtain ⟨hn, rfl⟩ := readNode_inv hread
      cases node with
      | leaf parent entries =>
          cases h
          exact ⟨hp, rfl⟩
      | internal parent first slots =>
          refine ih (hclosed p hp _ ?_) h
          rw [State.children_inner hn]
          exact route_mem key first slots

/-- An insert that succeeds keeps the bounds, whatever cuts it makes. -/
theorem insert_occupied {fuel : Nat} {row : Row} (T : Tree 0 s s.rootPage L) (O : Occupied s)
    (h : insert fuel key row s = some (.ok (), s')) (hcap : s'.numPages ≤ 2 ^ 32) :
    Occupied s' := by
  have F := T.stocked O fun p hp => absurd hp (Set.notMem_empty p)
  have H : Shelf s L.pages := by
    refine ⟨F, fun p hp => ⟨Pages.view_ne_none T.whole hp, (T.pages.bounds p hp).2⟩, fun p hp => ?_⟩
    by_cases hr : p = s.rootPage
    · exact .inl (hr ▸ T.pages.root_parent)
    · exact .inr (T.pages.parent_mem T.whole hp hr not_false).1
  dsimp only [insert] at h
  rw [bind_ok (look_run _ _)] at h
  obtain ⟨leafId, t, hfind, h⟩ := bind_eq_ok.mp h
  obtain ⟨hleaf, rfl⟩ := findLeaf_mem F.child_mem T.whole.root_mem hfind
  obtain ⟨newRoot, t, hins, h⟩ := bind_eq_ok.mp h
  have hsteady := insertIntoLeaf_steady _ _ _ _ _ _ _ hins
  cases newRoot with
  | none =>
      cases h
      obtain ⟨P, hP, H', -⟩ := H.insertIntoLeaf hleaf hins hcap
      refine H'.stocked.occupied (hP ?_)
      rw [hsteady.2]
      exact T.whole.root_mem
  | some root =>
      cases h
      obtain ⟨P, -, H', hr⟩ := H.insertIntoLeaf hleaf hins hcap
      exact Stocked.occupied (s := { t with rootPage := root }) H'.stocked (hr root rfl)

end VelociDB.BTree
