/-
# The children of the pages

What the procedures of the tree do to the children and the parents of the pages, whatever
the keys are.  A lemma `_inv` reads a call that has succeeded backwards: what it found, and
the state it left.

    Steady    a procedure never lowers the number of pages and keeps the handle's root
    Grove     the pages of a tree by their children, with what their headers need

A well-formed tree is a grove (`Tree.grove`).
-/
import VelociDB.BTreeLeaf
import VelociDB.BTreeUnderflow
import VelociDB.Lib.Degrees

namespace VelociDB.BTree

open SearchTree Fuelled

variable {least : Nat} {s s' : State} {root p q x parent first : Nat} {L : Layout Int64 Nat}
  {entries : List Entry} {slots rest : List Slot} {node : Node} {P : Set Nat}
  {level : Nat → Nat}

/-! ## Children -/

/-- The children of a page; a leaf has none. -/
def State.children (s : State) (p : Nat) : List Nat := ((s.view p).map View.children).getD []

namespace State

theorem children_eq {v : View Int64 Bytes Nat} (h : s.view p = some v) :
    s.children p = v.children := by
  rw [children, h]
  rfl

theorem children_inner (h : s.nodes p = some (.internal parent first slots)) :
    s.children p = first :: slots.map (·.2) := children_eq (view_eq_inner.mpr ⟨_, h⟩)

theorem children_leaf (h : s.nodes p = some (.leaf parent entries)) : s.children p = [] :=
  children_eq (view_eq_leaf.mpr ⟨_, h⟩)

theorem children_congr (h : s'.view = s.view) : s'.children = s.children := by
  funext x
  rw [children, children, h]

@[simp] theorem children_adopt {cs : List Nat} : (s.adopt q cs).children = s.children :=
  children_congr view_adopt

theorem children_write : (s.write p node).children x =
    if x = p then node.view.children else s.children x := by
  rw [children, children, view_write]
  by_cases h : x = p
  · rw [if_pos h, h, Function.update_self]
    rfl
  · rw [if_neg h, Function.update_of_ne h]

theorem children_write_of_ne (h : x ≠ p) : (s.write p node).children x = s.children x := by
  rw [children_write, if_neg h]

theorem children_write_self : (s.write p node).children p = node.view.children := by
  rw [children_write, if_pos rfl]

/-- Another content with the same children. -/
theorem children_write_same (h : node.view.children = s.children p) :
    (s.write p node).children = s.children := by
  funext x
  rw [children_write]
  split
  · rename_i hx
    rw [hx, h]
  · rfl

theorem view_write_ne_none (h : s.view x ≠ none) : (s.write p node).view x ≠ none := by
  rw [view_write]
  by_cases hx : x = p
  · rw [hx, Function.update_self]
    exact Option.some_ne_none _
  · rw [Function.update_of_ne hx]
    exact h

/-- A page with children is an internal node. -/
theorem view_of_children (h : s.children p ≠ []) :
    ∃ first slots, s.view p = some (.inner first slots) := by
  rcases hv : s.view p with _ | ⟨entries | ⟨first, slots⟩⟩
  · simp [children, hv] at h
  · simp [children, hv, View.children] at h
  · exact ⟨first, slots, rfl⟩

end State

/-! ## Calls that have succeeded -/

theorem readNode_inv (h : readNode p s = some (.ok node, s')) : s.nodes p = some node ∧ s = s' := by
  rw [readNode, bind_ok (look_run _ _)] at h
  rcases hn : s.nodes p with _ | n
  · rw [hn] at h
    cases h
  · rw [hn] at h
    cases h
    exact ⟨rfl, rfl⟩

theorem readLeaf_inv {y : Nat × List Entry} (h : readLeaf p s = some (.ok y, s')) :
    s.nodes p = some (.leaf y.1 y.2) ∧ s = s' := by
  obtain ⟨n, s₁, hread, h⟩ := bind_eq_ok.mp h
  obtain ⟨hn, rfl⟩ := readNode_inv hread
  cases n with
  | leaf parent entries =>
      cases h
      exact ⟨hn, rfl⟩
  | internal parent first slots => cases h

theorem readInternal_inv {y : Nat × Nat × List Slot} (h : readInternal p s = some (.ok y, s')) :
    s.nodes p = some (.internal y.1 y.2.1 y.2.2) ∧ s = s' := by
  obtain ⟨n, s₁, hread, h⟩ := bind_eq_ok.mp h
  obtain ⟨hn, rfl⟩ := readNode_inv hread
  cases n with
  | leaf parent entries => cases h
  | internal parent first slots =>
      cases h
      exact ⟨hn, rfl⟩

theorem ofExcept_inv {α : Type} {e : Except VelociError α} {a : α}
    (h : ofExcept e s = some (.ok a, s')) : s = s' := by
  cases e with
  | error _ => cases h
  | ok a =>
      cases h
      rfl

theorem writeNode_inv {u : Unit} (h : writeNode p node s = some (.ok u, s')) :
    s' = s.write p node := by
  cases h
  rfl

theorem writeInternal_inv (h : writeInternal p parent first slots s = some (.ok (), s')) :
    s' = s.write p (.internal parent first slots) := by
  unfold writeInternal at h
  split at h
  · cases h
  · cases h
    rfl

theorem replaceKey_children (oldKey newKey : Int64) (slots : List Slot) :
    (replaceKey oldKey newKey slots).map (·.2) = slots.map (·.2) := by
  induction slots with
  | nil => rfl
  | cons e slots ih =>
      obtain ⟨k, c⟩ := e
      rw [replaceKey]
      split
      · rfl
      · rw [List.map_cons, List.map_cons, ih]

/-- A separator changes, and no child. -/
theorem updateParentKey_inv {oldKey newKey : Int64}
    (h : updateParentKey q oldKey newKey s = some (.ok (), s')) :
    s'.children = s.children ∧ s'.parentOf = s.parentOf ∧ s'.rootPage = s.rootPage ∧
      s.numPages ≤ s'.numPages ∧ ∀ x, s.view x ≠ none → s'.view x ≠ none := by
  obtain ⟨⟨parent, first, slots⟩, s₁, hread, h⟩ := bind_eq_ok.mp h
  obtain ⟨hn, rfl⟩ := readInternal_inv hread
  obtain rfl := writeNode_inv h
  dsimp only at hn
  refine ⟨State.children_write_same ?_, ?_, rfl, le_max_left _ _,
    fun x hx => State.view_write_ne_none hx⟩
  · rw [State.children_inner hn]
    simp [Node.view, View.children, replaceKey_children]
  · funext x
    refine State.parentOf_write_same ?_ x
    exact (State.parentOf_eq hn).symm

/-- The sibling stands next to the page. -/
theorem findSiblingInfo_inv {child sibling : Nat} {k : Int64} {isLeft : Bool}
    (h : findSiblingInfo first slots child s = some (.ok (sibling, k, isLeft), s'))
    (hsib : sibling ≠ 0) : s = s' ∧ ∃ pre left right post,
      first :: slots.map (·.2) = pre ++ left :: right :: post ∧
      inOrder child sibling isLeft = (left, right) := by
  unfold findSiblingInfo at h
  split at h
  · rename_i hfirst
    subst hfirst
    cases slots with
    | nil => cases h
    | cons e slots =>
        cases h
        exact ⟨rfl, [], first, e.2, slots.map (·.2), rfl, rfl⟩
  · rw [pure_run] at h
    obtain ⟨hbefore, rfl⟩ : siblingBefore child first slots = (sibling, k, isLeft) ∧ s = s' := by
      simpa using h
    refine ⟨rfl, ?_⟩
    clear h
    induction slots generalizing first with
    | nil =>
        cases hbefore
        exact absurd rfl hsib
    | cons e slots ih =>
        obtain ⟨k', next⟩ := e
        rw [siblingBefore] at hbefore
        split at hbefore
        · rename_i hnext
          cases hbefore
          exact ⟨[], sibling, next, slots.map (·.2), rfl, by rw [hnext]; rfl⟩
        · rename_i hnext
          obtain ⟨pre, left, right, post, hcut, horder⟩ := ih hnext hbefore
          refine ⟨first :: pre, left, right, post, ?_, horder⟩
          rw [List.map_cons, hcut]
          rfl

theorem removeSlot_inv {child : Nat} (h : removeSlot child slots = some rest) :
    ∃ pre post, slots.map (·.2) = pre ++ child :: post ∧ rest.map (·.2) = pre ++ post ∧
      child ∉ pre := by
  induction slots generalizing rest with
  | nil => cases h
  | cons e slots ih =>
      obtain ⟨k, next⟩ := e
      rw [removeSlot] at h
      split at h
      · rename_i hnext
        cases h
        exact ⟨[], slots.map (·.2), by rw [← hnext]; rfl, rfl, List.not_mem_nil⟩
      · rename_i hnext
        obtain ⟨rest', hrest, rfl⟩ := Option.map_eq_some_iff.mp h
        obtain ⟨pre, post, hcut, hkept, hnot⟩ := ih hrest
        refine ⟨next :: pre, post, ?_, ?_, ?_⟩
        · rw [List.map_cons, hcut]
          rfl
        · rw [List.map_cons, hkept]
          rfl
        · rintro (_ | ⟨_, hmem⟩)
          · exact hnext rfl
          · exact hnot hmem

theorem removeSlot_none {child : Nat} (h : removeSlot child slots = none) :
    child ∉ slots.map (·.2) := by
  induction slots with
  | nil => exact List.not_mem_nil
  | cons e slots ih =>
      obtain ⟨k, next⟩ := e
      rw [removeSlot] at h
      split at h
      · cases h
      · rename_i hnext
        have hrest := ih (Option.map_eq_none_iff.mp h)
        rintro (_ | ⟨_, hmem⟩)
        · exact hnext rfl
        · exact hrest hmem

/-! ## An insert gives up no page -/

/-- The pages stay, and the handle's root. -/
def Steady (s s' : State) : Prop := s.numPages ≤ s'.numPages ∧ s'.rootPage = s.rootPage

instance : Std.Refl Steady := ⟨fun _ => ⟨le_rfl, rfl⟩⟩

instance : IsTrans State Steady := ⟨fun _ _ _ h₁ h₂ => ⟨h₁.1.trans h₂.1, h₂.2.trans h₁.2⟩⟩

theorem readNode_steady (p : Nat) : Keeps Steady (readNode p) := by
  refine .bind (.look _) fun o => ?_
  cases o with
  | none => exact .fail _
  | some node => exact .pure _

theorem readLeaf_steady (p : Nat) : Keeps Steady (readLeaf p) := by
  refine (readNode_steady p).bind fun node => ?_
  cases node with
  | leaf parent entries => exact .pure _
  | internal parent first slots => exact .fail _

theorem readInternal_steady (p : Nat) : Keeps Steady (readInternal p) := by
  refine (readNode_steady p).bind fun node => ?_
  cases node with
  | leaf parent entries => exact .fail _
  | internal parent first slots => exact .pure _

theorem writeNode_steady (p : Nat) (node : Node) : Keeps Steady (writeNode p node) :=
  .change fun _ => ⟨le_max_left _ _, rfl⟩

theorem allocatePage_steady : Keeps Steady allocatePage :=
  .bind (.look _) fun p => (writeNode_steady p _).bind fun _ => .pure _

theorem ofExcept_steady {α : Type} (e : Except VelociError α) : Keeps Steady (ofExcept e) := by
  cases e with
  | error _ => exact .fail _
  | ok _ => exact .pure _

theorem setParentPointer_steady (p q : Nat) : Keeps Steady (setParentPointer p q) :=
  (readNode_steady p).bind fun _ => .ite (.pure _) (writeNode_steady _ _)

theorem setParentPointers_steady (q : Nat) (cs : List Nat) :
    Keeps Steady (setParentPointers q cs) := by
  induction cs with
  | nil => exact .pure _
  | cons c cs ih => exact (setParentPointer_steady c q).bind fun _ => ih

theorem splitLeafNode_steady (p : Nat) : Keeps Steady (splitLeafNode p) := by
  refine (readLeaf_steady p).bind fun ⟨parent, entries⟩ => ?_
  dsimp only
  split
  · exact .fail _
  · exact allocatePage_steady.bind fun _ => (writeNode_steady _ _).bind fun _ =>
      (writeNode_steady _ _).bind fun _ => .pure _

theorem createNewRoot_steady (left right : Nat) (key : Int64) :
    Keeps Steady (createNewRoot left right key) :=
  allocatePage_steady.bind fun _ => (writeNode_steady _ _).bind fun _ =>
    (setParentPointer_steady _ _).bind fun _ => (setParentPointer_steady _ _).bind fun _ => .pure _

section

variable {f : Nat → Nat → Int64 → BTreeM (Option Nat)}

theorem splitInternalNode_steady (hf : ∀ l r k, Keeps Steady (f l r k)) (p right : Nat)
    (key : Int64) : Keeps Steady (splitInternalNode f p right key) := by
  refine (readInternal_steady p).bind fun ⟨parent, first, slots⟩ => ?_
  dsimp only
  split
  · exact .fail _
  · exact allocatePage_steady.bind fun _ => (setParentPointers_steady _ _).bind fun _ =>
      (writeNode_steady _ _).bind fun _ => (writeNode_steady _ _).bind fun _ => hf _ _ _

theorem insertIntoInternal_steady (hf : ∀ l r k, Keeps Steady (f l r k)) (p right : Nat)
    (key : Int64) : Keeps Steady (insertIntoInternal f p right key) :=
  (setParentPointer_steady _ _).bind fun _ => (readInternal_steady p).bind fun _ =>
    .ite (splitInternalNode_steady hf _ _ _) ((writeNode_steady _ _).bind fun _ => .pure _)

end

theorem insertIntoParent_steady (fuel left right : Nat) (key : Int64) :
    Keeps Steady (insertIntoParent fuel left right key) := by
  induction fuel generalizing left right key with
  | zero => exact .exhausted
  | succ fuel ih =>
      exact (readNode_steady left).bind fun _ =>
        .ite ((createNewRoot_steady _ _ _).bind fun _ => .pure _)
          (insertIntoInternal_steady ih _ _ _)

theorem insertIntoLeaf_steady (fuel p : Nat) (key : Int64) (data : Bytes) :
    Keeps Steady (insertIntoLeaf fuel p key data) := by
  induction fuel generalizing p with
  | zero => exact .exhausted
  | succ fuel ih =>
      exact (readLeaf_steady p).bind fun _ => (ofExcept_steady _).bind fun _ =>
        .ite ((splitLeafNode_steady p).bind fun _ => (insertIntoParent_steady _ _ _ _).bind fun _ =>
            (ih _).bind fun _ => .pure _)
          ((writeNode_steady _ _).bind fun _ => .pure _)

/-! ## Groves -/

/-- The pages of a tree: the links, and what the headers need. -/
structure Grove (s : State) (P : Set Nat) (level : Nat → Nat) : Prop where
  links : Degrees.Linked s.children s.parentOf level P s.rootPage
  there : ∀ p ∈ P, s.view p ≠ none ∧ 0 < p ∧ p < s.numPages
  small : ∀ p ∈ P, s.children p ≠ [] → p < 2 ^ 32

/-- The children of a node have different ranges. -/
theorem tiles_nodup {f g : Nat → Bound Int64} {lo hi : Bound Int64}
    (h : Tiles f g lo first slots hi) : (first :: slots.map (·.2)).Nodup := by
  induction slots generalizing lo first with
  | nil => exact List.nodup_singleton _
  | cons e slots ih =>
      obtain ⟨k, c⟩ := e
      obtain ⟨hf, -, hlt, hrest⟩ := h
      refine List.nodup_cons.mpr ⟨fun hmem => ?_, ih hrest⟩
      have hle := (tiles_bounds hrest hmem).1
      exact (hf ▸ hlt).not_ge hle

theorem Tree.grove (T : Tree 0 s s.rootPage L) : Grove s L.pages L.level := by
  have hview : ∀ p ∈ L.pages, ∃ v, s.view p = some v ∧ s.children p = v.children ∧
      L.Suits L.hi (L.lo p) (L.hi p) (L.level p) v := by
    intro p hp
    obtain ⟨v, hv, hS⟩ := T.whole.suits p hp
    exact ⟨v, hv, State.children_eq hv, hS⟩
  refine ⟨⟨T.whole.root_mem, T.whole.level_le, fun p hp c hc => ?_, fun p hp => ?_,
    fun p hp hr => ?_⟩, fun p hp => ?_, fun p hp hc => ?_⟩
  · obtain ⟨v, hv, heq, hS⟩ := hview p hp
    rw [heq] at hc
    obtain ⟨hmem, hlevel⟩ := hS.child hc
    exact ⟨hmem, T.pages.parent_eq p hp v hv c hc, hlevel⟩
  · obtain ⟨v, -, heq, hS⟩ := hview p hp
    rw [heq]
    cases v with
    | leaf entries => exact List.nodup_nil
    | inner first slots => exact tiles_nodup hS.2
  · obtain ⟨hz, -, -, first, slots, hv, hc⟩ := T.pages.parent_mem T.whole hp hr not_false
    exact ⟨hz, by rw [State.children_eq hv]; exact hc⟩
  · exact ⟨Pages.view_ne_none T.whole hp, T.pages.bounds p hp⟩
  · obtain ⟨first, slots, hv⟩ := State.view_of_children hc
    exact (T.pages.fits p hp _ hv).2.2

end VelociDB.BTree
