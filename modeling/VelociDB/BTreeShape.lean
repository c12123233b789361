/-
# The shape of the B-tree

`Tree least s root L`: the pages of `L`, seen as leaves and inner nodes, are a search tree
under `root`, and the pages agree with it:

    parent_eq    the header of a child names the page that points to it
    root_parent  the header of the root names none
    bounds       page 0 is no node, and every page is there
    fits         a leaf fits its page; an internal node has `least` to `btreeOrder` keys
                 and a number the header of a child can hold

`Pages` is the second part by itself; it also holds while a node that has been cut still
hangs loose (`Hanging`).

The second half says what the small procedures do to a state: `write` replaces one node,
`adopt` gives some pages a new parent and changes nothing else.
-/
import VelociDB.BTree
import VelociDB.Lib.SearchTree

namespace VelociDB.BTree

open SearchTree

/-! ## Trees -/

/-- A node without its header. -/
def Node.view : Node → View Int64 Bytes Nat
  | leaf _ entries => .leaf entries
  | internal _ first slots => .inner first slots

namespace State

variable (s : State)

/-- The pages without their headers. -/
def view (pageId : Nat) : Option (View Int64 Bytes Nat) := (s.nodes pageId).map Node.view

/-- `header.parent` of a page. -/
def parentOf (pageId : Nat) : Nat := ((s.nodes pageId).map Node.parent).getD 0

/-- `header.num_keys` of a page. -/
def numKeysOf (pageId : Nat) : Nat := ((s.nodes pageId).map Node.numKeys).getD 0

end State

/-- A node fits the page it is in. -/
def Fits (least pageId : Nat) : View Int64 Bytes Nat → Prop
  | .leaf entries => dataEnd entries ≤ pageSize
  | .inner _ slots => least ≤ slots.length ∧ slots.length ≤ btreeOrder ∧ pageId < 2 ^ 32

/-- The pages of a layout agree with it. -/
structure Pages (least : Nat) (s : State) (root : Nat) (L : Layout Int64 Nat) : Prop where
  root_parent : s.parentOf root = 0
  parent_eq : ∀ p ∈ L.pages, ∀ v, s.view p = some v → ∀ c ∈ v.children, s.parentOf c = p
  bounds : ∀ p ∈ L.pages, 0 < p ∧ p < s.numPages
  fits : ∀ p ∈ L.pages, ∀ v, s.view p = some v → Fits least p v

/-- A well-formed tree whose internal nodes have at least `least` keys. -/
structure Tree (least : Nat) (s : State) (root : Nat) (L : Layout Int64 Nat) : Prop where
  whole : Whole s.view root L
  pages : Pages least s root L

variable {least : Nat} {s s' : State} {root p q c parent first : Nat} {L L' : Layout Int64 Nat}
  {entries : List Entry} {slots : List Slot} {node : Node} {key : Int64} {data : Bytes}
  {seen : Nat → Bound Int64} {loose : Set Nat} {v : View Int64 Bytes Nat}

/-! ### A tree page by page -/

/-- One page of a well-formed tree. -/
def PageOk (least : Nat) (s : State) (root : Nat) (L : Layout Int64 Nat) (p : Nat) : Prop :=
  ∃ v ∈ s.view p, L.Suits L.hi (L.lo p) (L.hi p) (L.level p) v ∧
    (∀ c ∈ v.children, s.parentOf c = p) ∧ (0 < p ∧ p < s.numPages) ∧ Fits least p v ∧
    L.level p ≤ L.level root ∧
    (p = root ∨ s.parentOf p ∈ L.pages ∧ ∃ w ∈ s.view (s.parentOf p), p ∈ w.children)

instance : (v : View Int64 Bytes Nat) → Decidable (Fits least p v)
  | .leaf entries => inferInstanceAs (Decidable (dataEnd entries ≤ pageSize))
  | .inner _ slots => inferInstanceAs (Decidable
      (least ≤ slots.length ∧ slots.length ≤ btreeOrder ∧ p < 2 ^ 32))

instance [DecidablePred (· ∈ L.pages)] : Decidable (PageOk least s root L p) :=
  inferInstanceAs (Decidable (∃ v ∈ s.view p, _))

theorem Tree.of_pages (hmem : root ∈ L.pages) (hlo : L.lo root = ⊥) (hhi : L.hi root = ⊤)
    (hroot : s.parentOf root = 0) (h : ∀ p ∈ L.pages, PageOk least s root L p) :
    Tree least s root L := by
  have hview : ∀ p ∈ L.pages, ∀ v, s.view p = some v →
      L.Suits L.hi (L.lo p) (L.hi p) (L.level p) v ∧ (∀ c ∈ v.children, s.parentOf c = p) ∧
        Fits least p v := by
    intro p hp v hv
    obtain ⟨v', hv', hS, hpar, -, hfits, -⟩ := h p hp
    rw [Option.mem_def, hv] at hv'
    cases hv'
    exact ⟨hS, hpar, hfits⟩
  refine ⟨⟨hmem, hlo, hhi, fun p hp => ?_, fun p hp => ?_, fun p hp hr _ => ?_⟩, hroot,
    fun p hp v hv => (hview p hp v hv).2.1, fun p hp => ?_, fun p hp v hv => (hview p hp v hv).2.2⟩
  · obtain ⟨v, -, -, -, -, -, hlevel, -⟩ := h p hp
    exact hlevel
  · obtain ⟨v, hv, hS, -⟩ := h p hp
    exact ⟨v, hv, hS⟩
  · obtain ⟨v, -, -, -, -, -, -, hlink⟩ := h p hp
    obtain ⟨hq, w, hw, hc⟩ := hlink.resolve_left hr
    exact ⟨_, hq, w, hw, hc⟩
  · obtain ⟨v, -, -, -, hbounds, -⟩ := h p hp
    exact hbounds

theorem State.view_eq_leaf :
    s.view p = some (.leaf entries) ↔ ∃ parent, s.nodes p = some (.leaf parent entries) := by
  simp only [view, Option.map_eq_some_iff]
  constructor
  · rintro ⟨_ | _, hn, hv⟩
    · cases hv
      exact ⟨_, hn⟩
    · cases hv
  · rintro ⟨parent, hn⟩
    exact ⟨_, hn, rfl⟩

theorem State.view_eq_inner :
    s.view p = some (.inner first slots) ↔
      ∃ parent, s.nodes p = some (.internal parent first slots) := by
  simp only [view, Option.map_eq_some_iff]
  constructor
  · rintro ⟨_ | _, hn, hv⟩
    · cases hv
    · cases hv
      exact ⟨_, hn⟩
  · rintro ⟨parent, hn⟩
    exact ⟨_, hn, rfl⟩

theorem State.parentOf_eq (h : s.nodes p = some node) : s.parentOf p = node.parent := by
  simp [parentOf, h]

theorem State.numKeysOf_eq (h : s.nodes p = some node) : s.numKeysOf p = node.numKeys := by
  simp [numKeysOf, h]

theorem State.numKeysOf_inner (h : s.view p = some (.inner first slots)) :
    s.numKeysOf p = slots.length := by
  obtain ⟨parent, hn⟩ := view_eq_inner.mp h
  exact numKeysOf_eq hn

theorem State.numKeysOf_congr (h : s'.view p = s.view p) : s'.numKeysOf p = s.numKeysOf p := by
  simp only [view, numKeysOf] at *
  rcases hs : s.nodes p with _ | _ | _ <;> rcases hs' : s'.nodes p with _ | _ | _ <;>
    simp_all [Node.view, Node.numKeys]

namespace Pages

variable (G : Pages least s root L)
include G

/-- A page that is not the root and not loose hangs below the page its header names. -/
theorem parent_mem (F : Forest s.view root L seen loose) (hp : p ∈ L.pages) (hr : p ≠ root)
    (hl : p ∉ loose) : s.parentOf p ∈ L.pages ∧ s.parentOf p ≠ 0 ∧
      L.level (s.parentOf p) = L.level p + 1 ∧
      ∃ first slots, s.view (s.parentOf p) = some (.inner first slots) ∧
        p ∈ first :: slots.map (·.2) := by
  obtain ⟨z, hz, v, hv, hc, hlevel, -⟩ := F.exists_parent hp hr hl
  have hpz : s.parentOf p = z := G.parent_eq z hz v hv p hc
  cases v with
  | leaf entries => simp [View.children] at hc
  | inner first slots =>
      rw [hpz]
      exact ⟨hz, (G.bounds z hz).1.ne', hlevel, first, slots, hv, hc⟩

omit G in
theorem view_ne_none (F : Forest s.view root L seen loose) (hp : p ∈ L.pages) :
    s.view p ≠ none := by
  obtain ⟨v, hv, -⟩ := F.suits p hp
  simp [hv]

/-- A page that is allocated now is new to the tree. -/
theorem ne_new (hp : p ∈ L.pages) : p ≠ s.numPages := (G.bounds p hp).2.ne

/-- Only the root names no parent. -/
theorem eq_root (F : Forest s.view root L seen loose) (hp : p ∈ L.pages) (hl : p ∉ loose)
    (h : s.parentOf p = 0) : p = root := by
  by_contra hr
  exact (G.parent_mem F hp hr hl).2.1 h

end Pages

/-! ## Edits of a state -/

/-- Some pages get a new parent. -/
def State.adopt (s : State) (parent : Nat) (children : List Nat) : State :=
  { s with
    nodes := fun x => if x ∈ children then (s.nodes x).map (·.setParent parent) else s.nodes x }

@[simp] theorem Node.view_setParent : (node.setParent q).view = node.view := by
  cases node <;> rfl

@[simp] theorem Node.parent_setParent : (node.setParent q).parent = q := by
  cases node <;> rfl

@[simp] theorem Node.setParent_setParent : (node.setParent p).setParent q = node.setParent q := by
  cases node <;> rfl

theorem Node.setParent_self : node.setParent node.parent = node := by
  cases node <;> rfl

namespace State

variable {children : List Nat}

@[simp] theorem write_numPages : (s.write p node).numPages = max s.numPages (p + 1) := rfl

@[simp] theorem write_rootPage : (s.write p node).rootPage = s.rootPage := rfl

@[simp] theorem adopt_numPages : (s.adopt q children).numPages = s.numPages := rfl

@[simp] theorem adopt_rootPage : (s.adopt q children).rootPage = s.rootPage := rfl

theorem write_nodes :
    (s.write p node).nodes = Function.update s.nodes p (some node) := rfl

@[simp] theorem write_nodes_self : (s.write p node).nodes p = some node := by
  simp [write_nodes]

@[simp] theorem view_write :
    (s.write p node).view = Function.update s.view p (some node.view) := by
  funext x
  by_cases h : x = p
  · subst h
    simp [view]
  · simp [view, write_nodes, h]

@[simp] theorem view_adopt : (s.adopt q children).view = s.view := by
  funext x
  by_cases h : x ∈ children <;> simp [view, adopt, h, Function.comp_def]

theorem write_comm {node' : Node} (h : p ≠ q) :
    (s.write q node').write p node = (s.write p node).write q node' := by
  simp only [write, Function.update_comm h.symm]
  congr 1
  omega

theorem parentOf_write (x : Nat) :
    (s.write p node).parentOf x = if x = p then node.parent else s.parentOf x := by
  by_cases h : x = p
  · subst h
    simp [parentOf]
  · simp [parentOf, write_nodes, h]

/-- A write that keeps the header keeps all parents. -/
theorem parentOf_write_same (h : node.parent = s.parentOf p) (x : Nat) :
    (s.write p node).parentOf x = s.parentOf x := by
  rw [parentOf_write]
  split
  · rename_i hx
    rw [hx, h]
  · rfl

theorem parentOf_adopt {x : Nat} (h : s.view x ≠ none) :
    (s.adopt q children).parentOf x = if x ∈ children then q else s.parentOf x := by
  by_cases hx : x ∈ children
  · rcases hn : s.nodes x with _ | node
    · simp [view, hn] at h
    · simp [parentOf, adopt, hx, hn]
  · simp [parentOf, adopt, hx]

end State

/-! ## The small procedures -/

open Fuelled (bind_ok)

theorem readNode_run (h : s.nodes p = some node) : readNode p s = some (.ok node, s) := by
  rw [readNode, bind_ok (Fuelled.look_run _ _), h]
  rfl

theorem readLeaf_run (h : s.nodes p = some (.leaf parent entries)) :
    readLeaf p s = some (.ok (parent, entries), s) := by
  rw [readLeaf, bind_ok (readNode_run h)]
  rfl

theorem readInternal_run (h : s.nodes p = some (.internal parent first slots)) :
    readInternal p s = some (.ok (parent, first, slots), s) := by
  rw [readInternal, bind_ok (readNode_run h)]
  rfl

@[simp] theorem writeNode_run (s : State) (p : Nat) (node : Node) :
    writeNode p node s = some (.ok (), s.write p node) := rfl

@[simp] theorem allocatePage_run (s : State) :
    allocatePage s = some (.ok s.numPages, s.write s.numPages .zero) := rfl

/-- A page that has the parent already is adopted without a write. -/
theorem setParentPointer_run (hview : s.view p ≠ none) (hp : p < s.numPages) :
    setParentPointer p q s = some (.ok (), s.adopt q [p]) := by
  rcases h : s.nodes p with _ | node
  · simp [State.view, h] at hview
  rw [setParentPointer, bind_ok (readNode_run h)]
  by_cases hq : node.parent = q
  · rw [if_pos hq]
    have hself : s.adopt q [p] = s := by
      have hnodes : (s.adopt q [p]).nodes = s.nodes := by
        funext x
        by_cases hx : x = p
        · subst hx
          simp [State.adopt, h, ← hq, Node.setParent_self]
        · simp [State.adopt, hx]
      cases s
      simpa [State.adopt] using hnodes
    rw [hself]
    rfl
  · rw [if_neg hq]
    have hwrite : s.write p (node.setParent q) = s.adopt q [p] := by
      have hnodes : (s.write p (node.setParent q)).nodes = (s.adopt q [p]).nodes := by
        funext x
        by_cases hx : x = p
        · subst hx
          simp [State.adopt, h]
        · simp [State.adopt, State.write_nodes, hx]
      have hnum : max s.numPages (p + 1) = s.numPages := by omega
      simpa [State.write, State.adopt, hnum] using hnodes
    rw [writeNode_run, hwrite]

theorem setParentPointers_run {children : List Nat}
    (h : ∀ c ∈ children, s.view c ≠ none ∧ c < s.numPages) :
    setParentPointers q children s = some (.ok (), s.adopt q children) := by
  induction children generalizing s with
  | nil => simp [setParentPointers, State.adopt]
  | cons c children ih =>
      obtain ⟨hview, hlt⟩ := h c (by simp)
      rw [setParentPointers, bind_ok (setParentPointer_run hview hlt)]
      rw [ih fun x hx => by simpa using h x (by simp [hx])]
      have hnodes : ((s.adopt q [c]).adopt q children).nodes = (s.adopt q (c :: children)).nodes := by
        funext x
        by_cases hx : x = c <;> by_cases hxc : x ∈ children <;>
          simp [State.adopt, hx, hxc, Function.comp_def]
      simpa [State.adopt] using hnodes

theorem findDataEndFrom_eq : ∀ (es : List Entry) (i offset : Nat),
    offset + (es.map fun e => entrySize e.2).sum ≤ pageSize →
      findDataEndFrom i offset es = .ok (offset + (es.map fun e => entrySize e.2).sum)
  | [], _, _, _ => rfl
  | (k, d) :: es, i, offset, h => by
      simp only [List.map_cons, List.sum_cons] at h ⊢
      have h₁ : ¬ pageSize < offset + 12 := by
        have : entrySize d = 12 + d.length := rfl
        omega
      have h₂ : ¬ pageSize < offset + entrySize d := by omega
      rw [findDataEndFrom, if_neg h₁, if_neg h₂, findDataEndFrom_eq es _ _ (by omega), add_assoc]

theorem findDataEnd_run (h : dataEnd entries ≤ pageSize) :
    findDataEnd entries s = some (.ok (dataEnd entries), s) := by
  rw [findDataEnd, findDataEndFrom_eq entries 0 headerSize h]
  rfl

/-! ## Looking for a leaf -/

/-- The child a key is routed to is the one whose range it is in. -/
theorem route_covers {f g : Nat → Bound Int64} {lo hi : Bound Int64}
    (h : Tiles f g lo first slots hi) (hlo : lo ≤ Bound.key key) (hhi : Bound.key key < hi) :
    route key first slots ∈ first :: slots.map (·.2) ∧
      f (route key first slots) ≤ Bound.key key ∧ Bound.key key < g (route key first slots) := by
  induction slots generalizing lo first with
  | nil =>
      obtain ⟨hf, hg, -⟩ := h
      exact ⟨by simp [route], by simpa [route, hf] using hlo, by simpa [route, hg] using hhi⟩
  | cons e slots ih =>
      obtain ⟨k, d⟩ := e
      obtain ⟨hf, hg, -, hrest⟩ := h
      by_cases hk : key < k
      · rw [route, if_pos hk]
        exact ⟨by simp, by rw [hf]; exact hlo, by rw [hg]; simpa using hk⟩
      · rw [route, if_neg hk]
        obtain ⟨hmem, hle, hlt⟩ := ih hrest (by simpa using hk)
        exact ⟨by simpa using Or.inr (by simpa using hmem), hle, hlt⟩

/-- A leaf of the tree, and a key in its range. -/
structure LeafOf (s : State) (L : Layout Int64 Nat) (key : Int64) (leafId parent : Nat)
    (entries : List Entry) : Prop where
  mem : leafId ∈ L.pages
  node_eq : s.nodes leafId = some (.leaf parent entries)
  lo_le : L.lo leafId ≤ Bound.key key
  lt_hi : Bound.key key < L.hi leafId

namespace Tree

variable (T : Tree least s root L)
include T

theorem findLeaf_run {fuel : Nat} (hp : p ∈ L.pages) (hlo : L.lo p ≤ Bound.key key)
    (hhi : Bound.key key < L.hi p) (hfuel : L.level p < fuel) :
    ∃ leafId parent entries, findLeaf fuel p key s = some (.ok leafId, s) ∧
      LeafOf s L key leafId parent entries := by
  induction fuel generalizing p with
  | zero => omega
  | succ fuel ih =>
      obtain ⟨v, hv, hS⟩ := T.whole.suits p hp
      cases v with
      | leaf entries =>
          obtain ⟨parent, hn⟩ := State.view_eq_leaf.mp hv
          refine ⟨p, parent, entries, ?_, hp, hn, hlo, hhi⟩
          rw [findLeaf, bind_ok (readNode_run hn)]
          rfl
      | inner first slots =>
          obtain ⟨parent, hn⟩ := State.view_eq_inner.mp hv
          obtain ⟨hmem, hle, hlt⟩ := route_covers hS.2 hlo hhi
          obtain ⟨hpage, hlevel⟩ := hS.1 _ hmem
          obtain ⟨leafId, q, entries, hrun, hleaf⟩ := ih hpage hle hlt (by omega)
          refine ⟨leafId, q, entries, ?_, hleaf⟩
          rw [findLeaf, bind_ok (readNode_run hn)]
          exact hrun

/-- From the root every key finds its leaf. -/
theorem findLeaf_root {fuel : Nat} (key : Int64) (hfuel : L.level root < fuel) :
    ∃ leafId parent entries, findLeaf fuel root key s = some (.ok leafId, s) ∧
      LeafOf s L key leafId parent entries :=
  T.findLeaf_run T.whole.root_mem (by rw [T.whole.root_lo]; exact bot_le)
    (by rw [T.whole.root_hi]; exact key_lt_top) hfuel

end Tree

namespace LeafOf

variable (H : LeafOf s L key p parent entries)
include H

theorem view_eq : s.view p = some (.leaf entries) := State.view_eq_leaf.mpr ⟨_, H.node_eq⟩

theorem within (T : Tree least s root L) :
    L.level p = 0 ∧ Within (L.lo p) (L.hi p) entries :=
  Forest.suits_of T.whole H.mem H.view_eq

theorem fits (T : Tree least s root L) : dataEnd entries ≤ pageSize :=
  T.pages.fits p H.mem _ H.view_eq

/-- The key is stored exactly when it is in this leaf. -/
theorem holds_iff (T : Tree least s root L) : L.Holds s.view (key, data) ↔ (key, data) ∈ entries :=
  Whole.holds_iff T.whole H.mem H.view_eq H.lo_le H.lt_hi

omit H in
theorem view_write (es : List Entry) : (s.write p (.leaf parent es)).view =
    Function.update s.view p (some (.leaf es)) := by
  simp [Node.view]

theorem numPages_write (T : Tree least s root L) :
    (s.write p node).numPages = s.numPages := by
  have := (T.pages.bounds p H.mem).2
  simp only [State.write_numPages]
  omega

theorem parentOf_write {es : List Entry} (x : Nat) :
    (s.write p (.leaf parent es)).parentOf x = s.parentOf x := by
  refine State.parentOf_write_same ?_ x
  exact (State.parentOf_eq H.node_eq).symm

theorem tree_write (T : Tree least s root L) {es : List Entry}
    (hW : Within (L.lo p) (L.hi p) es) (hfit : dataEnd es ≤ pageSize) :
    Tree least (s.write p (.leaf parent es)) root L := by
  have hview : (s.write p (.leaf parent es)).view = Function.update s.view p (some (.leaf es)) :=
    view_write es
  refine ⟨?_, ?_, ?_, ?_, ?_⟩
  · rw [hview]
    exact Whole.replace T.whole H.mem H.view_eq ⟨(H.within T).1, hW⟩ fun c hc => by
      simp [View.children] at hc
  · rw [H.parentOf_write]
    exact T.pages.root_parent
  · intro x hx v hv c hc
    rw [H.parentOf_write]
    rw [hview] at hv
    rcases eq_or_ne x p with rfl | hxp
    · rw [Function.update_self] at hv
      cases hv
      simp [View.children] at hc
    · rw [Function.update_of_ne hxp] at hv
      exact T.pages.parent_eq x hx v hv c hc
  · rw [H.numPages_write T]
    exact T.pages.bounds
  · intro x hx v hv
    rw [hview] at hv
    rcases eq_or_ne x p with rfl | hxp
    · rw [Function.update_self] at hv
      cases hv
      exact hfit
    · rw [Function.update_of_ne hxp] at hv
      exact T.pages.fits x hx v hv

/-- The entries of the other leaves stay. -/
theorem holds_write (T : Tree least s root L) {es : List Entry} (e : Entry) :
    L.Holds (s.write p (.leaf parent es)).view e ↔ e ∈ es ∨ L.Holds s.view e ∧ e ∉ entries := by
  rw [view_write]
  constructor
  · rintro ⟨x, hx, es', hv, he⟩
    rcases eq_or_ne x p with rfl | hxp
    · rw [Function.update_self] at hv
      cases hv
      exact .inl he
    · rw [Function.update_of_ne hxp] at hv
      refine .inr ⟨⟨x, hx, es', hv, he⟩, fun hep => hxp ?_⟩
      -- an entry is in one leaf only
      obtain ⟨hlx, hWx⟩ := Forest.suits_of T.whole hx hv
      obtain ⟨hlp, hWp⟩ := H.within T
      exact Whole.covering T.whole hx H.mem (hlx.trans hlp.symm)
        ⟨hWx.lo_le e he, hWx.lt_hi e he⟩ ⟨hWp.lo_le e hep, hWp.lt_hi e hep⟩
  · rintro (he | ⟨⟨x, hx, es', hv, he⟩, hne⟩)
    · exact ⟨p, H.mem, es, Function.update_self .., he⟩
    · rcases eq_or_ne x p with rfl | hxp
      · rw [H.view_eq] at hv
        cases hv
        exact absurd he hne
      · exact ⟨x, hx, es', by rw [Function.update_of_ne hxp]; exact hv, he⟩

end LeafOf

/-! ## Height -/

/-- Every height below a page occurs. -/
theorem Tree.exists_level (T : Tree least s root L) (n : Nat) (hn : n ≤ L.level root) :
    ∃ p ∈ L.pages, L.level p = n := by
  induction hd : L.level root - n generalizing n with
  | zero => exact ⟨root, T.whole.root_mem, by omega⟩
  | succ d ih =>
      obtain ⟨p, hp, hlevel⟩ := ih (n + 1) (by omega) (by omega)
      obtain ⟨v, hv, hS⟩ := T.whole.suits p hp
      cases v with
      | leaf entries =>
          have := hS.1
          omega
      | inner first slots =>
          obtain ⟨hc, hlc⟩ := hS.1 first (by simp)
          exact ⟨first, hc, by omega⟩

/-- A tree is lower than the number of its pages. -/
theorem Tree.level_lt (T : Tree least s root L) : L.level root < s.numPages := by
  choose! f hf hlevel using fun n => T.exists_level n
  have hmaps : ∀ n ∈ Finset.range (L.level root + 1), f n ∈ Finset.range s.numPages := by
    intro n hn
    have hle : n ≤ L.level root := by simpa [Nat.lt_succ_iff] using hn
    simpa using (T.pages.bounds _ (hf n hle)).2
  have hinj : Set.InjOn f (Finset.range (L.level root + 1)) := by
    intro m hm n hn h
    have hm' : m ≤ L.level root := by simpa [Nat.lt_succ_iff] using hm
    have hn' : n ≤ L.level root := by simpa [Nat.lt_succ_iff] using hn
    rw [← hlevel m hm', ← hlevel n hn', h]
  have := Finset.card_le_card_of_injOn f hmaps hinj
  simp only [Finset.card_range] at this
  omega

end VelociDB.BTree
