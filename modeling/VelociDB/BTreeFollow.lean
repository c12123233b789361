/-
# The pages follow the nodes

`File.state f` is the state of nodes that the pages of `f` show.  Every procedure of
`BTreeBytes` follows the procedure of the same name over nodes (`BTree`): what the nodes
return, the pages return, and the pages left behind show the nodes left behind.

What the nodes do not speak of is `seen` as nothing: a page read as the other kind of node,
and a page that is no node.

A child pointer takes eight bytes, so a procedure that allocates follows only up to `2 ^ 64`
pages (`Small`); a delete allocates nothing and follows freely.
-/
import VelociDB.BTreeLayout
import VelociDB.BTreeFill
import VelociDB.Lib.Follow

namespace VelociDB.BTree.Pages

open Bytes SchemaCodec Fuelled

/-- The nodes in the pages. -/
def File.state (f : File) : State := ⟨fun p => f.pages[p]?.bind nodeOf, f.pages.length, f.rootPage⟩

/-- How a failure over nodes shows on the pages.  `not_found` is a page that is no node. -/
def seen : Halt → Option Fault
  | .misread => none
  | .fault (.error (.notFound _)) => none
  | .fault f => some f

/-- Every page has a number that eight bytes can hold. -/
def Small (s : State) : Prop := s.numPages ≤ 2 ^ 64

/-- The pages of `f` do what the nodes do. -/
abbrev Refined {α : Type} (x : BTreeM α) (y : FileM α) (f : File) : Prop := Free File.state seen x y f

/-- The same, as long as page numbers fit. -/
abbrev RefinedSmall {α : Type} (x : BTreeM α) (y : FileM α) (f : File) : Prop :=
  Follows File.state seen Small x y f

variable {α β : Type} {ok : State → Prop} {f f' : File} {p child left right : Nat}
  {node : Node} {page : Page} {header : NodeHeader} {key : Int64} {data : Bytes}
  {entries : List Entry} {slots : List Slot} {x : BTreeM α}

/-! ## The state a file shows -/

@[simp] theorem File.state_numPages : f.state.numPages = f.pages.length := rfl

@[simp] theorem File.state_rootPage : f.state.rootPage = f.rootPage := rfl

theorem File.nodes_eq (h : f.pages[p]? = some page) : f.state.nodes p = nodeOf page := by
  show f.pages[p]?.bind nodeOf = _
  rw [h]
  rfl

theorem File.exists_page (h : f.state.nodes p = some node) :
    ∃ page, f.pages[p]? = some page ∧ Image page node := by
  obtain ⟨page, hpage, hnode⟩ := Option.bind_eq_some_iff.mp h
  exact ⟨page, hpage, nodeOf_eq_some.mp hnode⟩

theorem File.lt_of_node (h : f.state.nodes p = some node) : p < f.pages.length := by
  obtain ⟨page, hpage, -⟩ := File.exists_page h
  exact (List.getElem?_eq_some_iff.mp hpage).1

/-- A page is written. -/
def File.withPage (f : File) (p : Nat) (page : Page) : File := { f with pages := f.pages.set p page }

@[simp] theorem File.withPage_length : (f.withPage p page).pages.length = f.pages.length :=
  List.length_set ..

theorem File.state_withPage (hp : p < f.pages.length) (himg : Image page node) :
    (f.withPage p page).state = f.state.write p node := by
  have hnodes : (f.withPage p page).state.nodes = Function.update f.state.nodes p (some node) := by
    funext q
    show (f.pages.set p page)[q]?.bind nodeOf = _
    by_cases hq : q = p
    · subst hq
      rw [Function.update_self, List.getElem?_set_self hp]
      exact nodeOf_eq_some.mpr himg
    · rw [Function.update_of_ne hq, List.getElem?_set_ne (Ne.symm hq)]
      rfl
  have hnum : (f.withPage p page).state.numPages = max f.state.numPages (p + 1) := by
    simp only [File.state_numPages, File.withPage_length]
    omega
  show State.mk (f.withPage p page).state.nodes (f.withPage p page).state.numPages f.rootPage = _
  rw [hnodes, hnum]
  rfl

/-- A page of zeros is added. -/
def File.grown (f : File) : File := { f with pages := f.pages ++ [Page.new] }

@[simp] theorem File.grown_length : f.grown.pages.length = f.pages.length + 1 := by
  simp [File.grown]

theorem File.state_grown : f.grown.state = f.state.write f.state.numPages .zero := by
  have hnodes : f.grown.state.nodes =
      Function.update f.state.nodes f.state.numPages (some .zero) := by
    funext q
    show (f.pages ++ [Page.new])[q]?.bind nodeOf = _
    by_cases hq : q = f.pages.length
    · subst hq
      rw [File.state_numPages, Function.update_self, List.getElem?_concat_length]
      exact nodeOf_eq_some.mpr image_new
    · rw [File.state_numPages, Function.update_of_ne hq]
      rcases Nat.lt_or_gt_of_ne hq with hlt | hgt
      · rw [List.getElem?_append_left hlt]
        rfl
      · have hout : (f.pages ++ [Page.new])[q]? = none :=
          List.getElem?_eq_none (by simp only [List.length_append, List.length_singleton]; omega)
        have hin : f.state.nodes q = none := by
          show f.pages[q]?.bind nodeOf = none
          rw [List.getElem?_eq_none (by omega)]
          rfl
        rw [hout, hin]
        rfl
  have hnum : f.grown.state.numPages = max f.state.numPages (f.state.numPages + 1) := by
    simp only [File.state_numPages, File.grown_length]
    omega
  show State.mk f.grown.state.nodes f.grown.state.numPages f.rootPage = _
  rw [hnodes, hnum]
  rfl

/-! ## Steps -/

theorem readPage_run (h : f.pages[p]? = some page) :
    reading (readPage p) f = some (.ok page, f) := by
  rw [reading, readPage_some h]
  rfl

theorem done_run (r : Except Fault α) : done r f = some (r, f) := rfl

theorem newPage_run : newPage f = some (.ok f.pages.length, f.grown) := rfl

theorem writePage_run : writePage p page f = some (.ok (), f.withPage p page) := rfl

/-- A step over the bytes of a page. -/
theorem refined_done {r : Except Fault β} {b : β} {g : β → FileM α} (h : r = .ok b)
    (hg : Follows File.state seen ok x (g b) f) : Follows File.state seen ok x (done r >>= g) f :=
  .skip (by rw [done_run, h]) hg

theorem readNode_missing {s : State} (h : s.nodes p = none) : readNode p s =
    some (.error (.fault (.error (.notFound ("Page " ++ toString p ++ " out of bounds")))), s) := by
  rw [readNode, Fuelled.bind_ok (look_run _ _), h]
  rfl

/-- A page is read as a node. -/
theorem refined_readNode {k : Node → BTreeM α} {g : Page → FileM α}
    (h : ∀ node page, f.state.nodes p = some node → Image page node →
      Follows File.state seen ok (k node) (g page) f) :
    Follows File.state seen ok (readNode p >>= k) (reading (readPage p) >>= g) f := by
  rcases hn : f.state.nodes p with _ | node
  · exact .unseen_bind (readNode_missing hn) rfl
  · obtain ⟨page, hpage, himg⟩ := File.exists_page hn
    exact .step (readNode_run hn) (readPage_run hpage) (h node page hn himg)

theorem refined_readLeaf {k : Nat × List Entry → BTreeM α} {g : Page → FileM α}
    (h : ∀ parent entries page, f.state.nodes p = some (.leaf parent entries) →
      Laid page ⟨1, entries.length, parent⟩ (entries.flatMap encodeEntry) →
      Follows File.state seen ok (k (parent, entries)) (g page) f) :
    Follows File.state seen ok (readLeaf p >>= k) (reading (readPage p) >>= g) f := by
  rcases hn : f.state.nodes p with _ | node
  · exact .unseen_bind (bind_error (readNode_missing hn)) rfl
  · obtain ⟨page, hpage, himg⟩ := File.exists_page hn
    cases himg with
    | leaf hlaid => exact .step (readLeaf_run hn) (readPage_run hpage) (h _ _ _ hn hlaid)
    | internal =>
        refine .unseen_bind (e := .misread) (s := f.state) ?_ rfl
        rw [readLeaf, Fuelled.bind_ok (readNode_run hn)]
        rfl

theorem refined_readInternal {k : Nat × Nat × List Slot → BTreeM α} {g : Page → FileM α}
    (h : ∀ tag parent first slots page, f.state.nodes p = some (.internal parent first slots) →
      tag ≠ 1 → first < 2 ^ 64 → (∀ s ∈ slots, s.2 < 2 ^ 64) →
      Laid page ⟨tag, slots.length, parent⟩ (leBytes 8 first ++ slots.flatMap encodeSlot) →
      Follows File.state seen ok (k (parent, first, slots)) (g page) f) :
    Follows File.state seen ok (readInternal p >>= k) (reading (readPage p) >>= g) f := by
  rcases hn : f.state.nodes p with _ | node
  · exact .unseen_bind (bind_error (readNode_missing hn)) rfl
  · obtain ⟨page, hpage, himg⟩ := File.exists_page hn
    cases himg with
    | leaf =>
        refine .unseen_bind (e := .misread) (s := f.state) ?_ rfl
        rw [readInternal, Fuelled.bind_ok (readNode_run hn)]
        rfl
    | internal htag hfirst hslots hlaid =>
        exact .step (readInternal_run hn) (readPage_run hpage)
          (h _ _ _ _ _ hn htag hfirst hslots hlaid)

/-- A node is written. -/
theorem refined_write {k : Unit → BTreeM α} {g : Unit → FileM α} (hp : p < f.pages.length)
    (himg : Image page node)
    (h : Follows File.state seen ok (k ()) (g ()) (f.withPage p page)) :
    Follows File.state seen ok (writeNode p node >>= k) (writePage p page >>= g) f :=
  .step (by rw [writeNode_run, File.state_withPage hp himg]) writePage_run h

/-- A node is written last. -/
theorem refined_write_last (hp : p < f.pages.length) (himg : Image page node) :
    Follows File.state seen ok (writeNode p node) (writePage p page) f :=
  .both_return (by rw [writeNode_run, File.state_withPage hp himg]) writePage_run

/-- A page is allocated. -/
theorem refined_allocate {k : Nat → BTreeM α} {g : Nat → FileM α}
    (h : Follows File.state seen ok (k f.pages.length) (g f.pages.length) f.grown) :
    Follows File.state seen ok (allocatePage >>= k) (newPage >>= g) f :=
  .step (by rw [allocatePage_run, File.state_grown]; rfl) newPage_run h

/-- The handle's root changes. -/
theorem refined_root (root : Nat) : Follows File.state seen ok
    (change fun s => { s with rootPage := root }) (change fun f => { f with rootPage := root }) f :=
  .both_return (change_run ..) (change_run ..)

/-! ## Loops of an insert -/

section Loops

variable {bytes rest : Bytes} {o i first : Nat}

theorem dataEndLoop_at (h : At bytes o (entries.flatMap encodeEntry ++ rest))
    (hsize : ∀ e ∈ entries, e.2.length < 2 ^ 32) (hbytes : bytes.length = pageSize) :
    dataEndLoop bytes entries.length i o = .ok (o + (entries.map fun e => entrySize e.2).sum) := by
  induction entries generalizing o i with
  | nil => rfl
  | cons e entries ih =>
      obtain ⟨key, data⟩ := e
      rw [List.flatMap_cons, List.append_assoc] at h
      have hend := h.length
      obtain ⟨-, hlen, -, h'⟩ := readEntry_at h (hsize _ List.mem_cons_self)
      rw [List.length_append, length_encodeEntry, entrySize] at hend
      dsimp only at hend
      rw [List.length_cons, dataEndLoop, if_neg (by omega), if_neg (by omega), hlen, ok_bind_fault,
        if_neg (by omega), ih h' fun e he => hsize e (List.mem_cons_of_mem _ he)]
      simp only [List.map_cons, List.sum_cons, entrySize]
      rw [Nat.add_assoc]

/-- `find_data_end` finds the end of the entries. -/
theorem findDataEnd_laid (h : Laid page header (entries.flatMap encodeEntry))
    (hnum : header.numKeys = entries.length) :
    Pages.findDataEnd header page.data = .ok (dataEnd entries) := by
  obtain ⟨junk, hat⟩ := h.at_start
  rw [Pages.findDataEnd, hnum, dataEndLoop_at hat h.sizes (Page.length page)]
  rfl

/-- The insertion point is before the first greater key. -/
theorem insertOffset_at (key : Int64) (data : Bytes)
    (h : At bytes o (entries.flatMap encodeEntry ++ rest))
    (hsize : ∀ e ∈ entries, e.2.length < 2 ^ 32) :
    ∃ pre post, entries = pre ++ post ∧ insertEntry key data entries = pre ++ (key, data) :: post ∧
      insertOffset bytes key entries.length o = .ok (o + (pre.flatMap encodeEntry).length) := by
  induction entries generalizing o with
  | nil => exact ⟨[], [], rfl, rfl, rfl⟩
  | cons e entries ih =>
      obtain ⟨storedKey, stored⟩ := e
      rw [List.flatMap_cons, List.append_assoc] at h
      obtain ⟨hkey, hlen, -, h'⟩ := readEntry_at h (hsize _ List.mem_cons_self)
      by_cases hlt : key < storedKey
      · refine ⟨[], (storedKey, stored) :: entries, rfl, by rw [insertEntry, if_pos hlt]; rfl, ?_⟩
        rw [List.length_cons, insertOffset, hkey, ok_bind_fault, hlen, ok_bind_fault, if_pos hlt]
        rfl
      · obtain ⟨pre, post, heq, hins, hoff⟩ :=
          ih h' fun e he => hsize e (List.mem_cons_of_mem _ he)
        refine ⟨(storedKey, stored) :: pre, post, by rw [heq]; rfl, ?_, ?_⟩
        · rw [insertEntry, if_neg hlt, hins]
          rfl
        · rw [List.length_cons, insertOffset, hkey, ok_bind_fault, hlen, ok_bind_fault,
            if_neg hlt, hoff, List.flatMap_cons, List.length_append, length_encodeEntry, entrySize,
            Nat.add_assoc]

/-- The child to go on with. -/
theorem routeLoop_at (h : At bytes o (slots.flatMap encodeSlot ++ rest))
    (hslots : ∀ s ∈ slots, s.2 < 2 ^ 64) :
    routeLoop bytes key slots.length o child = .ok (route key child slots) := by
  induction slots generalizing o child with
  | nil => rfl
  | cons s slots ih =>
      obtain ⟨storedKey, nextChild⟩ := s
      rw [List.flatMap_cons, List.append_assoc] at h
      obtain ⟨hkey, hchild, h'⟩ := readSlot_at h (hslots _ List.mem_cons_self)
      rw [List.length_cons, routeLoop, hkey, ok_bind_fault, hchild, ok_bind_fault, route]
      split
      · rfl
      · exact ih h' fun s hs => hslots s (List.mem_cons_of_mem _ hs)

/-- The pair goes before the first greater key. -/
theorem insertIndex_at (key : Int64) (child : Nat)
    (h : At bytes o (slots.flatMap encodeSlot ++ rest)) (hslots : ∀ s ∈ slots, s.2 < 2 ^ 64) :
    ∃ pre post, slots = pre ++ post ∧
      insertSlot (fun k => decide (key < k)) (key, child) slots = pre ++ (key, child) :: post ∧
      insertIndex bytes key slots.length i o = .ok (i + pre.length) := by
  induction slots generalizing o i with
  | nil => exact ⟨[], [], rfl, rfl, rfl⟩
  | cons s slots ih =>
      obtain ⟨storedKey, nextChild⟩ := s
      rw [List.flatMap_cons, List.append_assoc] at h
      obtain ⟨hkey, -, h'⟩ := readSlot_at h (hslots _ List.mem_cons_self)
      by_cases hlt : key < storedKey
      · refine ⟨[], (storedKey, nextChild) :: slots, rfl, ?_, ?_⟩
        · rw [insertSlot, if_pos (decide_eq_true hlt)]
          rfl
        · rw [List.length_cons, insertIndex, hkey, ok_bind_fault, if_pos hlt]
          rfl
      · obtain ⟨pre, post, heq, hins, hidx⟩ :=
          ih (i := i + 1) h' fun s hs => hslots s (List.mem_cons_of_mem _ hs)
        refine ⟨(storedKey, nextChild) :: pre, post, by rw [heq]; rfl, ?_, ?_⟩
        · rw [insertSlot, if_neg (by simpa using hlt), hins]
          rfl
        · rw [List.length_cons, insertIndex, hkey, ok_bind_fault, if_neg hlt, hidx,
            List.length_cons]
          congr 1
          omega

end Loops

/-- The keys and the children of an internal node. -/
theorem Laid.parse {first : Nat} (h : Laid page header (leBytes 8 first ++ slots.flatMap encodeSlot))
    (hnum : header.numKeys = slots.length) (hfirst : first < 2 ^ 64)
    (hslots : ∀ s ∈ slots, s.2 < 2 ^ 64) : parseInternalNode page.data header =
      .ok (slots.map (·.1), first :: slots.map (·.2)) := by
  rw [parseInternalNode, h.readFirst hfirst, ok_bind_fault, hnum, h.readSlots hslots]
  rfl

/-- A pair put where `split_internal_node` puts it. -/
theorem insertSlot_eq_insertIdx (key : Int64) (child first : Nat) (slots : List Slot) :
    (slots.map (·.1)).insertIdx
        ((slots.map (·.1)).takeWhile fun k => decide (k < key)).length key =
      (insertSlot (fun k => !decide (k < key)) (key, child) slots).map (·.1) ∧
    (first :: slots.map (·.2)).insertIdx
        (((slots.map (·.1)).takeWhile fun k => decide (k < key)).length + 1) child =
      first :: (insertSlot (fun k => !decide (k < key)) (key, child) slots).map (·.2) := by
  induction slots generalizing first with
  | nil => exact ⟨rfl, rfl⟩
  | cons s slots ih =>
      obtain ⟨storedKey, nextChild⟩ := s
      by_cases hlt : storedKey < key
      · obtain ⟨hkeys, hchildren⟩ := ih nextChild
        constructor
        · simp [insertSlot, hlt, hkeys]
        · simp [insertSlot, hlt] at hchildren ⊢
          exact hchildren
      · constructor <;> simp [insertSlot, hlt]

/-! ## Insert -/

/-- The page of a node with another parent. -/
theorem Image.setParent (himg : Image page node) (hhead : NodeHeader.deserialize page.data = .ok header)
    {q : Nat} (hq : q < 2 ^ 32) : ∃ page', { header with parent := q }.serialize page = .ok page' ∧
      Image page' (node.setParent q) := by
  cases himg with
  | leaf h =>
      obtain rfl := Except.ok.inj (h.deserialize.symm.trans hhead)
      obtain ⟨page', hser, h'⟩ := h.serialize ⟨_, _, q⟩ ⟨h.fits.nodeType, h.fits.numKeys, hq⟩
      exact ⟨page', hser, .leaf h'⟩
  | internal htag hfirst hslots h =>
      obtain rfl := Except.ok.inj (h.deserialize.symm.trans hhead)
      obtain ⟨page', hser, h'⟩ := h.serialize ⟨_, _, q⟩ ⟨h.fits.nodeType, h.fits.numKeys, hq⟩
      exact ⟨page', hser, .internal htag hfirst hslots h'⟩

theorem Image.deserialize (himg : Image page node) : ∃ header,
    NodeHeader.deserialize page.data = .ok header ∧ header.parent = node.parent ∧
      header.numKeys = node.numKeys := by
  cases himg with
  | leaf h => exact ⟨_, h.deserialize, rfl, rfl⟩
  | internal htag hfirst hslots h => exact ⟨_, h.deserialize, rfl, rfl⟩

theorem parentField_lt (p : Nat) : parentField p < 2 ^ 32 := Nat.mod_lt _ (by decide)

theorem refined_setParentPointer (p : Nat) {q : Nat} (hq : q < 2 ^ 32) (f : File) :
    Refined (BTree.setParentPointer p q) (setParentPointer p q) f := by
  refine refined_readNode fun node page hn himg => ?_
  obtain ⟨header, hhead, hparent, -⟩ := himg.deserialize
  refine refined_done hhead ?_
  rw [hparent]
  refine .ite (fun _ => follows_pure _ _) fun _ => ?_
  obtain ⟨page', hser, himg'⟩ := himg.setParent hhead hq
  exact refined_done hser (refined_write_last (File.lt_of_node hn) himg')

theorem refined_setParentPointers {q : Nat} (hq : q < 2 ^ 32) (pages : List Nat) (f : File) :
    Refined (BTree.setParentPointers q pages) (setParentPointers q pages) f := by
  induction pages generalizing f with
  | nil => exact follows_pure _ _
  | cons p pages ih => exact .bind (refined_setParentPointer p hq f) fun _ f' _ => ih f'

theorem refined_splitLeafNode (p : Nat) (f : File) :
    Refined (BTree.splitLeafNode p) (splitLeafNode p) f := by
  refine refined_readLeaf fun parent entries page hn hlaid => ?_
  have hp : p < f.grown.pages.length := by
    rw [File.grown_length]
    exact Nat.lt_succ_of_lt (File.lt_of_node hn)
  have hfit : dataEnd entries ≤ pageSize := by
    rw [← length_encodeEntries]
    exact hlaid.size
  refine refined_done hlaid.deserialize (refined_done hlaid.readEntries ?_)
  dsimp only
  rcases entries[splitIndex entries]? with _ | ⟨splitKey, stored⟩
  · exact .both_fail rfl rfl (done_run _)
  · refine refined_allocate ?_
    obtain ⟨left₁, left₂, hput, hser, hleft⟩ := exists_leafPage
      ((dataEnd_take_le entries (splitIndex entries)).trans hfit) hlaid.fits.parent
    obtain ⟨right₁, right₂, hput', hser', hright⟩ := exists_leafPage
      ((dataEnd_drop_le entries (splitIndex entries)).trans hfit) (show 0 < 2 ^ 32 by decide)
    refine refined_done hput (refined_done hser (refined_write hp hleft ?_))
    refine refined_done hput' (refined_done hser' (refined_write ?_ hright (follows_pure _ _)))
    rw [File.withPage_length, File.grown_length]
    exact Nat.lt_succ_self _

theorem refined_createNewRoot {left right : Nat} (hleft : left < 2 ^ 64) (hright : right < 2 ^ 64)
    (key : Int64) (f : File) :
    Refined (BTree.createNewRoot left right key) (createNewRoot left right key) f := by
  refine refined_allocate ?_
  obtain ⟨page₁, page₂, gap, hser, hput, hgap, h₂⟩ := exists_internalPage (n := 1) left
    (show 0 < 2 ^ 8 by decide) (by rw [pageSize_eq]; decide) (show 0 < 2 ^ 32 by decide)
  have h₂' : Laid page₂ ⟨0, 1, 0⟩ (leBytes 8 left ++ (gap ++ [])) := by simpa using h₂
  obtain ⟨page₃, hslot, h₃⟩ := h₂'.putSlot key right hgap
  rw [length_leBytes] at hslot
  have himg : Image page₃ (.internal 0 left [(key, right)]) :=
    .internal (show 0 ≠ 1 by decide) hleft (by simpa using hright) (by simpa using h₃)
  refine refined_done hser (refined_done hput (refined_done hslot (refined_write ?_ himg ?_)))
  · rw [File.grown_length]
    exact Nat.lt_succ_self _
  · exact .bind (refined_setParentPointer _ (parentField_lt _) _) fun _ f₁ _ =>
      .bind (refined_setParentPointer _ (parentField_lt _) _) fun _ f₂ _ => follows_pure _ _

section Internal

variable {up : Nat → Nat → Int64 → BTreeM (Option Nat)}
  {up' : Nat → Nat → Int64 → FileM (Option Nat)}

/-- What is asked of the call that goes up the tree. -/
structure GoesUp (up : Nat → Nat → Int64 → BTreeM (Option Nat))
    (up' : Nat → Nat → Int64 → FileM (Option Nat)) : Prop where
  steady : ∀ l r k, Fuelled.Keeps Steady (up l r k)
  refined : ∀ {l r : Nat}, l < 2 ^ 64 → r < 2 ^ 64 → ∀ k f, RefinedSmall (up l r k) (up' l r k) f

/-- A procedure that only adds pages does not get back below `2 ^ 64` of them. -/
theorem small_of_steady {x : BTreeM α} (h : Fuelled.Keeps Steady x) :
    Fuelled.Keeps (fun s s' => Small s' → Small s) x :=
  fun s r s' hrun hs => Nat.le_trans (h s r s' hrun).1 hs

theorem never_small {x : BTreeM α} {y : FileM α} (h : Fuelled.Keeps Steady x)
    (hf : ¬ Small f.state) : RefinedSmall x y f :=
  .never fun _ _ hrun hs => hf (small_of_steady h _ _ _ hrun hs)

theorem refined_splitInternalNode (hup : GoesUp up up') {p right : Nat} (hp : p < 2 ^ 64)
    (hright : right < 2 ^ 64) (key : Int64) (f : File) :
    RefinedSmall (BTree.splitInternalNode up p right key) (splitInternalNode up' p right key) f := by
  refine refined_readInternal fun tag parent first slots page hn htag hfirst hslots hlaid => ?_
  have hlt := File.lt_of_node hn
  refine refined_done hlaid.deserialize (refined_done (hlaid.parse rfl hfirst hslots) ?_)
  obtain ⟨hkeys, hchildren⟩ := insertSlot_eq_insertIdx key right first slots
  have hlen := insertSlot_length (fun k => !decide (k < key)) (key, right) slots
  have hsize := hlaid.size
  rw [List.length_append, length_leBytes, length_encodeSlots] at hsize
  have hmem : ∀ s ∈ insertSlot (fun k => !decide (k < key)) (key, right) slots, s.2 < 2 ^ 64 := by
    intro s hs
    rcases mem_insertSlot.mp hs with rfl | hs
    · exact hright
    · exact hslots s hs
  dsimp only
  rw [hkeys, hchildren, List.length_map]
  generalize insertSlot (fun k => !decide (k < key)) (key, right) slots = all at hlen hmem ⊢
  have hdropMem : ∀ s ∈ all.drop (all.length / 2), s.2 < 2 ^ 64 :=
    fun s hs => hmem s (List.mem_of_mem_drop hs)
  have hget : (all.map (·.1))[all.length / 2]? = (all.drop (all.length / 2)).head?.map (·.1) := by
    rw [List.getElem?_map, List.head?_drop]
  have hrightChildren : (first :: all.map (·.2)).drop (all.length / 2 + 1) =
      (all.drop (all.length / 2)).map (·.2) := by
    rw [List.drop_succ_cons, List.map_drop]
  have hrightKeys : (all.map (·.1)).drop (all.length / 2 + 1) =
      ((all.drop (all.length / 2)).map (·.1)).tail := by
    rw [← List.map_drop, ← List.drop_drop, List.drop_one, List.map_tail]
  rw [hget, hrightChildren, hrightKeys]
  have hdropLen : (all.drop (all.length / 2)).length ≤ slots.length + 1 := by
    rw [List.length_drop]
    omega
  rcases hdrop : all.drop (all.length / 2) with _ | ⟨⟨promotedKey, child⟩, rightSlots⟩
  · exact .both_fail rfl rfl (done_run _)
  rw [hdrop] at hdropMem hdropLen
  refine refined_allocate ?_
  obtain ⟨sibling, hsib, himgSib⟩ := newInternal_image child rightSlots
    (show 0 ≠ 1 by decide) (by decide) (by rw [List.length_cons] at hdropLen; omega)
    (show 0 < 2 ^ 32 by decide) (hdropMem _ List.mem_cons_self)
    (fun s hs => hdropMem s (List.mem_cons_of_mem _ hs)) 0
  refine refined_done hsib (.bind (refined_setParentPointers (parentField_lt _) _ _) ?_)
  intro _ f₁ hrun
  have hgrow : f.pages.length + 1 ≤ f₁.pages.length := by
    have h := (setParentPointers_steady _ _ _ _ _ hrun).1
    rwa [File.state_numPages, File.state_numPages, File.grown_length] at h
  obtain ⟨left, hleft, himgLeft⟩ := newInternal_image first (all.take (all.length / 2)) htag
    hlaid.fits.nodeType (by rw [List.length_take]; omega) hlaid.fits.parent hfirst
    (fun s hs => hmem s (List.mem_of_mem_take hs)) slots.length
  refine refined_write (by omega) himgSib ?_
  have hleft' : newInternal ⟨tag, slots.length, parent⟩ ((all.map (·.1)).take (all.length / 2))
      ((first :: all.map (·.2)).take (all.length / 2 + 1)) = .ok left := by
    rw [List.take_succ_cons, ← List.map_take, ← List.map_take]
    exact hleft
  refine refined_done hleft' (refined_write (by rw [File.withPage_length]; omega) himgLeft ?_)
  by_cases hsmall : f.pages.length < 2 ^ 64
  · exact hup.refined hp hsmall _ _
  · refine never_small (hup.steady _ _ _) fun h => hsmall ?_
    unfold Small at h
    rw [File.state_numPages, File.withPage_length, File.withPage_length] at h
    omega

theorem refined_insertIntoInternal (hup : GoesUp up up') {p right : Nat} (hp : p < 2 ^ 64)
    (hright : right < 2 ^ 64) (key : Int64) (f : File) :
    RefinedSmall (BTree.insertIntoInternal up p right key) (insertIntoInternal up' p right key) f := by
  refine .bind (refined_setParentPointer _ (parentField_lt _) _) fun _ f' _ => ?_
  refine refined_readInternal fun tag parent first slots page hn htag hfirst hslots hlaid => ?_
  obtain ⟨junk, hat⟩ := hlaid.at_body
  rw [length_leBytes] at hat
  obtain ⟨pre, post, heq, hins, hidx⟩ := insertIndex_at (i := 0) key right hat hslots
  refine refined_done hlaid.deserialize (refined_done hidx ?_)
  refine .ite (fun _ => refined_splitInternalNode hup hp hright key f') fun hroom => ?_
  dsimp only at hroom ⊢
  rw [hins]
  have hsize := pageSize_eq
  have hlen : slots.length = pre.length + post.length := by rw [heq, List.length_append]
  have hlaid' : Laid page ⟨tag, slots.length, parent⟩
      ((leBytes 8 first ++ pre.flatMap encodeSlot) ++ post.flatMap encodeSlot) := by
    rw [List.append_assoc, ← List.flatMap_append, ← heq]
    exact hlaid
  have hstart : headerSize + 8 + (0 + pre.length) * 16 =
      headerSize + (leBytes 8 first ++ pre.flatMap encodeSlot).length := by
    rw [List.length_append, length_leBytes, length_encodeSlots]
    omega
  obtain ⟨page₁, gap, hcopy, hgap, h₁⟩ := hlaid'.makeRoom (n := 16)
    (headerSize + 8 + slots.length * 16) (by unfold btreeOrder headerSize at *; omega) hstart
    (by rw [length_encodeSlots]; omega)
  obtain ⟨page₂, hslot, h₂⟩ := h₁.putSlot key right hgap
  rw [← hstart] at hslot
  obtain ⟨page₃, hser, h₃⟩ := h₂.serialize ⟨tag, slots.length + 1, parent⟩
    ⟨hlaid.fits.nodeType, by unfold btreeOrder at hroom; dsimp only; omega, hlaid.fits.parent⟩
  refine refined_done hcopy (refined_done hslot (refined_done hser ?_))
  have hnum : slots.length + 1 = (pre ++ (key, right) :: post).length := by
    rw [hlen, List.length_append, List.length_cons]
    omega
  have himg : Image page₃ (.internal parent first (pre ++ (key, right) :: post)) := by
    refine .internal htag hfirst ?_ ?_
    · intro s hs
      rcases List.mem_append.mp hs with hs | hs
      · exact hslots s (heq ▸ List.mem_append_left _ hs)
      · rcases List.mem_cons.mp hs with rfl | hs
        · exact hright
        · exact hslots s (heq ▸ List.mem_append_right _ hs)
    · rw [← hnum]
      simpa using h₃
  exact refined_write (File.lt_of_node hn) himg (follows_pure _ _)

end Internal

theorem goesUp (fuel : Nat) : GoesUp (BTree.insertIntoParent fuel) (insertIntoParent fuel) := by
  induction fuel with
  | zero => exact ⟨fun l r k => insertIntoParent_steady 0 l r k, fun _ _ _ _ => follows_exhausted _ _⟩
  | succ fuel ih =>
      refine ⟨fun l r k => insertIntoParent_steady _ l r k, fun hl hr k f => ?_⟩
      refine refined_readNode fun node page _ himg => ?_
      obtain ⟨header, hhead, hparent, -⟩ := himg.deserialize
      refine refined_done hhead ?_
      have hlt : node.parent < 2 ^ 64 := by
        have h : node.parent < 2 ^ 32 := by
          cases himg with
          | leaf h => exact h.fits.parent
          | internal _ _ _ h => exact h.fits.parent
        exact h.trans (by decide)
      rw [hparent]
      refine .ite (fun _ => ?_) fun _ => refined_insertIntoInternal ih hlt hr k f
      exact .bind (refined_createNewRoot hl hr k f) fun _ f' _ => follows_pure _ _

/-- The sibling of a cut leaf is one of the pages. -/
theorem splitLeafNode_lt {s s' : State} {c : Nat} {k : Int64}
    (h : BTree.splitLeafNode p s = some (.ok (c, k), s')) : c < s'.numPages := by
  obtain ⟨parent, entries, -, rfl, rfl⟩ := splitLeafNode_inv h
  simp only [State.withHalves, State.write_numPages]
  omega

theorem refined_insertIntoLeaf (fuel : Nat) (p : Nat) (key : Int64) (data : Bytes) (f : File) :
    RefinedSmall (BTree.insertIntoLeaf fuel p key data) (insertIntoLeaf fuel p key data) f := by
  induction fuel generalizing p f with
  | zero => exact follows_exhausted _ _
  | succ fuel ih =>
      by_cases hsmall : Small f.state
      swap
      · exact never_small (insertIntoLeaf_steady _ _ _ _) hsmall
      refine refined_readLeaf fun parent entries page hn hlaid => ?_
      have hlt := File.lt_of_node hn
      have hp : p < 2 ^ 64 := Nat.lt_of_lt_of_le hlt hsmall
      have hfit : dataEnd entries ≤ pageSize := by
        rw [← length_encodeEntries]
        exact hlaid.size
      obtain ⟨junk, hat⟩ := hlaid.at_start
      obtain ⟨pre, post, heq, hins, hoff⟩ := insertOffset_at key data hat hlaid.sizes
      refine refined_done hlaid.deserialize (refined_done hoff
        (refined_done (findDataEnd_laid hlaid rfl) (.drop (findDataEnd_run hfit) ?_)))
      refine .ite (fun _ => ?_) fun hroom => ?_
      · refine .bind (refined_splitLeafNode p f) fun ⟨siblingId, splitKey⟩ f₁ hrun => ?_
        have hsib : siblingId < f₁.pages.length := splitLeafNode_lt hrun
        have hback : ∀ l r k, Fuelled.Keeps Steady (BTree.insertIntoParent fuel l r k >>= fun newRoot =>
            BTree.insertIntoLeaf fuel (if key < splitKey then p else siblingId) key data >>=
              fun _ => pure newRoot) := fun l r k =>
          (insertIntoParent_steady _ _ _ _).bind fun _ =>
            (insertIntoLeaf_steady _ _ _ _).bind fun _ => .pure _
        by_cases hsmall₁ : Small f₁.state
        swap
        · exact never_small (hback _ _ _) hsmall₁
        refine .bind_ok ((goesUp fuel).refined hp (Nat.lt_of_lt_of_le hsib hsmall₁) _ _)
          (fun _ => small_of_steady ((insertIntoLeaf_steady _ _ _ _).bind fun _ => .pure _))
          fun _ f₂ _ => ?_
        exact .bind_ok (ih _ _) (fun _ => small_of_steady (.pure _)) fun _ _ _ => follows_pure _ _
      · rw [hins]
        have hend := length_encodeEntries entries
        have hlen : entries.length = pre.length + post.length := by rw [heq, List.length_append]
        have hlaid' : Laid page ⟨1, entries.length, parent⟩
            (pre.flatMap encodeEntry ++ post.flatMap encodeEntry) := by
          rw [← List.flatMap_append, ← heq]
          exact hlaid
        have hstop : dataEnd entries = headerSize + (pre.flatMap encodeEntry).length +
            (post.flatMap encodeEntry).length := by
          rw [← hend, heq, List.flatMap_append, List.length_append]
          omega
        obtain ⟨page₁, gap, hcopy, hgap, h₁⟩ := hlaid'.makeRoom (n := entrySize data)
          (dataEnd entries) (Nat.le_of_not_lt hroom) rfl hstop
        obtain ⟨page₂, hput, h₂⟩ := h₁.putEntry key hgap
        have hfull : dataEnd (pre ++ (key, data) :: post) ≤ pageSize := by
          rw [← length_encodeEntries]
          simpa using h₂.size
        have hnum : entries.length + 1 = (pre ++ (key, data) :: post).length := by
          rw [hlen, List.length_append, List.length_cons]
          omega
        obtain ⟨page₃, hser, h₃⟩ := h₂.serialize ⟨1, entries.length + 1, parent⟩
          ⟨(by decide : 1 < 2 ^ 8), by dsimp only; rw [hnum]; exact length_le_of_fit hfull, hlaid.fits.parent⟩
        have himg : Image page₃ (.leaf parent (pre ++ (key, data) :: post)) := by
          refine .leaf ?_
          rw [← hnum]
          simpa using h₃
        exact refined_done hcopy (refined_done hput (refined_done hser
          (refined_write hlt himg (follows_pure _ _))))

/-! ## The calls -/

theorem reading_ok {m : PagesM α} {k : α → PagesM β} {a : α}
    (h : m f.pages = some (.ok a, f.pages)) : reading (m >>= k) f = reading (k a) f := by
  rw [reading, reading, Fuelled.bind_ok h]

/-- A step over the bytes of a page that is only read. -/
theorem reading_check {r : Except Fault α} {k : α → PagesM β} {a : α} (h : r = .ok a) :
    reading (check r >>= k) f = reading (k a) f :=
  reading_ok (by rw [check, h])

theorem refined_findLeaf (fuel p : Nat) (key : Int64) (f : File) :
    Refined (BTree.findLeaf fuel p key) (reading (findLeaf fuel p key)) f := by
  induction fuel generalizing p with
  | zero => exact follows_exhausted _ _
  | succ fuel ih =>
      rcases hn : f.state.nodes p with _ | node
      · exact .unseen (bind_error (readNode_missing hn)) rfl
      obtain ⟨page, hpage, himg⟩ := File.exists_page hn
      intro r s hrun hs
      rw [BTree.findLeaf, Fuelled.bind_ok (readNode_run hn)] at hrun
      rw [findLeaf, reading_ok (readPage_some hpage)]
      cases himg with
      | leaf hlaid =>
          rw [reading_check hlaid.deserialize, if_pos rfl]
          obtain ⟨rfl, rfl⟩ := Prod.mk.inj (Option.some.inj hrun)
          exact ⟨f, rfl, rfl⟩
      | internal htag hfirst hslots hlaid =>
          obtain ⟨junk, hat⟩ := hlaid.at_body
          rw [length_leBytes] at hat
          rw [reading_check hlaid.deserialize, if_neg htag,
            reading_check (hlaid.readFirst hfirst), reading_check (routeLoop_at hat hslots)]
          exact ih _ r s hrun hs

/-- `BTree::insert` on the pages follows the nodes. -/
theorem refined_insert (fuel : Nat) (key : Int64) (row : Row) (f : File) :
    RefinedSmall (BTree.insert fuel key row) (insert fuel key row) f := by
  refine .step (look_run _ _) (look_run _ _) ?_
  refine .bind (refined_findLeaf fuel f.rootPage key f) fun leafId f₁ _ => ?_
  refine .bind_ok (refined_insertIntoLeaf _ _ _ _ _) (fun newRoot => ?_) fun newRoot f₂ _ => ?_
  · intro s r s' hrun hs
    cases newRoot with
    | none =>
        obtain ⟨-, rfl⟩ := Prod.mk.inj (Option.some.inj hrun)
        exact hs
    | some root =>
        obtain ⟨-, rfl⟩ := Prod.mk.inj (Option.some.inj hrun)
        exact hs
  · cases newRoot with
    | none => exact follows_pure _ _
    | some root => exact refined_root root

end VelociDB.BTree.Pages
