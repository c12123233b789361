/-
# The pages follow the nodes, delete

The second half of `BTreeFollow`: the repairs after an underflow and `BTree::delete`.  None of
them allocates, so they follow with no condition on the number of pages.
-/
import VelociDB.BTreeFollow

namespace VelociDB.BTree.Pages

open Bytes SchemaCodec Fuelled

variable {α β : Type} {ok : State → Prop} {f f' : File} {p child : Nat} {node : Node} {page : Page}
  {header : NodeHeader} {key : Int64} {data : Bytes} {entries : List Entry} {slots : List Slot}
  {x : BTreeM α} {tag parent first : Nat}

/-! ## Loops of a delete -/

/-- What stands behind the gap moves down over it, if there is anything. -/
theorem Laid.closeGap {xs gap ys : Bytes} (h : Laid page header (xs ++ (gap ++ ys)))
    {start next stop : Nat} (hstart : start = headerSize + xs.length)
    (hnext : next = start + gap.length) (hstop : stop = next + ys.length) :
    ∃ page', (if next < stop then copyWithin page next stop start else .ok page) = .ok page' ∧
      Laid page' header (xs ++ ys) := by
  subst hstop hnext hstart
  by_cases hys : ys = []
  · subst hys
    rw [← List.append_assoc, List.append_nil] at h
    refine ⟨page, if_neg (by simp), ?_⟩
    rw [List.append_nil]
    exact h.trim
  · have hpos : 0 < ys.length := List.length_pos_iff.mpr hys
    obtain ⟨page', hcopy, hlaid⟩ := h.shiftLeft
    exact ⟨page', by rw [if_pos (by omega), hcopy], hlaid⟩

section Loops

variable {bytes rest : Bytes} {o i : Nat}

/-- The first entry with the key, as `delete` finds it and as `eraseP` takes it out. -/
theorem deleteOffset_at (key : Int64) (h : At bytes o (entries.flatMap encodeEntry ++ rest))
    (hsize : ∀ e ∈ entries, e.2.length < 2 ^ 32) :
    (entries.any (·.1 == key) = false ∧ deleteOffset bytes key entries.length o = .ok none) ∨
    ∃ pre e post, entries = pre ++ e :: post ∧ entries.any (·.1 == key) = true ∧
      entries.eraseP (·.1 == key) = pre ++ post ∧ deleteOffset bytes key entries.length o =
        .ok (some (o + (pre.flatMap encodeEntry).length, e.2.length)) := by
  induction entries generalizing o with
  | nil => exact .inl ⟨rfl, rfl⟩
  | cons e entries ih =>
      obtain ⟨storedKey, stored⟩ := e
      rw [List.flatMap_cons, List.append_assoc] at h
      obtain ⟨hkey, hlen, -, h'⟩ := readEntry_at h (hsize _ List.mem_cons_self)
      by_cases heq : storedKey = key
      · subst heq
        refine .inr ⟨[], (storedKey, stored), entries, rfl, by simp, by simp, ?_⟩
        rw [List.length_cons, deleteOffset, hkey, ok_bind_fault, hlen, ok_bind_fault, if_pos rfl]
        rfl
      · have hstep : deleteOffset bytes key (entries.length + 1) o =
            deleteOffset bytes key entries.length (o + (12 + stored.length)) := by
          rw [deleteOffset, hkey, ok_bind_fault, hlen, ok_bind_fault, if_neg heq]
        have hbeq : (storedKey == key) = false := by simpa using heq
        rcases ih h' fun e he => hsize e (List.mem_cons_of_mem _ he) with
          ⟨hany, hoff⟩ | ⟨pre, e, post, hsplit, hany, herase, hoff⟩
        · refine .inl ⟨by rw [List.any_cons, hbeq, hany]; rfl, ?_⟩
          rw [List.length_cons, hstep, hoff]
        · refine .inr ⟨(storedKey, stored) :: pre, e, post, by rw [hsplit]; rfl, ?_, ?_, ?_⟩
          · rw [List.any_cons, hany, Bool.or_true]
          · rw [List.eraseP_cons_of_neg (by simpa using heq), herase]
            rfl
          · rw [List.length_cons, hstep, hoff, List.flatMap_cons, List.length_append,
              length_encodeEntry, entrySize, Nat.add_assoc]

/-- The entry behind `i` others. -/
theorem readEntryAtIndex_at {pre post : List Entry} {e : Entry}
    (h : At bytes o ((pre ++ e :: post).flatMap encodeEntry ++ rest))
    (hsize : ∀ e' ∈ pre ++ e :: post, e'.2.length < 2 ^ 32) :
    readEntryAtIndex bytes pre.length o = .ok (e, o + (pre.flatMap encodeEntry).length) := by
  induction pre generalizing o with
  | nil =>
      obtain ⟨key, data⟩ := e
      rw [List.nil_append, List.flatMap_cons, List.append_assoc] at h
      obtain ⟨hkey, hlen, hslice, -⟩ := readEntry_at h (hsize (key, data) List.mem_cons_self)
      rw [List.length_nil, readEntryAtIndex, hkey, ok_bind_fault, hlen, ok_bind_fault, hslice]
      rfl
  | cons e' pre ih =>
      obtain ⟨storedKey, stored⟩ := e'
      rw [List.cons_append, List.flatMap_cons, List.append_assoc] at h
      obtain ⟨hkey, hlen, -, h'⟩ := readEntry_at h (hsize (storedKey, stored) List.mem_cons_self)
      rw [List.length_cons, readEntryAtIndex, hkey, ok_bind_fault, hlen, ok_bind_fault,
        ih h' fun e he => hsize e (List.mem_cons_of_mem _ he), List.flatMap_cons,
        List.length_append, length_encodeEntry, entrySize, Nat.add_assoc]

theorem siblingLoop_at {prevChild : Nat} (h : At bytes o (slots.flatMap encodeSlot ++ rest))
    (hslots : ∀ s ∈ slots, s.2 < 2 ^ 64) : siblingLoop bytes child slots.length o prevChild =
      .ok (siblingBefore child prevChild slots) := by
  induction slots generalizing o prevChild with
  | nil => rfl
  | cons s slots ih =>
      obtain ⟨storedKey, nextChild⟩ := s
      rw [List.flatMap_cons, List.append_assoc] at h
      obtain ⟨hkey, hchild, h'⟩ := readSlot_at h (hslots _ List.mem_cons_self)
      rw [List.length_cons, siblingLoop, hkey, ok_bind_fault, hchild, ok_bind_fault, siblingBefore]
      split
      · rfl
      · exact ih h' fun s hs => hslots s (List.mem_cons_of_mem _ hs)

/-- The pair with the child, as `remove_child_from_parent` finds it. -/
theorem removeLoop_at (child : Nat) (h : At bytes o (slots.flatMap encodeSlot ++ rest))
    (hslots : ∀ s ∈ slots, s.2 < 2 ^ 64) :
    (removeSlot child slots = none ∧ removeLoop bytes child slots.length o = .ok none) ∨
    ∃ pre s post, slots = pre ++ s :: post ∧ removeSlot child slots = some (pre ++ post) ∧
      removeLoop bytes child slots.length o =
        .ok (some (o + (pre.flatMap encodeSlot).length)) := by
  induction slots generalizing o with
  | nil => exact .inl ⟨rfl, rfl⟩
  | cons s slots ih =>
      obtain ⟨storedKey, nextChild⟩ := s
      rw [List.flatMap_cons, List.append_assoc] at h
      obtain ⟨-, hchild, h'⟩ := readSlot_at h (hslots _ List.mem_cons_self)
      by_cases heq : nextChild = child
      · refine .inr ⟨[], (storedKey, nextChild), slots, rfl, by rw [removeSlot, if_pos heq]; rfl, ?_⟩
        rw [List.length_cons, removeLoop, hchild, ok_bind_fault, if_pos heq]
        rfl
      · have hstep : removeLoop bytes child (slots.length + 1) o =
            removeLoop bytes child slots.length (o + 16) := by
          rw [removeLoop, hchild, ok_bind_fault, if_neg heq]
        rcases ih h' fun s hs => hslots s (List.mem_cons_of_mem _ hs) with
          ⟨hrem, hoff⟩ | ⟨pre, s, post, hsplit, hrem, hoff⟩
        · refine .inl ⟨by rw [removeSlot, if_neg heq, hrem]; rfl, ?_⟩
          rw [List.length_cons, hstep, hoff]
        · refine .inr ⟨(storedKey, nextChild) :: pre, s, post, by rw [hsplit]; rfl, ?_, ?_⟩
          · rw [removeSlot, if_neg heq, hrem]
            rfl
          · rw [List.length_cons, hstep, hoff, List.flatMap_cons, List.length_append,
              length_encodeSlot, Nat.add_assoc]

end Loops

/-- The first key that equals the old one is replaced in place. -/
theorem replaceLoop_laid {xs : Bytes} (oldKey newKey : Int64)
    (h : Laid page header (xs ++ slots.flatMap encodeSlot)) (hslots : ∀ s ∈ slots, s.2 < 2 ^ 64) :
    ∃ page', replaceLoop page oldKey newKey slots.length (headerSize + xs.length) = .ok page' ∧
      Laid page' header (xs ++ (replaceKey oldKey newKey slots).flatMap encodeSlot) := by
  induction slots generalizing xs with
  | nil => exact ⟨page, rfl, h⟩
  | cons s slots ih =>
      obtain ⟨storedKey, nextChild⟩ := s
      obtain ⟨junk, hat⟩ := h.at_body
      rw [List.flatMap_cons, List.append_assoc] at hat
      obtain ⟨hkey, -, -⟩ := readSlot_at hat (hslots _ List.mem_cons_self)
      rw [List.length_cons, replaceLoop, hkey, ok_bind_fault, replaceKey]
      by_cases heq : storedKey = oldKey
      · rw [if_pos heq, if_pos heq]
        rw [List.flatMap_cons, encodeSlot, List.append_assoc] at h
        obtain ⟨page', hput, h'⟩ := h.put (keyBytes newKey) (by simp)
        exact ⟨page', hput, by simpa [encodeSlot] using h'⟩
      · rw [if_neg heq, if_neg heq]
        rw [List.flatMap_cons, ← List.append_assoc] at h
        obtain ⟨page', hloop, h'⟩ := ih h fun s hs => hslots s (List.mem_cons_of_mem _ hs)
        rw [List.length_append, length_encodeSlot, ← Nat.add_assoc] at hloop
        exact ⟨page', hloop, by simpa using h'⟩

theorem replaceKey_length (oldKey newKey : Int64) (slots : List Slot) :
    (replaceKey oldKey newKey slots).length = slots.length := by
  induction slots with
  | nil => rfl
  | cons s slots ih =>
      rw [replaceKey]
      split
      · rfl
      · rw [List.length_cons, List.length_cons, ih]

theorem mem_replaceKey {oldKey newKey : Int64} {slots : List Slot} {s : Slot}
    (h : s ∈ replaceKey oldKey newKey slots) : ∃ s' ∈ slots, s'.2 = s.2 := by
  induction slots with
  | nil => cases h
  | cons s' slots ih =>
      rw [replaceKey] at h
      split at h
      · rcases List.mem_cons.mp h with rfl | h
        · exact ⟨s', List.mem_cons_self, rfl⟩
        · exact ⟨s, List.mem_cons_of_mem _ h, rfl⟩
      · rcases List.mem_cons.mp h with rfl | h
        · exact ⟨_, List.mem_cons_self, rfl⟩
        · obtain ⟨s'', hs, heq⟩ := ih h
          exact ⟨s'', List.mem_cons_of_mem _ hs, heq⟩

/-! ## Repairs -/

theorem refined_updateParentKey (p : Nat) (oldKey newKey : Int64) (f : File) :
    Refined (BTree.updateParentKey p oldKey newKey) (updateParentKey p oldKey newKey) f := by
  refine refined_readInternal fun tag parent first slots page hn htag hfirst hslots hlaid => ?_
  obtain ⟨page', hloop, h'⟩ := replaceLoop_laid oldKey newKey hlaid hslots
  rw [length_leBytes] at hloop
  refine refined_done hlaid.deserialize (refined_done hloop ?_)
  refine refined_write_last (File.lt_of_node hn) (.internal htag hfirst ?_ ?_)
  · intro s hs
    obtain ⟨s', hs', heq⟩ := mem_replaceKey hs
    rw [← heq]
    exact hslots s' hs'
  · rw [replaceKey_length]
    exact h'

theorem refined_findSiblingInfo (f : File)
    (hlaid : Laid page header (leBytes 8 first ++ slots.flatMap encodeSlot))
    (hnum : header.numKeys = slots.length) (hfirst : first < 2 ^ 64)
    (hslots : ∀ s ∈ slots, s.2 < 2 ^ 64) (child : Nat) :
    Refined (findSiblingInfo first slots child) (done (siblingInfo page.data header child)) f := by
  obtain ⟨junk, hat⟩ := hlaid.at_body
  rw [length_leBytes] at hat
  unfold findSiblingInfo
  rw [siblingInfo, hlaid.readFirst hfirst, ok_bind_fault]
  by_cases heq : first = child
  · rw [if_pos heq, if_pos heq]
    cases slots with
    | nil => exact .unseen (fail_run ..) rfl
    | cons s slots =>
        obtain ⟨separator, sibling⟩ := s
        rw [List.flatMap_cons, List.append_assoc] at hat
        obtain ⟨hkey, hchild, -⟩ := readSlot_at hat (hslots _ List.mem_cons_self)
        rw [hkey, ok_bind_fault, hchild]
        exact follows_pure _ _
  · rw [if_neg heq, if_neg heq, hnum, siblingLoop_at hat hslots]
    exact follows_pure _ _

/-- The entry that is lent, where it stands, and what is kept. -/
theorem lend_eq_some {b : Bool} {stolen : Entry} {kept : List Entry}
    (h : lend b entries = some (stolen, kept)) : ∃ pre post, entries = pre ++ stolen :: post ∧
      kept = pre ++ post ∧ pre.length = if b then entries.length - 1 else 0 := by
  cases b with
  | true =>
      obtain ⟨e, he, heq⟩ := Option.map_eq_some_iff.mp (show entries.getLast?.map _ = _ from h)
      obtain ⟨rfl, rfl⟩ := Prod.mk.inj heq
      refine ⟨entries.dropLast, [], ?_, by simp, by simp⟩
      exact (List.dropLast_append_getLast? e he).symm
  | false =>
      obtain ⟨e, he, heq⟩ := Option.map_eq_some_iff.mp (show entries.head?.map _ = _ from h)
      obtain ⟨rfl, rfl⟩ := Prod.mk.inj heq
      cases entries with
      | nil => cases he
      | cons e' entries =>
          obtain rfl : e' = e := by simpa using he
          exact ⟨[], entries, rfl, rfl, rfl⟩

theorem stolenEntry_laid {b : Bool} {stolen : Entry} {pre post : List Entry}
    (hlaid : Laid page header ((pre ++ stolen :: post).flatMap encodeEntry))
    (hnum : header.numKeys = (pre ++ stolen :: post).length)
    (hpre : pre.length = if b then (pre ++ stolen :: post).length - 1 else 0) :
    stolenEntry header page.data b =
      .ok (stolen, headerSize + (pre.flatMap encodeEntry).length) := by
  obtain ⟨junk, hat⟩ := hlaid.at_start
  have hread := readEntryAtIndex_at hat hlaid.sizes
  cases b with
  | true =>
      rw [if_pos rfl] at hpre
      have hpos : header.numKeys ≠ 0 := by
        rw [hnum, List.length_append, List.length_cons]
        omega
      rw [stolenEntry, if_pos rfl, if_neg hpos, hnum, ← hpre]
      exact hread
  | false =>
      rw [if_neg Bool.false_ne_true] at hpre
      rw [stolenEntry, if_neg Bool.false_ne_true]
      rw [hpre] at hread
      exact hread

/-- A leaf page with one entry less. -/
theorem Laid.takeOut {pre post : List Entry} {stolen : Entry} {parent : Nat}
    (h : Laid page header ((pre ++ stolen :: post).flatMap encodeEntry)) (hparent : parent < 2 ^ 32) :
    ∃ page₁ page₂,
      copyWithin page (headerSize + (pre.flatMap encodeEntry).length + entrySize stolen.2)
        (dataEnd (pre ++ stolen :: post)) (headerSize + (pre.flatMap encodeEntry).length) =
          .ok page₁ ∧
      NodeHeader.serialize ⟨1, (pre ++ post).length, parent⟩ page₁ = .ok page₂ ∧
      Image page₂ (.leaf parent (pre ++ post)) := by
  have hfit : dataEnd (pre ++ stolen :: post) ≤ pageSize := by
    rw [← length_encodeEntries]
    exact h.size
  have h' : Laid page header
      (pre.flatMap encodeEntry ++ (encodeEntry stolen ++ post.flatMap encodeEntry)) := by
    simpa using h
  obtain ⟨page₁, hcopy, h₁⟩ := h'.shiftLeft
  have hend : dataEnd (pre ++ stolen :: post) = headerSize + (pre.flatMap encodeEntry).length +
      entrySize stolen.2 + (post.flatMap encodeEntry).length := by
    rw [← length_encodeEntries, List.flatMap_append, List.flatMap_cons, List.length_append,
      List.length_append, length_encodeEntry]
    omega
  rw [length_encodeEntry, ← hend] at hcopy
  have hlen : (pre ++ post).length < 2 ^ 16 := by
    have := length_le_of_fit hfit
    simp only [List.length_append, List.length_cons] at this ⊢
    omega
  obtain ⟨page₂, hser, h₂⟩ := h₁.serialize ⟨1, (pre ++ post).length, parent⟩
    ⟨(by decide : 1 < 2 ^ 8), hlen, hparent⟩
  exact ⟨page₁, page₂, hcopy, hser, .leaf (by simpa using h₂)⟩

theorem fits_of_laid (h : Laid page header (entries.flatMap encodeEntry)) :
    dataEnd entries ≤ pageSize := by
  rw [← length_encodeEntries]
  exact h.size

/-- A leaf page with one entry more, at the front or at the end. -/
theorem Laid.putIn {parent : Nat} (h : Laid page ⟨1, entries.length, parent⟩
      (entries.flatMap encodeEntry)) (b : Bool) (stolen : Entry)
    (hfit : dataEnd entries + entrySize stolen.2 ≤ pageSize) : ∃ page₁ page₂,
      (if b then do
        let page ← copyWithin page headerSize (dataEnd entries) (headerSize + entrySize stolen.2)
        Pages.putEntry page headerSize stolen.1 stolen.2
      else Pages.putEntry page (dataEnd entries) stolen.1 stolen.2) = .ok page₁ ∧
      NodeHeader.serialize ⟨1, entries.length + 1, parent⟩ page₁ = .ok page₂ ∧
      Image page₂ (.leaf parent (if b then stolen :: entries else entries ++ [stolen])) := by
  have hend := length_encodeEntries entries
  obtain ⟨gap, hgap, hext⟩ := h.extend (n := entrySize stolen.2) (by rw [hend]; exact hfit)
  have hser : ∀ page₁ all, Laid page₁ ⟨1, entries.length, parent⟩ (all.flatMap encodeEntry) →
      all.length = entries.length + 1 → ∃ page₂,
        NodeHeader.serialize ⟨1, entries.length + 1, parent⟩ page₁ = .ok page₂ ∧
          Image page₂ (.leaf parent all) := by
    intro page₁ all h₁ hlen
    have hall := length_le_of_fit (fits_of_laid h₁)
    obtain ⟨page₂, hser, h₂⟩ := h₁.serialize ⟨1, all.length, parent⟩
      ⟨(by decide : 1 < 2 ^ 8), hall, h.fits.parent⟩
    exact ⟨page₂, hlen ▸ hser, .leaf h₂⟩
  cases b with
  | true =>
      have hstart : Laid page ⟨1, entries.length, parent⟩
          ([] ++ (entries.flatMap encodeEntry ++ gap)) := hext
      obtain ⟨page₀, ws, hcopy, hws, h₀⟩ := hstart.shiftRight
      rw [hgap] at hcopy hws
      rw [List.length_nil, Nat.add_zero, hend] at hcopy
      obtain ⟨page₁, hput, h₁⟩ := h₀.putEntry stolen.1 hws
      obtain ⟨page₂, hser', himg⟩ := hser page₁ (stolen :: entries) (by simpa using h₁) rfl
      refine ⟨page₁, page₂, ?_, hser', himg⟩
      rw [if_pos rfl, hcopy, ok_bind_fault]
      exact hput
  | false =>
      rw [← List.append_nil gap] at hext
      obtain ⟨page₁, hput, h₁⟩ := hext.putEntry stolen.1 hgap
      rw [hend] at hput
      obtain ⟨page₂, hser', himg⟩ := hser page₁ (entries ++ [stolen]) (by simpa using h₁)
        (by simp)
      exact ⟨page₁, page₂, hput, hser', himg⟩

theorem refined_redistributeFromSibling (p sibling q : Nat) (separator : Int64) (b : Bool) (f : File)
    (hne : ∀ parent, f.state.nodes sibling ≠ some (.leaf parent [])) :
    Refined (BTree.redistributeFromSibling p sibling q separator b)
      (redistributeFromSibling p sibling q separator b) f := by
  refine refined_readLeaf fun siblingParent siblingEntries page hn hlaid => ?_
  have hfit := fits_of_laid hlaid
  refine refined_done hlaid.deserialize ?_
  dsimp only
  rcases hlend : lend b siblingEntries with _ | ⟨stolen, kept⟩
  · exfalso
    have hnil : siblingEntries = [] := by
      cases b <;> simpa [lend] using hlend
    exact hne siblingParent (hnil ▸ hn)
  obtain ⟨pre, post, rfl, rfl, hpre⟩ := lend_eq_some hlend
  refine refined_done (stolenEntry_laid hlaid rfl hpre) ?_
  refine refined_done (findDataEnd_laid hlaid rfl) (.drop (findDataEnd_run hfit) ?_)
  obtain ⟨page₁, page₂, hcopy, hser, himg⟩ := hlaid.takeOut hlaid.fits.parent
  have hnum : (pre ++ stolen :: post).length - 1 = (pre ++ post).length := by
    simp only [List.length_append, List.length_cons]
    omega
  dsimp only
  rw [hnum]
  refine refined_done hcopy (refined_done hser (refined_write (File.lt_of_node hn) himg ?_))
  refine refined_readLeaf fun parent entries page hn' hlaid' => ?_
  have hfit' := fits_of_laid hlaid'
  refine refined_done hlaid'.deserialize
    (refined_done (findDataEnd_laid hlaid' rfl) (.drop (findDataEnd_run hfit') ?_))
  refine .ite (fun _ => .both_fail rfl rfl rfl) fun hroom => ?_
  obtain ⟨page₃, page₄, hput, hser', himg'⟩ := hlaid'.putIn b stolen (Nat.le_of_not_lt hroom)
  refine refined_done hput (refined_done hser' (refined_write (File.lt_of_node hn') himg' ?_))
  refine refined_readLeaf fun rightParent rightEntries page _ hright => ?_
  refine refined_done hright.deserialize ?_
  cases rightEntries with
  | nil => exact follows_pure _ _
  | cons e rest =>
      obtain ⟨newKey, newData⟩ := e
      obtain ⟨junk, hat⟩ := hright.at_start
      rw [List.flatMap_cons, List.append_assoc] at hat
      obtain ⟨hkey, -, -, -⟩ := readEntry_at hat (hright.sizes _ List.mem_cons_self)
      dsimp only
      rw [if_pos (List.length_pos_iff.mpr (List.cons_ne_nil _ _))]
      exact refined_done hkey (refined_updateParentKey _ _ _ _)

/-- Entries are appended as long as they fit, on the pages as over the nodes. -/
theorem appendLoop_laid (s : State) (more : List Entry)
    (h : Laid page ⟨1, entries.length, parent⟩ (entries.flatMap encodeEntry)) :
    (∃ all page', appendEntries entries more s = some (.ok all, s) ∧
      appendLoop ⟨1, entries.length, parent⟩ page more = .ok (⟨1, all.length, parent⟩, page') ∧
      Laid page' ⟨1, entries.length, parent⟩ (all.flatMap encodeEntry)) ∨
    ∃ msg, appendEntries entries more s =
        some (.error (.fault (.error (.storageError msg))), s) ∧
      appendLoop ⟨1, entries.length, parent⟩ page more = .error (.error (.storageError msg)) := by
  -- the header in memory counts on while the one in the page stays
  suffices H : ∀ n entries page, Laid page ⟨1, n, parent⟩ (entries.flatMap encodeEntry) →
      (∃ all page', appendEntries entries more s = some (.ok all, s) ∧
        appendLoop ⟨1, entries.length, parent⟩ page more = .ok (⟨1, all.length, parent⟩, page') ∧
        Laid page' ⟨1, n, parent⟩ (all.flatMap encodeEntry)) ∨
      ∃ msg, appendEntries entries more s =
          some (.error (.fault (.error (.storageError msg))), s) ∧
        appendLoop ⟨1, entries.length, parent⟩ page more = .error (.error (.storageError msg)) from
    H _ entries page h
  intro n
  induction more with
  | nil => exact fun entries page h => .inl ⟨entries, page, rfl, rfl, h⟩
  | cons e more ih =>
      intro entries page h
      obtain ⟨key, data⟩ := e
      have hfit := fits_of_laid h
      have hend : Pages.findDataEnd ⟨1, entries.length, parent⟩ page.data =
          .ok (dataEnd entries) := by
        obtain ⟨junk, hat⟩ := h.at_start
        rw [Pages.findDataEnd, dataEndLoop_at hat h.sizes (Page.length page)]
        rfl
      rw [appendEntries, Fuelled.bind_ok (findDataEnd_run hfit), appendLoop, hend, ok_bind_fault]
      by_cases hroom : pageSize < dataEnd entries + entrySize data
      · rw [if_pos hroom, if_pos hroom]
        exact .inr ⟨_, rfl, rfl⟩
      · rw [if_neg hroom, if_neg hroom]
        obtain ⟨gap, hgap, hext⟩ := h.extend (n := entrySize data) (by
          rw [length_encodeEntries]
          exact Nat.le_of_not_lt hroom)
        rw [← List.append_nil gap] at hext
        obtain ⟨page₁, hput, h₁⟩ := hext.putEntry key hgap
        rw [length_encodeEntries] at hput
        rw [hput, ok_bind_fault]
        have hcount : (entries ++ [(key, data)]).length = entries.length + 1 := by simp
        have hnext := ih (entries ++ [(key, data)]) page₁ (by simpa using h₁)
        rw [hcount] at hnext
        exact hnext

section Collapse

variable {repair : Nat → Nat → BTreeM Unit} {repair' : Nat → Nat → FileM Unit}

/-- A pair is taken out of an internal page. -/
theorem Laid.removePair {pre post : List Slot} {s : Slot}
    (h : Laid page ⟨tag, (pre ++ s :: post).length, parent⟩
      (leBytes 8 first ++ (pre ++ s :: post).flatMap encodeSlot)) (htag : tag ≠ 1)
    (hfirst : first < 2 ^ 64) (hslots : ∀ s' ∈ pre ++ s :: post, s'.2 < 2 ^ 64) : ∃ page₁ page₂,
      copyWithin page (headerSize + 8 + (pre.flatMap encodeSlot).length + 16)
        (headerSize + 8 + (pre ++ s :: post).length * 16)
        (headerSize + 8 + (pre.flatMap encodeSlot).length) = .ok page₁ ∧
      NodeHeader.serialize ⟨tag, (pre ++ s :: post).length - 1, parent⟩ page₁ = .ok page₂ ∧
      readLe 8 page₂.data headerSize = .ok first ∧
      Image page₂ (.internal parent first (pre ++ post)) := by
  have h' : Laid page ⟨tag, (pre ++ s :: post).length, parent⟩
      ((leBytes 8 first ++ pre.flatMap encodeSlot) ++
        (encodeSlot s ++ post.flatMap encodeSlot)) := by
    simpa using h
  obtain ⟨page₁, hcopy, h₁⟩ := h'.shiftLeft
  have hstop : headerSize + (leBytes 8 first ++ pre.flatMap encodeSlot).length +
      (encodeSlot s).length + (post.flatMap encodeSlot).length =
        headerSize + 8 + (pre ++ s :: post).length * 16 := by
    simp only [List.length_append, length_leBytes, length_encodeSlots, length_encodeSlot,
      List.length_cons]
    omega
  rw [hstop, length_encodeSlot, List.length_append, length_leBytes, ← Nat.add_assoc] at hcopy
  have hnum : (pre ++ s :: post).length - 1 = (pre ++ post).length := by
    simp only [List.length_append, List.length_cons]
    omega
  obtain ⟨page₂, hser, h₂⟩ := h₁.serialize ⟨tag, (pre ++ s :: post).length - 1, parent⟩
    ⟨h.fits.nodeType, Nat.lt_of_le_of_lt (Nat.sub_le _ _) h.fits.numKeys, h.fits.parent⟩
  have h₂' : Laid page₂ ⟨tag, (pre ++ post).length, parent⟩
      (leBytes 8 first ++ (pre ++ post).flatMap encodeSlot) := by
    rw [← hnum]
    simpa using h₂
  refine ⟨page₁, page₂, hcopy, hser, h₂'.readFirst hfirst, .internal htag hfirst ?_ h₂'⟩
  intro s' hs
  rcases List.mem_append.mp hs with hs | hs
  · exact hslots s' (List.mem_append_left _ hs)
  · exact hslots s' (List.mem_append_right _ (List.mem_cons_of_mem _ hs))

/-- The first child and the first key are taken out of an internal page. -/
theorem Laid.removeFirst {s : Slot} {post : List Slot}
    (h : Laid page ⟨tag, (s :: post).length, parent⟩
      (leBytes 8 first ++ (s :: post).flatMap encodeSlot)) (htag : tag ≠ 1)
    (hslots : ∀ s' ∈ s :: post, s'.2 < 2 ^ 64) : ∃ page₁ page₂,
      copyWithin page (headerSize + 16) (headerSize + 8 + (s :: post).length * 16) headerSize =
        .ok page₁ ∧
      NodeHeader.serialize ⟨tag, (s :: post).length - 1, parent⟩ page₁ = .ok page₂ ∧
      readLe 8 page₂.data headerSize = .ok s.2 ∧ Image page₂ (.internal parent s.2 post) := by
  have h' : Laid page ⟨tag, (s :: post).length, parent⟩ ([] ++ ((leBytes 8 first ++ keyBytes s.1) ++
      (leBytes 8 s.2 ++ post.flatMap encodeSlot))) := by
    simpa [encodeSlot] using h
  obtain ⟨page₁, hcopy, h₁⟩ := h'.shiftLeft
  have hstop : headerSize + ([] : Bytes).length + (leBytes 8 first ++ keyBytes s.1).length +
      (leBytes 8 s.2 ++ post.flatMap encodeSlot).length =
        headerSize + 8 + (s :: post).length * 16 := by
    simp only [List.length_append, length_leBytes, length_encodeSlots, length_keyBytes,
      List.length_cons, List.length_nil]
    omega
  rw [hstop, List.length_nil, List.length_append, length_leBytes, length_keyBytes] at hcopy
  obtain ⟨page₂, hser, h₂⟩ := h₁.serialize ⟨tag, post.length, parent⟩
    ⟨h.fits.nodeType, Nat.lt_of_succ_lt h.fits.numKeys, h.fits.parent⟩
  have hchild : s.2 < 2 ^ 64 := hslots s List.mem_cons_self
  exact ⟨page₁, page₂, hcopy, hser, Laid.readFirst h₂ hchild,
    .internal htag hchild (fun s' hs => hslots s' (List.mem_cons_of_mem _ hs)) h₂⟩

theorem refined_removeChildFromParent
    (hrepair : ∀ p r f, Refined (repair p r) (repair' p r) f) (q child root : Nat) (f : File) :
    Refined (BTree.removeChildFromParent repair q child root)
      (removeChildFromParent repair' q child root) f := by
  refine refined_readInternal fun tag parent first slots page hn htag hfirst hslots hlaid => ?_
  have hlt := File.lt_of_node hn
  refine refined_done hlaid.deserialize (refined_done (hlaid.readFirst hfirst) ?_)
  refine .ite (fun _ => ?_) fun _ => ?_
  · cases slots with
    | nil =>
        refine .both_fail rfl rfl ?_
        rw [Fuelled.bind_error]
        rw [done_run, copyWithin, if_neg (by simp)]
    | cons s rest =>
        obtain ⟨page₁, page₂, hcopy, hser, hread, himg⟩ := hlaid.removeFirst htag hslots
        refine refined_done hcopy (refined_done hser (refined_write hlt himg ?_))
        dsimp only
        rw [List.length_cons, Nat.add_sub_cancel]
        exact .ite_iff (and_congr_right' List.length_eq_zero_iff.symm)
          (fun _ => refined_done hread (refined_root _)) fun _ => follows_pure _ _
  · obtain ⟨junk, hat⟩ := hlaid.at_body
    rw [length_leBytes] at hat
    rcases removeLoop_at child hat hslots with
      ⟨hrem, hloop⟩ | ⟨pre, s, post, rfl, hrem, hloop⟩
    · rw [hrem]
      exact refined_done hloop (follows_pure _ _)
    · obtain ⟨page₁, page₂, hcopy, hser, hread, himg⟩ := hlaid.removePair htag hfirst hslots
      have hnum : (pre ++ s :: post).length - 1 = (pre ++ post).length := by
        simp only [List.length_append, List.length_cons]
        omega
      rw [hrem]
      refine refined_done hloop ?_
      refine refined_done hcopy (refined_done hser (refined_write hlt himg ?_))
      dsimp only
      rw [hnum]
      refine .ite_iff (and_congr_right' List.length_eq_zero_iff.symm)
        (fun _ => refined_done hread (refined_root _)) fun _ => ?_
      exact .ite (fun _ => hrepair _ _ _) fun _ => follows_pure _ _

theorem refined_mergeLeaves
    (hrepair : ∀ p r f, Refined (repair p r) (repair' p r) f) (p sibling q root : Nat) (b : Bool)
    (f : File) : Refined (BTree.mergeLeaves repair p sibling q root b)
      (mergeLeaves repair' p sibling q root b) f := by
  refine refined_readLeaf fun _ rightEntries right _ hright => ?_
  refine refined_done hright.deserialize (refined_done hright.readEntries ?_)
  refine refined_readLeaf fun parent entries page hn hlaid => ?_
  refine refined_done hlaid.deserialize ?_
  dsimp only
  rcases appendLoop_laid f.state rightEntries hlaid with
    ⟨all, page', happ, hloop, h'⟩ | ⟨msg, happ, hloop⟩
  · refine .drop happ (refined_done hloop ?_)
    obtain ⟨page₂, hser, h₂⟩ := h'.serialize ⟨1, all.length, parent⟩
      ⟨(by decide : 1 < 2 ^ 8), length_le_of_fit (fits_of_laid h'), hlaid.fits.parent⟩
    exact refined_done hser (refined_write (File.lt_of_node hn) (.leaf h₂)
      (refined_removeChildFromParent hrepair _ _ _ _))
  · refine .both_fail (bind_error happ) rfl ?_
    rw [Fuelled.bind_error]
    rw [done_run, hloop]

/-- A checked internal page is made and written. -/
theorem refined_writeInternal {k : Unit → BTreeM α} {g : Unit → FileM α} (hp : p < f.pages.length)
    (htag : tag ≠ 1) (hlt : tag < 2 ^ 8) (hparent : parent < 2 ^ 32) (first : Nat)
    (hfirst : first < 2 ^ 64) (slots : List Slot) (hslots : ∀ s ∈ slots, s.2 < 2 ^ 64)
    (hlen : slots.length < 2 ^ 16) (m : Nat)
    (h : ∀ page, Follows File.state seen ok (k ()) (g ()) (f.withPage p page)) :
    Follows File.state seen ok (writeInternal p parent first slots >>= k)
      (done (checkedInternal ⟨tag, m, parent⟩ (slots.map (·.1)) (first :: slots.map (·.2))) >>=
        fun page => writePage p page >>= g) f := by
  by_cases hfit : pageSize < headerSize + 8 + slots.length * 16
  · obtain ⟨page₁, hser, -⟩ := laid_new.serialize ⟨tag, slots.length, parent⟩ ⟨hlt, hlen, hparent⟩
    refine .both_fail (e := .fault (.error
      (.storageError "Internal node would exceed page size"))) ?_ rfl (?_ : _ = some (_, f))
    · rw [writeInternal, if_pos hfit]
      rfl
    · refine Fuelled.bind_error ?_
      rw [done_run, checkedInternal, List.length_map, hser, ok_bind_fault, writeInternalBody,
        if_neg (by simp), if_pos (by rw [List.length_map]; exact hfit)]
  · rw [writeInternal, if_neg hfit]
    obtain ⟨page₁, page₂, gap, hser, hput, hgap, h₂⟩ :=
      exists_internalPage first hlt (Nat.le_of_not_lt hfit) hparent
    have h₂' : Laid page₂ ⟨tag, slots.length, parent⟩ (leBytes 8 first ++ (gap ++ [])) := by
      simpa using h₂
    obtain ⟨page₃, hputs, h₃⟩ := h₂'.putSlots hgap
    rw [length_leBytes] at hputs
    have hmade : checkedInternal ⟨tag, m, parent⟩ (slots.map (·.1)) (first :: slots.map (·.2)) =
        .ok page₃ := by
      rw [checkedInternal, List.length_map, hser, ok_bind_fault, writeInternalBody,
        if_neg (by simp), if_neg (by rw [List.length_map]; exact hfit), hput, ok_bind_fault]
      exact hputs
    exact refined_done hmade
      (refined_write hp (.internal htag hfirst hslots (by simpa using h₃)) (h page₃))

theorem moveChild_left (separator newSeparator : Int64) (stolenChild : Nat)
    (siblingKeys keys : List Int64) (siblingChildren children : List Nat) :
    moveChild true separator (siblingKeys ++ [newSeparator]) (siblingChildren ++ [stolenChild])
        keys children = .ok ((siblingKeys, siblingChildren),
          (separator :: keys, stolenChild :: children), newSeparator, stolenChild) := by
  simp [moveChild]

theorem refined_redistributeInternal (p sibling q : Nat) (separator : Int64) (b : Bool) (f : File) :
    Refined (BTree.redistributeInternal p sibling q separator b)
      (redistributeInternal p sibling q separator b) f := by
  refine refined_readInternal fun tag₁ parent₁ first₁ slots₁ _ hn₁ htag₁ hfirst₁ hslots₁ hlaid₁ => ?_
  refine refined_done hlaid₁.deserialize (refined_done (hlaid₁.parse rfl hfirst₁ hslots₁) ?_)
  refine refined_readInternal fun tag₂ parent₂ first₂ slots₂ _ hn₂ htag₂ hfirst₂ hslots₂ hlaid₂ => ?_
  refine refined_done hlaid₂.deserialize (refined_done (hlaid₂.parse rfl hfirst₂ hslots₂) ?_)
  have hlt₁ := File.lt_of_node hn₁
  have hlt₂ := File.lt_of_node hn₂
  have hlen₁ : slots₁.length < 2 ^ 16 := hlaid₁.fits.numKeys
  have hlen₂ : slots₂.length + 1 < 2 ^ 16 := by
    have hsize := hlaid₂.size
    rw [List.length_append, length_leBytes, length_encodeSlots] at hsize
    have := pageSize_eq
    omega
  dsimp only
  cases b with
  | true =>
      rw [if_pos rfl]
      rcases hlast : slots₁.getLast? with _ | ⟨newSeparator, stolenChild⟩
      · have hnil : slots₁ = [] := List.getLast?_eq_none_iff.mp hlast
        subst hnil
        exact .both_fail rfl rfl (Fuelled.bind_error (done_run _))
      · have hsplit := (List.dropLast_append_getLast? _ hlast).symm
        generalize slots₁.dropLast = kept at hsplit ⊢
        subst hsplit
        have hmem : ∀ s ∈ kept, s.2 < 2 ^ 64 := fun s hs => hslots₁ s (List.mem_append_left _ hs)
        have hchild : stolenChild < 2 ^ 64 := hslots₁ (newSeparator, stolenChild) (by simp)
        have hmove : moveChild true separator ((kept ++ [(newSeparator, stolenChild)]).map (·.1))
            (first₁ :: (kept ++ [(newSeparator, stolenChild)]).map (·.2)) (slots₂.map (·.1))
            (first₂ :: slots₂.map (·.2)) =
              .ok ((kept.map (·.1), first₁ :: kept.map (·.2)),
                (((separator, first₂) :: slots₂).map (·.1),
                  stolenChild :: ((separator, first₂) :: slots₂).map (·.2)),
                newSeparator, stolenChild) := by
          rw [List.map_append, List.map_append, List.map_singleton, List.map_singleton,
            ← List.cons_append, moveChild_left]
          rfl
        refine refined_done hmove ?_
        refine refined_writeInternal hlt₁ htag₁ hlaid₁.fits.nodeType hlaid₁.fits.parent first₁ hfirst₁
          kept hmem (Nat.lt_of_le_of_lt (by simp) hlen₁) _ fun page₁ => ?_
        refine refined_writeInternal (by rw [File.withPage_length]; exact hlt₂) htag₂
          hlaid₂.fits.nodeType hlaid₂.fits.parent stolenChild hchild
          ((separator, first₂) :: slots₂) ?_ hlen₂ _ fun page₂ => ?_
        · intro s hs
          rcases List.mem_cons.mp hs with rfl | hs
          · exact hfirst₂
          · exact hslots₂ s hs
        · exact .bind (refined_setParentPointer _ (parentField_lt _) _) fun _ _ _ =>
            refined_updateParentKey _ _ _ _
  | false =>
      rw [if_neg Bool.false_ne_true]
      cases slots₁ with
      | nil => exact .both_fail rfl rfl (Fuelled.bind_error (done_run _))
      | cons s rest =>
          obtain ⟨newSeparator, newFirst⟩ := s
          have hmem : ∀ s ∈ rest, s.2 < 2 ^ 64 := fun s hs =>
            hslots₁ s (List.mem_cons_of_mem _ hs)
          have hchild : newFirst < 2 ^ 64 := hslots₁ (newSeparator, newFirst) (by simp)
          have hmove : moveChild false separator (((newSeparator, newFirst) :: rest).map (·.1))
              (first₁ :: ((newSeparator, newFirst) :: rest).map (·.2)) (slots₂.map (·.1))
              (first₂ :: slots₂.map (·.2)) =
                .ok ((rest.map (·.1), newFirst :: rest.map (·.2)),
                  ((slots₂ ++ [(separator, first₁)]).map (·.1),
                    first₂ :: (slots₂ ++ [(separator, first₁)]).map (·.2)),
                  newSeparator, first₁) := by
            simp [moveChild]
          refine refined_done hmove ?_
          refine refined_writeInternal hlt₁ htag₁ hlaid₁.fits.nodeType hlaid₁.fits.parent newFirst
            hchild rest hmem (Nat.lt_of_succ_lt hlen₁) _ fun page₁ => ?_
          refine refined_writeInternal (by rw [File.withPage_length]; exact hlt₂) htag₂
            hlaid₂.fits.nodeType hlaid₂.fits.parent first₂ hfirst₂
            (slots₂ ++ [(separator, first₁)]) ?_ (by simpa using hlen₂) _ fun page₂ => ?_
          · intro s hs
            rcases List.mem_append.mp hs with hs | hs
            · exact hslots₂ s hs
            · obtain rfl := List.mem_singleton.mp hs
              exact hfirst₁
          · exact .bind (refined_setParentPointer _ (parentField_lt _) _) fun _ _ _ =>
              refined_updateParentKey _ _ _ _

theorem refined_mergeInternal
    (hrepair : ∀ p r f, Refined (repair p r) (repair' p r) f) (p sibling q : Nat)
    (separator : Int64) (root : Nat) (b : Bool) (f : File) :
    Refined (BTree.mergeInternal repair p sibling q separator root b)
      (mergeInternal repair' p sibling q separator root b) f := by
  refine refined_readInternal fun tag₁ parent₁ first₁ slots₁ _ hn₁ htag₁ hfirst₁ hslots₁ hlaid₁ => ?_
  refine refined_done hlaid₁.deserialize (refined_done (hlaid₁.parse rfl hfirst₁ hslots₁) ?_)
  refine refined_readInternal fun tag₂ parent₂ first₂ slots₂ _ _ htag₂ hfirst₂ hslots₂ hlaid₂ => ?_
  refine refined_done hlaid₂.deserialize (refined_done (hlaid₂.parse rfl hfirst₂ hslots₂) ?_)
  dsimp only
  have hkeys : slots₁.map (·.1) ++ [separator] ++ slots₂.map (·.1) =
      (slots₁ ++ (separator, first₂) :: slots₂).map (·.1) := by simp
  have hchildren : (first₁ :: slots₁.map (·.2)) ++ (first₂ :: slots₂.map (·.2)) =
      first₁ :: (slots₁ ++ (separator, first₂) :: slots₂).map (·.2) := by simp
  have hmoved : ((first₁ :: slots₁.map (·.2)) ++ (first₂ :: slots₂.map (·.2))).reverse.take
      (slots₂.length + 1) = (first₂ :: slots₂.map (·.2)).reverse := by
    rw [List.reverse_append]
    exact List.take_left' (by simp)
  rw [hmoved, hkeys, hchildren, List.length_map]
  refine .ite (fun _ => .both_fail rfl rfl rfl) fun hfit => ?_
  refine .bind (refined_setParentPointers (parentField_lt _) _ _) fun _ f₁ hrun => ?_
  have hlt : (inOrder p sibling b).1 < f₁.pages.length :=
    Nat.lt_of_lt_of_le (File.lt_of_node hn₁) (setParentPointers_steady _ _ _ _ _ hrun).1
  refine refined_writeInternal hlt htag₁ hlaid₁.fits.nodeType hlaid₁.fits.parent first₁ hfirst₁
    (slots₁ ++ (separator, first₂) :: slots₂) ?_ ?_ _ fun page₁ =>
      refined_removeChildFromParent hrepair _ _ _ _
  · intro s hs
    rcases List.mem_append.mp hs with hs | hs
    · exact hslots₁ s hs
    · rcases List.mem_cons.mp hs with rfl | hs
      · exact hfirst₂
      · exact hslots₂ s hs
  · have := pageSize_eq
    omega

end Collapse

theorem refined_handleInternalUnderflow (fuel p root : Nat) (f : File) :
    Refined (BTree.handleInternalUnderflow fuel p root) (handleInternalUnderflow fuel p root) f := by
  induction fuel generalizing p root f with
  | zero => exact follows_exhausted _ _
  | succ fuel ih =>
      refine refined_readNode fun node page _ himg => ?_
      obtain ⟨header, hhead, hparent, -⟩ := himg.deserialize
      refine refined_done hhead ?_
      rw [hparent]
      refine .ite (fun _ => follows_pure _ _) fun _ => ?_
      refine refined_readInternal fun tag parent first slots _ _ _ hfirst hslots hlaid => ?_
      refine refined_done hlaid.deserialize ?_
      refine .bind (refined_findSiblingInfo f hlaid rfl hfirst hslots p) ?_
      rintro ⟨sibling, separator, b⟩ f₁ -
      refine .ite (fun _ => .both_fail rfl rfl rfl) fun _ => ?_
      refine refined_readNode fun node' page' _ himg' => ?_
      obtain ⟨header', hhead', -, hnum⟩ := himg'.deserialize
      refine refined_done hhead' ?_
      rw [hnum]
      exact .ite (fun _ => refined_redistributeInternal _ _ _ _ _ _) fun _ =>
        refined_mergeInternal ih _ _ _ _ _ _ _

theorem refined_handleLeafUnderflow (fuel p root : Nat) (f : File) :
    Refined (BTree.handleLeafUnderflow fuel p root) (handleLeafUnderflow fuel p root) f := by
  refine refined_readNode fun node page _ himg => ?_
  obtain ⟨header, hhead, hparent, -⟩ := himg.deserialize
  refine refined_done hhead ?_
  rw [hparent]
  refine .ite (fun _ => follows_pure _ _) fun _ => ?_
  refine refined_readInternal fun tag parent first slots _ _ _ hfirst hslots hlaid => ?_
  refine refined_done hlaid.deserialize ?_
  refine .bind (refined_findSiblingInfo f hlaid rfl hfirst hslots p) ?_
  rintro ⟨sibling, separator, b⟩ f₁ -
  refine .ite (fun _ => .both_fail rfl rfl rfl) fun _ => ?_
  refine refined_readNode fun node' page' hn' himg' => ?_
  obtain ⟨header', hhead', -, hnum⟩ := himg'.deserialize
  refine refined_done hhead' ?_
  rw [hnum]
  refine .ite (fun hmany => ?_) fun _ =>
    refined_mergeLeaves (refined_handleInternalUnderflow fuel) _ _ _ _ _ _
  refine refined_redistributeFromSibling _ _ _ _ _ _ fun parent' hempty => ?_
  obtain rfl : node' = .leaf parent' [] := Option.some.inj (hn'.symm.trans hempty)
  exact Nat.not_lt_zero _ hmany

/-- `BTree::delete` on the pages follows the nodes. -/
theorem refined_delete (fuel : Nat) (key : Int64) (f : File) :
    Refined (BTree.delete fuel key) (delete fuel key) f := by
  refine .step (look_run _ _) (look_run _ _) ?_
  refine .bind (refined_findLeaf fuel f.rootPage key f) fun leafId f₁ _ => ?_
  refine refined_readLeaf fun parent entries page hn hlaid => ?_
  refine refined_done hlaid.deserialize ?_
  obtain ⟨junk, hat⟩ := hlaid.at_start
  rcases deleteOffset_at key hat hlaid.sizes with
    ⟨hany, hoff⟩ | ⟨pre, e, post, rfl, hany, herase, hoff⟩
  · refine refined_done hoff ?_
    dsimp only
    rw [if_neg (by rw [hany]; exact Bool.false_ne_true)]
    exact follows_pure _ _
  · refine refined_done hoff ?_
    dsimp only
    rw [if_pos hany, herase]
    refine refined_done (findDataEnd_laid hlaid rfl) (.drop (findDataEnd_run (fits_of_laid hlaid)) ?_)
    have hlaid' : Laid page ⟨1, (pre ++ e :: post).length, parent⟩
        (pre.flatMap encodeEntry ++ (encodeEntry e ++ post.flatMap encodeEntry)) := by
      simpa using hlaid
    have hstop : dataEnd (pre ++ e :: post) = headerSize + (pre.flatMap encodeEntry).length +
        (12 + e.2.length) + (post.flatMap encodeEntry).length := by
      rw [← length_encodeEntries, List.flatMap_append, List.flatMap_cons, List.length_append,
        List.length_append, length_encodeEntry, entrySize]
      omega
    obtain ⟨page₁, hcopy, h₁⟩ := hlaid'.closeGap rfl
      (by rw [length_encodeEntry, entrySize]) hstop
    have hnum : (pre ++ e :: post).length - 1 = (pre ++ post).length := by
      simp only [List.length_append, List.length_cons]
      omega
    obtain ⟨page₂, hser, h₂⟩ := h₁.serialize ⟨1, (pre ++ e :: post).length - 1, parent⟩
      ⟨(by decide : 1 < 2 ^ 8), Nat.lt_of_le_of_lt (Nat.sub_le _ _) hlaid.fits.numKeys,
        hlaid.fits.parent⟩
    refine refined_done hcopy (refined_done hser ?_)
    have himg : Image page₂ (.leaf parent (pre ++ post)) := by
      refine .leaf ?_
      rw [← hnum]
      simpa using h₂
    refine refined_write (File.lt_of_node hn) himg ?_
    rw [hnum]
    exact .ite (fun _ => .bind (refined_handleLeafUnderflow _ _ _ _) fun _ _ _ => follows_pure _ _)
      fun _ => follows_pure _ _

end VelociDB.BTree.Pages
