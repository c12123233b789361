/-
# What a call of the tree does not touch

A call reaches pages by pointers it has read and pages it has allocated, and no others.  So
it runs next to any other nodes as it runs alone, and leaves them as they are:

    beside   the nodes of a state together with other ones
    Apart    the other nodes are on pages the state does not have
    Local    from a state that has the pages `here`, a call that returns allocates at most
             `n` pages, forgets none, and does the same beside any nodes apart from it

This is the frame rule of a call.  A write is local only to a page that is known to be
there, so every rule for a read adds the page to `here`.
-/
import VelociDB.BTreeShape

namespace VelociDB.BTree

open Fuelled

variable {α β : Type} {s s' : State} {p q n m fuel : Nat} {here here' : List Nat}
  {x : BTreeM α} {f : α → BTreeM β} {rest : Nat → Option Node} {key : Int64} {a : α}

/-! ## States side by side -/

/-- Every node is on one of the pages. -/
def State.InBounds (s : State) : Prop := ∀ p, s.nodes p ≠ none → p < s.numPages

/-- The nodes of `rest` and those of the state. -/
def State.beside (s : State) (rest : Nat → Option Node) : State :=
  { s with nodes := fun p => (rest p).or (s.nodes p) }

/-- The nodes of `rest` are on other pages. -/
def Apart (rest : Nat → Option Node) (s : State) : Prop :=
  ∀ p, rest p ≠ none → s.nodes p = none ∧ p < s.numPages

@[simp] theorem State.beside_numPages : (s.beside rest).numPages = s.numPages := rfl

@[simp] theorem State.beside_rootPage : (s.beside rest).rootPage = s.rootPage := rfl

/-- A page of the state. -/
theorem Apart.none_of (h : Apart rest s) (hp : s.nodes p ≠ none) : rest p = none := by
  by_contra hne
  exact hp (h p hne).1

theorem Apart.beside_nodes (h : Apart rest s) (hp : s.nodes p ≠ none) :
    (s.beside rest).nodes p = s.nodes p := by
  show (rest p).or (s.nodes p) = _
  rw [h.none_of hp, Option.none_or]

theorem Apart.lt_of_ne (h : Apart rest s) (hp : rest p ≠ none) : p < s.numPages := (h p hp).2

/-- A write next to other nodes. -/
theorem Apart.write (h : Apart rest s) (hp : rest p = none) (node : Node) :
    Apart rest (s.write p node) ∧ (s.beside rest).write p node = (s.write p node).beside rest := by
  constructor
  · intro q hq
    have hqp : q ≠ p := fun heq => hq (heq ▸ hp)
    obtain ⟨hnone, hlt⟩ := h q hq
    refine ⟨?_, Nat.lt_of_lt_of_le hlt (Nat.le_max_left _ _)⟩
    rw [State.write_nodes, Function.update_of_ne hqp]
    exact hnone
  · have hnodes : Function.update (fun q => (rest q).or (s.nodes q)) p (some node) =
        fun q => (rest q).or (Function.update s.nodes p (some node) q) := by
      funext q
      by_cases hq : q = p
      · subst hq
        rw [Function.update_self, Function.update_self, hp, Option.none_or]
      · rw [Function.update_of_ne hq, Function.update_of_ne hq]
    show State.mk (Function.update (fun q => (rest q).or (s.nodes q)) p (some node)) _ _ = _
    rw [hnodes]
    rfl

theorem readNode_none (h : s.nodes p = none) : ∃ e, readNode p s = some (.error e, s) := by
  refine ⟨.fault (.error (.notFound ("Page " ++ toString p ++ " out of bounds"))), ?_⟩
  rw [readNode, bind_ok (look_run _ _), h]
  rfl

/-! ## Local calls -/

/-- What a local call has done. -/
structure Confined (n : Nat) (x : BTreeM α) (s : State) (a : α) (s' : State) : Prop where
  bounds : s'.InBounds
  le : s.numPages ≤ s'.numPages
  grows : s'.numPages ≤ s.numPages + n
  keeps : ∀ p, s.nodes p ≠ none → s'.nodes p ≠ none
  frame : ∀ rest, Apart rest s → Apart rest s' ∧
    x (s.beside rest) = some (.ok a, s'.beside rest)

/-- Wherever the pages `here` are there, the call stays with the pages it finds. -/
def Local (n : Nat) (here : List Nat) (x : BTreeM α) : Prop :=
  ∀ s a s', s.InBounds → (∀ p ∈ here, s.nodes p ≠ none) → x s = some (.ok a, s') →
    Confined n x s a s'

namespace Local

theorem pure (a : α) : Local n here (Pure.pure a : BTreeM α) := by
  rintro s a' s' hb - ⟨⟩
  exact ⟨hb, le_rfl, Nat.le_add_right _ _, fun _ h => h, fun rest hapart => ⟨hapart, rfl⟩⟩

theorem fail (e : Halt) : Local n here (Fuelled.fail e : BTreeM α) := by
  rintro s a s' - - ⟨⟩

theorem exhausted : Local n here (Fuelled.exhausted : BTreeM α) := by
  rintro s a s' - - ⟨⟩

theorem ofExcept (r : Except VelociError α) : Local n here (BTree.ofExcept r) := by
  cases r with
  | ok a => exact .pure a
  | error e => exact .fail _

theorem mono (h : Local n here x) (hn : n ≤ m) : Local m here x := fun s a s' hb hh hrun =>
  let C := h s a s' hb hh hrun
  ⟨C.bounds, C.le, C.grows.trans (Nat.add_le_add_left hn _), C.keeps, C.frame⟩

theorem of_nil (h : Local n [] x) : Local n here x :=
  fun s a s' hb _ hrun => h s a s' hb (fun _ hp => nomatch hp) hrun

theorem bind (hx : Local n here x) (hf : ∀ a, Local m here (f a)) :
    Local (n + m) here (x >>= f) := by
  intro s b s'' hb hh hrun
  obtain ⟨a, s', hrun₁, hrun₂⟩ := bind_eq_ok.mp hrun
  have C := hx s a s' hb hh hrun₁
  have D := hf a s' b s'' C.bounds (fun p hp => C.keeps p (hh p hp)) hrun₂
  refine ⟨D.bounds, C.le.trans D.le, ?_, fun p hp => D.keeps p (C.keeps p hp), fun rest h => ?_⟩
  · have h₁ := C.grows
    have h₂ := D.grows
    omega
  · obtain ⟨h₁, hframe₁⟩ := C.frame rest h
    obtain ⟨h₂, hframe₂⟩ := D.frame rest h₁
    exact ⟨h₂, by rw [bind_ok hframe₁]; exact hframe₂⟩

/-- A step that allocates nothing. -/
theorem andThen (hx : Local 0 here x) (hf : ∀ a, Local n here (f a)) : Local n here (x >>= f) := by
  have h := hx.bind hf
  rwa [Nat.zero_add] at h

theorem ite {c : Prop} [Decidable c] {y : BTreeM α} (hx : Local n here x) (hy : Local n here y) :
    Local n here (if c then x else y) := by
  split
  · exact hx
  · exact hy

/-- What is read is there from then on. -/
theorem read {f : Node → BTreeM β} (h : ∀ node, Local n (p :: here) (f node)) :
    Local n here (readNode p >>= f) := by
  intro s b s' hb hh hrun
  rcases hn : s.nodes p with _ | node
  · obtain ⟨e, hfail⟩ := readNode_none hn
    rw [bind_error hfail] at hrun
    cases hrun
  · have hhere : ∀ q ∈ p :: here, s.nodes q ≠ none := by
      intro q hq
      rcases List.mem_cons.mp hq with rfl | hq
      · rw [hn]
        exact Option.some_ne_none _
      · exact hh q hq
    rw [bind_ok (readNode_run hn)] at hrun
    have C := h node s b s' hb hhere hrun
    refine ⟨C.bounds, C.le, C.grows, C.keeps, fun rest hapart => ?_⟩
    obtain ⟨hapart', hframe⟩ := C.frame rest hapart
    refine ⟨hapart', ?_⟩
    have hp : (s.beside rest).nodes p = some node :=
      (hapart.beside_nodes (hhere p List.mem_cons_self)).trans hn
    rw [bind_ok (readNode_run hp)]
    exact hframe

theorem readLeaf {f : Nat × List Entry → BTreeM β} (h : ∀ r, Local n (p :: here) (f r)) :
    Local n here (readLeaf p >>= f) := by
  have heq : (BTree.readLeaf p >>= f) = readNode p >>= fun node =>
      node.casesOn (fun parent entries => f (parent, entries))
        fun _ _ _ => Fuelled.fail .misread := by
    funext s
    rw [BTree.readLeaf, bind_run, bind_run, bind_run]
    rcases readNode p s with _ | ⟨_ | node, s'⟩
    · rfl
    · rfl
    · cases node <;> rfl
  rw [heq]
  refine .read fun node => ?_
  cases node with
  | leaf parent entries => exact h _
  | internal parent first slots => exact .fail _

theorem readInternal {f : Nat × Nat × List Slot → BTreeM β}
    (h : ∀ r, Local n (p :: here) (f r)) : Local n here (readInternal p >>= f) := by
  have heq : (BTree.readInternal p >>= f) = readNode p >>= fun node =>
      node.casesOn (fun _ _ => Fuelled.fail .misread)
        fun parent first slots => f (parent, first, slots) := by
    funext s
    rw [BTree.readInternal, bind_run, bind_run, bind_run]
    rcases readNode p s with _ | ⟨_ | node, s'⟩
    · rfl
    · rfl
    · cases node <;> rfl
  rw [heq]
  refine .read fun node => ?_
  cases node with
  | leaf parent entries => exact .fail _
  | internal parent first slots => exact h _

/-- A page that is there is written. -/
theorem write (hp : p ∈ here) (node : Node) : Local 0 here (writeNode p node) := by
  rintro s a s' hb hh ⟨⟩
  have hlt := hb p (hh p hp)
  refine ⟨fun q hq => ?_, Nat.le_max_left _ _, ?_, fun q hq => ?_, fun rest hapart => ?_⟩
  · by_cases hqp : q = p
    · subst hqp
      exact Nat.lt_of_lt_of_le (Nat.lt_succ_self _) (Nat.le_max_right _ _)
    · rw [State.write_nodes, Function.update_of_ne hqp] at hq
      exact Nat.lt_of_lt_of_le (hb q hq) (Nat.le_max_left _ _)
  · show max s.numPages (p + 1) ≤ s.numPages + 0
    omega
  · by_cases hqp : q = p
    · subst hqp
      rw [State.write_nodes_self]
      exact Option.some_ne_none _
    · rw [State.write_nodes, Function.update_of_ne hqp]
      exact hq
  · obtain ⟨hapart', heq⟩ := hapart.write (hapart.none_of (hh p hp)) node
    exact ⟨hapart', by rw [writeNode_run, heq]⟩

/-- A new page is behind all others. -/
theorem allocate {f : Nat → BTreeM β} (h : ∀ p, Local n (p :: here) (f p)) :
    Local (n + 1) here (allocatePage >>= f) := by
  intro s b s' hb hh hrun
  rw [bind_ok (allocatePage_run s)] at hrun
  have hnum : (s.write s.numPages .zero).numPages = s.numPages + 1 := by
    rw [State.write_numPages]
    omega
  have hb' : (s.write s.numPages .zero).InBounds := by
    intro q hq
    rw [hnum]
    by_cases hqp : q = s.numPages
    · exact hqp ▸ Nat.lt_succ_self _
    · rw [State.write_nodes, Function.update_of_ne hqp] at hq
      exact Nat.lt_succ_of_lt (hb q hq)
  have hkeep : ∀ q, s.nodes q ≠ none → (s.write s.numPages .zero).nodes q ≠ none := by
    intro q hq
    rw [State.write_nodes, Function.update_of_ne (hb q hq).ne]
    exact hq
  have hhere : ∀ q ∈ s.numPages :: here, (s.write s.numPages .zero).nodes q ≠ none := by
    intro q hq
    rcases List.mem_cons.mp hq with rfl | hq
    · rw [State.write_nodes_self]
      exact Option.some_ne_none _
    · exact hkeep q (hh q hq)
  have C := h s.numPages _ b s' hb' hhere hrun
  refine ⟨C.bounds, ?_, ?_, fun q hq => C.keeps q (hkeep q hq), fun rest hapart => ?_⟩
  · have hle := C.le
    omega
  · have hgrows := C.grows
    omega
  · have hnone : rest s.numPages = none := by
      by_contra hne
      exact Nat.lt_irrefl _ (hapart.lt_of_ne hne)
    obtain ⟨hapart₁, heq⟩ := hapart.write hnone .zero
    obtain ⟨hapart₂, hframe⟩ := C.frame rest hapart₁
    refine ⟨hapart₂, ?_⟩
    rw [bind_ok (allocatePage_run _), State.beside_numPages, heq]
    exact hframe

theorem root {f : Nat → BTreeM β} (h : ∀ r, Local n here (f r)) :
    Local n here ((look fun s : State => s.rootPage) >>= f) :=
  fun s a s' hb hh hrun => by
    have C := h s.rootPage s a s' hb hh hrun
    exact ⟨C.bounds, C.le, C.grows, C.keeps, C.frame⟩

theorem setRoot (r : Nat) : Local n here
    (change fun s : State => { s with rootPage := r } : BTreeM Unit) := by
  rintro s a s' hb - ⟨⟩
  exact ⟨hb, le_rfl, Nat.le_add_right _ _, fun _ h => h, fun rest hapart => ⟨hapart, rfl⟩⟩

end Local

/-! ## Insert -/

theorem findLeaf_local (fuel p : Nat) (key : Int64) : Local 0 [] (findLeaf fuel p key) := by
  induction fuel generalizing p with
  | zero => exact .exhausted
  | succ fuel ih =>
      refine .read fun node => ?_
      cases node with
      | leaf => exact .pure _
      | internal => exact (ih _).of_nil

theorem setParentPointer_local (p q : Nat) : Local 0 here (setParentPointer p q) :=
  .read fun _ => .ite (.pure _) (.write List.mem_cons_self _)

theorem setParentPointers_local (q : Nat) (pages : List Nat) :
    Local 0 here (setParentPointers q pages) := by
  induction pages with
  | nil => exact .pure _
  | cons p pages ih => exact (setParentPointer_local p q).andThen fun _ => ih

theorem splitLeafNode_local (p : Nat) : Local 1 here (splitLeafNode p) := by
  refine .readLeaf fun ⟨parent, entries⟩ => ?_
  dsimp only
  split
  · exact .fail _
  · refine .allocate fun q => ?_
    exact (Local.write (List.mem_cons_of_mem _ List.mem_cons_self) _).andThen fun _ =>
      (Local.write List.mem_cons_self _).andThen fun _ => .pure _

theorem createNewRoot_local (left right : Nat) (key : Int64) :
    Local 1 here (createNewRoot left right key) :=
  .allocate fun _ => (Local.write List.mem_cons_self _).andThen fun _ =>
    (setParentPointer_local _ _).andThen fun _ =>
      (setParentPointer_local _ _).andThen fun _ => .pure _

theorem splitInternalNode_local {up : Nat → Nat → Int64 → BTreeM (Option Nat)}
    (hup : ∀ l r k, Local n [] (up l r k)) (p right : Nat) (key : Int64) :
    Local (n + 1) here (splitInternalNode up p right key) := by
  refine .readInternal fun ⟨parent, first, slots⟩ => ?_
  dsimp only
  split
  · exact .fail _
  · refine .allocate fun q => (setParentPointers_local _ _).andThen fun _ => ?_
    exact (Local.write List.mem_cons_self _).andThen fun _ =>
      (Local.write (List.mem_cons_of_mem _ List.mem_cons_self) _).andThen fun _ => (hup _ _ _).of_nil

theorem insertIntoInternal_local {up : Nat → Nat → Int64 → BTreeM (Option Nat)}
    (hup : ∀ l r k, Local n [] (up l r k)) (p right : Nat) (key : Int64) :
    Local (n + 1) here (insertIntoInternal up p right key) :=
  (setParentPointer_local _ _).andThen fun _ => .readInternal fun _ =>
    .ite (splitInternalNode_local hup _ _ _)
      (((Local.write List.mem_cons_self _).andThen fun _ => .pure _).mono (Nat.zero_le _))

/-- Each node on the way up is cut once at most. -/
theorem insertIntoParent_local (fuel left right : Nat) (key : Int64) :
    Local fuel [] (insertIntoParent fuel left right key) := by
  induction fuel generalizing left right key with
  | zero => exact .exhausted
  | succ fuel ih =>
      refine .read fun node => .ite ?_ ((insertIntoInternal_local ih _ _ _).of_nil)
      have hroot : Local 1 [left] (createNewRoot left right key) := createNewRoot_local _ _ _
      have h := hroot.bind fun rootId => Local.pure (n := 0) (some rootId)
      exact h.mono (Nat.succ_le_succ (Nat.zero_le _))

theorem insertIntoLeaf_local (fuel p : Nat) (key : Int64) (data : Bytes) :
    Local (fuel * (fuel + 1)) [] (insertIntoLeaf fuel p key data) := by
  induction fuel generalizing p with
  | zero => exact .exhausted
  | succ fuel ih =>
      refine .readLeaf fun ⟨parent, entries⟩ => (Local.ofExcept _).andThen fun _ => .ite ?_ ?_
      · have hsplit : Local 1 [p] (splitLeafNode p) := splitLeafNode_local _
        have h := hsplit.bind fun r =>
          (insertIntoParent_local fuel p r.1 r.2).of_nil.bind fun newRoot =>
            (ih (if key < r.2 then p else r.1)).of_nil.bind fun _ => Local.pure (n := 0) newRoot
        refine h.mono ?_
        have hsq : (fuel + 1) * (fuel + 1 + 1) = fuel * (fuel + 1) + (2 * fuel + 2) := by ring
        omega
      · exact ((Local.write List.mem_cons_self _).andThen fun _ => .pure _).mono (Nat.zero_le _)

theorem insert_local (fuel : Nat) (key : Int64) (row : Row) :
    Local (fuel * (fuel + 1)) [] (insert fuel key row) := by
  refine .root fun r => (findLeaf_local fuel r key).andThen fun leafId => ?_
  refine Local.bind (m := 0) (insertIntoLeaf_local _ _ _ _) fun newRoot => ?_
  cases newRoot with
  | none => exact .pure _
  | some r => exact .setRoot _

/-! ## Delete -/

theorem updateParentKey_local (p : Nat) (oldKey newKey : Int64) :
    Local 0 here (updateParentKey p oldKey newKey) :=
  .readInternal fun _ => .write List.mem_cons_self _

theorem redistributeFromSibling_local (p sibling parent : Nat) (key : Int64) (isLeft : Bool) :
    Local 0 here (redistributeFromSibling p sibling parent key isLeft) := by
  refine .readLeaf fun ⟨siblingParent, siblingEntries⟩ => ?_
  dsimp only
  split
  · exact .fail _
  · refine (Local.ofExcept _).andThen fun _ => (Local.write List.mem_cons_self _).andThen fun _ => ?_
    refine .readLeaf fun ⟨parent, entries⟩ => (Local.ofExcept _).andThen fun _ => .ite (.fail _) ?_
    refine (Local.write List.mem_cons_self _).andThen fun _ => .readLeaf fun ⟨_, rightEntries⟩ => ?_
    cases rightEntries with
    | nil => exact .pure _
    | cons e rightEntries => exact updateParentKey_local _ _ _

theorem appendEntries_local (entries more : List Entry) :
    Local 0 here (appendEntries entries more) := by
  induction more generalizing entries with
  | nil => exact .pure _
  | cons e more ih => exact (Local.ofExcept _).andThen fun _ => .ite (.fail _) (ih _)

theorem removeChildFromParent_local {repair : Nat → Nat → BTreeM Unit}
    (h : ∀ p r, Local 0 [] (repair p r)) (parent child r : Nat) :
    Local 0 here (removeChildFromParent repair parent child r) := by
  refine .readInternal fun ⟨q, first, slots⟩ => .ite ?_ ?_
  · split
    · exact .fail _
    · exact (Local.write List.mem_cons_self _).andThen fun _ => .ite (.setRoot _) (.pure _)
  · split
    · exact .pure _
    · exact (Local.write List.mem_cons_self _).andThen fun _ =>
        .ite (.setRoot _) (.ite (h _ _).of_nil (.pure _))

theorem mergeLeaves_local {repair : Nat → Nat → BTreeM Unit} (h : ∀ p r, Local 0 [] (repair p r))
    (p sibling parent r : Nat) (isLeft : Bool) :
    Local 0 here (mergeLeaves repair p sibling parent r isLeft) :=
  .readLeaf fun _ => .readLeaf fun _ => (appendEntries_local _ _).andThen fun _ =>
    (Local.write List.mem_cons_self _).andThen fun _ => removeChildFromParent_local h _ _ _

theorem writeInternal_local (hp : p ∈ here) (parent first : Nat) (slots : List Slot) :
    Local 0 here (writeInternal p parent first slots) :=
  .ite (.fail _) (.write hp _)

theorem redistributeInternal_local (p sibling parent : Nat) (key : Int64) (isLeft : Bool) :
    Local 0 here (redistributeInternal p sibling parent key isLeft) := by
  refine .readInternal fun ⟨siblingParent, siblingFirst, siblingSlots⟩ =>
    .readInternal fun ⟨q, first, slots⟩ => .ite ?_ ?_
  · split
    · exact .fail _
    · exact (writeInternal_local (List.mem_cons_of_mem _ List.mem_cons_self) _ _ _).andThen fun _ =>
        (writeInternal_local List.mem_cons_self _ _ _).andThen fun _ =>
          (setParentPointer_local _ _).andThen fun _ => updateParentKey_local _ _ _
  · split
    · exact .fail _
    · exact (writeInternal_local (List.mem_cons_of_mem _ List.mem_cons_self) _ _ _).andThen fun _ =>
        (writeInternal_local List.mem_cons_self _ _ _).andThen fun _ =>
          (setParentPointer_local _ _).andThen fun _ => updateParentKey_local _ _ _

theorem mergeInternal_local {repair : Nat → Nat → BTreeM Unit} (h : ∀ p r, Local 0 [] (repair p r))
    (p sibling parent : Nat) (key : Int64) (r : Nat) (isLeft : Bool) :
    Local 0 here (mergeInternal repair p sibling parent key r isLeft) :=
  .readInternal fun _ => .readInternal fun _ => .ite (.fail _) <|
    (setParentPointers_local _ _).andThen fun _ =>
      (writeInternal_local (List.mem_cons_of_mem _ List.mem_cons_self) _ _ _).andThen fun _ =>
        removeChildFromParent_local h _ _ _

theorem findSiblingInfo_local (first : Nat) (slots : List Slot) (child : Nat) :
    Local 0 here (findSiblingInfo first slots child) := by
  refine .ite ?_ (.pure _)
  cases slots with
  | nil => exact .fail _
  | cons slot slots => exact .pure _

theorem handleInternalUnderflow_local (fuel p r : Nat) :
    Local 0 [] (handleInternalUnderflow fuel p r) := by
  induction fuel generalizing p r with
  | zero => exact .exhausted
  | succ fuel ih =>
      exact .read fun _ => .ite (.pure _) <| .readInternal fun _ =>
        (findSiblingInfo_local _ _ _).andThen fun _ => .ite (.fail _) <| .read fun _ =>
          .ite (redistributeInternal_local _ _ _ _ _) (mergeInternal_local ih _ _ _ _ _ _)

theorem handleLeafUnderflow_local (fuel p r : Nat) :
    Local 0 here (handleLeafUnderflow fuel p r) :=
  .read fun _ => .ite (.pure _) <| .readInternal fun _ =>
    (findSiblingInfo_local _ _ _).andThen fun _ => .ite (.fail _) <| .read fun _ =>
      .ite (redistributeFromSibling_local _ _ _ _ _)
        (mergeLeaves_local (handleInternalUnderflow_local fuel) _ _ _ _ _)

theorem delete_local (fuel : Nat) (key : Int64) : Local 0 [] (delete fuel key) := by
  refine .root fun r => (findLeaf_local fuel r key).andThen fun leafId => .readLeaf fun _ =>
    .ite ?_ (.pure _)
  exact (Local.ofExcept _).andThen fun _ => (Local.write List.mem_cons_self _).andThen fun _ =>
    .ite ((handleLeafUnderflow_local _ _ _).andThen fun _ => .pure _) (.pure _)

end VelociDB.BTree
