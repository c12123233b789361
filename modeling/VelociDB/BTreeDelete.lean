/-
# `BTree::delete`

`delete` takes the entry out of its leaf.  A leaf other than the root that has fewer than
`minKeys` entries then takes one over from its sibling, or is merged with it:

    Crowded     what the leaf has to take over does not fit, and the call fails
    Collapses   the merges go up to the root and drop it, and the handle moves to a page
                whose header still names the dropped root

Otherwise the tree is well-formed again, without the entry.
-/
import VelociDB.BTreeInsert
import VelociDB.BTreeUnderflow

namespace VelociDB.BTree

open SearchTree Fuelled

variable {least : Nat} {s s' sm : State} {root p q parent first right lp rp sibling : Nat}
  {L L' : Layout Int64 Nat} {k key : Int64} {l r : List Slot} {isLeft : Bool} {e : Entry}
  {entries es fs es' fs' mine theirs : List Entry}

/-! ## A pair of leaves -/

/-- Two neighbours that are leaves. -/
structure LeafPair (s : State) (L : Layout Int64 Nat) (q parent first : Nat) (l : List Slot)
    (k : Int64) (right : Nat) (r : List Slot) (lp : Nat) (es : List Entry) (rp : Nat)
    (fs : List Entry) : Prop where
  pair : Pair s L q parent first l k right r
  left_eq : s.nodes (lastOf first l) = some (.leaf lp es)
  right_eq : s.nodes right = some (.leaf rp fs)

namespace LeafPair

variable (T : Tree least s root L) (I : LeafPair s L q parent first l k right r lp es rp fs)
include T I

omit T in
theorem view_left : s.view (lastOf first l) = some (.leaf es) := State.view_eq_leaf.mpr ⟨_, I.left_eq⟩

omit T in
theorem view_right : s.view right = some (.leaf fs) := State.view_eq_leaf.mpr ⟨_, I.right_eq⟩

theorem fits_left : dataEnd es ≤ pageSize :=
  T.pages.fits _ (I.pair.neighbours.left_mem T.whole) _ I.view_left

theorem fits_right : dataEnd fs ≤ pageSize :=
  T.pages.fits _ (I.pair.neighbours.right_mem T.whole) _ I.view_right

/-- The two leaves as one. -/
theorem suits : L.level (lastOf first l) = 0 ∧ L.level right = 0 ∧
    Within (L.lo (lastOf first l)) (L.hi right) (es ++ fs) := by
  have M := I.pair.neighbours
  obtain ⟨hl₀, hl⟩ := Forest.suits_of T.whole (M.left_mem T.whole) I.view_left
  obtain ⟨hr₀, hr⟩ := Forest.suits_of T.whole (M.right_mem T.whole) I.view_right
  rw [M.hi_left T.whole] at hl
  rw [M.lo_right T.whole] at hr
  exact ⟨hl₀, hr₀, hl.append hr (M.lo_lt T.whole).le (M.lt_hi T.whole).le⟩

/-- Moving the border keeps the tree. -/
theorem kept (hcut : es ++ fs = es' ++ e :: fs') (hsome : es' ≠ [])
    (hfit₁ : dataEnd es' ≤ pageSize) (hfit₂ : dataEnd (e :: fs') ≤ pageSize)
    (hsm : sm = (s.write (lastOf first l) (.leaf lp es')).write right (.leaf rp (e :: fs'))) :
    Kept least s (sm.write q (.internal parent first (l ++ (e.1, right) :: r))) root L ∧
      sm.nodes q = s.nodes q := by
  have M := I.pair.neighbours
  have W := T.whole
  obtain ⟨hl₀, hr₀, hW⟩ := I.suits T
  rw [hcut] at hW
  obtain ⟨h₁, h₂, hlo, hhi⟩ := hW.cut hsome
  have hpl : (Node.leaf lp es').parent = _ := (State.parentOf_eq I.left_eq).symm
  have hpr : (Node.leaf rp (e :: fs')).parent = _ := (State.parentOf_eq I.right_eq).symm
  obtain ⟨hview, hnum, hpar, hnq⟩ := I.pair.rewritten T hpl hpr hsm
  have hpq : (Node.internal parent first (l ++ (e.1, right) :: r)).parent = sm.parentOf q := by
    rw [hpar]
    exact (State.parentOf_eq I.pair.node_eq).symm
  have hall : ∀ x, (sm.write q (.internal parent first (l ++ (e.1, right) :: r))).parentOf x =
      s.parentOf x := fun x => (State.parentOf_write_same hpq x).trans (hpar x)
  have E : Shifted s (sm.write q (.internal parent first (l ++ (e.1, right) :: r))) L q first l
      right r e.1 (.leaf es') (.leaf (e :: fs')) := by
    refine ⟨?_, ?_, by rw [hsm]; rfl, fun c hc => ?_, fun c hc => ?_, fun x _ _ _ => hall x⟩
    · rw [State.view_write, hview]
      rfl
    · have := (T.pages.bounds q M.mem).2
      simp only [State.write_numPages, hnum]
      omega
    · simp [View.children] at hc
    · simp [View.children] at hc
  have hentries : ∀ x, x ∈ es' ∨ x ∈ e :: fs' ↔ x ∈ es ∨ x ∈ fs := by
    intro x
    have h := congrArg (fun y : List Entry => x ∈ y) hcut
    simp only [List.mem_append, eq_iff_iff] at h
    exact h.symm
  obtain ⟨T', hholds⟩ := T.weaken.shift I.pair E I.view_left I.view_right hlo hhi ⟨hl₀, h₁⟩
    ⟨hr₀, h₂⟩ hfit₁ hfit₂ (fun c => by simp [View.children]) hentries
  refine ⟨⟨_, T'.keyed fun x hx f sl hv => ?_, E.rootPage_eq, hholds⟩, hnq⟩
  rw [E.view_eq] at hv
  rcases eq_or_ne x q with rfl | hxq
  · rw [Function.update_self] at hv
    cases hv
    simpa using (T.pages.fits x hx _ M.view_eq).1
  rw [Function.update_of_ne hxq] at hv
  rcases eq_or_ne x right with rfl | hxr
  · rw [Function.update_self] at hv
    cases hv
  rw [Function.update_of_ne hxr] at hv
  rcases eq_or_ne x (lastOf first l) with rfl | hxl
  · rw [Function.update_self] at hv
    cases hv
  rw [Function.update_of_ne hxl] at hv
  exact (T.pages.fits x hx _ hv).1

/-! ### Taking an entry over -/

/-- The first entry on the right of the separator has its new key. -/
def resetSeparator (q : Nat) (k : Int64) : Nat × List Entry → BTreeM Unit
  | (_, (newKey, _) :: _) => updateParentKey q k newKey
  | (_, []) => pure ()

omit T I in
theorem eq_resetSeparator {f : Nat × List Entry → BTreeM Unit}
    (hcons : ∀ lp e es, f (lp, e :: es) = updateParentKey q k e.1)
    (hnil : ∀ lp, f (lp, []) = pure ()) : f = resetSeparator q k := by
  funext x
  obtain ⟨lp, _ | ⟨e, es⟩⟩ := x
  · exact hnil lp
  · exact hcons lp e es

/-- The left one takes the first entry of the right one, if it fits. -/
theorem redistribute_right (hmany : minKeys < fs.length) :
    ∃ stolen kept s', lend false fs = some (stolen, kept) ∧
      if pageSize < dataEnd es + entrySize stolen.2 then
        redistributeFromSibling (lastOf first l) right q k false s =
          some (.error (.fault (.error (.storageError "Cannot redistribute: target page full"))), s')
      else redistributeFromSibling (lastOf first l) right q k false s = some (.ok (), s') ∧
        Kept least s s' root L := by
  have M := I.pair.neighbours
  have hne := M.ne T.whole
  have hord : 1 ≤ minKeys := by decide
  obtain ⟨stolen, e, fs', rfl⟩ : ∃ stolen e fs', fs = stolen :: e :: fs' := by
    obtain _ | ⟨stolen, _ | ⟨e, fs'⟩⟩ := fs
    · simp at hmany
    · simp at hmany
    · exact ⟨stolen, e, fs', rfl⟩
  have hstart : ∀ s', redistributeFromSibling (lastOf first l) right q k false s = s' ↔
      (if pageSize < dataEnd es + entrySize stolen.2 then
          returnErr (.storageError "Cannot redistribute: target page full")
        else do
          writeNode (lastOf first l) (.leaf lp (es ++ [stolen]))
          readLeaf right >>= resetSeparator q k) (s.write right (.leaf rp (e :: fs'))) = s' := by
    intro s'
    have hleft : (s.write right (.leaf rp (e :: fs'))).nodes (lastOf first l) =
        some (.leaf lp es) := by
      rw [State.write_nodes, Function.update_of_ne hne, I.left_eq]
    rw [redistributeFromSibling, bind_ok (readLeaf_run I.right_eq)]
    simp only [lend, Bool.false_eq_true, if_false, List.head?_cons, Option.map_some, List.tail_cons]
    rw [bind_ok (findDataEnd_run (I.fits_right T)), bind_ok (writeNode_run _ _ _),
      bind_ok (readLeaf_run hleft)]
    dsimp only
    rw [bind_ok (findDataEnd_run (I.fits_left T))]
    refine iff_of_eq (congrArg (· = s') ?_)
    split_ifs
    · rfl
    · refine congrArg (fun f => (writeNode _ _ >>= fun _ => readLeaf right >>= f) _)
        (eq_resetSeparator ?_ ?_)
      · exact fun _ _ _ => rfl
      · exact fun _ => rfl
  by_cases hfull : pageSize < dataEnd es + entrySize stolen.2
  · refine ⟨stolen, e :: fs', s.write right (.leaf rp (e :: fs')), rfl, ?_⟩
    rw [if_pos hfull, hstart, if_pos hfull]
    rfl
  · let sm := (s.write right (.leaf rp (e :: fs'))).write (lastOf first l) (.leaf lp (es ++ [stolen]))
    have hcut : es ++ stolen :: e :: fs' = (es ++ [stolen]) ++ e :: fs' := by simp
    have hfits : dataEnd (es ++ [stolen]) ≤ pageSize := by
      rw [dataEnd_append]
      simpa using hfull
    have hfitr : dataEnd (e :: fs') ≤ pageSize := by
      refine le_trans ?_ (I.fits_right T)
      simp only [dataEnd, List.map_cons, List.sum_cons]
      omega
    have hsm : sm = (s.write (lastOf first l) (.leaf lp (es ++ [stolen]))).write right
        (.leaf rp (e :: fs')) := (State.write_comm hne.symm).symm
    obtain ⟨hkept, hnq⟩ := I.kept T hcut (by simp) hfits hfitr hsm
    refine ⟨stolen, e :: fs', sm.write q (.internal parent first (l ++ (e.1, right) :: r)), rfl, ?_⟩
    rw [if_neg hfull, hstart, if_neg hfull]
    refine ⟨?_, hkept⟩
    have hright : sm.nodes right = some (.leaf rp (e :: fs')) := by
      rw [hsm, State.write_nodes_self]
    rw [bind_ok (writeNode_run _ _ _), bind_ok (readLeaf_run hright)]
    exact updateParentKey_run (M.keys_lt T.whole) (hnq.trans I.pair.node_eq)

/-- The right one takes the last entry of the left one, if it fits. -/
theorem redistribute_left (hmany : minKeys < es.length) :
    ∃ stolen kept s', lend true es = some (stolen, kept) ∧
      if pageSize < dataEnd fs + entrySize stolen.2 then
        redistributeFromSibling right (lastOf first l) q k true s =
          some (.error (.fault (.error (.storageError "Cannot redistribute: target page full"))), s')
      else redistributeFromSibling right (lastOf first l) q k true s = some (.ok (), s') ∧
        Kept least s s' root L := by
  have M := I.pair.neighbours
  have hne := M.ne T.whole
  have hord : 1 ≤ minKeys := by decide
  obtain ⟨es', stolen, rfl⟩ : ∃ es' stolen, es = es' ++ [stolen] := by
    have hsome : es ≠ [] := by
      rintro rfl
      simp at hmany
    exact ⟨es.dropLast, es.getLast hsome, (List.dropLast_append_getLast hsome).symm⟩
  have hstart : ∀ s', redistributeFromSibling right (lastOf first l) q k true s = s' ↔
      (if pageSize < dataEnd fs + entrySize stolen.2 then
          returnErr (.storageError "Cannot redistribute: target page full")
        else do
          writeNode right (.leaf rp (stolen :: fs))
          readLeaf right >>= resetSeparator q k) (s.write (lastOf first l) (.leaf lp es')) = s' := by
    intro s'
    have hright : (s.write (lastOf first l) (.leaf lp es')).nodes right = some (.leaf rp fs) := by
      rw [State.write_nodes, Function.update_of_ne hne.symm, I.right_eq]
    rw [redistributeFromSibling, bind_ok (readLeaf_run I.left_eq)]
    simp only [lend, if_true, List.getLast?_concat, Option.map_some, List.dropLast_concat]
    rw [bind_ok (findDataEnd_run (I.fits_left T)), bind_ok (writeNode_run _ _ _),
      bind_ok (readLeaf_run hright)]
    dsimp only
    rw [bind_ok (findDataEnd_run (I.fits_right T))]
    refine iff_of_eq (congrArg (· = s') ?_)
    split_ifs
    · rfl
    · refine congrArg (fun f => (writeNode _ _ >>= fun _ => readLeaf right >>= f) _)
        (eq_resetSeparator ?_ ?_)
      · exact fun _ _ _ => rfl
      · exact fun _ => rfl
  by_cases hfull : pageSize < dataEnd fs + entrySize stolen.2
  · refine ⟨stolen, es', s.write (lastOf first l) (.leaf lp es'), by simp [lend], ?_⟩
    rw [if_pos hfull, hstart, if_pos hfull]
    rfl
  · let sm := (s.write (lastOf first l) (.leaf lp es')).write right (.leaf rp (stolen :: fs))
    have hcut : es' ++ [stolen] ++ fs = es' ++ stolen :: fs := by simp
    have hlen : es' ≠ [] := by
      rintro rfl
      simp only [List.nil_append, List.length_singleton] at hmany
      omega
    have hfitl : dataEnd es' ≤ pageSize := by
      have h := I.fits_left T
      rw [dataEnd_append] at h
      omega
    have hfitr : dataEnd (stolen :: fs) ≤ pageSize := by
      simp only [dataEnd, List.map_cons, List.sum_cons] at hfull ⊢
      omega
    obtain ⟨hkept, hnq⟩ := I.kept T hcut hlen hfitl hfitr (rfl : sm = _)
    refine ⟨stolen, es', sm.write q (.internal parent first (l ++ (stolen.1, right) :: r)),
      by simp [lend], ?_⟩
    rw [if_neg hfull, hstart, if_neg hfull]
    refine ⟨?_, hkept⟩
    rw [bind_ok (writeNode_run _ _ _), bind_ok (readLeaf_run (State.write_nodes_self ..))]
    exact updateParentKey_run (M.keys_lt T.whole) (hnq.trans I.pair.node_eq)

/-! ### Merging -/

omit T I in
theorem appendEntries_run (hfit : dataEnd es ≤ pageSize) :
    appendEntries es fs s = some (if pageSize < dataEnd (es ++ fs) then
      .error (.fault (.error (.storageError "Cannot merge: target page full")))
        else .ok (es ++ fs), s) := by
  induction fs generalizing es with
  | nil =>
      rw [List.append_nil, if_neg hfit.not_gt]
      rfl
  | cons e fs ih =>
      have hsum : dataEnd (es ++ [e]) = dataEnd es + entrySize e.2 := by
        rw [dataEnd_append]
        simp
      have hrest : es ++ e :: fs = (es ++ [e]) ++ fs := by simp
      rw [appendEntries, bind_ok (findDataEnd_run hfit)]
      by_cases hfull : pageSize < dataEnd es + entrySize e.2
      · have hlong : pageSize < dataEnd (es ++ e :: fs) := by
          have := dataEnd_append (es ++ [e]) fs
          rw [hrest]
          omega
        rw [if_pos hfull, if_pos hlong]
        rfl
      · have hfit' : dataEnd (es ++ [e]) ≤ pageSize := by omega
        rw [if_neg hfull, hrest]
        exact ih hfit'

/-- All entries go to the left one, if they fit; then the parent loses the slot. -/
theorem merge_run (hleast : least ≤ 1) {p : Nat}
    (S : SiblingOf s L p q parent first l k right r sibling isLeft)
    (hroot : s.rootPage = root) (hfew : s.numKeysOf sibling ≤ minKeys) {fuel : Nat}
    (hfuel : L.level root < fuel) :
    if pageSize < dataEnd (es ++ fs) then
      mergeLeaves (handleInternalUnderflow fuel) p sibling q root isLeft s =
        some (.error (.fault (.error (.storageError "Cannot merge: target page full"))), s)
    else Repaired least (mergeLeaves (handleInternalUnderflow fuel) p sibling q root isLeft s) s
      root L p := by
  have M := I.pair.neighbours
  have hlq := M.left_ne_parent T.whole
  obtain ⟨hl₀, -, hW⟩ := I.suits T
  have hrun : appendEntries es fs s = some (if pageSize < dataEnd (es ++ fs) then
      .error (.fault (.error (.storageError "Cannot merge: target page full")))
        else .ok (es ++ fs), s) := appendEntries_run (I.fits_left T)
  by_cases hfull : pageSize < dataEnd (es ++ fs)
  · rw [if_pos hfull] at hrun
    rw [if_pos hfull, mergeLeaves, S.inOrder_eq]
    dsimp only
    rw [bind_ok (readLeaf_run I.right_eq)]
    dsimp only
    rw [bind_ok (readLeaf_run I.left_eq), bind_error hrun]
  · rw [if_neg hfull] at hrun
    rw [if_neg hfull]
    let sm := s.write (lastOf first l) (.leaf lp (es ++ fs))
    have hpar : ∀ x, sm.parentOf x = s.parentOf x := by
      refine State.parentOf_write_same ?_
      exact (State.parentOf_eq I.left_eq).symm
    have hnq : sm.nodes q = s.nodes q := by
      simp only [sm, State.write_nodes]
      rw [Function.update_of_ne hlq.symm]
    have hall : ∀ x, (sm.write q (.internal parent first (l ++ r))).parentOf x = s.parentOf x := by
      intro x
      rw [State.parentOf_write_same, hpar]
      rw [hpar]
      exact (State.parentOf_eq I.pair.node_eq).symm
    have E : Merged s (sm.write q (.internal parent first (l ++ r))) L q first l right r
        (.leaf (es ++ fs)) := by
      refine ⟨?_, ?_, rfl, fun c hc => ?_, fun x _ _ => hall x⟩
      · simp only [sm, State.view_write]
        rfl
      · have := (T.pages.bounds _ (M.left_mem T.whole)).2
        have := (T.pages.bounds _ M.mem).2
        simp only [sm, State.write_numPages]
        omega
      · simp [View.children] at hc
    rw [mergeLeaves, S.inOrder_eq]
    dsimp only
    rw [bind_ok (readLeaf_run I.right_eq)]
    dsimp only
    rw [bind_ok (readLeaf_run I.left_eq), bind_ok hrun, bind_ok (writeNode_run _ _ _)]
    refine Repaired.of_merge hleast T.weaken (T.keyed_all p) S hfew hroot
      (hnq.trans I.pair.node_eq) E I.view_left I.view_right ⟨hl₀, hW⟩ (not_lt.mp hfull)
      (fun c => by simp [View.children]) (fun e => by simp [View.entries]) (by rintro _ _ ⟨⟩)
      fun T' hkeyed' hq hne hroot' hlr hlq' hfew' => ?_
    exact handleInternalUnderflow_run hleast T' hkeyed' hq hne hroot' (by omega) hfew'

end LeafPair

/-! ## The repair of a leaf -/

/-- What a leaf takes over: one entry of a sibling that has many, else all. -/
def takenOver (siblingIsLeft : Bool) (theirs : List Entry) : Nat :=
  if minKeys < theirs.length then (lend siblingIsLeft theirs).elim 0 fun e => entrySize e.1.2
  else (theirs.map fun e => entrySize e.2).sum

/-- What the leaf takes over does not go with its own entries. -/
def Crowded (s : State) (p : Nat) (mine : List Entry) : Prop :=
  ∃ first slots theirs, s.view (s.parentOf p) = some (.inner first slots) ∧ siblingOf s p ≠ 0 ∧
    s.view (siblingOf s p) = some (.leaf theirs) ∧
    pageSize < dataEnd mine + takenOver (first != p) theirs

theorem siblingBefore_left {slots : List Slot} (h : p ∈ slots.map (·.2)) :
    (siblingBefore p first slots).2.2 = true := by
  induction slots generalizing first with
  | nil => simp at h
  | cons e slots ih =>
      rw [siblingBefore]
      split
      · rfl
      · rename_i hne
        exact ih ((List.mem_cons.mp h).resolve_left (Ne.symm hne))

/-- Only a first child looks to its right. -/
theorem SiblingOf.isLeft_eq
    (S : SiblingOf s L p q parent first l k right r sibling isLeft) : (first != p) = isLeft := by
  have hrun := S.run s
  unfold findSiblingInfo at hrun
  split at hrun
  · rename_i hfirst
    have hfalse : isLeft = false := by
      generalize l ++ (k, right) :: r = slots at hrun
      cases slots with
      | nil => cases hrun
      | cons e slots => cases hrun; rfl
    rw [hfirst, hfalse]
    simp
  · rename_i hfirst
    have hmem : p ∈ (l ++ (k, right) :: r).map (·.2) := by
      have hside := S.side
      have hlast := lastOf_mem first l ((k, right) :: r)
      have hright := next_mem first l r k right
      cases isLeft
      · rw [← hside.1] at hlast
        exact (List.mem_cons.mp hlast).resolve_left (Ne.symm hfirst)
      · rw [hside.1] at hfirst ⊢
        exact (List.mem_cons.mp hright).resolve_left (Ne.symm hfirst)
    have hleft : (siblingBefore p first ((l ++ (k, right) :: r))).2.2 = true :=
      siblingBefore_left hmem
    simp only [pure_run, Option.some.injEq, Prod.mk.injEq, Except.ok.injEq, and_true] at hrun
    rw [hrun] at hleft
    rw [bne_iff_ne.mpr hfirst]
    exact hleft.symm

theorem handleLeafUnderflow_run (hleast : least ≤ 1) (T : Tree least s root L)
    (hn : s.nodes p = some (.leaf parent mine)) (hp : p ∈ L.pages) (hr : p ≠ root)
    (hroot : s.rootPage = root) {fuel : Nat} (hfuel : L.level root < fuel) :
    (Crowded s p mine ∧ ∃ m s', handleLeafUnderflow fuel p root s =
        some (.error (.fault (.error (.storageError m))), s')) ∨
      ¬ Crowded s p mine ∧ Repaired least (handleLeafUnderflow fuel p root s) s root L p := by
  have hpp : s.parentOf p = parent := State.parentOf_eq hn
  obtain ⟨hq, hq0, hlevel, -⟩ := T.pages.parent_mem T.whole hp hr not_false
  have hp₀ : L.level p = 0 := (Forest.suits_of T.whole hp (State.view_eq_leaf.mpr ⟨_, hn⟩)).1
  rw [handleLeafUnderflow, bind_ok (readNode_run hn),
    if_neg (show (Node.leaf parent mine).parent ≠ 0 from hpp ▸ hq0)]
  by_cases hnone : s.numKeysOf (s.parentOf p) = 0
  · -- a node without keys has no sibling to offer
    have hlone := lone_child T.weaken hp hr hnone
    refine .inr ⟨?_, .inr ⟨?_, s, ?_⟩⟩
    · rintro ⟨-, -, -, -, hne, -⟩
      exact hne (siblingOf_eq_zero T.weaken hp hr hnone)
    · have := (T.pages.fits _ hq _ hlone).1
      simpa using this
    · obtain ⟨pp, hnq⟩ := State.view_eq_inner.mp hlone
      rw [hpp] at hnq
      rw [bind_ok (readInternal_run (show s.nodes (Node.leaf parent mine).parent = _ from hnq))]
      unfold findSiblingInfo
      simp only [if_true]
      exact bind_error (fail_run _ _)
  obtain ⟨pp, first, l, k, right, r, sibling, isLeft, S⟩ := exists_sibling T hp hr hnone
  have hmem := S.mem T
  obtain ⟨hsiblevel, -⟩ := S.level_eq T.weaken
  obtain ⟨sp, theirs, hns⟩ : ∃ sp theirs, s.nodes sibling = some (.leaf sp theirs) := by
    obtain ⟨v, hv, hS⟩ := T.whole.suits sibling hmem
    cases v with
    | leaf theirs =>
        obtain ⟨sp, hns⟩ := State.view_eq_leaf.mp hv
        exact ⟨sp, theirs, hns⟩
    | inner first slots =>
        have := (hS.1 first (by simp)).2
        omega
  have hsib0 : sibling ≠ 0 := (T.pages.bounds sibling hmem).1.ne'
  have hsibling := S.siblingOf_eq rfl
  have hcrowded : Crowded s p mine ↔ pageSize < dataEnd mine + takenOver isLeft theirs := by
    constructor
    · rintro ⟨f, sl, th, hvq, -, hvs, hlt⟩
      rw [S.pair.neighbours.view_eq] at hvq
      rw [hsibling, State.view_eq_leaf.mpr ⟨_, hns⟩] at hvs
      cases hvq
      cases hvs
      rwa [S.isLeft_eq] at hlt
    · intro hlt
      refine ⟨_, _, theirs, S.pair.neighbours.view_eq, hsibling ▸ hsib0,
        hsibling ▸ State.view_eq_leaf.mpr ⟨_, hns⟩, ?_⟩
      rwa [S.isLeft_eq]
  rw [hpp] at S
  rw [bind_ok (readInternal_run (show s.nodes (Node.leaf parent mine).parent = _ from
    S.pair.node_eq))]
  dsimp only
  rw [bind_ok (S.run s)]
  dsimp only
  rw [if_neg hsib0, bind_ok (readNode_run hns), hcrowded]
  have hkeys : s.numKeysOf sibling = theirs.length := State.numKeysOf_eq hns
  have hside := S.side
  by_cases hmany : minKeys < theirs.length
  · -- the sibling lends an entry
    have hno : ¬ Collapse s root p := by
      intro hc
      have := (collapse_iff.mp hc).1
      rw [hsibling, hkeys] at this
      omega
    have htaken : ∀ stolen kept, lend isLeft theirs = some (stolen, kept) →
        takenOver isLeft theirs = entrySize stolen.2 := by
      intro stolen kept hlend
      rw [takenOver, if_pos hmany, hlend]
      rfl
    rw [if_pos (show minKeys < (Node.leaf sp theirs).numKeys from hmany)]
    cases isLeft
    · obtain ⟨rfl, rfl⟩ := hside
      have I : LeafPair s L parent pp first l k sibling r parent mine sp theirs := ⟨S.pair, hn, hns⟩
      obtain ⟨stolen, kept, s', hlend, hrun⟩ := I.redistribute_right T hmany
      rw [htaken stolen kept hlend]
      by_cases hfull : pageSize < dataEnd mine + entrySize stolen.2
      · rw [if_pos hfull] at hrun
        exact .inl ⟨hfull, _, s', hrun⟩
      · rw [if_neg hfull] at hrun
        exact .inr ⟨hfull, .inl ⟨s', hrun.1, fun hc => absurd hc hno, fun _ => hrun.2⟩⟩
    · obtain ⟨rfl, rfl⟩ := hside
      have I : LeafPair s L parent pp first l k p r sp theirs parent mine := ⟨S.pair, hns, hn⟩
      obtain ⟨stolen, kept, s', hlend, hrun⟩ := I.redistribute_left T hmany
      rw [htaken stolen kept hlend]
      by_cases hfull : pageSize < dataEnd mine + entrySize stolen.2
      · rw [if_pos hfull] at hrun
        exact .inl ⟨hfull, _, s', hrun⟩
      · rw [if_neg hfull] at hrun
        exact .inr ⟨hfull, .inl ⟨s', hrun.1, fun hc => absurd hc hno, fun _ => hrun.2⟩⟩
  · -- the two become one
    have htaken : takenOver isLeft theirs = (theirs.map fun e => entrySize e.2).sum := by
      rw [takenOver, if_neg hmany]
    rw [if_neg (show ¬ minKeys < (Node.leaf sp theirs).numKeys from hmany), htaken]
    cases isLeft
    · obtain ⟨rfl, rfl⟩ := hside
      have I : LeafPair s L parent pp first l k sibling r parent mine sp theirs := ⟨S.pair, hn, hns⟩
      have hrun := I.merge_run T hleast S hroot (by omega) hfuel
      rw [dataEnd_append] at hrun
      by_cases hfull : pageSize < dataEnd mine + (theirs.map fun e => entrySize e.2).sum
      · rw [if_pos hfull] at hrun
        exact .inl ⟨hfull, _, s, hrun⟩
      · rw [if_neg hfull] at hrun
        exact .inr ⟨hfull, hrun⟩
    · obtain ⟨rfl, rfl⟩ := hside
      have I : LeafPair s L parent pp first l k p r sp theirs parent mine := ⟨S.pair, hns, hn⟩
      have hrun := I.merge_run T hleast S hroot (by omega) hfuel
      have hsum : dataEnd (theirs ++ mine) = dataEnd mine + (theirs.map fun e => entrySize e.2).sum := by
        simp only [dataEnd, List.map_append, List.sum_append]
        omega
      rw [hsum] at hrun
      by_cases hfull : pageSize < dataEnd mine + (theirs.map fun e => entrySize e.2).sum
      · rw [if_pos hfull] at hrun
        exact .inl ⟨hfull, _, s, hrun⟩
      · rw [if_neg hfull] at hrun
        exact .inr ⟨hfull, hrun⟩

/-! ## The entry without its key -/

theorem mem_eraseKey (h : entries.Pairwise fun a b => a.1 < b.1) (e : Entry) :
    e ∈ entries.eraseP (·.1 == key) ↔ e ∈ entries ∧ e.1 ≠ key := by
  by_cases hkey : ∃ a ∈ entries, (a.1 == key) = true
  · obtain ⟨a, ha, heq⟩ := hkey
    obtain ⟨a, l₁, l₂, -, heq, rfl, herase⟩ :=
      List.exists_of_eraseP (p := fun x => x.1 == key) ha heq
    obtain rfl : a.1 = key := by simpa using heq
    obtain ⟨-, h₂, hcross⟩ := List.pairwise_append.mp h
    -- the other keys are smaller or greater
    have hl : ∀ x ∈ l₁, x.1 ≠ a.1 := fun x hx => (hcross x hx a (by simp)).ne
    have hr : ∀ x ∈ l₂, x.1 ≠ a.1 := fun x hx => ((List.pairwise_cons.mp h₂).1 x hx).ne'
    rw [herase]
    simp only [List.mem_append, List.mem_cons]
    constructor
    · rintro (he | he)
      · exact ⟨.inl he, hl e he⟩
      · exact ⟨.inr (.inr he), hr e he⟩
    · rintro ⟨he | rfl | he, hne⟩
      · exact .inl he
      · exact absurd rfl hne
      · exact .inr he
  · push Not at hkey
    have hne : ∀ a ∈ entries, a.1 ≠ key := fun a ha => by simpa using hkey a ha
    rw [List.eraseP_of_forall_not fun a ha => by simpa using hne a ha]
    exact ⟨fun he => ⟨he, hne e he⟩, fun he => he.1⟩

theorem dataEnd_eraseKey_le : dataEnd (entries.eraseP (·.1 == key)) ≤ dataEnd entries := by
  refine Nat.add_le_add_left ?_ headerSize
  exact (List.eraseP_sublist.map _).sum_le_sum fun _ _ => Nat.zero_le _

/-- A leaf other than the root is left with too few entries. -/
def Underflows (s : State) (key : Int64) (leafId : Nat) (rest : List Entry) : Prop :=
  ∃ entries, LeafAt s key leafId entries ∧ (∃ e ∈ entries, e.1 = key) ∧
    rest = entries.eraseP (·.1 == key) ∧ leafId ≠ s.rootPage ∧ rest.length < minKeys

/-- Deleting the key drops the root. -/
def Collapses (s : State) (key : Int64) : Prop :=
  ∃ leafId rest, Underflows s key leafId rest ∧ Collapse s s.rootPage leafId

/-- Deleting the key leaves a leaf that can neither borrow nor be merged. -/
def Blocked (s : State) (key : Int64) : Prop :=
  ∃ leafId rest, Underflows s key leafId rest ∧ Crowded s leafId rest

namespace LeafOf

variable (H : LeafOf s L key p parent entries)
include H

/-- `Crowded` and `Collapse` do not look at the leaf. -/
theorem crowded_write (T : Tree least s root L) (hr : p ≠ root) :
    Crowded (s.write p (.leaf parent es)) p mine ↔ Crowded s p mine := by
  have hpar (x : Nat) : (s.write p (.leaf parent es)).parentOf x = s.parentOf x :=
    H.parentOf_write x
  obtain ⟨-, -, hlevel, -⟩ := T.pages.parent_mem T.whole H.mem hr not_false
  have hne : s.parentOf p ≠ p := by
    intro h
    rw [h] at hlevel
    omega
  have hview : (s.write p (.leaf parent es)).view (s.parentOf p) = s.view (s.parentOf p) := by
    rw [State.view_write, Function.update_of_ne hne]
  have hsib : siblingOf (s.write p (.leaf parent es)) p = siblingOf s p := by
    rw [siblingOf, siblingOf, hpar, hview]
  have hsibling : siblingOf s p ≠ p := by
    by_cases hnone : s.numKeysOf (s.parentOf p) = 0
    · rw [siblingOf_eq_zero T.weaken H.mem hr hnone]
      exact (T.pages.bounds p H.mem).1.ne
    · obtain ⟨_, _, _, _, _, _, sibling, _, S⟩ := exists_sibling T H.mem hr hnone
      rw [S.siblingOf_eq rfl]
      exact S.ne T.weaken
  have hviews : (s.write p (.leaf parent es)).view (siblingOf s p) = s.view (siblingOf s p) := by
    rw [State.view_write, Function.update_of_ne hsibling]
  rw [Crowded, Crowded, hpar, hview, hsib, hviews]

theorem collapse_write (T : Tree least s root L) (hr : p ≠ root) :
    Collapse (s.write p (.leaf parent es)) root p ↔ Collapse s root p := by
  refine collapse_congr T.weaken (fun x _ _ => H.parentOf_write x) (fun x _ _ hne => ?_) ?_ H.mem hr
  · rw [State.view_write, Function.update_of_ne hne]
  · rw [State.view_write, Function.update_of_ne (T.pages.bounds p H.mem).1.ne]

/-- The tree without the entry. -/
theorem tree_erase (T : Tree least s root L) :
    Tree least (s.write p (.leaf parent (entries.eraseP (·.1 == key)))) root L ∧
      ∀ e, L.Holds (s.write p (.leaf parent (entries.eraseP (·.1 == key)))).view e ↔
        L.Holds s.view e ∧ e.1 ≠ key := by
  obtain ⟨-, hW⟩ := H.within T
  have hsub : ∀ e ∈ entries.eraseP (·.1 == key), e ∈ entries := fun e he => List.mem_of_mem_eraseP he
  refine ⟨H.tree_write T ⟨hW.sorted.sublist List.eraseP_sublist, fun e he => hW.lo_le e (hsub e he),
    fun e he => hW.lt_hi e (hsub e he)⟩ (dataEnd_eraseKey_le.trans (H.fits T)), fun e => ?_⟩
  rw [H.holds_write T, mem_eraseKey hW.sorted]
  obtain ⟨k', v⟩ := e
  constructor
  · rintro (⟨he, hne⟩ | ⟨he, hnot⟩)
    · refine ⟨?_, hne⟩
      exact ⟨p, H.mem, entries, H.view_eq, he⟩
    · refine ⟨he, ?_⟩
      rintro rfl
      exact hnot ((H.holds_iff T).mp he)
  · rintro ⟨he, hne⟩
    by_cases hin : (k', v) ∈ entries
    · exact .inl ⟨hin, hne⟩
    · exact .inr ⟨he, hin⟩

end LeafOf

/-! ## Delete -/

namespace Tree

variable (T : Tree least s s.rootPage L)
include T

omit T in
/-- An absent key changes nothing. -/
theorem delete_absent (H : LeafOf s L key p parent entries) (hat : LeafAt s key p entries)
    (habsent : ∀ e ∈ entries, e.1 ≠ key) :
    Returns (fun fuel => delete fuel key) s (.ok false, s) := by
  obtain ⟨fuel, hfind⟩ := hat.1
  refine ⟨fuel, ?_⟩
  have hany : ¬ entries.any (·.1 == key) = true := by
    intro h
    obtain ⟨e, he, heq⟩ := List.any_eq_true.mp h
    exact habsent e he (by simpa using heq)
  dsimp only [delete]
  rw [bind_ok (look_run _ _), bind_ok hfind, bind_ok (readLeaf_run H.node_eq)]
  dsimp only
  rw [if_neg hany]
  rfl

/-- A present key is taken out of its leaf; what follows is the repair of the leaf. -/
theorem delete_present (H : LeafOf s L key p parent entries) {fuel : Nat}
    (hfind : findLeaf fuel s.rootPage key s = some (.ok p, s))
    (hpresent : ∃ e ∈ entries, e.1 = key) :
    delete fuel key s = ((if p ≠ s.rootPage ∧ (entries.eraseP (·.1 == key)).length < minKeys then
      handleLeafUnderflow fuel p s.rootPage else pure ()) >>= fun _ => pure true)
        (s.write p (.leaf parent (entries.eraseP (·.1 == key)))) := by
  have hany : entries.any (·.1 == key) = true := by simpa using hpresent
  dsimp only [delete]
  rw [bind_ok (look_run _ _), bind_ok hfind, bind_ok (readLeaf_run H.node_eq)]
  dsimp only
  rw [if_pos hany, bind_ok (findDataEnd_run (H.fits T)), bind_ok (writeNode_run _ _ _)]
  by_cases hshort : p ≠ s.rootPage ∧ (entries.eraseP (·.1 == key)).length < minKeys
  · rw [if_pos hshort, if_pos hshort]
  · rw [if_neg hshort, if_neg hshort]
    rfl

omit T in
theorem underflows_iff (hat : LeafAt s key p entries) (hpresent : ∃ e ∈ entries, e.1 = key)
    {leafId : Nat} {rest : List Entry} : Underflows s key leafId rest ↔
      leafId = p ∧ rest = entries.eraseP (·.1 == key) ∧ p ≠ s.rootPage ∧
        (entries.eraseP (·.1 == key)).length < minKeys := by
  constructor
  · rintro ⟨entries', hat', -, rfl, hne, hlt⟩
    obtain ⟨rfl, rfl⟩ := leafAt_unique hat hat'
    exact ⟨rfl, rfl, hne, hlt⟩
  · rintro ⟨rfl, rfl, hne, hlt⟩
    exact ⟨entries, hat, hpresent, rfl, hne, hlt⟩

/-- What a delete does. -/
theorem delete_run (hleast : least ≤ 1) (key : Int64) :
    (Blocked s key ∧ ∃ m s', Returns (fun fuel => delete fuel key) s
        (.error (.fault (.error (.storageError m))), s')) ∨
      ¬ Blocked s key ∧ ((∃ b s', Returns (fun fuel => delete fuel key) s (.ok b, s') ∧
          (b = true ↔ ∃ v, L.Holds s.view (key, v)) ∧
          (Collapses s key → s'.parentOf s'.rootPage ≠ 0) ∧
          (¬ Collapses s key → ∃ L', Tree least s' s'.rootPage L' ∧
            ∀ e, L'.Holds s'.view e ↔ L.Holds s.view e ∧ e.1 ≠ key)) ∨
        least = 0 ∧ ∃ s', Returns (fun fuel => delete fuel key) s (.error .misread, s')) := by
  obtain ⟨p, parent, entries, hat, H⟩ := T.exists_leafOf key
  have hholds : (∃ v, L.Holds s.view (key, v)) ↔ ∃ e ∈ entries, e.1 = key := by
    constructor
    · rintro ⟨v, hv⟩
      exact ⟨(key, v), (H.holds_iff T).mp hv, rfl⟩
    · rintro ⟨⟨k, v⟩, he, rfl⟩
      exact ⟨v, (H.holds_iff T).mpr he⟩
  by_cases hpresent : ∃ e ∈ entries, e.1 = key
  swap
  · -- the key is not there
    have hnone : ∀ leafId rest, ¬ Underflows s key leafId rest := by
      rintro leafId rest ⟨entries', hat', hpresent', -⟩
      obtain ⟨rfl, rfl⟩ := leafAt_unique hat hat'
      exact hpresent hpresent'
    push Not at hpresent
    refine .inr ⟨fun ⟨_, _, hu, _⟩ => hnone _ _ hu, .inl ⟨false, s, delete_absent H hat hpresent,
      ?_, fun ⟨_, _, hu, _⟩ => absurd hu (hnone _ _), fun _ => ⟨L, T, fun e => ⟨fun he => ⟨he, ?_⟩,
        fun he => he.1⟩⟩⟩⟩
    · rw [hholds]
      exact ⟨nofun, fun ⟨e, he, heq⟩ => absurd heq (hpresent e he)⟩
    · rintro rfl
      obtain ⟨e', he', heq⟩ := hholds.mp ⟨e.2, he⟩
      exact hpresent e' he' heq
  obtain ⟨T₁, hholds₁⟩ := H.tree_erase T
  obtain ⟨fuel₀, hfind₀⟩ := hat.1
  let fuel := max fuel₀ (L.level s.rootPage + 1)
  have hfind : findLeaf fuel s.rootPage key s = some (.ok p, s) :=
    (findLeaf_growing _ _).run_eq (le_max_left _ _) hfind₀
  have hdelete := T.delete_present H hfind hpresent
  have hunder (leafId : Nat) (rest : List Entry) : Underflows s key leafId rest ↔
      leafId = p ∧ rest = entries.eraseP (·.1 == key) ∧ p ≠ s.rootPage ∧
        (entries.eraseP (·.1 == key)).length < minKeys := underflows_iff hat hpresent
  have hblocked : Blocked s key ↔ (p ≠ s.rootPage ∧
      (entries.eraseP (·.1 == key)).length < minKeys) ∧
        Crowded s p (entries.eraseP (·.1 == key)) := by
    constructor
    · rintro ⟨_, _, hu, hc⟩
      obtain ⟨rfl, rfl, hshort⟩ := (hunder _ _).mp hu
      exact ⟨hshort, hc⟩
    · rintro ⟨hshort, hc⟩
      exact ⟨p, _, (hunder _ _).mpr ⟨rfl, rfl, hshort⟩, hc⟩
  have hcollapses : Collapses s key ↔ (p ≠ s.rootPage ∧
      (entries.eraseP (·.1 == key)).length < minKeys) ∧ Collapse s s.rootPage p := by
    constructor
    · rintro ⟨_, _, hu, hc⟩
      obtain ⟨rfl, rfl, hshort⟩ := (hunder _ _).mp hu
      exact ⟨hshort, hc⟩
    · rintro ⟨hshort, hc⟩
      exact ⟨p, _, (hunder _ _).mpr ⟨rfl, rfl, hshort⟩, hc⟩
  rw [hblocked, hcollapses]
  by_cases hshort : p ≠ s.rootPage ∧ (entries.eraseP (·.1 == key)).length < minKeys
  swap
  · -- the leaf has entries to spare
    rw [if_neg hshort] at hdelete
    exact .inr ⟨fun h => hshort h.1, .inl ⟨true, _, ⟨fuel, hdelete⟩, by rw [hholds]; simpa using hpresent,
      fun h => absurd h.1 hshort, fun _ => ⟨L, T₁, hholds₁⟩⟩⟩
  rw [if_pos hshort] at hdelete
  have hrun := handleLeafUnderflow_run hleast T₁ (State.write_nodes_self ..) H.mem hshort.1 rfl
    (Nat.lt_of_lt_of_le (Nat.lt_succ_self _) (le_max_right fuel₀ _))
  rw [H.crowded_write T hshort.1, Repaired, H.collapse_write T hshort.1] at hrun
  rcases hrun with ⟨hc, m, s', hrun⟩ | ⟨hc, ⟨s', hrun, hcol, hkept⟩ | ⟨hzero, s', hrun⟩⟩
  · exact .inl ⟨⟨hshort, hc⟩, m, s', fuel, hdelete.trans (bind_error hrun)⟩
  · refine .inr ⟨fun h => hc h.2, .inl ⟨true, s', ⟨fuel, hdelete.trans (bind_ok hrun)⟩,
      by rw [hholds]; simpa using hpresent, fun h => hcol h.2, fun h => ?_⟩⟩
    obtain ⟨L', T', hroot, hholds'⟩ := hkept fun h' => h ⟨hshort, h'⟩
    refine ⟨L', ?_, fun e => (hholds' e).trans (hholds₁ e)⟩
    rw [hroot]
    exact T'
  · exact .inr ⟨fun h => hc h.2, .inr ⟨hzero, s', fuel, hdelete.trans (bind_error hrun)⟩⟩

end Tree

/-! ## Delete and well-formed trees -/

/-- A returning delete tells whether the key was there and leaves a well-formed tree without it
exactly when the root does not collapse. -/
theorem delete_wellFormed_iff {b : Bool} (T : Tree 0 s s.rootPage L)
    (hret : Returns (fun fuel => delete fuel key) s (.ok b, s')) :
    ((b = true ↔ ∃ v, L.Holds s.view (key, v)) ∧ ∃ L', Tree 0 s' s'.rootPage L' ∧
      ∀ e, L'.Holds s'.view e ↔ L.Holds s.view e ∧ e.1 ≠ key) ↔ ¬ Collapses s key := by
  have hgrow := delete_growing key
  rcases T.delete_run (Nat.zero_le 1) key with ⟨-, m, t, hrun⟩ | ⟨-, ⟨b', t, hrun, hb, hcol, hkept⟩ |
    ⟨-, t, hrun⟩⟩
  · simpa using hgrow.unique hret hrun
  · obtain ⟨rfl, rfl⟩ : b = b' ∧ s' = t := by simpa using hgrow.unique hret hrun
    constructor
    · rintro ⟨-, L', T', -⟩ hc
      exact hcol hc T'.pages.root_parent
    · exact fun hc => ⟨hb, hkept hc⟩
  · simpa using hgrow.unique hret hrun

theorem delete_wellFormed_crowded :
    ∃ s', Returns (fun fuel => delete fuel 1) crowdedTree (.ok true, s') ∧
      (((true = true ↔ ∃ v, crowdedLayout.Holds crowdedTree.view (1, v)) ∧
        ∃ L', Tree 0 s' s'.rootPage L' ∧ ∀ e, L'.Holds s'.view e ↔
          crowdedLayout.Holds crowdedTree.view e ∧ e.1 ≠ 1) ↔ ¬ Collapses crowdedTree 1) := by
  have hrun : ∃ r ∈ delete 3 1 crowdedTree, r.1 = .ok true := by decide +kernel
  obtain ⟨⟨r, s'⟩, hr, hok⟩ := hrun
  obtain rfl : r = .ok true := hok
  have hs' : Returns (fun fuel => delete fuel 1) crowdedTree (.ok true, s') := ⟨3, hr⟩
  exact ⟨s', hs', delete_wellFormed_iff crowdedTree_tree hs'⟩

/-- A root with one separator over two leaves. -/
def forkedTree : State where
  nodes p :=
    if p = 2 then some (.internal 0 3 [(10, 4)])
    else if p = 3 then some (.leaf 2 [(1, [])])
    else if p = 4 then some (.leaf 2 [(10, [])])
    else none
  numPages := 5
  rootPage := 2

/-- Its layout. -/
def forkedLayout : Layout Int64 Nat where
  pages := {p | 2 ≤ p ∧ p < 5}
  level p := if p = 2 then 1 else 0
  lo p := if p = 4 then Bound.key 10 else ⊥
  hi p := if p = 3 then Bound.key 10 else ⊤

instance : DecidablePred (· ∈ forkedLayout.pages) := fun p =>
  inferInstanceAs (Decidable (2 ≤ p ∧ p < 5))

theorem forkedTree_tree : Tree 1 forkedTree 2 forkedLayout := by
  have hdec : ∀ p < 5, 2 ≤ p → PageOk 1 forkedTree 2 forkedLayout p := by with_unfolding_all decide
  exact Tree.of_pages ⟨le_rfl, by decide⟩ rfl rfl rfl fun p hp => hdec p hp.2 hp.1

/-- The leaves are merged, and the new root still names the old one. -/
theorem not_delete_wellFormed :
    ∃ s', Tree 0 forkedTree forkedTree.rootPage forkedLayout ∧
      Returns (fun fuel => delete fuel 1) forkedTree (.ok true, s') ∧
      ¬ ∃ L', Tree 0 s' s'.rootPage L' := by
  have hrun : ∃ r ∈ delete 3 1 forkedTree, r.1 = .ok true ∧ r.2.parentOf r.2.rootPage ≠ 0 := by
    with_unfolding_all decide
  obtain ⟨⟨r, s'⟩, hr, hok, hparent⟩ := hrun
  obtain rfl : r = .ok true := hok
  exact ⟨s', forkedTree_tree.weaken, ⟨3, hr⟩, fun ⟨L', T'⟩ => hparent T'.pages.root_parent⟩

end VelociDB.BTree
