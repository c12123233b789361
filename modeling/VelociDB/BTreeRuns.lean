/-
# Runs of inserts and deletes

From an empty root leaf, steps that return Ok.  As long as every step meets `Sound`, that
is

    insert    the key is not stored, no later cut makes a root (`Overflows`), and the page
              numbers fit the headers
    delete    the root is not dropped (`Collapses`)

every tree on the way is well-formed, and what the next call does is told by the tree: an
insert panics unless cutting finds room (`RoomFor`), and a delete of a stored key fails
exactly when its leaf is `Blocked`.
-/
import VelociDB.BTreeDelete
import VelociDB.RowCodec
import VelociDB.Lib.Transition

namespace VelociDB.BTree

open SearchTree Fuelled

variable {s s' s₀ : State} {key : Int64} {row : Row} {leafId parent : Nat} {entries : List Entry}
  {L : Layout Int64 Nat}

/-- `BTree::search`. -/
def search (fuel : Nat) (key : Int64) : BTreeM (Option Row) := do
  let root ← look fun s => s.rootPage
  let leafId ← findLeaf fuel root key
  let (_, entries) ← readLeaf leafId
  match entries.find? (·.1 == key) with
  | none => pure none
  | some (_, data) =>
      match deserializeRow data with
      | .ok row => pure (some row)
      | .error f => Fuelled.fail (.fault f)

theorem search_growing (key : Int64) : Growing fun fuel => search fuel key :=
  fun fuel => .bind_right fun _ => (findLeaf_growing _ _ fuel).bind fun _ => .refl _

/-! ## Runs -/

/-- `BTree::new`: a root leaf without entries.  Page 0 is the database header. -/
def Fresh (s : State) : Prop :=
  s.nodes s.rootPage = some (.leaf 0 []) ∧ 0 < s.rootPage ∧ s.rootPage < s.numPages

instance : Decidable (Fresh s) := inferInstanceAs (Decidable (_ ∧ _))

/-- A call that changes the tree. -/
inductive Act where
  | insert (key : Int64) (row : Row)
  | delete (key : Int64)

/-- A call that returns Ok. -/
inductive Step : State → Act → State → Prop
  | insert {s s' : State} {key : Int64} {row : Row} :
      Returns (fun fuel => insert fuel key row) s (.ok (), s') → Step s (.insert key row) s'
  | delete {s s' : State} {key : Int64} {b : Bool} :
      Returns (fun fuel => delete fuel key) s (.ok b, s') → Step s (.delete key) s'

/-- The leaf of the key does not have it. -/
def Absent (s : State) (key : Int64) : Prop :=
  ∀ leafId entries, LeafAt s key leafId entries → ∀ e ∈ entries, e.1 ≠ key

/-- The calls the tree stays well-formed under. -/
def Sound (s : State) : Act → Prop
  | .insert key row => Roomy s ∧ Absent s key ∧ ¬ Overflows s key (serializeRow row)
  | .delete key => ¬ Collapses s key

/-- An absent key is stored nowhere. -/
theorem Tree.not_holds {least : Nat} (T : Tree least s s.rootPage L) (h : Absent s key) (v : Bytes) :
    ¬ L.Holds s.view (key, v) := by
  intro hv
  obtain ⟨leafId, parent, entries, hat, H⟩ := T.exists_leafOf key
  exact h _ _ hat _ ((H.holds_iff T).mp hv) rfl

/-- Every tree on the way is well-formed. -/
theorem tree_of_run (h₀ : Fresh s₀) (hrun : Transition.Reaches Step Sound s₀ s) :
    ∃ L, Tree 1 s s.rootPage L := by
  refine Transition.Reaches.invariant (I := fun s => ∃ L, Tree 1 s s.rootPage L)
    ⟨_, Tree.of_empty h₀.1 h₀.2⟩ ?_ hrun
  rintro s a s' ⟨L, T⟩ hsound hstep
  cases hstep with
  | insert hret =>
      obtain ⟨hcap, habsent, hover⟩ := hsound
      obtain ⟨L', T', -⟩ := (T.insert_keeps_iff le_rfl hcap (T.not_holds habsent) hret).mpr hover
      exact ⟨L', T'⟩
  | @delete s' key b hret =>
      have hgrow := delete_growing key
      rcases T.delete_run le_rfl key with ⟨-, m, t, hrun⟩ | ⟨-, ⟨b', t, hrun, -, -, hkept⟩ |
        ⟨hzero, -⟩⟩
      · simpa using hgrow.unique hret hrun
      · obtain ⟨-, rfl⟩ : b = b' ∧ s' = t := by simpa using hgrow.unique hret hrun
        obtain ⟨L', T', -⟩ := hkept hsound
        exact ⟨L', T'⟩
      · cases hzero

/-! ### Runs with a given fuel -/

/-- A step, if the fuel is enough and the call returns Ok. -/
def stepWith (fuel : Nat) (s : State) : Act → Option State
  | .insert key row =>
      match insert fuel key row s with
      | some (.ok (), s') => some s'
      | _ => none
  | .delete key =>
      match delete fuel key s with
      | some (.ok _, s') => some s'
      | _ => none

theorem step_of_stepWith {fuel : Nat} {a : Act} (h : stepWith fuel s a = some s') : Step s a s' := by
  cases a with
  | insert key row =>
      simp only [stepWith] at h
      split at h
      · rename_i t hrun
        cases h
        exact .insert ⟨fuel, hrun⟩
      · cases h
  | delete key =>
      simp only [stepWith] at h
      split at h
      · rename_i b t hrun
        cases h
        exact .delete ⟨fuel, hrun⟩
      · cases h

theorem reaches_of_runWith {fuel : Nat} {acts : List Act}
    (h : Transition.runActions (stepWith fuel) Transition.Any s acts = some s') :
    Transition.Reaches Step Transition.Any s s' :=
  (Transition.reaches_of_runActions acts .refl h).mono_step fun _ _ _ => step_of_stepWith

/-! ### A tree that is one leaf -/

section RootLeaf

variable (hroot : s.nodes s.rootPage = some (.leaf parent entries))
include hroot

theorem leafAt_root : LeafAt s key s.rootPage entries := by
  refine ⟨⟨1, ?_⟩, State.view_eq_leaf.mpr ⟨_, hroot⟩⟩
  dsimp only [findLeaf]
  rw [Fuelled.bind_ok (readNode_run hroot)]
  rfl

theorem absent_root (h : ∀ e ∈ entries, e.1 ≠ key) : Absent s key := by
  intro leafId entries' hat
  obtain ⟨rfl, rfl⟩ := Tree.leafAt_unique (leafAt_root hroot) hat
  exact h

theorem not_overflows_root (h : parent = 0) (data : Bytes) : ¬ Overflows s key data := by
  rintro ⟨leafId, entries', k, hat, -, hne, -⟩
  obtain ⟨rfl, -⟩ := Tree.leafAt_unique (leafAt_root hroot) hat
  exact hne ((State.parentOf_eq hroot).trans h)

theorem insert_root (hfit : dataEnd entries + entrySize (serializeRow row) ≤ pageSize) :
    Returns (fun fuel => insert fuel key row) s
      (.ok (), s.write s.rootPage (.leaf parent (insertEntry key (serializeRow row) entries))) := by
  refine ⟨1, ?_⟩
  have hleaf : findLeaf 1 s.rootPage key s = some (.ok s.rootPage, s) := by
    dsimp only [findLeaf]
    rw [Fuelled.bind_ok (readNode_run hroot)]
    rfl
  have hsize : dataEnd entries ≤ pageSize := by omega
  dsimp only [insert]
  rw [Fuelled.bind_ok (look_run _ _), Fuelled.bind_ok hleaf]
  have hins : insertIntoLeaf 1 s.rootPage key (serializeRow row) s = some (.ok none,
      s.write s.rootPage (.leaf parent (insertEntry key (serializeRow row) entries))) := by
    rw [insertIntoLeaf, Fuelled.bind_ok (readLeaf_run hroot)]
    dsimp only
    rw [Fuelled.bind_ok (findDataEnd_run hsize), if_neg (by omega),
      Fuelled.bind_ok (writeNode_run _ _ _)]
    rfl
  rw [Fuelled.bind_ok hins]
  rfl

end RootLeaf

/-! ## What the next insert does -/

/-- The insert returns Ok if a page can hold the row, else Err. -/
def AcceptsOrRejects (s : State) (key : Int64) (row : Row) : Prop :=
  if 12 + (serializeRow row).length ≤ pageSize - 8 then
    ∃ s', Returns (fun fuel => insert fuel key row) s (.ok (), s')
  else ∃ e s', Returns (fun fuel => insert fuel key row) s (.error (.fault (.error e)), s')

/-- A row too large for a page finds no room. -/
theorem Splits.row_fits {data : Bytes} {k : Nat} (h : Splits key data entries k) :
    12 + data.length ≤ pageSize - 8 := by
  induction h with
  | @fits entries hfit =>
      have : dataEnd entries = 8 + (entries.map fun e => entrySize e.2).sum := rfl
      have : entrySize data = 12 + data.length := rfl
      omega
  | halve _ _ _ ih => exact ih

theorem insert_accepts_iff (h₀ : Fresh s₀) (hrun : Transition.Reaches Step Sound s₀ s)
    (hcap : Roomy s) (habsent : Absent s key) :
    AcceptsOrRejects s key row ↔ RoomFor s key (serializeRow row) := by
  obtain ⟨L, T⟩ := tree_of_run h₀ hrun
  have hgrow := insert_growing key row
  by_cases hroom : RoomFor s key (serializeRow row)
  · obtain ⟨leafId, entries, k, hat, hs⟩ := hroom
    obtain ⟨leafId', parent, entries', hat', H⟩ := T.exists_leafOf key
    obtain ⟨rfl, rfl⟩ := Tree.leafAt_unique hat hat'
    obtain ⟨newRoot, s', root', L', hret, -⟩ :=
      T.insert_returns le_rfl hcap H hat (T.absent H (T.not_holds habsent)) hs
    refine iff_of_true ?_ ⟨leafId, entries, k, hat, hs⟩
    rw [AcceptsOrRejects, if_pos hs.row_fits]
    exact ⟨_, hret⟩
  · obtain ⟨t, hpanic⟩ := T.insert_panics le_rfl hcap hroom
    refine iff_of_false (fun h => ?_) hroom
    rw [AcceptsOrRejects] at h
    split at h
    · obtain ⟨s', hret⟩ := h
      simpa using hgrow.unique hret hpanic
    · obtain ⟨e, s', hret⟩ := h
      simpa using hgrow.unique hret hpanic

theorem insert_accepts_first :
    AcceptsOrRejects emptyTree 7 ⟨[.integer 1]⟩ ↔
      RoomFor emptyTree 7 (serializeRow ⟨[.integer 1]⟩) :=
  insert_accepts_iff (by decide) .refl (by unfold Roomy; decide)
    (have hroot : emptyTree.nodes emptyTree.rootPage = some (.leaf 0 []) := rfl
     absent_root hroot (by simp))

/-- A row of one blob of zeros. -/
def blobRow (n : Nat) : Row := ⟨[.blob (List.replicate n 0)]⟩

theorem length_blobRow (n : Nat) : (serializeRow (blobRow n)).length = n + 9 := by
  simp [serializeRow, blobRow, serializeValue]
  omega

/-- A root leaf with one large row. -/
def largeRowTree : State := emptyTree.write 2 (.leaf 0 [(1, serializeRow (blobRow 3000))])

theorem largeRowTree_reached : Transition.Reaches Step Transition.Any emptyTree largeRowTree := by
  have hroot : emptyTree.nodes emptyTree.rootPage = some (.leaf 0 []) := rfl
  have hfit : dataEnd [] + entrySize (serializeRow (blobRow 3000)) ≤ pageSize := by
    rw [pageSize_eq, entrySize, length_blobRow]
    decide
  exact .tail .refl trivial (.insert (insert_root hroot hfit))

/-- A page can hold either row, but the leaf cannot be cut between them. -/
theorem not_insert_accepts :
    Transition.Reaches Step Transition.Any emptyTree largeRowTree ∧ Absent largeRowTree 2 ∧
      ¬ AcceptsOrRejects largeRowTree 2 (blobRow 3000) := by
  have hleaf : largeRowTree.nodes largeRowTree.rootPage =
    some (.leaf 0 [(1, serializeRow (blobRow 3000))]) := State.write_nodes_self ..
  refine ⟨largeRowTree_reached, absent_root hleaf (by simp), ?_⟩
  have hfits : 12 + (serializeRow (blobRow 3000)).length ≤ pageSize - 8 := by
    rw [pageSize_eq, length_blobRow]
    decide
  have hpanic : ∃ r ∈ insert 5 2 (blobRow 3000) largeRowTree, r.1 = .error (.fault .panic) := by
    decide +kernel
  obtain ⟨⟨r, t⟩, hr, hp⟩ := hpanic
  obtain rfl : r = _ := hp
  rw [AcceptsOrRejects, if_pos hfits]
  rintro ⟨s', hret⟩
  simpa using (insert_growing _ _).unique hret ⟨5, hr⟩

/-! ## What the next delete does -/

/-- A key that is found is in its leaf. -/
theorem Tree.holds_of_search {least : Nat} (T : Tree least s s.rootPage L)
    (h : Returns (fun fuel => search fuel key) s (.ok (some row), s')) :
    ∃ v, L.Holds s.view (key, v) := by
  obtain ⟨leafId, parent, entries, hat, H⟩ := T.exists_leafOf key
  by_cases hfind : entries.find? (·.1 == key) = none
  · exfalso
    obtain ⟨fuel, hleaf⟩ := hat.1
    have hnone : Returns (fun fuel => search fuel key) s (.ok none, s) := by
      refine ⟨fuel, ?_⟩
      dsimp only [search]
      rw [Fuelled.bind_ok (look_run _ _), Fuelled.bind_ok hleaf, Fuelled.bind_ok (readLeaf_run H.node_eq)]
      dsimp only
      rw [hfind]
      rfl
    simpa using (search_growing key).unique h hnone
  · obtain ⟨⟨k, v⟩, he⟩ := Option.ne_none_iff_exists'.mp hfind
    have hkey : k = key := by simpa using List.find?_some he
    subst hkey
    exact ⟨v, (H.holds_iff T).mpr (List.mem_of_find?_eq_some he)⟩

theorem delete_succeeds_iff (h₀ : Fresh s₀) (hrun : Transition.Reaches Step Sound s₀ s)
    (hfound : Returns (fun fuel => search fuel key) s (.ok (some row), s')) :
    (∃ s'', Returns (fun fuel => delete fuel key) s (.ok true, s'')) ↔ ¬ Blocked s key := by
  obtain ⟨L, T⟩ := tree_of_run h₀ hrun
  have hgrow := delete_growing key
  have hholds := T.holds_of_search hfound
  rcases T.delete_run le_rfl key with ⟨hb, m, t, hret⟩ | ⟨hb, ⟨b, t, hret, hbool, -⟩ | ⟨hzero, -⟩⟩
  · refine iff_of_false (fun ⟨s'', h⟩ => ?_) (not_not.mpr hb)
    simpa using hgrow.unique h hret
  · have htrue : b = true := hbool.mpr hholds
    subst htrue
    exact iff_of_true ⟨t, hret⟩ hb
  · cases hzero

/-- A root leaf with one row. -/
def singleRowTree : State := emptyTree.write 2 (.leaf 0 [(7, serializeRow (blobRow 1))])

theorem singleRowTree_reached : Transition.Reaches Step Sound emptyTree singleRowTree := by
  have hroot : emptyTree.nodes emptyTree.rootPage = some (.leaf 0 []) := rfl
  have hfit : dataEnd [] + entrySize (serializeRow (blobRow 1)) ≤ pageSize := by
    rw [pageSize_eq]
    decide
  have hsound : Sound emptyTree (.insert 7 (blobRow 1)) :=
    ⟨by unfold Roomy; decide, absent_root hroot (by simp), not_overflows_root hroot rfl _⟩
  exact .tail .refl hsound (.insert (insert_root hroot hfit))

theorem delete_succeeds_single :
    (∃ s', Returns (fun fuel => delete fuel 7) singleRowTree (.ok true, s')) ↔
      ¬ Blocked singleRowTree 7 := by
  have hfound : ∃ r ∈ search 2 7 singleRowTree, r.1 = .ok (some (blobRow 1)) := by with_unfolding_all decide
  obtain ⟨⟨r, s⟩, hr, hok⟩ := hfound
  obtain rfl : r = _ := hok
  exact delete_succeeds_iff (by decide : Fresh emptyTree) singleRowTree_reached ⟨2, hr⟩

/-- Six inserts of rows of 1000 bytes. -/
def sixInserts : List Act := (List.range 6).map fun i => .insert (Int64.ofNat (i + 1)) (blobRow 991)

/-- Key 1 is there, but cannot be deleted. -/
def Stuck (s : State) : Prop :=
  (∃ r ∈ search 9 1 s, r.1 = .ok (some (blobRow 991))) ∧ ∃ r ∈ delete 9 1 s,
    r.1 = .error (.fault (.error (.storageError "Cannot merge: target page full")))

instance : Decidable (Stuck s) := inferInstanceAs (Decidable (_ ∧ _))

/-- They leave two leaves that do not fit one page without the first entry either. -/
theorem not_delete_succeeds :
    ∃ s row, Transition.Reaches Step Transition.Any emptyTree s ∧
      (∃ s', Returns (fun fuel => search fuel 1) s (.ok (some row), s')) ∧
      ∃ s', Returns (fun fuel => delete fuel 1) s
        (.error (.fault (.error (.storageError "Cannot merge: target page full"))), s') := by
  have hrun : ∃ s ∈ Transition.runActions (stepWith 9) Transition.Any emptyTree sixInserts,
      Stuck s := by decide +kernel
  obtain ⟨s, hs, ⟨⟨r, t⟩, hr, hfound⟩, ⟨r', t'⟩, hr', hfail⟩ := hrun
  obtain rfl : r = _ := hfound
  obtain rfl : r' = _ := hfail
  exact ⟨s, _, reaches_of_runWith hs, ⟨t, 9, hr⟩, t', 9, hr'⟩

end VelociDB.BTree
