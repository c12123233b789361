/-
# `BTree::insert`

`insert` returns exactly when cutting the leaf of the key finds room (`RoomFor`), and
panics otherwise.  When it returns, the tree is well-formed under the stored root exactly
when no cut after the first one makes a root (`Overflows`): `insert_into_leaf` drops what
its inner call returns, and the handle stays on a page that has a parent now.
-/
import VelociDB.BTreeLeaf

namespace VelociDB.BTree

open SearchTree Fuelled

variable {least : Nat} {s s' : State} {root p parent : Nat} {L L' : Layout Int64 Nat}
  {key : Int64} {row : Row} {data : Bytes} {entries : List Entry} {k : Nat}

/-- Pages an insert can allocate before their numbers outgrow the `u32` of `header.parent`. -/
def Roomy (s : State) : Prop := 10 * s.numPages + 100 ≤ 2 ^ 32

/-- The leaf a key is looked for in. -/
def LeafAt (s : State) (key : Int64) (leafId : Nat) (entries : List Entry) : Prop :=
  Returns (fun fuel => findLeaf fuel s.rootPage key) s (.ok leafId, s) ∧
    s.view leafId = some (.leaf entries)

/-- Cutting the leaf of the key finds room for the entry. -/
def RoomFor (s : State) (key : Int64) (data : Bytes) : Prop :=
  ∃ leafId entries k, LeafAt s key leafId entries ∧ Splits key data entries k

/-- A cut after the first one finds every node above full: the parent of the leaf has room
now, but not for as many halves as it takes, and the nodes above the parent are full. -/
def Overflows (s : State) (key : Int64) (data : Bytes) : Prop :=
  ∃ leafId entries k, LeafAt s key leafId entries ∧ Splits key data entries k ∧ Lost s leafId k

theorem Splits.unique {k' : Nat} (h : Splits key data entries k) (h' : Splits key data entries k') :
    k = k' := by
  induction h generalizing k' with
  | fits hfit =>
      cases h' with
      | fits => rfl
      | halve hfull => exact absurd hfull hfit.not_gt
  | halve hfull hget _ ih =>
      cases h' with
      | fits hfit => exact absurd hfull hfit.not_gt
      | halve _ hget' h' =>
          rw [hget] at hget'
          cases hget'
          rw [ih h']

/-- The tree does not depend on the handle. -/
theorem Tree.withRootPage (T : Tree least s root L) (r : Nat) :
    Tree least { s with rootPage := r } root L :=
  ⟨T.whole, ⟨T.pages.root_parent, T.pages.parent_eq, T.pages.bounds, T.pages.fits⟩⟩

namespace Tree

variable (T : Tree least s s.rootPage L)
include T

/-- Every key has its leaf. -/
theorem exists_leafOf (key : Int64) :
    ∃ leafId parent entries, LeafAt s key leafId entries ∧
      LeafOf s L key leafId parent entries := by
  obtain ⟨leafId, parent, entries, hrun, H⟩ := T.findLeaf_root key (Nat.lt_succ_self _)
  exact ⟨leafId, parent, entries, ⟨⟨_, hrun⟩, H.view_eq⟩, H⟩

omit T in
theorem leafAt_unique {p' : Nat} {entries' : List Entry} (h : LeafAt s key p entries)
    (h' : LeafAt s key p' entries') : p = p' ∧ entries = entries' := by
  have hpp := (findLeaf_growing _ key).unique h.1 h'.1
  obtain rfl : p = p' := by simpa using hpp
  have hv := h.2.symm.trans h'.2
  exact ⟨rfl, by simpa using hv⟩

/-- The room an insert needs is there. -/
theorem roomy (hcap : Roomy s) {n : Nat} (hn : n ≤ 9) :
    s.numPages + n * (L.level s.rootPage + n + 2) ≤ 2 ^ 32 := by
  have hlevel := T.level_lt
  have hmul : n * (L.level s.rootPage + n + 2) ≤ 9 * (L.level s.rootPage + 9 + 2) :=
    Nat.mul_le_mul hn (by omega)
  unfold Roomy at hcap
  omega

/-- An insert that finds room returns. -/
theorem insert_returns (hleast : least ≤ 1) (hcap : Roomy s) (H : LeafOf s L key p parent entries)
    (hat : LeafAt s key p entries) (hnew : ∀ e ∈ entries, e.1 ≠ key)
    (hs : Splits key (serializeRow row) entries k) :
    ∃ newRoot s' root' L',
      Returns (fun fuel => insert fuel key row) s
        (.ok (), { s' with rootPage := newRoot.getD s.rootPage }) ∧
      Inserted least s s' s.rootPage root' L L' (key, serializeRow row) p k newRoot := by
  have hk := hs.le_nine (H.fits T)
  have hmin : 9 ≤ minKeys := by decide
  obtain ⟨newRoot, s', root', L', hrun, I⟩ := insertIntoLeaf_run hleast hs H T hnew (by omega)
    (Nat.lt_succ_self _) (T.roomy hcap hk)
  refine ⟨newRoot, s', root', L', ?_, I⟩
  obtain ⟨fuel, hfind, hins⟩ :=
    (findLeaf_growing _ _).both (insertIntoLeaf_growing _ _ _) hat.1 ⟨_, hrun⟩
  refine ⟨fuel, ?_⟩
  dsimp only [insert]
  rw [bind_ok (look_run _ _), bind_ok hfind, bind_ok hins]
  cases newRoot with
  | none =>
      rw [show (none : Option Nat).getD s.rootPage = s'.rootPage from I.rootPage_eq.symm]
      rfl
  | some r => rfl

/-- An insert that never finds room panics. -/
theorem insert_panics (hleast : least ≤ 1) (hcap : Roomy s)
    (hno : ¬ RoomFor s key (serializeRow row)) :
    ∃ s', Returns (fun fuel => insert fuel key row) s (.error (.fault .panic), s') := by
  obtain ⟨leafId, parent, entries, hat, H⟩ := T.exists_leafOf key
  have hlen : entries.length ≤ 2 ^ 9 := (length_le_of_dataEnd (H.fits T)).trans (by decide)
  obtain ⟨s', hrun⟩ := insertIntoLeaf_panics hleast hlen (fun k h => hno ⟨_, _, k, hat, h⟩) H T
    (Nat.lt_succ_self _) (T.roomy hcap le_rfl)
  obtain ⟨fuel, hfind, hins⟩ :=
    (findLeaf_growing _ _).both (insertIntoLeaf_growing _ _ _) hat.1 ⟨_, hrun⟩
  refine ⟨s', fuel, ?_⟩
  dsimp only [insert]
  rw [bind_ok (look_run _ _), bind_ok hfind, bind_error hins]

/-- An absent key is not in its leaf. -/
theorem absent (H : LeafOf s L key p parent entries) (hnew : ∀ v, ¬ L.Holds s.view (key, v)) :
    ∀ e ∈ entries, e.1 ≠ key := by
  rintro ⟨k', v⟩ he rfl
  exact hnew v ((H.holds_iff T).mpr he)

/-- What a returning insert has done. -/
theorem inserted (hleast : least ≤ 1) (hcap : Roomy s) (hnew : ∀ v, ¬ L.Holds s.view (key, v))
    (hret : Returns (fun fuel => insert fuel key row) s (.ok (), s')) :
    ∃ leafId entries k newRoot s₁ root' L', LeafAt s key leafId entries ∧
      Splits key (serializeRow row) entries k ∧
      s' = { s₁ with rootPage := newRoot.getD s.rootPage } ∧
      Inserted least s s₁ s.rootPage root' L L' (key, serializeRow row) leafId k newRoot := by
  by_cases hroom : RoomFor s key (serializeRow row)
  · obtain ⟨leafId, entries, k, hat, hs⟩ := hroom
    obtain ⟨leafId', parent, entries', hat', H⟩ := T.exists_leafOf key
    obtain ⟨rfl, rfl⟩ := leafAt_unique hat hat'
    obtain ⟨newRoot, s₁, root', L', hrun, I⟩ :=
      T.insert_returns hleast hcap H hat (T.absent H hnew) hs
    have heq := (insert_growing key row).unique hret hrun
    exact ⟨leafId, entries, k, newRoot, s₁, root', L', hat, hs, by simpa using heq, I⟩
  · obtain ⟨s₁, hpanic⟩ := T.insert_panics hleast hcap hroom
    have heq := (insert_growing key row).unique hret hpanic
    simp at heq

/-- An insert keeps the tree unless a cut after the first one makes a root. -/
theorem insert_keeps_iff (hleast : least ≤ 1) (hcap : Roomy s)
    (hnew : ∀ v, ¬ L.Holds s.view (key, v))
    (hret : Returns (fun fuel => insert fuel key row) s (.ok (), s')) :
    (∃ L', Tree least s' s'.rootPage L' ∧
      ∀ e, L'.Holds s'.view e ↔ e = (key, serializeRow row) ∨ L.Holds s.view e) ↔
      ¬ Overflows s key (serializeRow row) := by
  obtain ⟨leafId, entries, k, newRoot, s₁, root', L', hat, hs, rfl, I⟩ :=
    T.inserted hleast hcap hnew hret
  have hlost : Overflows s key (serializeRow row) ↔ Lost s leafId k := by
    constructor
    · rintro ⟨leafId', entries', k', hat', hs', h⟩
      obtain ⟨rfl, rfl⟩ := leafAt_unique hat hat'
      rwa [hs.unique hs']
    · exact fun h => ⟨leafId, entries, k, hat, hs, h⟩
  rw [hlost, ← I.lost]
  constructor
  · rintro ⟨L'', T'', -⟩
    -- any other page of the tree names a parent
    by_contra hne
    have hparent := T''.pages.root_parent
    exact (I.tree.pages.parent_mem I.tree.whole I.root_mem hne not_false).2.1 hparent
  · intro heq
    refine ⟨L', ?_, I.holds_iff⟩
    have T' := I.tree.withRootPage (newRoot.getD s.rootPage)
    rwa [← heq] at T'

end Tree

/-! ## Insert and well-formed trees -/

/-- A returning insert leaves a well-formed tree with the new entry exactly when it does not
overflow. -/
theorem insert_wellFormed_iff (T : Tree 0 s s.rootPage L) (hcap : Roomy s)
    (hnew : ∀ v, ¬ L.Holds s.view (key, v))
    (hret : Returns (fun fuel => insert fuel key row) s (.ok (), s')) :
    (∃ L', Tree 0 s' s'.rootPage L' ∧
      ∀ e, L'.Holds s'.view e ↔ e = (key, serializeRow row) ∨ L.Holds s.view e) ↔
      ¬ Overflows s key (serializeRow row) :=
  T.insert_keeps_iff (Nat.zero_le 1) hcap hnew hret

/-- An empty root leaf on page 2. -/
def emptyTree : State := ⟨fun p => if p = 2 then some (.leaf 0 []) else none, 3, 2⟩

/-- The layout of a tree that is one leaf. -/
def leafLayout (root : Nat) : Layout Int64 Nat := ⟨{p | p = root}, fun _ => 0, fun _ => ⊥, fun _ => ⊤⟩

/-- A root leaf with nothing in it is a tree. -/
theorem Tree.of_empty (hroot : s.nodes root = some (.leaf 0 []))
    (hbounds : 0 < root ∧ root < s.numPages) : Tree least s root (leafLayout root) := by
  have hv : s.view root = some (.leaf []) := State.view_eq_leaf.mpr ⟨0, hroot⟩
  refine Tree.of_pages rfl rfl rfl (State.parentOf_eq hroot) fun p hp => ?_
  obtain rfl : p = root := hp
  refine ⟨_, hv, ⟨rfl, ⟨.nil, by simp, by simp⟩⟩, by simp [View.children], hbounds, ?_, le_rfl,
    .inl rfl⟩
  show headerSize + 0 ≤ pageSize
  rw [pageSize_eq]
  decide

theorem leafLayout_empty (hroot : s.nodes root = some (.leaf 0 [])) (e : Entry) :
    ¬ (leafLayout root).Holds s.view e := by
  rintro ⟨p, hp, es, hv, he⟩
  obtain rfl : p = root := hp
  rw [State.view_eq_leaf.mpr ⟨0, hroot⟩] at hv
  cases hv
  simp at he

theorem insert_wellFormed_first :
    ∃ s', Returns (fun fuel => insert fuel 7 ⟨[.integer 1]⟩) emptyTree (.ok (), s') ∧
      ((∃ L', Tree 0 s' s'.rootPage L' ∧ ∀ e, L'.Holds s'.view e ↔
        e = (7, serializeRow ⟨[.integer 1]⟩) ∨ (leafLayout 2).Holds emptyTree.view e) ↔
        ¬ Overflows emptyTree 7 (serializeRow ⟨[.integer 1]⟩)) := by
  have hrun : ∃ r ∈ insert 2 7 ⟨[.integer 1]⟩ emptyTree, r.1 = .ok () := by with_unfolding_all decide
  obtain ⟨⟨r, s'⟩, hr, hok⟩ := hrun
  obtain rfl : r = .ok () := hok
  have hs' : Returns (fun fuel => insert fuel 7 ⟨[.integer 1]⟩) emptyTree (.ok (), s') := ⟨2, hr⟩
  exact ⟨s', hs', insert_wellFormed_iff (Tree.of_empty rfl (by decide)) (by unfold Roomy; decide)
    (fun v => leafLayout_empty rfl _) hs'⟩

/-- A root with 63 separators, its first leaf full of two small and two large entries. -/
def crowdedTree : State where
  nodes p :=
    if p = 2 then
      some (.internal 0 3 ((List.range 63).map fun i => (Int64.ofNat (10 * (i + 1)), i + 4)))
    else if p = 3 then
      some (.leaf 2 [(1, []), (2, []), (3, List.replicate 2000 0), (4, List.replicate 2000 0)])
    else if 4 ≤ p ∧ p ≤ 66 then some (.leaf 2 [(Int64.ofNat (10 * (p - 3)), [])])
    else none
  numPages := 67
  rootPage := 2

/-- Its layout. -/
def crowdedLayout : Layout Int64 Nat where
  pages := {p | 2 ≤ p ∧ p < 67}
  level p := if p = 2 then 1 else 0
  lo p := if p ≤ 3 then ⊥ else Bound.key (Int64.ofNat (10 * (p - 3)))
  hi p := if p = 2 ∨ p = 66 then ⊤ else Bound.key (Int64.ofNat (10 * (p - 2)))

instance : DecidablePred (· ∈ crowdedLayout.pages) := fun p =>
  inferInstanceAs (Decidable (2 ≤ p ∧ p < 67))

theorem crowdedTree_tree : Tree 0 crowdedTree 2 crowdedLayout := by
  have hdec : ∀ p < 67, 2 ≤ p → PageOk 0 crowdedTree 2 crowdedLayout p := by decide +kernel
  exact Tree.of_pages ⟨le_rfl, by decide⟩ rfl rfl rfl fun p hp => hdec p hp.2 hp.1

/-- The insert cuts the first leaf twice; the second cut splits the root. -/
theorem not_insert_wellFormed :
    ∃ s', Tree 0 crowdedTree crowdedTree.rootPage crowdedLayout ∧
      (∀ v, ¬ crowdedLayout.Holds crowdedTree.view (5, v)) ∧
      Returns (fun fuel => insert fuel 5 ⟨[.blob (List.replicate 1991 0)]⟩) crowdedTree
        (.ok (), s') ∧
      ¬ ∃ L', Tree 0 s' s'.rootPage L' := by
  have hrun : ∃ r ∈ insert 9 5 ⟨[.blob (List.replicate 1991 0)]⟩ crowdedTree,
      r.1 = .ok () ∧ r.2.parentOf r.2.rootPage ≠ 0 := by decide +kernel
  obtain ⟨⟨r, s'⟩, hr, hok, hparent⟩ := hrun
  obtain rfl : r = .ok () := hok
  refine ⟨s', crowdedTree_tree, ?_, ⟨9, hr⟩, fun ⟨L', T'⟩ => hparent T'.pages.root_parent⟩
  intro v hv
  have hleaf : crowdedTree.view 3 = some (.leaf
      [(1, []), (2, []), (3, List.replicate 2000 0), (4, List.replicate 2000 0)]) := rfl
  have hmem := (Whole.holds_iff crowdedTree_tree.whole (p := 3) (by decide) hleaf bot_le
    (show Bound.key (5 : Int64) < crowdedLayout.hi 3 by with_unfolding_all decide)).mp hv
  have hkey : (5 : Int64) ∈ [1, 2, 3, 4] := List.mem_map_of_mem (f := fun e => e.1) hmem
  exact absurd hkey (by decide)

end VelociDB.BTree
