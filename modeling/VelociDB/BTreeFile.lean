/-
# Trees in one file

The trees of a database share the pages of one file, and each handle (`BTree`) knows its
root.  `Step` is a call through one of the handles, on the bytes of the pages:

    create    BTree::new
    insert    BTree::insert, returning Ok
    delete    BTree::delete, returning Ok

As long as every call is `SoundCall` (as in `BTreeRuns`, for the tree it goes to), each tree
is a map of its own: what `search` and `scan` give is told by the calls that went through
that handle alone (`contents`), and no call through another one is seen.
-/
import VelociDB.BTreeFrame
import VelociDB.BTreeScan
import VelociDB.BTreeFollowDelete

namespace VelociDB.BTree.Pages

open Bytes SchemaCodec Fuelled SearchTree

/-! ## More fuel changes no outcome -/

section Growing

variable {α : Type} {up up' : Nat → Nat → Int64 → FileM (Option Nat)}
  {repair repair' : Nat → Nat → FileM Unit}

theorem reading_le {x y : PagesM α} (h : Le x y) : Le (reading x) (reading y) := by
  intro f r hr
  obtain ⟨r', hr', heq⟩ := Option.map_eq_some_iff.mp hr
  rw [reading, h _ _ hr']
  exact congrArg some heq

theorem findLeaf_growing (p : Nat) (key : Int64) : Growing fun fuel => findLeaf fuel p key := by
  intro fuel
  induction fuel generalizing p with
  | zero => exact exhausted_le _
  | succ fuel ih =>
      exact .bind_right fun _ => .bind_right fun _ => .ite (.refl _) <| .bind_right fun _ =>
        .bind_right fun _ => ih _

theorem splitInternalNode_le (h : ∀ l r k, Le (up l r k) (up' l r k)) (p right : Nat)
    (key : Int64) : Le (splitInternalNode up p right key) (splitInternalNode up' p right key) := by
  refine .bind_right fun _ => .bind_right fun _ => .bind_right fun ⟨storedKeys, storedChildren⟩ => ?_
  dsimp only
  split
  · exact .refl _
  · exact .bind_right fun _ => .bind_right fun _ => .bind_right fun _ => .bind_right fun _ =>
      .bind_right fun _ => .bind_right fun _ => h _ _ _

theorem insertIntoInternal_le (h : ∀ l r k, Le (up l r k) (up' l r k)) (p right : Nat)
    (key : Int64) : Le (insertIntoInternal up p right key) (insertIntoInternal up' p right key) :=
  .bind_right fun _ => .bind_right fun _ => .bind_right fun _ => .bind_right fun _ =>
    .ite (splitInternalNode_le h _ _ _) (.refl _)

theorem insertIntoParent_growing (left right : Nat) (key : Int64) :
    Growing fun fuel => insertIntoParent fuel left right key := by
  intro fuel
  induction fuel generalizing left right key with
  | zero => exact exhausted_le _
  | succ fuel ih =>
      exact .bind_right fun _ => .bind_right fun _ => .ite (.refl _) (insertIntoInternal_le ih _ _ _)

theorem insertIntoLeaf_growing (p : Nat) (key : Int64) (data : Bytes) :
    Growing fun fuel => insertIntoLeaf fuel p key data := by
  intro fuel
  induction fuel generalizing p with
  | zero => exact exhausted_le _
  | succ fuel ih =>
      exact .bind_right fun _ => .bind_right fun _ => .bind_right fun _ => .bind_right fun _ => .ite
        (.bind_right fun _ => (insertIntoParent_growing _ _ _ fuel).bind fun _ =>
          (ih _).bind fun _ => .refl _) (.refl _)

theorem insert_growing (key : Int64) (row : Row) : Growing fun fuel => insert fuel key row :=
  fun fuel => .bind_right fun _ => (reading_le (findLeaf_growing _ _ fuel)).bind fun _ =>
    (insertIntoLeaf_growing _ _ _ fuel).bind fun _ => .refl _

theorem removeChildFromParent_le (h : ∀ p r, Le (repair p r) (repair' p r)) (p c r : Nat) :
    Le (removeChildFromParent repair p c r) (removeChildFromParent repair' p c r) := by
  refine .bind_right fun _ => .bind_right fun _ => .bind_right fun _ => .ite (.refl _) ?_
  refine .bind_right fun found => ?_
  cases found with
  | none => exact .refl _
  | some offset =>
      exact .bind_right fun _ => .bind_right fun _ => .bind_right fun _ =>
        .ite (.refl _) (.ite (h _ _) (.refl _))

theorem mergeInternal_le (h : ∀ p r, Le (repair p r) (repair' p r)) (p sibling parent : Nat)
    (key : Int64) (r : Nat) (isLeft : Bool) : Le (mergeInternal repair p sibling parent key r isLeft)
      (mergeInternal repair' p sibling parent key r isLeft) :=
  .bind_right fun _ => .bind_right fun _ => .bind_right fun _ => .bind_right fun _ =>
    .bind_right fun _ => .bind_right fun _ => .ite (.refl _) <| .bind_right fun _ =>
      .bind_right fun _ => .bind_right fun _ => removeChildFromParent_le h _ _ _

theorem mergeLeaves_le (h : ∀ p r, Le (repair p r) (repair' p r)) (p sibling parent r : Nat)
    (isLeft : Bool) : Le (mergeLeaves repair p sibling parent r isLeft)
      (mergeLeaves repair' p sibling parent r isLeft) :=
  .bind_right fun _ => .bind_right fun _ => .bind_right fun _ => .bind_right fun _ =>
    .bind_right fun _ => .bind_right fun _ => .bind_right fun _ => .bind_right fun _ =>
      removeChildFromParent_le h _ _ _

theorem handleInternalUnderflow_growing (p r : Nat) :
    Growing fun fuel => handleInternalUnderflow fuel p r := by
  intro fuel
  induction fuel generalizing p r with
  | zero => exact exhausted_le _
  | succ fuel ih =>
      exact .bind_right fun _ => .bind_right fun _ => .ite (.refl _) <| .bind_right fun _ =>
        .bind_right fun _ => .bind_right fun _ => .ite (.refl _) <| .bind_right fun _ =>
          .bind_right fun _ => .ite (.refl _) (mergeInternal_le ih _ _ _ _ _ _)

theorem handleLeafUnderflow_le (fuel p r : Nat) :
    Le (handleLeafUnderflow fuel p r) (handleLeafUnderflow (fuel + 1) p r) :=
  .bind_right fun _ => .bind_right fun _ => .ite (.refl _) <| .bind_right fun _ =>
    .bind_right fun _ => .bind_right fun _ => .ite (.refl _) <| .bind_right fun _ =>
      .bind_right fun _ => .ite (.refl _)
        (mergeLeaves_le (fun p r => handleInternalUnderflow_growing p r fuel) _ _ _ _ _)

theorem delete_growing (key : Int64) : Growing fun fuel => delete fuel key := by
  intro fuel
  refine .bind_right fun _ => (reading_le (findLeaf_growing _ _ fuel)).bind fun _ => ?_
  refine .bind_right fun _ => .bind_right fun _ => .bind_right fun found => ?_
  cases found with
  | none => exact .refl _
  | some e =>
      exact .bind_right fun _ => .bind_right fun _ => .bind_right fun _ => .bind_right fun _ =>
        .ite ((handleLeafUnderflow_le _ _ _).bind fun _ => .refl _) (.refl _)

end Growing

/-! ## A new tree -/

theorem newTree_run (f : File) : ∃ f', newTree f = some (.ok (), f') ∧
    f'.rootPage = f.pages.length ∧ f'.state.numPages = f.state.numPages + 1 ∧
    f'.state.nodes = Function.update f.state.nodes f.pages.length (some (.leaf 0 [])) := by
  obtain ⟨page, hser, hlaid⟩ := laid_new.serialize ⟨1, 0, 0⟩ ⟨by decide, by decide, by decide⟩
  have himg : Image page (.leaf 0 []) := .leaf hlaid
  have hlt : f.pages.length < f.grown.pages.length := by
    rw [File.grown_length]
    exact Nat.lt_succ_self _
  have hstate := File.state_withPage hlt himg
  refine ⟨⟨(f.grown.withPage f.pages.length page).pages, f.pages.length⟩, ?_, rfl, ?_, ?_⟩
  · have hdone : done (NodeHeader.serialize ⟨1, 0, 0⟩ Page.new) f.grown =
        some (.ok page, f.grown) := by rw [done_run, hser]
    rw [newTree, Fuelled.bind_ok newPage_run, Fuelled.bind_ok hdone, Fuelled.bind_ok writePage_run]
    rfl
  · show (f.grown.withPage f.pages.length page).pages.length = f.pages.length + 1
    rw [File.withPage_length, File.grown_length]
  · show (f.grown.withPage f.pages.length page).state.nodes = _
    rw [hstate, File.state_grown, State.write_nodes, State.write_nodes, File.state_numPages,
      Function.update_idem]

/-! ## Calls through the handles -/

/-- The pages of the file and the roots of the trees in it. -/
structure Trees where
  pages : List Page
  roots : List Nat

/-- The file as the handle of a tree sees it. -/
def Trees.file (t : Trees) (root : Nat) : File := ⟨t.pages, root⟩

/-- A call; `tree` is the number of the handle. -/
inductive Call where
  | create
  | insert (tree : Nat) (key : Int64) (row : Row)
  | delete (tree : Nat) (key : Int64)

/-- A call that returns Ok. -/
inductive Step : Trees → Call → Trees → Prop
  | create {t : Trees} {f : File} : newTree (t.file 0) = some (.ok (), f) →
      Step t .create ⟨f.pages, t.roots ++ [f.rootPage]⟩
  | insert {t : Trees} {f : File} {i root : Nat} {key : Int64} {row : Row} :
      t.roots[i]? = some root →
      Returns (fun fuel => insert fuel key row) (t.file root) (.ok (), f) →
      Step t (.insert i key row) ⟨f.pages, t.roots.set i f.rootPage⟩
  | delete {t : Trees} {f : File} {i root : Nat} {key : Int64} {b : Bool} :
      t.roots[i]? = some root →
      Returns (fun fuel => delete fuel key) (t.file root) (.ok b, f) →
      Step t (.delete i key) ⟨f.pages, t.roots.set i f.rootPage⟩

/-- A call a tree stays well-formed under. -/
def SoundCall (t : Trees) : Call → Prop
  | .create => True
  | .insert i key row => ∃ root, t.roots[i]? = some root ∧
      Sound (t.file root).state (.insert key row) ∧
      RoomFor (t.file root).state key (serializeRow row)
  | .delete i key => ∃ root, t.roots[i]? = some root ∧
      ¬ Blocked (t.file root).state key ∧ Sound (t.file root).state (.delete key)

/-- The rows of each tree by their keys. -/
abbrev Contents := Nat → Int64 → Option Row

/-- What a call does to them. -/
def Contents.after (m : Contents) (trees : Nat) : Call → Contents
  | .create => Function.update m trees fun _ => none
  | .insert i key row => Function.update m i (Function.update (m i) key (some row))
  | .delete i key => Function.update m i (Function.update (m i) key none)

/-- Sound calls one after the other, and what the trees should hold after them. -/
inductive Run (t₀ : Trees) (m₀ : Contents) : Trees → Contents → Prop
  | start : Run t₀ m₀ t₀ m₀
  | call {t t' : Trees} {m : Contents} {c : Call} : Run t₀ m₀ t m → SoundCall t c → Step t c t' →
      Run t₀ m₀ t' (m.after t.roots.length c)

/-- Every root has a tree of its own with the rows it should hold. -/
structure Separate (t : Trees) (m : Contents) (L : Nat → Layout Int64 Nat) : Prop where
  header : 0 < t.pages.length
  tree : ∀ i root, t.roots[i]? = some root → Tree 1 (t.file root).state root (L i)
  holds : ∀ i root, t.roots[i]? = some root → ∀ e, (L i).Holds (t.file root).state.view e ↔
    ∃ row, m i e.1 = some row ∧ e.2 = serializeRow row
  apart : ∀ i j, i < t.roots.length → j < t.roots.length → i ≠ j →
    ∀ p ∈ (L i).pages, p ∉ (L j).pages

theorem File.inBounds (f : File) : f.state.InBounds := by
  intro p hp
  obtain ⟨node, hnode⟩ := Option.ne_none_iff_exists'.mp hp
  exact File.lt_of_node hnode

variable {t t' t₀ : Trees} {m m₀ : Contents} {L : Nat → Layout Int64 Nat} {c : Call}
  {i root : Nat} {key : Int64} {row : Row}

theorem lt_of_root (h : t.roots[i]? = some root) : i < t.roots.length :=
  (List.getElem?_eq_some_iff.mp h).1

/-- A call through one handle. -/
theorem Separate.changed {f : File} {L' : Layout Int64 Nat} {n : Int64 → Option Row}
    (S : Separate t m L) (hi : t.roots[i]? = some root)
    (hc : Changed (t.file root).state f.state (L i) L')
    (T' : Tree 1 f.state f.rootPage L')
    (hholds : ∀ e, L'.Holds f.state.view e ↔ ∃ row, n e.1 = some row ∧ e.2 = serializeRow row) :
    Separate ⟨f.pages, t.roots.set i f.rootPage⟩ (Function.update m i n) (Function.update L i L') := by
  have hlt := lt_of_root hi
  -- the tree of another handle
  have htree : ∀ j r, t.roots[j]? = some r → Tree 1 (t.file root).state r (L j) :=
    fun j r hr => (S.tree j r hr).withRootPage root
  have hother : ∀ j r, j ≠ i → t.roots[j]? = some r →
      SameOn (L j) (t.file root).state f.state ∧ ∀ p ∈ (L j).pages, p ∉ L'.pages := by
    intro j r hj hr
    exact hc.sameOn (htree j r hr) (S.apart j i (lt_of_root hr) hlt hj)
  have hcase : ∀ j r, (t.roots.set i f.rootPage)[j]? = some r →
      (j = i ∧ r = f.rootPage) ∨ (j ≠ i ∧ t.roots[j]? = some r) := by
    intro j r hr
    by_cases hj : j = i
    · subst hj
      rw [List.getElem?_set_self hlt] at hr
      exact .inl ⟨rfl, (Option.some.inj hr).symm⟩
    · rw [List.getElem?_set_ne (Ne.symm hj)] at hr
      exact .inr ⟨hj, hr⟩
  constructor
  case header => exact Nat.lt_of_lt_of_le S.header hc.le
  case tree =>
    intro j r hr
    rcases hcase j r hr with ⟨rfl, rfl⟩ | ⟨hj, hr'⟩
    · rw [Function.update_self]
      exact T'
    · rw [Function.update_of_ne hj]
      exact ((hother j r hj hr').1.tree (htree j r hr')).withRootPage r
  case holds =>
    intro j r hr e
    rcases hcase j r hr with ⟨rfl, rfl⟩ | ⟨hj, hr'⟩
    · rw [Function.update_self, Function.update_self]
      exact hholds e
    · rw [Function.update_of_ne hj, Function.update_of_ne hj]
      exact ((hother j r hj hr').1.holds_iff e).trans (S.holds j r hr' e)
  case apart =>
    intro j k hj hk hjk
    rw [List.length_set] at hj hk
    by_cases hji : j = i
    · subst hji
      rw [Function.update_self, Function.update_of_ne (Ne.symm hjk)]
      intro p hp hpk
      exact (hother k _ (Ne.symm hjk) (List.getElem?_eq_getElem hk)).2 p hpk hp
    · rw [Function.update_of_ne hji]
      by_cases hki : k = i
      · subst hki
        rw [Function.update_self]
        exact (hother j _ hji (List.getElem?_eq_getElem hj)).2
      · rw [Function.update_of_ne hki]
        exact S.apart j k hj hk hjk

/-- A new tree is behind all pages. -/
theorem Separate.create {f : File} (S : Separate t m L) (hroot : f.rootPage = t.pages.length)
    (hnum : f.pages.length = t.pages.length + 1)
    (hnodes : f.state.nodes = Function.update (t.file 0).state.nodes t.pages.length
      (some (.leaf 0 []))) :
    Separate ⟨f.pages, t.roots ++ [f.rootPage]⟩ (Function.update m t.roots.length fun _ => none)
      (Function.update L t.roots.length (leafLayout f.rootPage)) := by
  have hleaf : f.state.nodes f.rootPage = some (.leaf 0 []) := by
    rw [hnodes, hroot, Function.update_self]
  have hnew : Tree 1 f.state f.rootPage (leafLayout f.rootPage) := by
    refine Tree.of_empty hleaf ?_
    show 0 < f.rootPage ∧ f.rootPage < f.pages.length
    have := S.header
    omega
  have hold : ∀ j r, t.roots[j]? = some r → SameOn (L j) (t.file r).state f.state ∧
      ∀ p ∈ (L j).pages, p ≠ t.pages.length := by
    intro j r hr
    have hlt : ∀ p ∈ (L j).pages, p < t.pages.length := fun p hp =>
      ((S.tree j r hr).pages.bounds p hp).2
    refine ⟨⟨fun p hp => ?_, ?_⟩, fun p hp => (hlt p hp).ne⟩
    · rw [hnodes, Function.update_of_ne (hlt p hp).ne]
      rfl
    · show t.pages.length ≤ f.pages.length
      omega
  have hcase : ∀ j r, (t.roots ++ [f.rootPage])[j]? = some r →
      (j = t.roots.length ∧ r = f.rootPage) ∨ (j ≠ t.roots.length ∧ t.roots[j]? = some r) := by
    intro j r hr
    rcases Nat.lt_trichotomy j t.roots.length with hj | rfl | hj
    · rw [List.getElem?_append_left hj] at hr
      exact .inr ⟨hj.ne, hr⟩
    · rw [List.getElem?_concat_length] at hr
      exact .inl ⟨rfl, (Option.some.inj hr).symm⟩
    · rw [List.getElem?_eq_none (by simpa using hj)] at hr
      cases hr
  constructor
  case header =>
    show 0 < f.pages.length
    omega
  case tree =>
    intro j r hr
    rcases hcase j r hr with ⟨rfl, rfl⟩ | ⟨hj, hr'⟩
    · rw [Function.update_self]
      exact hnew
    · rw [Function.update_of_ne hj]
      exact ((hold j r hr').1.tree (S.tree j r hr')).withRootPage r
  case holds =>
    intro j r hr e
    rcases hcase j r hr with ⟨rfl, rfl⟩ | ⟨hj, hr'⟩
    · rw [Function.update_self, Function.update_self]
      exact iff_of_false (leafLayout_empty hleaf e) nofun
    · rw [Function.update_of_ne hj, Function.update_of_ne hj]
      exact ((hold j r hr').1.holds_iff e).trans (S.holds j r hr' e)
  case apart =>
    intro j k hj hk hjk
    simp only [List.length_append, List.length_singleton] at hj hk
    have hget : ∀ x, x < t.roots.length + 1 → x ≠ t.roots.length → ∃ r, t.roots[x]? = some r :=
      fun x hx hne => ⟨_, List.getElem?_eq_getElem (show x < t.roots.length by omega)⟩
    by_cases hjn : j = t.roots.length
    · obtain ⟨r, hr⟩ := hget k hk fun h => hjk (hjn.trans h.symm)
      rw [hjn, Function.update_self, Function.update_of_ne fun h => hjk (hjn.trans h.symm)]
      rintro p rfl hp
      exact (hold k r hr).2 _ hp hroot
    · obtain ⟨r, hr⟩ := hget j hj hjn
      rw [Function.update_of_ne hjn]
      by_cases hkn : k = t.roots.length
      · rw [hkn, Function.update_self]
        rintro p hp rfl
        exact (hold j r hr).2 _ hp hroot
      · rw [Function.update_of_ne hkn]
        obtain ⟨r', hr'⟩ := hget k hk hkn
        exact S.apart j k (lt_of_root hr) (lt_of_root hr') hjk

/-- A call has one outcome. -/
theorem step_unique {t'' : Trees} (h : Step t c t') (h' : Step t c t'') : t' = t'' := by
  cases h with
  | create hrun =>
      cases h' with
      | create hrun' =>
          obtain rfl : _ = _ := (Prod.mk.inj (Option.some.inj (hrun.symm.trans hrun'))).2
          rfl
  | insert hroot hret =>
      cases h' with
      | insert hroot' hret' =>
          obtain rfl := Option.some.inj (hroot.symm.trans hroot')
          obtain rfl := (Prod.mk.inj ((insert_growing _ _).unique hret hret')).2
          rfl
  | delete hroot hret =>
      cases h' with
      | delete hroot' hret' =>
          obtain rfl := Option.some.inj (hroot.symm.trans hroot')
          obtain rfl := (Prod.mk.inj ((delete_growing _).unique hret hret')).2
          rfl

/-- A sound call returns, and does to the tree what it does to the map. -/
theorem Separate.call (S : Separate t m L) (hs : SoundCall t c) :
    ∃ t' L', Step t c t' ∧ Separate t' (m.after t.roots.length c) L' := by
  cases c with
  | create =>
      obtain ⟨f, hrun, hroot, hnum, hnodes⟩ := newTree_run (t.file 0)
      exact ⟨_, _, .create hrun, S.create hroot hnum hnodes⟩
  | insert i key row =>
      obtain ⟨root, hi, ⟨hcap, habsent, hover⟩, hroom⟩ := hs
      have T := S.tree i root hi
      have hnone : m i key = none := by
        rcases hm : m i key with _ | row'
        · rfl
        · exact absurd ((S.holds i root hi _).mpr ⟨row', hm, rfl⟩) (T.not_holds habsent _)
      obtain ⟨s', L', hret, T', hsmall, hchanged, hholds⟩ :=
        T.insert_changed (File.inBounds _) hcap habsent hroom hover
      obtain ⟨f, hret', rfl⟩ := Follows.returns_ok
        (fun fuel => refined_insert fuel key row (t.file root)) hret hsmall
      refine ⟨_, _, .insert hi hret', S.changed hi hchanged T' fun e => ?_⟩
      rw [hholds, S.holds i root hi]
      obtain ⟨k, v⟩ := e
      by_cases hk : k = key
      · subst hk
        rw [Function.update_self, hnone]
        constructor
        · rintro (heq | ⟨_, hno, -⟩)
          · exact ⟨row, rfl, (Prod.mk.inj heq).2⟩
          · cases hno
        · rintro ⟨row', heq, hv⟩
          obtain rfl := Option.some.inj heq
          exact .inl (Prod.ext rfl hv)
      · rw [Function.update_of_ne hk]
        exact or_iff_right fun heq => hk (Prod.mk.inj heq).1
  | delete i key =>
      obtain ⟨root, hi, hblocked, hcollapses⟩ := hs
      have T := S.tree i root hi
      obtain ⟨b, s', L', hret, -, T', hchanged, hholds⟩ :=
        T.delete_changed (File.inBounds _) hblocked hcollapses
      obtain ⟨f, hret', rfl⟩ := Follows.returns_ok
        (fun fuel => refined_delete fuel key (t.file root)) hret trivial
      refine ⟨_, _, .delete hi hret', S.changed hi hchanged T' fun e => ?_⟩
      rw [hholds, S.holds i root hi]
      obtain ⟨k, v⟩ := e
      by_cases hk : k = key
      · subst hk
        rw [Function.update_self]
        exact iff_of_false (fun h => h.2 rfl) nofun
      · rw [Function.update_of_ne hk]
        exact and_iff_left hk

/-- After a run every tree holds what went through its handle. -/
theorem Run.separate (h₀ : Separate t₀ m₀ L) (hrun : Run t₀ m₀ t m) : ∃ L', Separate t m L' := by
  induction hrun with
  | start => exact ⟨L, h₀⟩
  | call _ hs hstep ih =>
      obtain ⟨L', S⟩ := ih
      obtain ⟨t'', L'', hstep', S'⟩ := S.call hs
      exact ⟨L'', step_unique hstep hstep' ▸ S'⟩

/-- A file without trees. -/
theorem separate_empty {pages : List Page} (h : 0 < pages.length) (m : Contents) :
    Separate ⟨pages, []⟩ m fun _ => leafLayout 0 := by
  refine ⟨h, fun i root hr => ?_, fun i root hr => ?_, fun i j hi => ?_⟩
  · cases hr
  · cases hr
  · exact absurd hi (Nat.not_lt_zero i)

/-! ## What the handles read -/

/-- The row as it is read back. -/
def Contents.stored (m : Contents) (i : Nat) (key : Int64) : Option Row := (m i key).map Row.stored

/-- What is stored can be decoded. -/
theorem Separate.decodes (S : Separate t m L) (hi : t.roots[i]? = some root) {e : Entry}
    (he : (L i).Holds (t.file root).state.view e) :
    ∃ row, m i e.1 = some row ∧ deserializeRow e.2 = .ok row.stored := by
  obtain ⟨row, hm, hv⟩ := (S.holds i root hi e).mp he
  obtain ⟨p, hp, entries, hview, hmem⟩ := he
  have hfit : dataEnd entries ≤ pageSize := (S.tree i root hi).pages.fits p hp _ hview
  have hsize : entrySize e.2 ≤ (entries.map fun e => entrySize e.2).sum :=
    List.le_sum_of_mem (List.mem_map.mpr ⟨e, hmem, rfl⟩)
  refine ⟨row, hm, ?_⟩
  rw [hv]
  refine readRow_of_size row ?_
  rw [← hv]
  have hentry : entrySize e.2 = 12 + e.2.length := rfl
  have hend : dataEnd entries = headerSize + (entries.map fun e => entrySize e.2).sum := rfl
  omega

theorem Separate.search (S : Separate t m L) (hi : t.roots[i]? = some root) (key : Int64) :
    Returns (fun fuel => Pages.search fuel root key) t.pages (.ok (m.stored i key), t.pages) := by
  have T := S.tree i root hi
  refine ⟨(L i).level root + 1, ?_⟩
  rcases hm : m i key with _ | row
  · rw [Contents.stored, hm]
    refine search_lacks T (Nat.lt_succ_self _) fun data hdata => ?_
    obtain ⟨row, hrow, -⟩ := (S.holds i root hi _).mp hdata
    rw [hm] at hrow
    cases hrow
  · have hdata : (L i).Holds (t.file root).state.view (key, serializeRow row) :=
      (S.holds i root hi _).mpr ⟨row, hm, rfl⟩
    obtain ⟨row', hrow', hdec⟩ := S.decodes hi hdata
    obtain rfl := Option.some.inj (hm.symm.trans hrow')
    rw [Contents.stored, hm]
    exact search_holds T (Nat.lt_succ_self _) hdata hdec

theorem Separate.scan (S : Separate t m L) (hi : t.roots[i]? = some root) :
    ∃ rows, Returns (fun fuel => Pages.scan fuel root) t.pages (.ok rows, t.pages) ∧
      rows.Pairwise (fun a b => a.1 < b.1) ∧ ∀ key row, (key, row) ∈ rows ↔ m.stored i key = some row := by
  have T := S.tree i root hi
  let rows (data : Bytes) : Row := (deserializeRow data).toOption.getD ⟨[]⟩
  have hrows : ∀ e, (L i).Holds (t.file root).state.view e →
      deserializeRow e.2 = .ok (rows e.2) := by
    intro e he
    obtain ⟨row, -, hdec⟩ := S.decodes hi he
    show _ = Except.ok ((deserializeRow e.2).toOption.getD ⟨[]⟩)
    rw [hdec]
    rfl
  obtain ⟨es, hlists, hscan⟩ := scan_lists T (Nat.lt_succ_self _) hrows
  refine ⟨_, ⟨_, hscan⟩, ?_, fun key row => ?_⟩
  · exact List.pairwise_map.mpr hlists.within.sorted
  · constructor
    · intro hmem
      obtain ⟨e, he, heq⟩ := List.mem_map.mp hmem
      obtain ⟨rfl, rfl⟩ := Prod.mk.inj heq
      obtain ⟨row, hm, hdec⟩ := S.decodes hi (hlists.all e |>.mp he)
      have hrow := hrows e ((hlists.all e).mp he)
      rw [Contents.stored, hm, ← Except.ok.inj (hdec.symm.trans hrow)]
      rfl
    · intro hm
      obtain ⟨row', hrow', rfl⟩ := Option.map_eq_some_iff.mp hm
      have hdata : (L i).Holds (t.file root).state.view (key, serializeRow row') :=
        (S.holds i root hi _).mpr ⟨row', hrow', rfl⟩
      obtain ⟨row'', hm'', hdec⟩ := S.decodes hi hdata
      obtain rfl := Option.some.inj (hrow'.symm.trans hm'')
      refine List.mem_map.mpr ⟨_, (hlists.all _).mpr hdata, ?_⟩
      rw [rowOf, Except.ok.inj ((hrows _ hdata).symm.trans hdec)]

theorem Separate.delete_answer {f : File} {b : Bool} (S : Separate t m L)
    (hs : SoundCall t (.delete i key)) (hi : t.roots[i]? = some root)
    (hret : Returns (fun fuel => delete fuel key) (t.file root) (.ok b, f)) :
    b = true ↔ m i key ≠ none := by
  obtain ⟨root', hi', hblocked, hcollapses⟩ := hs
  obtain rfl := Option.some.inj (hi.symm.trans hi')
  obtain ⟨b', s', L', hret', hbool, -⟩ :=
    (S.tree i root hi).delete_changed (File.inBounds _) hblocked hcollapses
  obtain ⟨f', hret'', -⟩ := Follows.returns_ok
    (fun fuel => refined_delete fuel key (t.file root)) hret' trivial
  obtain rfl := Except.ok.inj (Prod.mk.inj ((delete_growing key).unique hret hret'')).1
  rw [hbool, Option.ne_none_iff_exists']
  constructor
  · rintro ⟨v, hv⟩
    obtain ⟨row, hm, -⟩ := (S.holds i root hi _).mp hv
    exact ⟨row, hm⟩
  · rintro ⟨row, hm⟩
    exact ⟨_, (S.holds i root hi _).mpr ⟨row, hm, rfl⟩⟩

/-! ## Runs -/

/-- Insert and delete do to the bytes of the pages what they do to the nodes. -/
theorem pages_follow_nodes (fuel : Nat) (key : Int64) (row : Row) (f : File) :
    RefinedSmall (BTree.insert fuel key row) (insert fuel key row) f ∧
      Refined (BTree.delete fuel key) (delete fuel key) f :=
  ⟨refined_insert fuel key row f, refined_delete fuel key f⟩

/-- No tree is there yet. -/
def nothing : Contents := fun _ _ => none

section Runs

variable {pages : List Page} (h : 0 < pages.length) (hrun : Run ⟨pages, []⟩ nothing t m)
include h hrun

/-- From a file without trees, after any sound calls through any handles: the search of a tree
gives the row put under the key last through its handle, and the scan gives all of them, by
increasing keys. -/
theorem trees_are_maps (hi : t.roots[i]? = some root) :
    (∀ key, Returns (fun fuel => Pages.search fuel root key) t.pages
      (.ok (m.stored i key), t.pages)) ∧
    ∃ rows, Returns (fun fuel => Pages.scan fuel root) t.pages (.ok rows, t.pages) ∧
      rows.Pairwise (fun a b => a.1 < b.1) ∧
      ∀ key row, (key, row) ∈ rows ↔ m.stored i key = some row := by
  obtain ⟨L, S⟩ := hrun.separate (separate_empty h _)
  exact ⟨S.search hi, S.scan hi⟩

/-- A sound call returns Ok, and a delete tells whether the key was there. -/
theorem sound_call_returns (hs : SoundCall t c) : (∃ t', Step t c t') ∧
    ∀ i root key b f, c = .delete i key → t.roots[i]? = some root →
      Returns (fun fuel => delete fuel key) (t.file root) (.ok b, f) →
        (b = true ↔ m i key ≠ none) := by
  obtain ⟨L, S⟩ := hrun.separate (separate_empty h _)
  obtain ⟨t', -, hstep, -⟩ := S.call hs
  refine ⟨⟨t', hstep⟩, ?_⟩
  rintro i root key b f rfl hi hret
  exact S.delete_answer hs hi hret

end Runs

/-- A new tree behind one page. -/
theorem exists_firstTree : ∃ f : File, newTree (Trees.file ⟨[Page.new], []⟩ 0) = some (.ok (), f) ∧
    f.rootPage = 1 ∧ f.state.numPages = 2 ∧ f.state.nodes 1 = some (.leaf 0 []) := by
  obtain ⟨f, hrun, hroot, hnum, hnodes⟩ := newTree_run (Trees.file ⟨[Page.new], []⟩ 0)
  refine ⟨f, hrun, hroot, hnum, ?_⟩
  rw [hnodes]
  exact Function.update_self ..

/-- The first tree takes a row. -/
theorem sound_firstInsert {f : File} (hnum : f.state.numPages = 2) (hroot : f.rootPage = 1)
    (hleaf : f.state.nodes 1 = some (.leaf 0 [])) {key : Int64} {row : Row}
    (hfit : dataEnd [] + entrySize (serializeRow row) ≤ pageSize) :
    SoundCall ⟨f.pages, [f.rootPage]⟩ (.insert 0 key row) := by
  have hleaf' : (Trees.file ⟨f.pages, [f.rootPage]⟩ f.rootPage).state.nodes f.rootPage =
      some (.leaf 0 []) := hroot ▸ hleaf
  refine ⟨f.rootPage, rfl, ⟨?_, absent_root hleaf' (by simp), not_overflows_root hleaf' rfl _⟩,
    f.rootPage, [], 0, leafAt_root hleaf', .fits hfit⟩
  show 10 * f.state.numPages + 100 ≤ 2 ^ 32
  rw [hnum]
  decide

/-- What the first tree holds then. -/
def firstContents : Contents := (nothing.after 0 .create).after 1 (.insert 0 7 (blobRow 1))

theorem exists_firstRun : ∃ t t' : Trees, Run ⟨[Page.new], []⟩ nothing t (nothing.after 0 .create) ∧
    SoundCall t (.insert 0 7 (blobRow 1)) ∧ Run ⟨[Page.new], []⟩ nothing t' firstContents ∧
      ∃ root, t'.roots[0]? = some root := by
  obtain ⟨f, hnew, hroot, hnum, hleaf⟩ := exists_firstTree
  have hrun : Run ⟨[Page.new], []⟩ nothing ⟨f.pages, [] ++ [f.rootPage]⟩ (nothing.after 0 .create) :=
    .call .start trivial (.create hnew)
  have hsound : SoundCall ⟨f.pages, [f.rootPage]⟩ (.insert 0 7 (blobRow 1)) :=
    sound_firstInsert hnum hroot hleaf (by rw [entrySize, length_blobRow, pageSize_eq]; decide)
  obtain ⟨L, S⟩ := hrun.separate (separate_empty (by decide) _)
  obtain ⟨t', -, hstep, -⟩ := S.call hsound
  refine ⟨_, t', hrun, hsound, .call hrun hsound hstep, ?_⟩
  cases hstep with
  | insert => exact ⟨_, rfl⟩

theorem trees_are_maps_first : ∃ (t : Trees) (root : Nat), t.roots[0]? = some root ∧
    Returns (fun fuel => Pages.search fuel root 7) t.pages
      (.ok (some (blobRow 1).stored), t.pages) := by
  obtain ⟨-, t, -, -, hrun, root, hi⟩ := exists_firstRun
  exact ⟨t, root, hi, (trees_are_maps (by decide) hrun hi).1 7⟩

theorem sound_call_returns_first : ∃ t t' : Trees, Step t (.insert 0 7 (blobRow 1)) t' := by
  obtain ⟨t, -, hrun, hsound, -⟩ := exists_firstRun
  obtain ⟨t', hstep⟩ := (sound_call_returns (by decide) hrun hsound).1
  exact ⟨t, t', hstep⟩

end VelociDB.BTree.Pages
