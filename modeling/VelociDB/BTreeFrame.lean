/-
# Trees side by side

The nodes of a state fall into those of one tree (`alone`) and the `others`.  A call on the
tree runs on its nodes alone and then beside the others (`BTreeLocal`), so it leaves them as
they are, and the pages of the tree it leaves are those it had or new ones (`Changed`).
-/
import VelociDB.BTreeRuns
import VelociDB.BTreeLocal

namespace VelociDB.BTree

open SearchTree Fuelled

variable {least : Nat} {s s' s₀ : State} {root p parent : Nat} {L L' : Layout Int64 Nat}
  {key : Int64} {row : Row} {entries : List Entry} {rest : Nat → Option Node} {k : Nat}

/-! ## A tree among other nodes -/

/-- The second state has the nodes of the first one on the pages of a layout. -/
def SameOn (L : Layout Int64 Nat) (s s' : State) : Prop :=
  (∀ p ∈ L.pages, s'.nodes p = s.nodes p) ∧ s.numPages ≤ s'.numPages

section SameOn

variable (h : SameOn L s s')
include h

theorem SameOn.view_eq (hp : p ∈ L.pages) : s'.view p = s.view p := by
  rw [State.view, State.view, h.1 p hp]

theorem SameOn.parentOf_eq (hp : p ∈ L.pages) : s'.parentOf p = s.parentOf p := by
  rw [State.parentOf, State.parentOf, h.1 p hp]

/-- A tree is told by the nodes on its pages. -/
theorem SameOn.tree (T : Tree least s root L) : Tree least s' root L := by
  have hchild : ∀ p ∈ L.pages, ∀ v, s.view p = some v → ∀ c ∈ v.children, c ∈ L.pages := by
    intro p hp v hv c hc
    exact ((T.whole.suits_of hp hv).child hc).1
  constructor
  case whole =>
    refine ⟨T.whole.root_mem, T.whole.root_lo, T.whole.root_hi, T.whole.level_le, fun p hp => ?_,
      fun p hp hr hl => ?_⟩
    · obtain ⟨v, hv, hS⟩ := T.whole.suits p hp
      exact ⟨v, (h.view_eq hp).trans hv, hS⟩
    · obtain ⟨q, hq, v, hv, hc⟩ := T.whole.linked p hp hr hl
      exact ⟨q, hq, v, (h.view_eq hq).trans hv, hc⟩
  case pages =>
    refine ⟨(h.parentOf_eq T.whole.root_mem).trans T.pages.root_parent, fun p hp v hv c hc => ?_,
      fun p hp => ?_, fun p hp v hv => ?_⟩
    · rw [h.view_eq hp] at hv
      rw [h.parentOf_eq (hchild p hp v hv c hc)]
      exact T.pages.parent_eq p hp v hv c hc
    · obtain ⟨hpos, hlt⟩ := T.pages.bounds p hp
      exact ⟨hpos, hlt.trans_le h.2⟩
    · exact T.pages.fits p hp v ((h.view_eq hp).symm.trans hv)

theorem SameOn.holds_iff (e : Entry) : L.Holds s'.view e ↔ L.Holds s.view e := by
  constructor
  · rintro ⟨p, hp, es, hv, he⟩
    exact ⟨p, hp, es, (h.view_eq hp).symm.trans hv, he⟩
  · rintro ⟨p, hp, es, hv, he⟩
    exact ⟨p, hp, es, (h.view_eq hp).trans hv, he⟩

theorem SameOn.leafOf (H : LeafOf s L key p parent entries) : LeafOf s' L key p parent entries :=
  ⟨H.mem, (h.1 p H.mem).trans H.node_eq, H.lo_le, H.lt_hi⟩

theorem SameOn.lost_iff (T : Tree least s root L) (hp : p ∈ L.pages) : Lost s' p k ↔ Lost s p k :=
  lost_congr T.pages T.whole (fun _ _ _ => not_false) (fun _ hx _ => h.parentOf_eq hx)
    (fun _ hx _ => h.view_eq hx) hp

/-- A sibling is one of the pages. -/
theorem SameOn.sibling_eq (T : Tree 1 s root L) (hp : p ∈ L.pages) (hr : p ≠ root) :
    siblingOf s' p = siblingOf s p ∧ siblingOf s p ∈ L.pages := by
  obtain ⟨hz, -, -, first, slots, hv, -⟩ := T.pages.parent_mem T.whole hp hr not_false
  constructor
  · rw [siblingOf, siblingOf, h.parentOf_eq hp, h.view_eq hz]
  · have hkeys : s.numKeysOf (s.parentOf p) ≠ 0 := by
      have hfit := T.pages.fits _ hz _ hv
      rw [State.numKeysOf_inner hv]
      exact Nat.one_le_iff_ne_zero.mp hfit.1
    obtain ⟨_, _, _, _, _, _, sibling, _, S⟩ := exists_sibling T hp hr hkeys
    rw [S.siblingOf_eq rfl]
    exact S.mem T

theorem SameOn.crowded_iff (T : Tree 1 s root L) (hp : p ∈ L.pages) (hr : p ≠ root)
    (mine : List Entry) : Crowded s' p mine ↔ Crowded s p mine := by
  obtain ⟨hz, -⟩ := T.pages.parent_mem T.whole hp hr not_false
  obtain ⟨hsib, hmem⟩ := h.sibling_eq T hp hr
  rw [Crowded, Crowded, h.parentOf_eq hp, h.view_eq hz, hsib, h.view_eq hmem]

end SameOn

/-! ## Alone and beside -/

open Classical in
/-- The nodes of the tree. -/
noncomputable def State.alone (s : State) (L : Layout Int64 Nat) : State :=
  { s with nodes := fun p => if p ∈ L.pages then s.nodes p else none }

open Classical in
/-- All other nodes. -/
noncomputable def State.others (s : State) (L : Layout Int64 Nat) : Nat → Option Node :=
  fun p => if p ∈ L.pages then none else s.nodes p

theorem alone_beside : (s.alone L).beside (s.others L) = s := by
  have hnodes : (fun p => (s.others L p).or ((s.alone L).nodes p)) = s.nodes := by
    funext p
    by_cases hp : p ∈ L.pages
    · simp [State.others, State.alone, hp]
    · simp [State.others, State.alone, hp]
  show State.mk _ s.numPages s.rootPage = s
  rw [hnodes]

theorem sameOn_alone : SameOn L s (s.alone L) := ⟨fun _ hp => if_pos hp, le_rfl⟩

theorem inBounds_alone (hb : s.InBounds) : (s.alone L).InBounds := by
  intro p hp
  refine hb p fun hn => hp ?_
  simp [State.alone, hn]

theorem apart_others (hb : s.InBounds) : Apart (s.others L) (s.alone L) := by
  intro p hp
  have hout : p ∉ L.pages := fun hin => hp (by simp [State.others, hin])
  refine ⟨by simp [State.alone, hout], hb p fun hn => hp ?_⟩
  simp [State.others, hn]

theorem Tree.nodes_ne_none (T : Tree least s root L) (hp : p ∈ L.pages) : s.nodes p ≠ none := by
  intro hn
  refine Pages.view_ne_none T.whole hp ?_
  rw [State.view, hn]
  rfl

/-- A tree beside other nodes. -/
theorem sameOn_beside (T : Tree least s root L) (hapart : Apart rest s) :
    SameOn L s (s.beside rest) :=
  ⟨fun _ hp => hapart.beside_nodes (T.nodes_ne_none hp), le_rfl⟩

/-! ## What a call changes -/

/-- Nothing but the pages of the tree and new ones. -/
structure Changed (s s' : State) (L L' : Layout Int64 Nat) : Prop where
  bounds : s'.InBounds
  le : s.numPages ≤ s'.numPages
  elsewhere : ∀ p, p ∉ L.pages → s.nodes p ≠ none → s'.nodes p = s.nodes p ∧ p ∉ L'.pages

/-- The pages of another tree have stayed. -/
theorem Changed.sameOn {M : Layout Int64 Nat} {r : Nat} (h : Changed s s' L L')
    (T : Tree least s r M) (hdisj : ∀ p ∈ M.pages, p ∉ L.pages) :
    SameOn M s s' ∧ ∀ p ∈ M.pages, p ∉ L'.pages :=
  ⟨⟨fun p hp => (h.elsewhere p (hdisj p hp) (T.nodes_ne_none hp)).1, h.le⟩,
    fun p hp => (h.elsewhere p (hdisj p hp) (T.nodes_ne_none hp)).2⟩

section Lift

variable {α : Type} {n : Nat} {x : BTreeM α} {a : α}

/-- A call that returns on the tree alone returns on the whole state. -/
theorem Local.lift (hx : Local n [] x) (hb : s.InBounds)
    (hrun : x (s.alone L) = some (.ok a, s₀)) :
    x s = some (.ok a, s₀.beside (s.others L)) ∧ Apart (s.others L) s₀ ∧ s₀.InBounds ∧
      s.numPages ≤ s₀.numPages ∧ s₀.numPages ≤ s.numPages + n := by
  have C := hx _ _ _ (inBounds_alone hb) (fun _ hp => nomatch hp) hrun
  obtain ⟨hapart, hframe⟩ := C.frame _ (apart_others hb)
  rw [alone_beside] at hframe
  exact ⟨hframe, hapart, C.bounds, C.le, C.grows⟩

/-- What is left is a tree beside the other nodes. -/
theorem changed_of_tree {root' : Nat} (T' : Tree least s₀ root' L') (hb : s₀.InBounds)
    (hapart : Apart (s.others L) s₀) (hle : s.numPages ≤ s₀.numPages) :
    Tree least (s₀.beside (s.others L)) root' L' ∧ Changed s (s₀.beside (s.others L)) L L' ∧
      ∀ e, L'.Holds (s₀.beside (s.others L)).view e ↔ L'.Holds s₀.view e := by
  have hsame := sameOn_beside T' hapart
  refine ⟨hsame.tree T', ⟨fun p hp => ?_, hle, fun p hp hne => ?_⟩, hsame.holds_iff⟩
  · by_cases hnone : s.others L p = none
    · refine hb p fun hn => hp ?_
      show (s.others L p).or (s₀.nodes p) = none
      rw [hnone, hn]
      rfl
    · exact hapart.lt_of_ne hnone
  · have hrest : s.others L p = s.nodes p := if_neg hp
    have hnone : s₀.nodes p = none := (hapart p (hrest ▸ hne)).1
    constructor
    · show (s.others L p).or (s₀.nodes p) = s.nodes p
      rw [hrest, hnone, Option.or_none]
    · exact fun hin => T'.nodes_ne_none hin hnone

end Lift

namespace Tree

variable (T : Tree 1 s s.rootPage L) (hb : s.InBounds)
include T

/-- An insert with room, with the fuel it takes. -/
theorem insert_run (hcap : Roomy s) (H : LeafOf s L key p parent entries)
    (hnew : ∀ e ∈ entries, e.1 ≠ key) (hs : Splits key (serializeRow row) entries k) :
    ∃ newRoot s' root' L', insert (L.level s.rootPage + 19) key row s =
        some (.ok (), { s' with rootPage := newRoot.getD s.rootPage }) ∧
      Inserted 1 s s' s.rootPage root' L L' (key, serializeRow row) p k newRoot := by
  have hk := hs.le_nine (H.fits T)
  have hmin : 9 ≤ minKeys := by decide
  have hfuel : L.level s.rootPage < L.level s.rootPage + 19 := by omega
  obtain ⟨leafId, parent', entries', hfind, H'⟩ := T.findLeaf_root key hfuel
  have hat : LeafAt s key p entries := by
    obtain ⟨leafId₂, parent₂, entries₂, hat, H₂⟩ := T.exists_leafOf key
    obtain rfl := T.whole.covering H₂.mem H.mem ((H₂.within T).1.trans (H.within T).1.symm)
      ⟨H₂.lo_le, H₂.lt_hi⟩ ⟨H.lo_le, H.lt_hi⟩
    obtain ⟨-, rfl⟩ : parent₂ = parent ∧ entries₂ = entries := by
      simpa using H₂.node_eq.symm.trans H.node_eq
    exact hat
  obtain ⟨rfl, rfl⟩ := leafAt_unique hat ⟨⟨_, hfind⟩, H'.view_eq⟩
  obtain ⟨newRoot, s', root', L', hrun, I⟩ := insertIntoLeaf_run le_rfl hs H T hnew (by omega)
    (show L.level s.rootPage + 2 * k < L.level s.rootPage + 19 by omega) (T.roomy hcap hk)
  refine ⟨newRoot, s', root', L', ?_, I⟩
  dsimp only [insert]
  rw [Fuelled.bind_ok (look_run _ _), Fuelled.bind_ok hfind, Fuelled.bind_ok hrun]
  cases newRoot with
  | none =>
      rw [show (none : Option Nat).getD s.rootPage = s'.rootPage from I.rootPage_eq.symm]
      rfl
  | some r => rfl

include hb

/-- A sound insert with room: the tree has the entry, and nothing else has changed. -/
theorem insert_changed (hcap : Roomy s) (habsent : Absent s key)
    (hroom : RoomFor s key (serializeRow row)) (hover : ¬ Overflows s key (serializeRow row)) :
    ∃ s' L', Returns (fun fuel => insert fuel key row) s (.ok (), s') ∧
      Tree 1 s' s'.rootPage L' ∧ s'.numPages ≤ 2 ^ 64 ∧ Changed s s' L L' ∧
      ∀ e, L'.Holds s'.view e ↔ e = (key, serializeRow row) ∨ L.Holds s.view e := by
  obtain ⟨leafId, entries, k, hat, hs⟩ := hroom
  obtain ⟨leafId', parent, entries', hat', H⟩ := T.exists_leafOf key
  obtain ⟨rfl, rfl⟩ := leafAt_unique hat hat'
  have hsame : SameOn L s (s.alone L) := sameOn_alone
  have T₀ : Tree 1 (s.alone L) (s.alone L).rootPage L := hsame.tree T
  obtain ⟨newRoot, s₀, root', L', hrun, I⟩ :=
    T₀.insert_run hcap (hsame.leafOf H) (habsent _ _ hat) hs
  -- the root that was made is the one the handle is given
  have hroot : newRoot.getD s.rootPage = root' := by
    refine I.lost.mpr fun hlost => hover ⟨_, _, _, hat, hs, ?_⟩
    exact (hsame.lost_iff T H.mem).mp hlost
  have T' : Tree 1 { s₀ with rootPage := newRoot.getD s.rootPage } root' L' :=
    I.tree.withRootPage _
  obtain ⟨hret, hapart, hb₀, hle, hnum⟩ := (insert_local _ key row).lift hb hrun
  obtain ⟨T'', hchanged, hholds⟩ := changed_of_tree T' hb₀ hapart hle
  refine ⟨_, L', ⟨_, hret⟩, hroot ▸ T'', hnum.trans ?_, hchanged, fun e => ?_⟩
  · have hlevel := T.level_lt
    unfold Roomy at hcap
    have hfuel : L.level s.rootPage + 19 ≤ 2 ^ 29 := by omega
    have hmul := Nat.mul_le_mul hfuel (Nat.succ_le_succ hfuel)
    refine (Nat.add_le_add_left hmul _).trans ?_
    omega
  · rw [← hsame.holds_iff]
    exact (hholds e).trans (I.holds_iff e)

/-- A delete that is not blocked and keeps the root: the tree has lost the entry, and nothing
else has changed. -/
theorem delete_changed (hblocked : ¬ Blocked s key) (hcollapses : ¬ Collapses s key) :
    ∃ b s' L', Returns (fun fuel => delete fuel key) s (.ok b, s') ∧
      (b = true ↔ ∃ v, L.Holds s.view (key, v)) ∧ Tree 1 s' s'.rootPage L' ∧
      Changed s s' L L' ∧ ∀ e, L'.Holds s'.view e ↔ L.Holds s.view e ∧ e.1 ≠ key := by
  have hsame : SameOn L s (s.alone L) := sameOn_alone
  have T₀ : Tree 1 (s.alone L) (s.alone L).rootPage L := hsame.tree T
  have hunder : ∀ leafId rest, Underflows (s.alone L) key leafId rest →
      Underflows s key leafId rest ∧ leafId ∈ L.pages ∧ leafId ≠ s.rootPage := by
    rintro leafId rest ⟨entries, hat, hpresent, hrest, hr, hlt⟩
    obtain ⟨p₀, parent, entries₀, hat₀, H₀⟩ := T₀.exists_leafOf key
    obtain ⟨rfl, rfl⟩ := leafAt_unique hat₀ hat
    obtain ⟨p, parent', entries, hat', H⟩ := T.exists_leafOf key
    have H' := hsame.leafOf H
    obtain rfl := T₀.whole.covering H₀.mem H'.mem ((H₀.within T₀).1.trans (H'.within T₀).1.symm)
      ⟨H₀.lo_le, H₀.lt_hi⟩ ⟨H'.lo_le, H'.lt_hi⟩
    obtain ⟨-, rfl⟩ : parent = parent' ∧ entries₀ = entries := by
      simpa using H₀.node_eq.symm.trans H'.node_eq
    exact ⟨⟨_, hat', hpresent, hrest, hr, hlt⟩, H.mem, hr⟩
  have hblocked₀ : ¬ Blocked (s.alone L) key := by
    rintro ⟨leafId, rest, hu, hcrowded⟩
    obtain ⟨hu', hmem, hr⟩ := hunder _ _ hu
    exact hblocked ⟨leafId, rest, hu', (hsame.crowded_iff T hmem hr rest).mp hcrowded⟩
  rcases T₀.delete_run le_rfl key with ⟨hb', -⟩ | ⟨-, ⟨b, s₀, ⟨fuel, hrun⟩, hbool, hdrop, hkept⟩ |
    ⟨hzero, -⟩⟩
  · exact absurd hb' hblocked₀
  · obtain ⟨hret, hapart, hb₀, hle, -⟩ := (delete_local fuel key).lift hb hrun
    have hcollapses₀ : ¬ Collapses (s.alone L) key := by
      intro hc
      -- the root of the tree on the whole state names no parent
      rcases T.delete_run le_rfl key with ⟨hb', -⟩ | ⟨-, ⟨b', t, hret', -, -, hkept'⟩ | ⟨hzero, -⟩⟩
      · exact hblocked hb'
      · obtain ⟨-, rfl⟩ : b = b' ∧ s₀.beside (s.others L) = t := by
          simpa using (delete_growing key).unique ⟨fuel, hret⟩ hret'
        obtain ⟨L', T', -⟩ := hkept' hcollapses
        refine hdrop hc ?_
        have hroot := T'.pages.root_parent
        have hnode : s₀.nodes s₀.rootPage ≠ none := by
          intro hn
          exact hdrop hc (by rw [State.parentOf, hn]; rfl)
        rw [State.parentOf] at hroot ⊢
        rwa [State.beside_rootPage, hapart.beside_nodes hnode] at hroot
      · cases hzero
    obtain ⟨L', T', hholds⟩ := hkept hcollapses₀
    obtain ⟨T'', hchanged, hholds'⟩ := changed_of_tree T' hb₀ hapart hle
    refine ⟨b, _, L', ⟨fuel, hret⟩, ?_, T'', hchanged, fun e => ?_⟩
    · rw [hbool]
      exact exists_congr fun v => hsame.holds_iff _
    · rw [hholds', hholds, hsame.holds_iff]
  · cases hzero

end Tree

end VelociDB.BTree
