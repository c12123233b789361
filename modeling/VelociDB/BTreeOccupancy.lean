/-
# How full the internal nodes are: delete

A merge takes a child from the parent, so what has to be repaired is short by one key.  It
takes a child over from a sibling with more than `minKeys` keys, or the two go into one page:
`minKeys - 1` keys, the separator and `minKeys` keys are `btreeOrder`.

    Settled    some filled set holds the page the handle names

The repair never fails either: each page on the way has a parent with a key, so it has a
sibling (`handleInternalUnderflow_short`).
-/
import VelociDB.BTreeFill
import VelociDB.BTreeDelete

namespace VelociDB.BTree

open SearchTree Fuelled
open Degrees (Filled Enough)

variable {s s' sm t : State} {root p q x a b left right sibling : Nat} {L : Layout Int64 Nat}
  {key k : Int64} {slots : List Slot} {node : Node} {P short : Set Nat} {level : Nat → Nat}
  {pre post : List Nat} {isLeft : Bool} {h : Nat → Nat → BTreeM Unit}

/-- The page the handle names is in a filled set. -/
def Settled (s : State) : Prop := ∃ P, Stocked s P ∅ ∧ s.rootPage ∈ P

theorem Settled.occupied (h : Settled s) : Occupied s := by
  obtain ⟨P, F, hroot⟩ := h
  exact F.occupied hroot

/-- Removing the slot of a child that is not the first one. -/
theorem removeSlot_children {first : Nat} (hold : first :: slots.map (·.2) = pre ++ a :: b :: post)
    (hnodup : (pre ++ a :: b :: post).Nodup) :
    first ≠ b ∧ ∃ rest, removeSlot b slots = some rest ∧
      first :: rest.map (·.2) = pre ++ a :: post := by
  have hright : pre ++ a :: b :: post = (pre ++ [a]) ++ b :: post := by simp
  have hpre : b ∉ pre ++ [a] := by
    rw [hright, List.nodup_append] at hnodup
    exact fun hmem => hnodup.2.2 b hmem b List.mem_cons_self rfl
  have hfirst : first ≠ b := by
    rintro rfl
    cases pre with
    | nil =>
        rw [List.nil_append, List.cons.injEq] at hold
        exact hpre (by simp [hold.1])
    | cons c pre =>
        rw [List.cons_append, List.cons.injEq] at hold
        exact hpre (by simp [hold.1])
  refine ⟨hfirst, ?_⟩
  rcases hremove : removeSlot b slots with _ | rest
  · -- the child is there
    have hmem : b ∈ first :: slots.map (·.2) := by simp [hold]
    exact absurd ((List.mem_cons.mp hmem).resolve_left hfirst.symm) (removeSlot_none hremove)
  · obtain ⟨pre', post', hslots, hrest, hpre'⟩ := removeSlot_inv hremove
    have hleft : first :: slots.map (·.2) = (first :: pre') ++ b :: post' := by
      rw [hslots]
      rfl
    have hnot : b ∉ first :: pre' := by
      intro hmem
      exact (List.mem_cons.mp hmem).elim (fun h => hfirst h.symm) hpre'
    have herase := congrArg (fun l : List Nat => l.erase b) hold
    simp only [hleft, hright] at herase
    rw [List.erase_append_right _ hnot, List.erase_append_right _ hpre, List.erase_cons_head,
      List.erase_cons_head] at herase
    refine ⟨rest, rfl, ?_⟩
    rw [hrest]
    simpa using herase

/-- Two neighbours `a` and `b` under `q`, and a state in which `a` has the children of both. -/
structure Joined (s sm : State) (P : Set Nat) (q a b : Nat) (pre post : List Nat) : Prop where
  mem : q ∈ P
  pair : s.children q = pre ++ a :: b :: post
  same : ∀ x ∈ P, x ≠ a → sm.children x = s.children x
  perm : (sm.children a).Perm (s.children a ++ s.children b)
  size : sm.children a = [] ∨
    minKeys + 1 ≤ (sm.children a).length ∧ (sm.children a).length ≤ btreeOrder + 1
  small : sm.children a ≠ [] → a < 2 ^ 32
  up : ∀ c ∈ P, sm.parentOf c = if c ∈ s.children b then a else s.parentOf c
  view : ∀ x ∈ P, sm.view x ≠ none
  numPages : s.numPages ≤ sm.numPages
  rootPage : sm.rootPage = s.rootPage

/-- The parent without the right one. -/
structure Dropped (sm t : State) (q a : Nat) (pre post : List Nat) : Prop where
  children : t.children q = pre ++ a :: post
  same : ∀ x, x ≠ q → t.children x = sm.children x
  up : ∀ x, t.parentOf x = sm.parentOf x
  view : ∀ x, sm.view x ≠ none → t.view x ≠ none
  numPages : sm.numPages ≤ t.numPages
  rootPage : t.rootPage = sm.rootPage

/-- What `merge_internal` does up to the removal from the parent. -/
theorem mergeInternal_inv (horder : inOrder p sibling isLeft = (left, right))
    (hrun : mergeInternal h p sibling q k root isLeft s = some (.ok (), s')) :
    ∃ lp lf ls rp rf rs sm, s.nodes left = some (.internal lp lf ls) ∧
      s.nodes right = some (.internal rp rf rs) ∧
      setParentPointers (parentField left) (rf :: rs.map (·.2)).reverse s = some (.ok (), sm) ∧
      removeChildFromParent h q right root
        (sm.write left (.internal lp lf (ls ++ (k, rf) :: rs))) = some (.ok (), s') := by
  rw [mergeInternal, horder] at hrun
  dsimp only at hrun
  obtain ⟨⟨lp, lf, ls⟩, t, hread, hrun⟩ := bind_eq_ok.mp hrun
  obtain ⟨hl, rfl⟩ := readInternal_inv hread
  obtain ⟨⟨rp, rf, rs⟩, t, hread, hrun⟩ := bind_eq_ok.mp hrun
  obtain ⟨hr, rfl⟩ := readInternal_inv hread
  dsimp only at hl hr hrun
  split at hrun
  · cases hrun
  · obtain ⟨⟨⟩, sm, hset, hrun⟩ := bind_eq_ok.mp hrun
    obtain ⟨⟨⟩, t, hwrite, hrun⟩ := bind_eq_ok.mp hrun
    obtain rfl := writeInternal_inv hwrite
    exact ⟨lp, lf, ls, rp, rf, rs, sm, hl, hr, hset, hrun⟩

/-- A page and its sibling, in order. -/
theorem mem_inOrder (horder : inOrder p sibling isLeft = (left, right)) :
    (p = left ∧ sibling = right) ∨ (p = right ∧ sibling = left) := by
  cases isLeft with
  | true =>
      cases horder
      exact .inr ⟨rfl, rfl⟩
  | false =>
      cases horder
      exact .inl ⟨rfl, rfl⟩

namespace Grove

variable (G : Grove s P level)
include G

/-- Only the headers, the number of pages and the children count. -/
theorem congr (hchildren : t.children = s.children) (hparent : ∀ x, t.parentOf x = s.parentOf x)
    (hroot : t.rootPage = s.rootPage) (hnum : s.numPages ≤ t.numPages)
    (hview : ∀ x, s.view x ≠ none → t.view x ≠ none) : Grove t P level := by
  refine ⟨?_, fun x hx => ?_, fun x hx hc => ?_⟩
  · have hpar : t.parentOf = s.parentOf := funext hparent
    rw [hchildren, hpar, hroot]
    exact G.links
  · obtain ⟨hv, hpos, hlt⟩ := G.there x hx
    exact ⟨hview x hv, hpos, hlt.trans_le hnum⟩
  · rw [hchildren] at hc
    exact G.small x hx hc

/-- A page that is not the root is a child, so it has enough children or is short. -/
theorem enough (F : Stocked s P short) (hx : x ∈ P) (hr : x ≠ s.rootPage) :
    x ∈ short ∨ s.Enough x := by
  obtain ⟨hz, hc⟩ := G.links.above x hx hr
  exact F.enough _ hz x hc

section Drop

variable (J : Joined s sm P q a b pre post) (D : Dropped sm t q a pre post)
include J

omit G in
theorem mem_pair : a ∈ s.children q ∧ b ∈ s.children q := by
  constructor
  · simp [J.pair]
  · simp [J.pair]

theorem ne_parent : a ≠ q ∧ b ≠ q :=
  ⟨G.links.ne_child J.mem (mem_pair J).1, G.links.ne_child J.mem (mem_pair J).2⟩

include D

theorem dropped_links :
    Degrees.Linked t.children t.parentOf level {x | x ∈ P ∧ x ≠ b} s.rootPage := by
  have K := G.links
  obtain ⟨hneq, -⟩ := G.ne_parent J
  have ha : t.children a = sm.children a := D.same a hneq
  have hpar : ∀ c ∈ P, t.parentOf c = if c ∈ s.children b then a else s.parentOf c :=
    fun c hc => (D.up c).trans (J.up c hc)
  obtain ⟨haq, hbq⟩ := mem_pair J
  obtain ⟨haP, -, -⟩ := K.child q J.mem a haq
  obtain ⟨hbP, -, -⟩ := K.child q J.mem b hbq
  refine K.merge J.mem J.pair (ha ▸ J.perm) D.children (fun x hx hxa hxq => ?_) (fun c hc => ?_)
    fun c hc _ hcb => ?_
  · exact (D.same x hxq).trans (J.same x hx hxa)
  · rw [ha] at hc
    rcases List.mem_append.mp (J.perm.mem_iff.mp hc) with h | h
    · obtain ⟨hcP, hca, -⟩ := K.child a haP c h
      rw [hpar c hcP]
      split
      · rfl
      · exact hca
    · rw [hpar c (K.child b hbP c h).1, if_pos h]
  · rw [hpar c hc, if_neg hcb]

theorem dropped : Grove t {x | x ∈ P ∧ x ≠ b} level := by
  obtain ⟨hneq, -⟩ := G.ne_parent J
  refine ⟨?_, fun x hx => ?_, fun x hx hc => ?_⟩
  · rw [D.rootPage, J.rootPage]
    exact G.dropped_links J D
  · obtain ⟨-, hpos, hlt⟩ := G.there x hx.1
    exact ⟨D.view x (J.view x hx.1), hpos, hlt.trans_le (J.numPages.trans D.numPages)⟩
  · by_cases hxq : x = q
    · refine G.small x hx.1 ?_
      rw [hxq, J.pair]
      simp
    rw [D.same x hxq] at hc
    by_cases hxa : x = a
    · subst hxa
      exact J.small hc
    · rw [J.same x hx.1 hxa] at hc
      exact G.small x hx.1 hc

/-- What is left is filled, if the parent is. -/
theorem dropped_stocked {P' short' : Set Nat} (F : Stocked s P short)
    (hshort : ∀ x ∈ short, x = a ∨ x = b) (hP' : P' ⊆ {x | x ∈ P ∧ x ≠ b})
    (hclosed : ∀ x ∈ P', ∀ c ∈ t.children x, c ∈ P')
    (htwo : q ∈ P' → 2 ≤ (t.children q).length)
    (hq : q ≠ s.rootPage → q ∈ short' ∨ t.Enough q) : Stocked t P' short' := by
  obtain ⟨hneq, -⟩ := G.ne_parent J
  have K := G.dropped_links J D
  have ha : t.children a = sm.children a := D.same a hneq
  refine ⟨fun x hx => ?_, hclosed, fun x hx c hc => ?_⟩
  · by_cases hxq : x = q
    · subst hxq
      have hlen := (F.size x J.mem).resolve_left (by simp [J.pair])
      refine .inr ⟨htwo hx, ?_⟩
      rw [J.pair] at hlen
      rw [D.children]
      simp only [List.length_append, List.length_cons] at hlen ⊢
      omega
    rw [D.same x hxq]
    by_cases hxa : x = a
    · subst hxa
      rcases J.size with h | ⟨hlo, hhi⟩
      · exact .inl h
      · have hmin : 2 ≤ minKeys + 1 := by decide
        exact .inr ⟨hmin.trans hlo, hhi⟩
    · rw [J.same x (hP' hx).1 hxa]
      exact F.size x (hP' hx).1
  · obtain ⟨⟨hcP, hcb⟩, -, -⟩ := K.child x (hP' hx) c hc
    have hcr : c ≠ s.rootPage := fun h => K.root_not_child (hP' hx) (h ▸ hc)
    by_cases hcq : c = q
    · rw [hcq] at hcr ⊢
      exact hq hcr
    refine .inr ?_
    rw [Enough, D.same c hcq]
    by_cases hca : c = a
    · rw [hca]
      exact J.size.imp_right And.left
    · rw [J.same c hcP hca]
      refine (G.enough F hcP hcr).resolve_left fun h => ?_
      exact (hshort c h).elim hca hcb

end Drop

/-- The parent of two joined pages loses the right one, and is repaired if it has to be. -/
theorem removeChild (F : Stocked s P short) (hshort : ∀ x ∈ short, x = a ∨ x = b)
    (J : Joined s sm P q a b pre post)
    (hh : ∀ {t s' : State} {P' : Set Nat}, Grove t P' level → Stocked t P' {q} → q ∈ P' →
      q ≠ t.rootPage → (t.children q).length = minKeys →
      h q t.rootPage t = some (.ok (), s') → Settled s')
    (hrun : removeChildFromParent h q b s.rootPage sm = some (.ok (), s')) : Settled s' := by
  have K := G.links
  obtain ⟨hneq, hneq'⟩ := G.ne_parent J
  have hnodup := K.nodup q J.mem
  rw [J.pair] at hnodup
  obtain ⟨⟨parent, first, slots⟩, t, hread, hrun⟩ := bind_eq_ok.mp hrun
  obtain ⟨hn, rfl⟩ := readInternal_inv hread
  dsimp only at hn hrun
  have hold : first :: slots.map (·.2) = pre ++ a :: b :: post := by
    rw [← J.pair, ← J.same q J.mem hneq.symm, State.children_inner hn]
  obtain ⟨hfirst, rest, hremove, hnew⟩ := removeSlot_children hold hnodup
  rw [if_neg hfirst, hremove] at hrun
  dsimp only at hrun
  rw [bind_ok (writeNode_run _ _ _)] at hrun
  have D : Dropped sm (sm.write q (.internal parent first rest)) q a pre post := by
    refine ⟨State.children_write_self.trans hnew, fun x hx => State.children_write_of_ne hx,
      fun x => State.parentOf_write_same ?_ x, fun x hx => State.view_write_ne_none hx,
      le_max_left _ _, rfl⟩
    exact (State.parentOf_eq hn).symm
  generalize sm.write q (.internal parent first rest) = t at hrun D
  have G' := G.dropped J D
  have hlen : (t.children q).length = rest.length + 1 := by
    rw [D.children, ← hnew]
    simp
  have hlen' : (s.children q).length = rest.length + 2 := by
    rw [J.pair]
    rw [D.children] at hlen
    simp only [List.length_append, List.length_cons] at hlen ⊢
    omega
  have hroot : t.rootPage = s.rootPage := D.rootPage.trans J.rootPage
  have hclosed : ∀ x ∈ {x | x ∈ P ∧ x ≠ b}, ∀ c ∈ t.children x, c ∈ {x | x ∈ P ∧ x ≠ b} :=
    fun x hx c hc => (G'.links.child x hx c hc).1
  by_cases htop : q = s.rootPage ∧ rest = []
  · -- the root goes, its only child stays
    rw [if_pos htop] at hrun
    cases hrun
    obtain ⟨hqr, rfl⟩ := htop
    refine ⟨{x | (x ∈ P ∧ x ≠ b) ∧ x ≠ q}, ?_, ?_⟩
    · refine G.dropped_stocked J D F hshort (fun x hx => hx.1) (fun x hx c hc => ⟨?_, ?_⟩)
        (fun h => absurd rfl h.2) fun h => absurd hqr h
      · exact hclosed x hx.1 c hc
      · rintro rfl
        refine G'.links.root_not_child hx.1 ?_
        rwa [hroot, ← hqr]
    · have hfirst' : first ∈ t.children q := by
        rw [D.children, ← hnew]
        exact List.mem_cons_self
      refine ⟨hclosed q ⟨J.mem, hneq'.symm⟩ first hfirst', ?_⟩
      exact G'.links.ne_child ⟨J.mem, hneq'.symm⟩ hfirst'
  rw [if_neg htop] at hrun
  by_cases hmore : q ≠ s.rootPage ∧ rest.length < minKeys
  · -- one key short
    rw [if_pos hmore] at hrun
    have hmany : minKeys + 1 ≤ (s.children q).length := by
      rcases G.enough F J.mem hmore.1 with h | h
      · exact absurd (hshort q h) (by rintro (h | h); exacts [hneq h.symm, hneq' h.symm])
      · exact h.resolve_left (by simp [J.pair])
    have hmin : 2 ≤ minKeys := by decide
    refine hh G' (G.dropped_stocked J D F hshort subset_rfl hclosed (fun _ => ?_)
      fun _ => .inl rfl) ⟨J.mem, hneq'.symm⟩ (hroot ▸ hmore.1) (by omega) (hroot.symm ▸ hrun)
    omega
  · rw [if_neg hmore] at hrun
    cases hrun
    refine ⟨{x | x ∈ P ∧ x ≠ b}, G.dropped_stocked J D F hshort subset_rfl hclosed (fun _ => ?_)
      fun hqr => .inr (.inr ?_), ?_⟩
    · by_cases hqr : q = s.rootPage
      · have hsome : rest ≠ [] := fun hnil => htop ⟨hqr, hnil⟩
        have := List.length_pos_iff.mpr hsome
        omega
      · have hge : ¬ rest.length < minKeys := fun hlt => hmore ⟨hqr, hlt⟩
        have hmin : 1 ≤ minKeys := by decide
        omega
    · have hge : ¬ rest.length < minKeys := fun hlt => hmore ⟨hqr, hlt⟩
      omega
    · rw [hroot]
      refine ⟨K.root_mem, ?_⟩
      intro hrb
      exact K.root_not_child J.mem (hrb ▸ (mem_pair J).2)

/-! ## Borrowing -/

omit G in
/-- Two pages have exchanged children, and both have enough. -/
theorem exchanged (F : Stocked s P {p}) (hroot : t.rootPage = s.rootPage) (hrP : s.rootPage ∈ P)
    (ha : a ∈ P) (hb : b ∈ P) (hp : p = a ∨ p = b)
    (hsame : ∀ x ∈ P, x ≠ a → x ≠ b → t.children x = s.children x)
    (hmem : ∀ x, x = a ∨ x = b → ∀ c ∈ t.children x, c ∈ s.children a ∨ c ∈ s.children b)
    (hsize : ∀ x, x = a ∨ x = b → minKeys + 1 ≤ (t.children x).length ∧
      (t.children x).length ≤ btreeOrder + 1) : Settled t := by
  have hkeep : ∀ c, c ∈ ({p} : Set Nat) ∨ s.Enough c → c ∈ P → t.Enough c := by
    intro c hc hcP
    by_cases hca : c = a
    · exact .inr (hsize c (.inl hca)).1
    by_cases hcb : c = b
    · exact .inr (hsize c (.inr hcb)).1
    · rw [State.Enough, Degrees.Enough, hsame c hcP hca hcb]
      refine hc.resolve_left fun h => ?_
      exact hp.elim (fun h' => hca (h.trans h')) fun h' => hcb (h.trans h')
  refine ⟨P, F.edit (fun c hcP _ hc => .inr (hkeep c hc hcP)) fun x hx => ?_, hroot ▸ hrP⟩
  by_cases hxab : x = a ∨ x = b
  · obtain ⟨hlo, hhi⟩ := hsize x hxab
    have hmin : 2 ≤ minKeys + 1 := by decide
    refine .inr (.inl ⟨hmin.trans hlo, hhi, fun c hc => ?_⟩)
    rcases hmem x hxab c hc with h | h
    · exact ⟨F.child_mem a ha c h, .inr (hkeep c (F.enough a ha c h) (F.child_mem a ha c h))⟩
    · exact ⟨F.child_mem b hb c h, .inr (hkeep c (F.enough b hb c h) (F.child_mem b hb c h))⟩
  · rw [not_or] at hxab
    exact .inl ⟨hx, hsame x hx hxab.1 hxab.2, F.child_mem x hx⟩

/-- After the two writes of `redistribute_internal`: one child gets a parent, one separator its
key. -/
theorem lend_inv {n₁ n₂ : Node} {moved : Nat} {newKey : Int64} (hab : a ≠ b)
    (hmoved : moved ∈ P)
    (hrun : (setParentPointer moved (parentField p) >>= fun _ => updateParentKey q k newKey)
      ((s.write a n₁).write b n₂) = some (.ok (), s')) :
    s'.rootPage = s.rootPage ∧ s'.children a = n₁.view.children ∧
      s'.children b = n₂.view.children ∧ ∀ x, x ≠ a → x ≠ b → s'.children x = s.children x := by
  have hview : ((s.write a n₁).write b n₂).view moved ≠ none :=
    State.view_write_ne_none (State.view_write_ne_none (G.there moved hmoved).1)
  have hlt : moved < ((s.write a n₁).write b n₂).numPages := by
    have := (G.there moved hmoved).2.2
    simp only [State.write_numPages]
    omega
  rw [bind_ok (setParentPointer_run hview hlt)] at hrun
  obtain ⟨hchildren, -, hroot, -⟩ := updateParentKey_inv hrun
  rw [State.children_adopt] at hchildren
  refine ⟨hroot, ?_, ?_, fun x hxa hxb => ?_⟩
  · rw [hchildren, State.children_write_of_ne hab, State.children_write_self]
  · rw [hchildren, State.children_write_self]
  · rw [hchildren, State.children_write_of_ne hxb, State.children_write_of_ne hxa]

theorem redistributeInternal (F : Stocked s P {p}) (hp : p ∈ P) (hsib : sibling ∈ P)
    (hfew : (s.children p).length = minKeys) (hmany : minKeys + 1 < (s.children sibling).length)
    (hrun : redistributeInternal p sibling q k isLeft s = some (.ok (), s')) : Settled s' := by
  have hne : sibling ≠ p := by
    rintro rfl
    omega
  have hmost : ∀ x ∈ P, (s.children x).length ≤ btreeOrder + 1 := by
    intro x hx
    rcases F.size x hx with h | h
    · simp [h]
    · exact h.2
  have hord : minKeys ≤ btreeOrder := by decide
  have hsibmost := hmost sibling hsib
  obtain ⟨⟨siblingParent, siblingFirst, siblingSlots⟩, t, hread, hrun⟩ := bind_eq_ok.mp hrun
  obtain ⟨hs, rfl⟩ := readInternal_inv hread
  obtain ⟨⟨parent, first, slots⟩, t, hread, hrun⟩ := bind_eq_ok.mp hrun
  obtain ⟨hn, rfl⟩ := readInternal_inv hread
  dsimp only at hs hn hrun
  have hcs := State.children_inner hs
  have hcp := State.children_inner hn
  rw [hcs] at hmany hsibmost
  rw [hcp] at hfew
  cases isLeft with
  | true =>
      rw [if_pos rfl] at hrun
      rcases hlast : siblingSlots.getLast? with _ | ⟨newKey, moved⟩
      · rw [hlast] at hrun
        cases hrun
      · obtain ⟨kept, rfl⟩ := List.getLast?_eq_some_iff.mp hlast
        rw [hlast] at hrun
        dsimp only at hrun
        rw [List.dropLast_concat] at hrun
        obtain ⟨⟨⟩, t, hw₁, hrun⟩ := bind_eq_ok.mp hrun
        obtain rfl := writeInternal_inv hw₁
        obtain ⟨⟨⟩, t, hw₂, hrun⟩ := bind_eq_ok.mp hrun
        obtain rfl := writeInternal_inv hw₂
        have hmoved : moved ∈ P := F.child_mem sibling hsib moved (by simp [hcs])
        obtain ⟨hroot, hs', hp', hsame⟩ := G.lend_inv hne hmoved hrun
        simp only [List.map_append, List.map_cons, List.map_nil, List.length_cons,
          List.length_append, List.length_map, List.length_nil] at hmany hsibmost hfew
        refine exchanged F hroot G.links.root_mem hsib hp (.inr rfl) (fun x _ => hsame x)
          (fun x hx c hc => ?_) fun x hx => ?_
        · rw [hcs, hcp]
          rcases hx with rfl | rfl
          · rw [hs'] at hc
            simp only [Node.view, View.children, List.mem_cons, List.map_append,
              List.mem_append] at hc ⊢
            tauto
          · rw [hp'] at hc
            simp only [Node.view, View.children, List.map_cons, List.mem_cons, List.map_append,
              List.mem_append] at hc ⊢
            tauto
        · rcases hx with rfl | rfl
          · rw [hs']
            simp only [Node.view, View.children, List.length_cons, List.length_map]
            omega
          · rw [hp']
            simp only [Node.view, View.children, List.length_cons, List.length_map]
            omega
  | false =>
      rw [if_neg Bool.false_ne_true] at hrun
      cases siblingSlots with
      | nil => cases hrun
      | cons e kept =>
          obtain ⟨newKey, newFirst⟩ := e
          dsimp only at hrun
          obtain ⟨⟨⟩, t, hw₁, hrun⟩ := bind_eq_ok.mp hrun
          obtain rfl := writeInternal_inv hw₁
          obtain ⟨⟨⟩, t, hw₂, hrun⟩ := bind_eq_ok.mp hrun
          obtain rfl := writeInternal_inv hw₂
          have hmoved : siblingFirst ∈ P := F.child_mem sibling hsib siblingFirst (by simp [hcs])
          obtain ⟨hroot, hs', hp', hsame⟩ := G.lend_inv hne hmoved hrun
          simp only [List.map_cons, List.length_cons, List.length_map] at hmany hsibmost hfew
          refine exchanged F hroot G.links.root_mem hsib hp (.inr rfl) (fun x _ => hsame x)
            (fun x hx c hc => ?_) fun x hx => ?_
          · rw [hcs, hcp]
            rcases hx with rfl | rfl
            · rw [hs'] at hc
              simp only [Node.view, View.children, List.map_cons, List.mem_cons] at hc ⊢
              tauto
            · rw [hp'] at hc
              simp only [Node.view, View.children, List.map_cons, List.map_nil, List.mem_cons,
                List.map_append, List.mem_append] at hc ⊢
              tauto
          · rcases hx with rfl | rfl
            · rw [hs']
              simp only [Node.view, View.children, List.length_cons, List.length_map]
              omega
            · rw [hp']
              simp only [Node.view, View.children, List.length_cons, List.length_map,
                List.length_append, List.length_nil]
              omega

/-! ## Merging -/

theorem mergeInternal (F : Stocked s P {p}) (hq : q ∈ P)
    (hpair : s.children q = pre ++ left :: right :: post)
    (horder : inOrder p sibling isLeft = (left, right))
    (hfew : (s.children p).length = minKeys) (hsib : (s.children sibling).length ≤ minKeys + 1)
    (hh : ∀ {t s' : State} {P' : Set Nat}, Grove t P' level → Stocked t P' {q} → q ∈ P' →
      q ≠ t.rootPage → (t.children q).length = minKeys →
      h q t.rootPage t = some (.ok (), s') → Settled s')
    (hrun : mergeInternal h p sibling q k s.rootPage isLeft s = some (.ok (), s')) :
    Settled s' := by
  have K := G.links
  obtain ⟨lp, lf, ls, rp, rf, rs, sm, hl, hr, hset, hrun⟩ := mergeInternal_inv horder hrun
  have hcl := State.children_inner hl
  have hcr := State.children_inner hr
  obtain ⟨hleft, -, hleftlevel⟩ := K.child q hq left (by simp [hpair])
  obtain ⟨hright, -, hrightlevel⟩ := K.child q hq right (by simp [hpair])
  have hnum : left < 2 ^ 32 := G.small left hleft (by rw [hcl]; exact List.cons_ne_nil _ _)
  have hcs : ∀ c ∈ (rf :: rs.map (·.2)).reverse, c ∈ P := by
    intro c hc
    rw [List.mem_reverse, ← hcr] at hc
    exact F.child_mem right hright c hc
  have hset' : setParentPointers (parentField left) (rf :: rs.map (·.2)).reverse s =
      some (.ok (), s.adopt (parentField left) (rf :: rs.map (·.2)).reverse) :=
    setParentPointers_run fun c hc => ⟨(G.there c (hcs c hc)).1, (G.there c (hcs c hc)).2.2⟩
  rw [hset, parentField_eq hnum] at hset'
  cases hset'
  have hlen : (s.children left).length + (s.children right).length =
      minKeys + (s.children sibling).length := by
    rcases mem_inOrder horder with ⟨rfl, rfl⟩ | ⟨rfl, rfl⟩
    · omega
    · omega
  have hlow : left ∉ (rf :: rs.map (·.2)).reverse := by
    intro hmem
    rw [List.mem_reverse, ← hcr] at hmem
    have := (K.child right hright left hmem).2.2
    omega
  have hview : ∀ x ∈ P, (s.adopt left (rf :: rs.map (·.2)).reverse).view x ≠ none := by
    intro x hx
    rw [State.view_adopt]
    exact (G.there x hx).1
  have hnew : ((s.adopt left (rf :: rs.map (·.2)).reverse).write left
      (.internal lp lf (ls ++ (k, rf) :: rs))).children left =
        s.children left ++ s.children right := by
    rw [State.children_write_self, hcl, hcr]
    simp [Node.view, View.children]
  have hord : minKeys + minKeys = btreeOrder := rfl
  have hpos : 1 ≤ (s.children sibling).length := by
    rcases mem_inOrder horder with ⟨-, rfl⟩ | ⟨-, rfl⟩
    · simp [hcr]
    · simp [hcl]
  have J : Joined s ((s.adopt left (rf :: rs.map (·.2)).reverse).write left
      (.internal lp lf (ls ++ (k, rf) :: rs))) P q left right pre post := by
    refine ⟨hq, hpair, fun x hx hxl => ?_, ?_, .inr ?_, fun _ => hnum, fun c hc => ?_,
      fun x hx => ?_, le_max_left _ _, rfl⟩
    · rw [State.children_write_of_ne hxl, State.children_adopt]
    · rw [hnew]
    · rw [hnew, List.length_append, hlen]
      omega
    · rw [State.parentOf_write_same, State.parentOf_adopt (G.there c hc).1, hcr]
      · simp only [List.mem_reverse]
      · rw [State.parentOf_adopt (G.there left hleft).1, if_neg hlow]
        exact (State.parentOf_eq hl).symm
    · exact State.view_write_ne_none (hview x hx)
  refine G.removeChild F (fun x hx => ?_) J hh hrun
  rcases mem_inOrder horder with ⟨rfl, -⟩ | ⟨rfl, -⟩
  · exact .inl hx
  · exact .inr hx

end Grove

/-! ## The repair -/

/-- `handle_internal_underflow` settles a page that is short by one key. -/
theorem handleInternalUnderflow_settled {fuel : Nat} (G : Grove s P level) (F : Stocked s P {p})
    (hp : p ∈ P) (hr : p ≠ s.rootPage) (hfew : (s.children p).length = minKeys)
    (hrun : handleInternalUnderflow fuel p s.rootPage s = some (.ok (), s')) : Settled s' := by
  induction fuel generalizing s s' P p with
  | zero => cases hrun
  | succ fuel ih =>
      obtain ⟨hq, hpq⟩ := G.links.above p hp hr
      rw [handleInternalUnderflow] at hrun
      obtain ⟨node, t, hread, hrun⟩ := bind_eq_ok.mp hrun
      obtain ⟨hn, rfl⟩ := readNode_inv hread
      have hparent : s.parentOf p = node.parent := State.parentOf_eq hn
      rw [hparent] at hq hpq
      have hstart : ¬ (node.parent = 0 ∨ p = s.rootPage) := by
        rintro (h | h)
        · exact (G.there _ hq).2.1.ne' h
        · exact hr h
      rw [if_neg hstart] at hrun
      obtain ⟨⟨parent, first, slots⟩, t, hread, hrun⟩ := bind_eq_ok.mp hrun
      obtain ⟨hnq, rfl⟩ := readInternal_inv hread
      dsimp only at hnq hrun
      obtain ⟨⟨sibling, key, isLeft⟩, t, hfind, hrun⟩ := bind_eq_ok.mp hrun
      dsimp only at hrun
      by_cases hzero : sibling = 0
      · rw [if_pos hzero] at hrun
        cases hrun
      rw [if_neg hzero] at hrun
      obtain ⟨rfl, pre, left, right, post, hpair, horder⟩ := findSiblingInfo_inv hfind hzero
      rw [← State.children_inner hnq] at hpair
      obtain ⟨sib, t, hread, hrun⟩ := bind_eq_ok.mp hrun
      obtain ⟨hns, rfl⟩ := readNode_inv hread
      have hsib : sibling ∈ P := by
        refine F.child_mem _ hq sibling ?_
        rcases mem_inOrder horder with ⟨-, rfl⟩ | ⟨-, rfl⟩
        · simp [hpair]
        · simp [hpair]
      by_cases hmany : minKeys < sib.numKeys
      · rw [if_pos hmany] at hrun
        cases sib with
        | leaf sp entries =>
            obtain ⟨y, t, hread, -⟩ := bind_eq_ok.mp hrun
            obtain ⟨hinner, -⟩ := readInternal_inv hread
            rw [hns] at hinner
            cases hinner
        | internal sp sf ss =>
            refine G.redistributeInternal F hp hsib hfew ?_ hrun
            rw [State.children_inner hns, List.length_cons, List.length_map]
            exact Nat.succ_lt_succ hmany
      · rw [if_neg hmany] at hrun
        refine G.mergeInternal F hq hpair horder hfew ?_ (fun G' F' hp' hr' hfew' hrun' =>
          ih G' F' hp' hr' hfew' hrun') hrun
        cases sib with
        | leaf sp entries =>
            rw [State.children_leaf hns]
            exact Nat.zero_le _
        | internal sp sf ss =>
            rw [State.children_inner hns, List.length_cons, List.length_map]
            exact Nat.succ_le_succ (not_lt.mp hmany)

/-! ## Delete -/

/-- The pages keep their children and their headers. -/
structure Alike (s t : State) : Prop where
  children : t.children = s.children
  parent : ∀ x, t.parentOf x = s.parentOf x
  root : t.rootPage = s.rootPage
  numPages : s.numPages ≤ t.numPages
  view : ∀ x, s.view x ≠ none → t.view x ≠ none

namespace Alike

theorem trans {u : State} (h₁ : Alike s t) (h₂ : Alike t u) : Alike s u :=
  ⟨h₂.children.trans h₁.children, fun x => (h₂.parent x).trans (h₁.parent x),
    h₂.root.trans h₁.root, h₁.numPages.trans h₂.numPages, fun x hx => h₂.view x (h₁.view x hx)⟩

theorem write_leaf {parent : Nat} {entries : List Entry}
    (hn : s.nodes p = some (.leaf parent entries)) (entries' : List Entry) :
    Alike s (s.write p (.leaf parent entries')) := by
  refine ⟨State.children_write_same ?_, State.parentOf_write_same (State.parentOf_eq hn).symm, rfl,
    le_max_left _ _, fun x hx => State.view_write_ne_none hx⟩
  rw [State.children_leaf hn]
  rfl

theorem updateParentKey {oldKey newKey : Int64}
    (hrun : updateParentKey q oldKey newKey s = some (.ok (), s')) : Alike s s' := by
  obtain ⟨hchildren, hparent, hroot, hnum, hview⟩ := updateParentKey_inv hrun
  exact ⟨hchildren, fun x => congrFun hparent x, hroot, hnum, hview⟩

theorem stocked (h : Alike s t) (F : Stocked s P short) : Stocked t P short := by
  rwa [Stocked, h.children]

end Alike

theorem Grove.alike (G : Grove s P level) (h : Alike s t) : Grove t P level :=
  G.congr h.children h.parent h.root h.numPages h.view

/-- An entry moves from leaf to leaf. -/
theorem redistributeFromSibling_inv
    (hrun : redistributeFromSibling p sibling q k isLeft s = some (.ok (), s')) : Alike s s' := by
  obtain ⟨⟨siblingParent, theirs⟩, t, hread, hrun⟩ := bind_eq_ok.mp hrun
  obtain ⟨hs, rfl⟩ := readLeaf_inv hread
  dsimp only at hs hrun
  rcases hlend : lend isLeft theirs with _ | ⟨stolen, kept⟩
  · rw [hlend] at hrun
    cases hrun
  · rw [hlend] at hrun
    dsimp only at hrun
    obtain ⟨n, t, hend, hrun⟩ := bind_eq_ok.mp hrun
    obtain rfl := ofExcept_inv hend
    rw [bind_ok (writeNode_run _ _ _)] at hrun
    have h₁ : Alike s (s.write sibling (.leaf siblingParent kept)) := .write_leaf hs _
    obtain ⟨⟨parent, mine⟩, t, hread, hrun⟩ := bind_eq_ok.mp hrun
    obtain ⟨hn, rfl⟩ := readLeaf_inv hread
    dsimp only at hn hrun
    obtain ⟨n', t, hend, hrun⟩ := bind_eq_ok.mp hrun
    obtain rfl := ofExcept_inv hend
    split at hrun
    · cases hrun
    rw [bind_ok (writeNode_run _ _ _)] at hrun
    have h₂ := h₁.trans
      (.write_leaf hn (if isLeft then stolen :: mine else mine ++ [stolen]))
    obtain ⟨⟨rp, rightEntries⟩, t, hread, hrun⟩ := bind_eq_ok.mp hrun
    obtain ⟨-, rfl⟩ := readLeaf_inv hread
    cases rightEntries with
    | nil =>
        cases hrun
        exact h₂
    | cons e rest => exact h₂.trans (.updateParentKey hrun)

theorem appendEntries_inv {entries more all : List Entry}
    (hrun : appendEntries entries more s = some (.ok all, s')) : s = s' := by
  induction more generalizing entries with
  | nil =>
      cases hrun
      rfl
  | cons e more ih =>
      obtain ⟨n, t, hend, hrun⟩ := bind_eq_ok.mp hrun
      obtain rfl := ofExcept_inv hend
      split at hrun
      · cases hrun
      · exact ih hrun

/-- Two leaves become one. -/
theorem Grove.mergeLeaves (G : Grove s P level) (F : Stocked s P ∅) (hq : q ∈ P)
    (hpair : s.children q = pre ++ left :: right :: post)
    (horder : inOrder p sibling isLeft = (left, right))
    (hh : ∀ {t s' : State} {P' : Set Nat}, Grove t P' level → Stocked t P' {q} → q ∈ P' →
      q ≠ t.rootPage → (t.children q).length = minKeys →
      h q t.rootPage t = some (.ok (), s') → Settled s')
    (hrun : mergeLeaves h p sibling q s.rootPage isLeft s = some (.ok (), s')) : Settled s' := by
  rw [BTree.mergeLeaves, horder] at hrun
  dsimp only at hrun
  obtain ⟨⟨rp, rightEntries⟩, t, hread, hrun⟩ := bind_eq_ok.mp hrun
  obtain ⟨hr, rfl⟩ := readLeaf_inv hread
  obtain ⟨⟨lp, leftEntries⟩, t, hread, hrun⟩ := bind_eq_ok.mp hrun
  obtain ⟨hl, rfl⟩ := readLeaf_inv hread
  dsimp only at hl hr hrun
  obtain ⟨all, t, happend, hrun⟩ := bind_eq_ok.mp hrun
  obtain rfl := appendEntries_inv happend
  rw [bind_ok (writeNode_run _ _ _)] at hrun
  have A : Alike s (s.write left (.leaf lp all)) := .write_leaf hl _
  have hcl := State.children_leaf hl
  have hcr := State.children_leaf hr
  have J : Joined s (s.write left (.leaf lp all)) P q left right pre post := by
    refine ⟨hq, hpair, fun x _ _ => congrFun A.children x, ?_, .inl ?_, fun hsome => ?_,
      fun c _ => ?_, fun x hx => A.view x (G.there x hx).1, A.numPages, A.root⟩
    · rw [A.children, hcl, hcr]
      exact .refl _
    · rw [A.children, hcl]
    · rw [A.children, hcl] at hsome
      exact absurd rfl hsome
    · rw [A.parent, hcr, if_neg List.not_mem_nil]
  exact G.removeChild F (fun x hx => absurd hx (Set.notMem_empty x)) J hh hrun

theorem handleLeafUnderflow_settled {fuel : Nat} (G : Grove s P level) (F : Stocked s P ∅)
    (hp : p ∈ P) (hr : p ≠ s.rootPage)
    (hrun : handleLeafUnderflow fuel p s.rootPage s = some (.ok (), s')) : Settled s' := by
  obtain ⟨hq, -⟩ := G.links.above p hp hr
  obtain ⟨node, t, hread, hrun⟩ := bind_eq_ok.mp hrun
  obtain ⟨hn, rfl⟩ := readNode_inv hread
  rw [State.parentOf_eq hn] at hq
  rw [if_neg (G.there _ hq).2.1.ne'] at hrun
  obtain ⟨⟨parent, first, slots⟩, t, hread, hrun⟩ := bind_eq_ok.mp hrun
  obtain ⟨hnq, rfl⟩ := readInternal_inv hread
  dsimp only at hnq hrun
  obtain ⟨⟨sibling, key, isLeft⟩, t, hfind, hrun⟩ := bind_eq_ok.mp hrun
  dsimp only at hrun
  by_cases hzero : sibling = 0
  · rw [if_pos hzero] at hrun
    cases hrun
  rw [if_neg hzero] at hrun
  obtain ⟨rfl, pre, left, right, post, hpair, horder⟩ := findSiblingInfo_inv hfind hzero
  rw [← State.children_inner hnq] at hpair
  obtain ⟨sib, t, hread, hrun⟩ := bind_eq_ok.mp hrun
  obtain ⟨-, rfl⟩ := readNode_inv hread
  split at hrun
  · have A := redistributeFromSibling_inv hrun
    refine ⟨P, A.stocked F, ?_⟩
    rw [A.root]
    exact G.links.root_mem
  · exact G.mergeLeaves F hq hpair horder (fun G' F' hp' hr' hfew' hrun' =>
      handleInternalUnderflow_settled G' F' hp' hr' hfew' hrun') hrun

/-- A delete that succeeds keeps the bounds, through every merge up to the root. -/
theorem delete_occupied {fuel : Nat} {found : Bool} (T : Tree 0 s s.rootPage L) (O : Occupied s)
    (hrun : delete fuel key s = some (.ok found, s')) : Occupied s' := by
  have G := T.grove
  have F := T.stocked O fun p hp => absurd hp (Set.notMem_empty p)
  dsimp only [delete] at hrun
  rw [bind_ok (look_run _ _)] at hrun
  obtain ⟨leafId, t, hfind, hrun⟩ := bind_eq_ok.mp hrun
  obtain ⟨hleaf, rfl⟩ := findLeaf_mem F.child_mem T.whole.root_mem hfind
  obtain ⟨⟨parent, entries⟩, t, hread, hrun⟩ := bind_eq_ok.mp hrun
  obtain ⟨hn, rfl⟩ := readLeaf_inv hread
  dsimp only at hn hrun
  split at hrun
  · obtain ⟨n, t, hend, hrun⟩ := bind_eq_ok.mp hrun
    obtain rfl := ofExcept_inv hend
    rw [bind_ok (writeNode_run _ _ _)] at hrun
    have A : Alike s (s.write leafId (.leaf parent (entries.eraseP (·.1 == key)))) :=
      .write_leaf hn _
    split at hrun
    · rename_i hfew
      obtain ⟨⟨⟩, t, hrepair, hrun⟩ := bind_eq_ok.mp hrun
      cases hrun
      exact (handleLeafUnderflow_settled (G.alike A) (A.stocked F) hleaf hfew.1 hrepair).occupied
    · cases hrun
      exact (A.stocked F).occupied (A.root ▸ T.whole.root_mem)
  · cases hrun
    exact O

/-! ## Halves, mergers and siblings -/

/-- A full node is cut in halves of `minKeys` keys. -/
theorem splitInternalNode_halves {link : Nat → Nat → Int64 → BTreeM (Option Nat)}
    {r : Option Nat} (hp : p < s.numPages) (hkeys : s.numKeysOf p = btreeOrder)
    (hrun : splitInternalNode link p right key s = some (.ok r, s')) :
    ∃ promoted t, t.numKeysOf p = minKeys ∧ t.numKeysOf s.numPages = minKeys ∧
      link p s.numPages promoted t = some (.ok r, s') := by
  obtain ⟨⟨parent, first, slots⟩, t, hread, -⟩ := bind_eq_ok.mp hrun
  obtain ⟨hn, -⟩ := readInternal_inv hread
  dsimp only at hn
  have hlen : slots.length = btreeOrder := (State.numKeysOf_eq hn).symm.trans hkeys
  obtain ⟨promoted, child, lower, upper, sm, hall, hlower, -, hlink⟩ := splitInternalNode_inv hn hrun
  have hupper : lower.length + (upper.length + 1) = slots.length + 1 := by
    rw [← insertSlot_length (fun k => !decide (k < key)) (key, right) slots, hall]
    simp
  have hord : btreeOrder = 64 := rfl
  have hmin : minKeys = 32 := rfl
  refine ⟨promoted, _, ?_, ?_, hlink⟩
  · rw [State.numKeysOf_eq (State.write_nodes_self ..)]
    show lower.length = minKeys
    omega
  · have hnew : ((sm.write s.numPages (.internal 0 child upper)).write p
        (.internal parent first lower)).nodes s.numPages = some (.internal 0 child upper) := by
      rw [State.write_nodes, Function.update_of_ne hp.ne', State.write_nodes_self]
    rw [State.numKeysOf_eq hnew]
    show upper.length = minKeys
    omega

/-- A short node and a sibling with nothing to spare go into one page. -/
theorem mergeInternal_fits (hfew : s.numKeysOf p < minKeys) (hsib : s.numKeysOf sibling ≤ minKeys)
    (hrun : mergeInternal h p sibling q k root isLeft s = some (.ok (), s')) :
    ∃ t, t.numKeysOf (inOrder p sibling isLeft).1 ≤ btreeOrder ∧
      removeChildFromParent h q (inOrder p sibling isLeft).2 root t = some (.ok (), s') := by
  obtain ⟨left, right, horder⟩ : ∃ left right, inOrder p sibling isLeft = (left, right) := ⟨_, _, rfl⟩
  obtain ⟨lp, lf, ls, rp, rf, rs, sm, hl, hr, -, hremove⟩ := mergeInternal_inv horder hrun
  have hlen : ls.length + rs.length = s.numKeysOf p + s.numKeysOf sibling := by
    have hleft : s.numKeysOf left = ls.length := State.numKeysOf_eq hl
    have hright : s.numKeysOf right = rs.length := State.numKeysOf_eq hr
    rcases mem_inOrder horder with ⟨rfl, rfl⟩ | ⟨rfl, rfl⟩
    · rw [hleft, hright]
    · rw [hleft, hright, add_comm]
  have hord : minKeys + minKeys = btreeOrder := rfl
  rw [horder]
  refine ⟨_, ?_, hremove⟩
  rw [State.numKeysOf_eq (State.write_nodes_self ..)]
  show (ls ++ (k, rf) :: rs).length ≤ btreeOrder
  rw [List.length_append, List.length_cons]
  omega

/-- Where only `p` may be short, every other internal node has a key. -/
theorem OccupiedBut.keyed (O : OccupiedBut {p} s) (T : Tree 0 s s.rootPage L) : Keyed 1 s L p := by
  intro x hx hxp first slots hv
  have hlo := (O x (T.reached hx) hxp first slots hv).1
  have hmin : 1 ≤ minKeys := by decide
  split at hlo
  · exact hlo
  · exact hmin.trans hlo

theorem siblingOf_ne_zero (T : Tree 0 s s.rootPage L) (O : OccupiedBut {p} s) (hp : p ∈ L.pages)
    (hr : p ≠ s.rootPage) : siblingOf s p ≠ 0 := by
  obtain ⟨hz, -, hlevel, first, slots, hv, -⟩ := T.pages.parent_mem T.whole hp hr not_false
  have hzp : s.parentOf p ≠ p := by
    intro h
    rw [h] at hlevel
    omega
  have hkeys : s.numKeysOf (s.parentOf p) ≠ 0 := by
    have hlo := O.keyed T _ hz hzp first slots hv
    rw [State.numKeysOf_inner hv]
    omega
  obtain ⟨parent, first, l, k, right, r, sibling, isLeft, S⟩ := exists_sibling T hp hr hkeys
  rw [S.siblingOf_eq rfl]
  exact (T.pages.bounds sibling (S.mem T)).1.ne'

/-- The repair of the only short node succeeds. -/
theorem handleInternalUnderflow_short {first : Nat} (T : Tree 0 s s.rootPage L)
    (O : OccupiedBut {p} s) (hp : p ∈ L.pages) (hr : p ≠ s.rootPage)
    (hv : s.view p = some (.inner first slots)) (hfew : slots.length < minKeys) :
    ∃ s', Returns (fun fuel => handleInternalUnderflow fuel p s.rootPage) s (.ok (), s') ∧
      (slots.length + 1 = minKeys → Occupied s') := by
  have hrun := handleInternalUnderflow_run le_rfl T (O.keyed T) hp hr rfl
    (Nat.lt_succ_self (L.level s.rootPage - L.level p)) ⟨first, slots, hv, hfew⟩
  rcases hrun with ⟨s', hrun, -, -⟩ | ⟨hzero, -⟩
  · refine ⟨s', ⟨_, hrun⟩, fun hone => ?_⟩
    have hlen : (s.children p).length = minKeys := (State.children_length hv).trans hone
    have hmin : 2 ≤ minKeys ∧ minKeys ≤ btreeOrder + 1 := by decide
    have F := T.stocked O fun x hx => by
      rw [Set.mem_singleton_iff.mp hx, hlen]
      exact hmin
    exact (handleInternalUnderflow_settled T.grove F hp hr hlen hrun).occupied
  · cases hzero

/-! ## Occupancy -/

/-- The bounds on the number of keys are kept by inserts and deletes; a full node is cut in
even halves, a merger fits, and the repair of a short node finds a sibling and succeeds. -/
theorem occupancy :
    (∀ s L fuel key row s', Tree 0 s s.rootPage L → Occupied s →
      insert fuel key row s = some (.ok (), s') → s'.numPages ≤ 2 ^ 32 → Occupied s') ∧
    (∀ s L fuel key found s', Tree 0 s s.rootPage L → Occupied s →
      delete fuel key s = some (.ok found, s') → Occupied s') ∧
    (∀ link s p right key r s', p < s.numPages → s.numKeysOf p = btreeOrder →
      splitInternalNode link p right key s = some (.ok r, s') →
      ∃ promoted t, t.numKeysOf p = minKeys ∧ t.numKeysOf s.numPages = minKeys ∧
        link p s.numPages promoted t = some (.ok r, s')) ∧
    (∀ h s p sibling q k root isLeft s', s.numKeysOf p < minKeys → s.numKeysOf sibling ≤ minKeys →
      mergeInternal h p sibling q k root isLeft s = some (.ok (), s') →
      ∃ t, t.numKeysOf (inOrder p sibling isLeft).1 ≤ btreeOrder ∧
        removeChildFromParent h q (inOrder p sibling isLeft).2 root t = some (.ok (), s')) ∧
    ∀ s L p, Tree 0 s s.rootPage L → OccupiedBut {p} s → p ∈ L.pages → p ≠ s.rootPage →
      siblingOf s p ≠ 0 ∧ ∀ first slots, s.view p = some (.inner first slots) →
        slots.length < minKeys →
        ∃ s', Returns (fun fuel => handleInternalUnderflow fuel p s.rootPage) s (.ok (), s') ∧
          (slots.length + 1 = minKeys → Occupied s') := by
  refine ⟨?_, ?_, ?_, ?_, ?_⟩
  · exact fun _ _ _ _ _ _ T O hrun hcap => insert_occupied T O hrun hcap
  · exact fun _ _ _ _ _ _ T O hrun => delete_occupied T O hrun
  · exact fun _ _ _ _ _ _ _ hp hkeys hrun => splitInternalNode_halves hp hkeys hrun
  · exact fun _ _ _ _ _ _ _ _ _ hfew hsib hrun => mergeInternal_fits hfew hsib hrun
  · intro s L p T O hp hr
    refine ⟨siblingOf_ne_zero T O hp hr, fun first slots hv hfew => ?_⟩
    exact handleInternalUnderflow_short T O hp hr hv hfew

/-- What the handle reaches is in the tree, so the bounds can be read off its pages. -/
theorem OccupiedBut.of_pages (T : Tree 0 s s.rootPage L)
    (hkeys : ∀ p ∈ L.pages, p ∉ short → s.children p = [] ∨
      (if p = s.rootPage then 1 else minKeys) ≤ s.numKeysOf p ∧ s.numKeysOf p ≤ btreeOrder) :
    OccupiedBut short s := by
  intro p hp hnot first slots hv
  have hmem : p ∈ L.pages := by
    clear hnot hv
    induction hp with
    | refl => exact T.whole.root_mem
    | tail _ hc ih => exact (T.grove.links.child _ ih _ hc).1
  rcases hkeys p hmem hnot with hnone | hbounds
  · rw [State.children_eq hv] at hnone
    cases hnone
  · rwa [State.numKeysOf_inner hv] at hbounds

/-- A root over two internal nodes, the left one with a key too few. -/
def drainedTree : State where
  nodes p :=
    if p = 2 then some (.internal 0 3 [(320, 4)])
    else if p = 3 then
      some (.internal 2 5 ((List.range 31).map fun i => (Int64.ofNat (10 * (i + 1)), i + 6)))
    else if p = 4 then
      some (.internal 2 37 ((List.range 32).map fun i => (Int64.ofNat (10 * (i + 33)), i + 38)))
    else if 5 ≤ p ∧ p ≤ 69 then some (.leaf (if p ≤ 36 then 3 else 4) [])
    else none
  numPages := 70
  rootPage := 2

/-- Its layout. -/
def drainedLayout : Layout Int64 Nat where
  pages := {p | 2 ≤ p ∧ p < 70}
  level p := if p = 2 then 2 else if p ≤ 4 then 1 else 0
  lo p := if p ≤ 3 ∨ p = 5 then ⊥
    else if p = 4 then Bound.key 320 else Bound.key (Int64.ofNat (10 * (p - 5)))
  hi p := if p = 2 ∨ p = 4 ∨ p = 69 then ⊤
    else if p = 3 then Bound.key 320 else Bound.key (Int64.ofNat (10 * (p - 4)))

instance : DecidablePred (· ∈ drainedLayout.pages) := fun p =>
  inferInstanceAs (Decidable (2 ≤ p ∧ p < 70))

theorem drainedTree_tree : Tree 0 drainedTree 2 drainedLayout := by
  have hdec : ∀ p < 70, 2 ≤ p → PageOk 0 drainedTree 2 drainedLayout p := by decide +kernel
  exact Tree.of_pages ⟨le_rfl, by decide⟩ rfl rfl rfl fun p hp => hdec p hp.2 hp.1

/-- A page with `btreeOrder` keys over one leaf. -/
def fullPage : State where
  nodes p :=
    if p = 2 then some (.internal 0 3 ((List.range 64).map fun i => (Int64.ofNat i, 3)))
    else if p = 3 then some (.leaf 2 [])
    else none
  numPages := 4
  rootPage := 2

theorem occupancy_drained :
    (∃ s', insert 3 7 ⟨[.integer 1]⟩ forkedTree = some (.ok (), s') ∧ Occupied s') ∧
    (∃ s', delete 3 1 forkedTree = some (.ok true, s') ∧ Occupied s') ∧
    (∃ s' promoted t, t.numKeysOf 2 = minKeys ∧ t.numKeysOf 4 = minKeys ∧
      (fun _ _ _ => pure none : Nat → Nat → Int64 → BTreeM (Option Nat)) 2 4 promoted t =
        some (.ok none, s')) ∧
    (∃ s' t, t.numKeysOf 3 ≤ btreeOrder ∧
      removeChildFromParent (fun _ _ => pure ()) 2 4 2 t = some (.ok (), s')) ∧
    siblingOf drainedTree 3 ≠ 0 ∧
      ∃ s', Returns (fun fuel => handleInternalUnderflow fuel 3 2) drainedTree (.ok (), s') ∧
        Occupied s' := by
  have T : Tree 0 forkedTree forkedTree.rootPage forkedLayout := forkedTree_tree.weaken
  have O : Occupied forkedTree := by
    have hdec : ∀ p < 5, 2 ≤ p → forkedTree.children p = [] ∨
        (if p = forkedTree.rootPage then 1 else minKeys) ≤ forkedTree.numKeysOf p ∧
          forkedTree.numKeysOf p ≤ btreeOrder := by with_unfolding_all decide
    exact .of_pages T fun p hp _ => hdec p hp.2 hp.1
  have T' : Tree 0 drainedTree drainedTree.rootPage drainedLayout := drainedTree_tree
  have O' : OccupiedBut {3} drainedTree := by
    have hdec : ∀ p < 70, 2 ≤ p → p ≠ 3 → drainedTree.children p = [] ∨
        (if p = drainedTree.rootPage then 1 else minKeys) ≤ drainedTree.numKeysOf p ∧
          drainedTree.numKeysOf p ≤ btreeOrder := by with_unfolding_all decide
    exact .of_pages T' fun p hp hne => hdec p hp.2 hp.1 hne
  have hins : ∃ r ∈ insert 3 7 ⟨[.integer 1]⟩ forkedTree, r.1 = .ok () ∧ r.2.numPages ≤ 2 ^ 32 := by
    with_unfolding_all decide
  have hdel : ∃ r ∈ delete 3 1 forkedTree, r.1 = .ok true := by with_unfolding_all decide
  have hsplit : ∃ r ∈ splitInternalNode (fun _ _ _ => pure none) 2 3 70 fullPage, r.1 = .ok none := by
    with_unfolding_all decide
  have hmerge : ∃ r ∈ mergeInternal (fun _ _ => pure ()) 3 4 2 320 2 false drainedTree,
      r.1 = .ok () := by with_unfolding_all decide
  obtain ⟨h₁, h₂, h₃, h₄, h₅⟩ := occupancy
  refine ⟨?_, ?_, ?_, ?_, ?_⟩
  · obtain ⟨⟨r, s'⟩, hrun, hok, hcap⟩ := hins
    obtain rfl : r = .ok () := hok
    exact ⟨s', hrun, h₁ _ _ _ _ _ _ T O hrun hcap⟩
  · obtain ⟨⟨r, s'⟩, hrun, hok⟩ := hdel
    obtain rfl : r = .ok true := hok
    exact ⟨s', hrun, h₂ _ _ _ _ _ _ T O hrun⟩
  · obtain ⟨⟨r, s'⟩, hrun, hok⟩ := hsplit
    obtain rfl : r = .ok none := hok
    exact ⟨s', h₃ _ _ _ _ _ _ _ (by decide) (by with_unfolding_all decide) hrun⟩
  · obtain ⟨⟨r, s'⟩, hrun, hok⟩ := hmerge
    obtain rfl : r = .ok () := hok
    exact ⟨s', h₄ _ _ _ _ _ _ _ _ _ (by with_unfolding_all decide) (by with_unfolding_all decide) hrun⟩
  · obtain ⟨hsib, hrepair⟩ := h₅ drainedTree drainedLayout 3 T' O' (by decide) (by decide)
    obtain ⟨s', hrun, hocc⟩ := hrepair _ _ rfl (by decide)
    exact ⟨hsib, s', hrun, hocc (by decide)⟩

end VelociDB.BTree
