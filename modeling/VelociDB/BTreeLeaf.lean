/-
# Inserting into a leaf (`insert_into_leaf`)

A leaf without room is cut in the middle, by the number of its entries, and the half the
key belongs to is tried again:

    Splits key data entries k    after `k` cuts the half has room
    LeafCut                      what one cut, linked into the tree, has done
    Inserted                     what the whole insert has done

The call returns the root its first cut has made, so the handle is right exactly when no
later cut makes one (`Inserted.lost`).  Without any `k` the cuts end at a half with at most
one entry, and the next one indexes past it.
-/
import VelociDB.BTreeLink

namespace VelociDB.BTree

open SearchTree Fuelled

variable {least : Nat} {s s' : State} {root root' p parent : Nat} {L L' : Layout Int64 Nat}
  {key splitKey : Int64} {data stored : Bytes} {entries : List Entry} {k : Nat}

/-- After `k` cuts the half the key belongs to has room. -/
inductive Splits (key : Int64) (data : Bytes) : List Entry → Nat → Prop
  | fits {entries : List Entry} : dataEnd entries + entrySize data ≤ pageSize →
      Splits key data entries 0
  | halve {entries : List Entry} {splitKey : Int64} {stored : Bytes} {k : Nat} :
      pageSize < dataEnd entries + entrySize data →
      entries[splitIndex entries]? = some (splitKey, stored) →
      Splits key data (if key < splitKey then entries.take (splitIndex entries)
        else entries.drop (splitIndex entries)) k →
      Splits key data entries (k + 1)

/-! ## Entries -/

theorem dataEnd_append (es es' : List Entry) :
    dataEnd (es ++ es') = dataEnd es + (es'.map fun e => entrySize e.2).sum := by
  simp [dataEnd, add_assoc]

theorem dataEnd_take_le (es : List Entry) (n : Nat) : dataEnd (es.take n) ≤ dataEnd es := by
  have h := dataEnd_append (es.take n) (es.drop n)
  rw [List.take_append_drop] at h
  omega

theorem dataEnd_drop_le (es : List Entry) (n : Nat) : dataEnd (es.drop n) ≤ dataEnd es := by
  have h : ((es.drop n).map fun e => entrySize e.2).sum ≤ (es.map fun e => entrySize e.2).sum :=
    ((List.drop_sublist n es).map _).sum_le_sum fun _ _ => Nat.zero_le _
  exact Nat.add_le_add_left h _

theorem length_le_of_dataEnd (h : dataEnd entries ≤ pageSize) : entries.length ≤ 340 := by
  have hsum : 12 * entries.length ≤ (entries.map fun e => entrySize e.2).sum := by
    clear h
    induction entries with
    | nil => simp
    | cons e es ih =>
        have : entrySize e.2 = 12 + e.2.length := rfl
        simp only [List.map_cons, List.sum_cons, List.length_cons]
        omega
  have hsize := pageSize_eq
  have : dataEnd entries = 8 + (entries.map fun e => entrySize e.2).sum := rfl
  omega

/-- Where a cut finds its separator, both halves are shorter. -/
theorem splitIndex_bounds (h : entries[splitIndex entries]? = some (splitKey, stored)) :
    0 < splitIndex entries ∧ splitIndex entries < entries.length ∧
      splitIndex entries = entries.length / 2 := by
  obtain ⟨hlt, -⟩ := List.getElem?_eq_some_iff.mp h
  have hne : entries ≠ [] := by
    rintro rfl
    simp at hlt
  unfold splitIndex at *
  split at hlt
  · rename_i hz
    have : entries.length / 2 = 0 := hz.1
    omega
  · rename_i hz
    rw [if_neg hz]
    have : entries.length / 2 ≠ 0 := fun h => hz ⟨h, hne⟩
    omega

/-- Halving a leaf takes the logarithm of its length. -/
theorem Splits.le_log (h : Splits key data entries k) {n : Nat} (hn : entries.length ≤ 2 ^ n) :
    k ≤ n := by
  induction h generalizing n with
  | fits => exact Nat.zero_le _
  | @halve entries splitKey stored k _ hget _ ih =>
      obtain ⟨h₀, hlt, hmid⟩ := splitIndex_bounds hget
      rcases n with _ | n
      · simp at hn
        omega
      · refine Nat.succ_le_succ (ih ?_)
        rw [Nat.pow_succ] at hn
        split
        · rw [List.length_take]
          omega
        · rw [List.length_drop]
          omega

/-- A page holds so few entries that nine cuts are enough. -/
theorem Splits.le_nine (h : Splits key data entries k) (hfit : dataEnd entries ≤ pageSize) :
    k ≤ 9 :=
  h.le_log ((length_le_of_dataEnd hfit).trans (by decide))

theorem mem_insertEntry {e : Entry} :
    e ∈ insertEntry key data entries ↔ e = (key, data) ∨ e ∈ entries := by
  induction entries with
  | nil => simp [insertEntry]
  | cons e' es ih =>
      obtain ⟨k', d'⟩ := e'
      rw [insertEntry]
      split
      · simp
      · simp only [List.mem_cons, ih]
        tauto

theorem dataEnd_insertEntry :
    dataEnd (insertEntry key data entries) = dataEnd entries + entrySize data := by
  induction entries with
  | nil => simp [insertEntry, dataEnd]
  | cons e es ih =>
      obtain ⟨k', d'⟩ := e
      simp only [dataEnd] at ih
      rw [insertEntry]
      split
      · simp only [dataEnd, List.map_cons, List.sum_cons]
        omega
      · simp only [dataEnd, List.map_cons, List.sum_cons]
        omega

theorem within_insertEntry {lo hi : Bound Int64} (h : Within lo hi entries)
    (hnew : ∀ e ∈ entries, e.1 ≠ key) (hlo : lo ≤ Bound.key key) (hhi : Bound.key key < hi) :
    Within lo hi (insertEntry key data entries) := by
  refine ⟨?_, fun e he => ?_, fun e he => ?_⟩
  · have hsorted := h.sorted
    clear h hlo hhi
    induction entries with
    | nil => simp [insertEntry]
    | cons e es ih =>
        obtain ⟨k', d'⟩ := e
        obtain ⟨hhead, htail⟩ := List.pairwise_cons.mp hsorted
        rw [insertEntry]
        split
        · rename_i hlt
          refine List.pairwise_cons.mpr ⟨fun e he => ?_, hsorted⟩
          rcases List.mem_cons.mp he with rfl | he
          · exact hlt
          · exact hlt.trans (hhead e he)
        · rename_i hge
          refine List.pairwise_cons.mpr ⟨fun e he => ?_, ih (fun e he => hnew e (by simp [he])) htail⟩
          rcases mem_insertEntry.mp he with rfl | he
          · exact lt_of_le_of_ne (not_lt.mp hge) (hnew (k', d') (by simp))
          · exact hhead e he
  · rcases mem_insertEntry.mp he with rfl | he
    · exact hlo
    · exact h.lo_le e he
  · rcases mem_insertEntry.mp he with rfl | he
    · exact hhi
    · exact h.lt_hi e he

/-- The two halves of a leaf lie on either side of the separator. -/
theorem within_halves {lo hi : Bound Int64} (h : Within lo hi entries)
    (hget : entries[splitIndex entries]? = some (splitKey, stored)) :
    Within lo (Bound.key splitKey) (entries.take (splitIndex entries)) ∧
      Within (Bound.key splitKey) hi (entries.drop (splitIndex entries)) ∧
      lo < Bound.key splitKey ∧ Bound.key splitKey < hi := by
  obtain ⟨h₀, hlt, -⟩ := splitIndex_bounds hget
  obtain ⟨_, hval⟩ := List.getElem?_eq_some_iff.mp hget
  have hdrop : entries.drop (splitIndex entries) =
      (splitKey, stored) :: entries.drop (splitIndex entries + 1) := by
    rw [List.drop_eq_getElem_cons hlt, hval]
  have hne : entries.take (splitIndex entries) ≠ [] := by
    rw [ne_eq, List.take_eq_nil_iff, not_or]
    exact ⟨h₀.ne', fun h => by simp [h] at hlt⟩
  rw [hdrop]
  exact Within.cut (by rwa [← hdrop, List.take_append_drop]) hne

/-! ## Cutting a leaf -/

/-- The state `split_leaf_node` leaves. -/
def State.withHalves (s : State) (p parent : Nat) (entries : List Entry) : State :=
  ((s.write s.numPages .zero).write p (.leaf parent (entries.take (splitIndex entries)))).write
    s.numPages (.leaf 0 (entries.drop (splitIndex entries)))

theorem splitLeafNode_run (hn : s.nodes p = some (.leaf parent entries))
    (hget : entries[splitIndex entries]? = some (splitKey, stored)) :
    splitLeafNode p s = some (.ok (s.numPages, splitKey), s.withHalves p parent entries) := by
  rw [splitLeafNode, bind_ok (readLeaf_run hn)]
  simp only [hget]
  rw [bind_ok (allocatePage_run s), bind_ok (writeNode_run _ _ _), bind_ok (writeNode_run _ _ _)]
  rfl

/-- Indexing past the end. -/
theorem splitLeafNode_panics (hn : s.nodes p = some (.leaf parent entries))
    (hget : entries[splitIndex entries]? = none) :
    splitLeafNode p s = some (.error (.fault .panic), s) := by
  rw [splitLeafNode, bind_ok (readLeaf_run hn)]
  simp only [hget]
  rfl

namespace LeafOf

variable (T : Tree least s root L) (H : LeafOf s L key p parent entries)
  (hget : entries[splitIndex entries]? = some (splitKey, stored))
include T H

theorem view_withHalves : (s.withHalves p parent entries).view =
    Function.update (Function.update s.view p (some (.leaf (entries.take (splitIndex entries)))))
      s.numPages (some (.leaf (entries.drop (splitIndex entries)))) := by
  have hne := T.pages.ne_new H.mem
  simp [State.withHalves, Node.view, Function.update_comm hne]

theorem view_other {x : Nat} (hx : x ∈ L.pages) (hxp : x ≠ p) :
    (s.withHalves p parent entries).view x = s.view x := by
  rw [H.view_withHalves T, Function.update_of_ne (T.pages.ne_new hx), Function.update_of_ne hxp]

theorem parentOf_withHalves {x : Nat} (hx : x ∈ L.pages) :
    (s.withHalves p parent entries).parentOf x = s.parentOf x := by
  rw [State.withHalves, State.parentOf_write, State.parentOf_write, State.parentOf_write,
    if_neg (T.pages.ne_new hx), if_neg (T.pages.ne_new hx)]
  split
  · rename_i h
    subst h
    exact (State.parentOf_eq H.node_eq).symm
  · rfl

theorem numPages_withHalves : (s.withHalves p parent entries).numPages = s.numPages + 1 := by
  have := (T.pages.bounds p H.mem).2
  simp only [State.withHalves, State.write_numPages]
  omega

include hget

theorem hanging : Hanging (s.withHalves p parent entries).view root (L.cut p s.numPages splitKey)
    L.hi p s.numPages splitKey := by
  obtain ⟨hlevel, hW⟩ := H.within T
  obtain ⟨h₁, h₂, hlo, hhi⟩ := within_halves hW hget
  rw [H.view_withHalves T]
  exact Whole.cut T.whole H.mem (fun h => T.pages.ne_new h rfl) hlo hhi H.view_eq ⟨hlevel, h₁⟩
    ⟨hlevel, h₂⟩ fun c hc => by simp [View.children] at hc

omit hget in
theorem pages_withHalves : Pages least (s.withHalves p parent entries) root
    (L.cut p s.numPages splitKey) := by
  have G := T.pages
  have F := T.whole
  have hview := H.view_withHalves T
  have hfit := H.fits T
  constructor
  case root_parent =>
    rw [H.parentOf_withHalves T F.root_mem]
    exact G.root_parent
  case parent_eq =>
    rintro x (hx | rfl) v hv c hc
    · rcases eq_or_ne x p with rfl | hxp
      · rw [hview, Function.update_of_ne (G.ne_new hx), Function.update_self] at hv
        cases hv
        simp [View.children] at hc
      · rw [H.view_other T hx hxp] at hv
        rw [H.parentOf_withHalves T ((Forest.suits_of F hx hv).child hc).1]
        exact G.parent_eq x hx v hv c hc
    · rw [hview, Function.update_self] at hv
      cases hv
      simp [View.children] at hc
  case bounds =>
    rw [H.numPages_withHalves T]
    rintro x (hx | rfl)
    · have := G.bounds x hx
      omega
    · have := G.bounds p H.mem
      omega
  case fits =>
    rintro x (hx | rfl) v hv
    · rcases eq_or_ne x p with rfl | hxp
      · rw [hview, Function.update_of_ne (G.ne_new hx), Function.update_self] at hv
        cases hv
        exact (dataEnd_take_le _ _).trans hfit
      · exact G.fits x hx v (H.view_other T hx hxp ▸ hv)
    · rw [hview, Function.update_self] at hv
      cases hv
      exact (dataEnd_drop_le _ _).trans hfit

omit hget in
theorem holds_withHalves {m : Int64} (e : Entry) :
    (L.cut p s.numPages m).Holds (s.withHalves p parent entries).view e ↔ L.Holds s.view e := by
  have hview := H.view_withHalves T
  have hne := T.pages.ne_new H.mem
  constructor
  · rintro ⟨x, hx | rfl, es, hv, he⟩
    · rcases eq_or_ne x p with rfl | hxp
      · rw [hview, Function.update_of_ne hne, Function.update_self] at hv
        cases hv
        exact ⟨x, hx, entries, H.view_eq, List.mem_of_mem_take he⟩
      · exact ⟨x, hx, es, H.view_other T hx hxp ▸ hv, he⟩
    · rw [hview, Function.update_self] at hv
      cases hv
      exact ⟨p, H.mem, entries, H.view_eq, List.mem_of_mem_drop he⟩
  · rintro ⟨x, hx, es, hv, he⟩
    rcases eq_or_ne x p with rfl | hxp
    · rw [H.view_eq] at hv
      cases hv
      rw [← List.take_append_drop (splitIndex entries) entries, List.mem_append] at he
      rcases he with he | he
      · exact ⟨x, .inl hx, _, by rw [hview, Function.update_of_ne hne, Function.update_self], he⟩
      · exact ⟨s.numPages, .inr rfl, _, by rw [hview, Function.update_self], he⟩
    · exact ⟨x, .inl hx, es, by rw [H.view_other T hx hxp]; exact hv, he⟩

end LeafOf

/-- What one cut of a leaf has done, linked into the tree: `p'` is the half to go on with. -/
structure LeafCut (least : Nat) (s s' : State) (root root' : Nat) (L L' : Layout Int64 Nat)
    (key : Int64) (p p' parent' : Nat) (half : List Entry) (newRoot : Option Nat) : Prop where
  tree : Tree least s' root' L'
  leaf : LeafOf s' L' key p' parent' half
  holds_iff : ∀ e, L'.Holds s'.view e ↔ L.Holds s.view e
  pages_sub : ∀ x ∈ L.pages, x ∈ L'.pages
  root_eq : newRoot.getD root = root'
  fresh : ∀ r, newRoot = some r → s.numPages ≤ r
  made : newRoot = none ↔ ¬ Full s p
  ahead : ∀ k ≤ minKeys, Grows s' p' k ↔ Lost s p (k + 1)
  rootPage_eq : s'.rootPage = s.rootPage
  numPages_le : s.numPages ≤ s'.numPages
  numPages_lt : s'.numPages ≤ s.numPages + L.level root + 2
  level_le : L'.level root' ≤ L.level root + 1

/-- A leaf without room is cut, and the insert goes on in one half. -/
theorem LeafOf.cut (H : LeafOf s L key p parent entries) (T : Tree least s root L)
    (hleast : least ≤ 1) (hfull : pageSize < dataEnd entries + entrySize data)
    (hget : entries[splitIndex entries]? = some (splitKey, stored)) (fuel : Nat)
    (hfuel : L.level root < fuel) (hcap : s.numPages + L.level root + 2 ≤ 2 ^ 32) :
    ∃ newRoot s' root' L' p' parent',
      insertIntoLeaf (fuel + 1) p key data s =
        (insertIntoLeaf fuel p' key data >>= fun _ => pure newRoot) s' ∧
      LeafCut least s s' root root' L L' key p p' parent'
        (if key < splitKey then entries.take (splitIndex entries)
          else entries.drop (splitIndex entries)) newRoot := by
  have hlevel := (H.within T).1
  have hcutlevel : ∀ x ∈ L.pages, (L.cut p s.numPages splitKey).level x = L.level x :=
    fun x hx => by simp [Layout.cut, T.pages.ne_new hx]
  have hnum := H.numPages_withHalves T
  have hroot := hcutlevel root T.whole.root_mem
  have hleft := hcutlevel p H.mem
  have hright : (L.cut p s.numPages splitKey).level s.numPages = L.level p := by
    simp [Layout.cut]
  obtain ⟨newRoot, s', root', L', hrun, K⟩ := insertIntoParent_run hleast fuel (H.hanging T hget)
    (H.pages_withHalves T) (by rw [hroot, hleft]; omega) (by rw [hroot, hleft]; omega)
  -- nothing above the leaf has changed before the link
  have hview : ∀ x ∈ L.pages, L.level p < L.level x →
      (s.withHalves p parent entries).view x = s.view x := fun x hx hlt =>
    H.view_other T hx fun h => by
      rw [h] at hlt
      omega
  have hparent : ∀ x ∈ L.pages, L.level p ≤ L.level x →
      (s.withHalves p parent entries).parentOf x = s.parentOf x := fun x hx _ =>
    H.parentOf_withHalves T hx
  have hfullp := full_congr T.pages T.whole (fun _ _ _ => not_false) hparent hview H.mem
  have hlostp := fun k => lost_congr T.pages T.whole (fun _ _ _ => not_false) hparent hview H.mem
    (k := k)
  have hrange := fun x hx hle => K.above.range_eq x hx hle
  obtain ⟨hloL, hhiL⟩ := hrange p (.inl H.mem) le_rfl
  obtain ⟨hloR, hhiR⟩ := hrange s.numPages (.inr rfl) (by omega)
  have hne := T.pages.ne_new H.mem
  -- the half the key belongs to
  have hleaf : ∃ parent', LeafOf s' L' key (if key < splitKey then p else s.numPages) parent'
      (if key < splitKey then entries.take (splitIndex entries)
        else entries.drop (splitIndex entries)) := by
    by_cases hk : key < splitKey
    · rw [if_pos hk, if_pos hk]
      have hv : s'.view p = some (.leaf (entries.take (splitIndex entries))) := by
        rw [K.above.view_eq p (.inl H.mem) le_rfl, H.view_withHalves T,
          Function.update_of_ne hne, Function.update_self]
      obtain ⟨parent', hn⟩ := State.view_eq_leaf.mp hv
      refine ⟨parent', K.above.pages_sub p (.inl H.mem), hn, ?_, ?_⟩
      · rw [hloL]
        simpa [Layout.cut, hne] using H.lo_le
      · rw [hhiL]
        simpa [Layout.cut] using hk
    · rw [if_neg hk, if_neg hk]
      have hv : s'.view s.numPages = some (.leaf (entries.drop (splitIndex entries))) := by
        rw [K.above.view_eq s.numPages (.inr rfl) (by omega), H.view_withHalves T,
          Function.update_self]
      obtain ⟨parent', hn⟩ := State.view_eq_leaf.mp hv
      refine ⟨parent', K.above.pages_sub _ (.inr rfl), hn, ?_, ?_⟩
      · rw [hloR]
        simpa [Layout.cut] using hk
      · rw [hhiR]
        simpa [Layout.cut, hne.symm] using H.lt_hi
  obtain ⟨parent', hleaf⟩ := hleaf
  refine ⟨newRoot, s', root', L', if key < splitKey then p else s.numPages, parent', ?_, ?_⟩
  · rw [insertIntoLeaf, bind_ok (readLeaf_run H.node_eq)]
    dsimp only
    rw [bind_ok (findDataEnd_run (H.fits T)), if_pos hfull,
      bind_ok (splitLeafNode_run H.node_eq hget)]
    dsimp only
    rw [bind_ok hrun]
  · constructor
    case tree => exact K.tree
    case leaf => exact hleaf
    case holds_iff =>
      intro e
      rw [K.above.holds_iff K.tree (H.hanging T hget).forest, H.holds_withHalves T]
    case pages_sub => exact fun x hx => K.above.pages_sub x (.inl hx)
    case root_eq => exact K.root_eq
    case fresh =>
      intro r hr
      have := K.fresh r hr
      omega
    case made => rw [K.made, hfullp]
    case ahead =>
      intro k hk
      rw [K.ahead _ (by split <;> simp) k hk, hlostp]
    case rootPage_eq => exact K.above.rootPage_eq
    case numPages_le =>
      have := K.above.numPages_le
      omega
    case numPages_lt =>
      have := K.above.numPages_lt
      rw [hroot, hleft] at this
      omega
    case level_le =>
      have := K.above.level_le
      omega

/-! ## The whole insert -/

/-- What an insert into a leaf has done after `k` cuts. -/
structure Inserted (least : Nat) (s s' : State) (root root' : Nat) (L L' : Layout Int64 Nat)
    (entry : Entry) (p k : Nat) (newRoot : Option Nat) : Prop where
  tree : Tree least s' root' L'
  holds_iff : ∀ e, L'.Holds s'.view e ↔ e = entry ∨ L.Holds s.view e
  pages_sub : ∀ x ∈ L.pages, x ∈ L'.pages
  root_mem : newRoot.getD root ∈ L'.pages
  fresh : root' = root ∨ s.numPages ≤ root'
  grows : root' = root ↔ ¬ Grows s p k
  lost : newRoot.getD root = root' ↔ ¬ Lost s p k
  rootPage_eq : s'.rootPage = s.rootPage
  numPages_le : s.numPages ≤ s'.numPages

/-- The leaf with the new entry. -/
theorem LeafOf.write (H : LeafOf s L key p parent entries) (T : Tree least s root L)
    (hnew : ∀ e ∈ entries, e.1 ≠ key) (hfit : dataEnd entries + entrySize data ≤ pageSize) :
    Inserted least s (s.write p (.leaf parent (insertEntry key data entries))) root root L L
      (key, data) p 0 none := by
  have hW := (H.within T).2
  have hnone : ¬ Lost s p 0 := fun h => by
    have := h.2.1
    have := h.2.2.1
    omega
  constructor
  case tree =>
    exact H.tree_write T (within_insertEntry hW hnew H.lo_le H.lt_hi)
      (dataEnd_insertEntry.trans_le hfit)
  case holds_iff =>
    intro e
    rw [H.holds_write T, mem_insertEntry]
    by_cases he : e ∈ entries
    · have : L.Holds s.view e := ⟨p, H.mem, entries, H.view_eq, he⟩
      tauto
    · tauto
  case pages_sub => exact fun x hx => hx
  case root_mem => exact T.whole.root_mem
  case fresh => exact .inl rfl
  case grows => exact ⟨fun _ h => h.elim (fun h => absurd h.1 (lt_irrefl 0)) hnone, fun _ => rfl⟩
  case lost => exact ⟨fun _ => hnone, fun _ => rfl⟩
  case rootPage_eq => rfl
  case numPages_le => exact (H.numPages_write T).ge

/-- One cut, then the rest of the insert. -/
theorem LeafCut.inserted {s₁ : State} {root₁ p' parent' : Nat} {L₁ : Layout Int64 Nat}
    {half : List Entry} {newRoot newRoot' : Option Nat} {entry : Entry}
    (C : LeafCut least s s₁ root root₁ L L₁ key p p' parent' half newRoot)
    (T : Tree least s root L) (hk : k ≤ minKeys)
    (I : Inserted least s₁ s' root₁ root' L₁ L' entry p' k newRoot') :
    Inserted least s s' root root' L L' entry p (k + 1) newRoot := by
  have hroot := (T.pages.bounds root T.whole.root_mem).2
  have hle := C.numPages_le
  have hlost : root' = root₁ ↔ ¬ Lost s p (k + 1) := by rw [I.grows, C.ahead k hk]
  constructor
  case tree => exact I.tree
  case holds_iff =>
    intro e
    rw [I.holds_iff, C.holds_iff]
  case pages_sub => exact fun x hx => I.pages_sub x (C.pages_sub x hx)
  case root_mem =>
    rw [C.root_eq]
    exact I.pages_sub _ C.tree.whole.root_mem
  case fresh =>
    rcases I.fresh with h | h
    · rcases hn : newRoot with _ | r
      · have := C.root_eq
        rw [hn] at this
        exact .inl (h.trans this.symm)
      · have := C.root_eq
        rw [hn] at this
        have := C.fresh r hn
        exact .inr (by simp_all)
    · exact .inr (hle.trans h)
  case grows =>
    by_cases hf : Full s p
    · -- the first cut made a root, and whatever the root is now, it is a new page
      obtain ⟨r, hn⟩ : ∃ r, newRoot = some r :=
        Option.ne_none_iff_exists'.mp fun h => C.made.mp h hf
      have hr := C.fresh r hn
      have hroot₁ : root₁ = r := by
        rw [← C.root_eq, hn]
        rfl
      refine ⟨fun h => ?_, fun h => absurd (.inl ⟨Nat.succ_pos k, hf⟩) h⟩
      rcases I.fresh with h' | h' <;> omega
    · have hn := C.made.mpr hf
      have hroot₁ : root₁ = root := by
        rw [← C.root_eq, hn]
        rfl
      rw [← hroot₁, hlost, Grows]
      tauto
  case lost =>
    rw [C.root_eq, ← hlost]
    exact eq_comm
  case rootPage_eq => exact I.rootPage_eq.trans C.rootPage_eq
  case numPages_le => exact hle.trans I.numPages_le

/-- An insert that finds room after `k` cuts. -/
theorem insertIntoLeaf_run (hleast : least ≤ 1) (hs : Splits key data entries k)
    (H : LeafOf s L key p parent entries) (T : Tree least s root L)
    (hnew : ∀ e ∈ entries, e.1 ≠ key) (hk : k ≤ minKeys) {fuel : Nat}
    (hfuel : L.level root + 2 * k < fuel)
    (hcap : s.numPages + k * (L.level root + k + 2) ≤ 2 ^ 32) :
    ∃ newRoot s' root' L', insertIntoLeaf fuel p key data s = some (.ok newRoot, s') ∧
      Inserted least s s' root root' L L' (key, data) p k newRoot := by
  induction hs generalizing s L root p parent fuel with
  | @fits entries hfit =>
      obtain ⟨fuel, rfl⟩ := Nat.exists_eq_succ_of_ne_zero (by omega : fuel ≠ 0)
      refine ⟨_, _, _, _, ?_, H.write T hnew hfit⟩
      rw [insertIntoLeaf, bind_ok (readLeaf_run H.node_eq)]
      dsimp only
      rw [bind_ok (findDataEnd_run (H.fits T)), if_neg hfit.not_gt]
      rfl
  | @halve entries splitKey stored k hfull hget _ ih =>
      obtain ⟨fuel, rfl⟩ := Nat.exists_eq_succ_of_ne_zero (by omega : fuel ≠ 0)
      rw [Nat.succ_mul] at hcap
      have hmore : k * (L.level root + 1 + k + 2) = k * (L.level root + (k + 1) + 2) := by
        congr 1
        omega
      obtain ⟨newRoot, s₁, root₁, L₁, p', parent', hrun, C⟩ :=
        H.cut T hleast hfull hget fuel (by omega) (by omega)
      have hnew' : ∀ e ∈ (if key < splitKey then entries.take (splitIndex entries)
          else entries.drop (splitIndex entries)), e.1 ≠ key := by
        intro e he
        split at he
        · exact hnew e (List.mem_of_mem_take he)
        · exact hnew e (List.mem_of_mem_drop he)
      have hlevel := C.level_le
      have hnum := C.numPages_lt
      have hmul : k * (L₁.level root₁ + k + 2) ≤ k * (L.level root + 1 + k + 2) :=
        Nat.mul_le_mul_left k (by omega)
      obtain ⟨newRoot', s', root', L', hrun', I⟩ := ih C.leaf C.tree hnew' (by omega)
        (show L₁.level root₁ + 2 * k < fuel by omega) (by omega)
      refine ⟨newRoot, s', root', L', ?_, C.inserted T (by omega) I⟩
      rw [hrun, bind_ok hrun']
      rfl

/-- An insert that never finds room panics. -/
theorem insertIntoLeaf_panics (hleast : least ≤ 1) {n : Nat} (hlen : entries.length ≤ 2 ^ n)
    (hno : ∀ k, ¬ Splits key data entries k) (H : LeafOf s L key p parent entries)
    (T : Tree least s root L) {fuel : Nat} (hfuel : L.level root + 2 * n < fuel)
    (hcap : s.numPages + n * (L.level root + n + 2) ≤ 2 ^ 32) :
    ∃ s', insertIntoLeaf fuel p key data s = some (.error (.fault .panic), s') := by
  induction n generalizing s L root p parent entries fuel with
  | zero =>
      obtain ⟨fuel, rfl⟩ := Nat.exists_eq_succ_of_ne_zero (by omega : fuel ≠ 0)
      have hfull : pageSize < dataEnd entries + entrySize data := by
        by_contra hfit
        exact hno 0 (.fits (not_lt.mp hfit))
      have hget : entries[splitIndex entries]? = none := by
        rcases hg : entries[splitIndex entries]? with _ | ⟨splitKey, stored⟩
        · rfl
        · obtain ⟨h₀, hlt, -⟩ := splitIndex_bounds hg
          simp at hlen
          omega
      refine ⟨s, ?_⟩
      rw [insertIntoLeaf, bind_ok (readLeaf_run H.node_eq)]
      dsimp only
      rw [bind_ok (findDataEnd_run (H.fits T)), if_pos hfull,
        bind_error (splitLeafNode_panics H.node_eq hget)]
  | succ n ih =>
      obtain ⟨fuel, rfl⟩ := Nat.exists_eq_succ_of_ne_zero (by omega : fuel ≠ 0)
      have hfull : pageSize < dataEnd entries + entrySize data := by
        by_contra hfit
        exact hno 0 (.fits (not_lt.mp hfit))
      rcases hget : entries[splitIndex entries]? with _ | ⟨splitKey, stored⟩
      · refine ⟨s, ?_⟩
        rw [insertIntoLeaf, bind_ok (readLeaf_run H.node_eq)]
        dsimp only
        rw [bind_ok (findDataEnd_run (H.fits T)), if_pos hfull,
          bind_error (splitLeafNode_panics H.node_eq hget)]
      · rw [Nat.succ_mul] at hcap
        have hmore : n * (L.level root + 1 + n + 2) = n * (L.level root + (n + 1) + 2) := by
          congr 1
          omega
        obtain ⟨newRoot, s₁, root₁, L₁, p', parent', hrun, C⟩ :=
          H.cut T hleast hfull hget fuel (by omega) (by omega)
        obtain ⟨h₀, hlt, hmid⟩ := splitIndex_bounds hget
        have hhalf : (if key < splitKey then entries.take (splitIndex entries)
            else entries.drop (splitIndex entries)).length ≤ 2 ^ n := by
          rw [Nat.pow_succ] at hlen
          split
          · rw [List.length_take]
            omega
          · rw [List.length_drop]
            omega
        have hlevel := C.level_le
        have hnum := C.numPages_lt
        have hmul : n * (L₁.level root₁ + n + 2) ≤ n * (L.level root + 1 + n + 2) :=
          Nat.mul_le_mul_left n (by omega)
        obtain ⟨s', hrun'⟩ := ih hhalf (fun k h => hno (k + 1) (.halve hfull hget h)) C.leaf C.tree
          (show L₁.level root₁ + 2 * n < fuel by omega) (by omega)
        exact ⟨s', by rw [hrun, bind_error hrun']⟩

end VelociDB.BTree
