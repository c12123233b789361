/-
# Reading a tree from its pages (`search`, `scan`)

Over pages that show a tree, `search` finds the row of a key and `scan` lists all rows by
increasing keys: the path a key is routed on ends in the leaf whose range it is in, and the
scan visits the leaves in the order of their ranges (`inorder`).  Both hold as far as the
rows of the tree can be decoded.
-/
import VelociDB.BTreeFollow
import VelociDB.BTreeInsert
import VelociDB.Lib.Listing

namespace VelociDB.BTree.Pages

open Bytes SchemaCodec Fuelled SearchTree

variable {f : File} {p o least root : Nat} {page : Page} {header : NodeHeader} {key : Int64}
  {data bytes rest : Bytes} {entries : List Entry} {slots : List Slot} {L : Layout Int64 Nat}
  {rows : Bytes → Row} {pages : List Page}

/-! ## Rows -/

/-- A row that was written is read back. -/
theorem readRow (row : Row) (hcount : row.values.length < 2 ^ 32)
    (hfits : ∀ v ∈ row.values, Fits32 v) : deserializeRow (serializeRow row) = .ok row.stored := by
  obtain ⟨hlen, h⟩ := readLe_at (at_zero (serializeRow row)) (by simpa using hcount)
  have h' : At (serializeRow row) (0 + 4) (row.values.flatMap serializeValue ++ []) := by
    rw [List.append_nil]
    exact h
  rw [deserializeRow, hlen, ok_bind_fault, deserializeValues_at hfits h']
  rfl

theorem fits32_of_size {v : Value} (h : sizeBytes v < 2 ^ 32) : Fits32 v := by
  cases v with
  | null | integer | float | real => trivial
  | text s => exact Nat.lt_of_le_of_lt (Nat.le_add_left _ 5) h
  | blob b => exact Nat.lt_of_le_of_lt (Nat.le_add_left _ 5) h
  | vector v =>
      have hlen : 5 + v.length * 4 < 2 ^ 32 := h
      show v.length < 2 ^ 32
      omega

/-- A row in a page can be read back. -/
theorem readRow_of_size (row : Row) (h : (serializeRow row).length ≤ pageSize) :
    deserializeRow (serializeRow row) = .ok row.stored := by
  have hpage := pageSize_eq
  rw [length_serializeRow] at h
  have hone : ∀ v : Value, 1 ≤ sizeBytes v := by
    intro v
    cases v <;> simp only [sizeBytes] <;> omega
  have hcount : row.values.length ≤ (row.values.map sizeBytes).sum := by
    have hsum := List.card_nsmul_le_sum (row.values.map sizeBytes) 1 (by
      intro n hn
      obtain ⟨v, -, rfl⟩ := List.mem_map.mp hn
      exact hone v)
    simpa using hsum
  refine readRow row (by omega) fun v hv => fits32_of_size ?_
  have hle : sizeBytes v ≤ (row.values.map sizeBytes).sum :=
    List.le_sum_of_mem (List.mem_map.mpr ⟨v, hv, rfl⟩)
  omega

/-! ## Loops -/

/-- A row with its key. -/
def rowOf (rows : Bytes → Row) (e : Entry) : Int64 × Row := (e.1, rows e.2)

theorem scanEntries_at (h : At bytes o (entries.flatMap encodeEntry ++ rest))
    (hsize : ∀ e ∈ entries, e.2.length < 2 ^ 32)
    (hrows : ∀ e ∈ entries, deserializeRow e.2 = .ok (rows e.2)) (results : List (Int64 × Row)) :
    scanEntries bytes entries.length o results = .ok (results ++ entries.map (rowOf rows)) := by
  induction entries generalizing o results with
  | nil => simp [scanEntries]
  | cons e entries ih =>
      rw [List.flatMap_cons, List.append_assoc] at h
      obtain ⟨hkey, hlen, hslice, h'⟩ := readEntry_at h (hsize e List.mem_cons_self)
      rw [List.length_cons, scanEntries, hkey, ok_bind_fault, hlen, ok_bind_fault, hslice,
        ok_bind_fault, hrows e List.mem_cons_self, ok_bind_fault,
        ih h' (fun e he => hsize e (List.mem_cons_of_mem _ he))
          (fun e he => hrows e (List.mem_cons_of_mem _ he)),
        List.append_assoc]
      rfl

/-- The children of the slots, one after the other. -/
theorem scanChildren_at {visit : Nat → List (Int64 × Row) → PagesM (List (Int64 × Row))}
    {list : Nat → List (Int64 × Row)} (h : At bytes o (slots.flatMap encodeSlot ++ rest))
    (hslots : ∀ s ∈ slots, s.2 < 2 ^ 64)
    (hvisit : ∀ c ∈ slots.map (·.2), ∀ results,
      visit c results pages = some (.ok (results ++ list c), pages))
    (results : List (Int64 × Row)) : scanChildren visit bytes slots.length o results pages =
      some (.ok (results ++ (slots.map (·.2)).flatMap list), pages) := by
  induction slots generalizing o results with
  | nil => simp [scanChildren]
  | cons slot slots ih =>
      rw [List.flatMap_cons, List.append_assoc] at h
      obtain ⟨-, hchild, h'⟩ := readSlot_at h (hslots slot List.mem_cons_self)
      have hvisit' := hvisit slot.2 List.mem_cons_self results
      rw [List.length_cons, scanChildren, check_ok hchild, Fuelled.bind_ok hvisit',
        ih h' (fun s hs => hslots s (List.mem_cons_of_mem _ hs))
          (fun c hc => hvisit c (List.mem_cons_of_mem _ hc)),
        List.map_cons, List.flatMap_cons, List.append_assoc]

theorem lookupLoop_found (h : At bytes o (entries.flatMap encodeEntry ++ rest))
    (hsize : ∀ e ∈ entries, e.2.length < 2 ^ 32)
    (hsorted : entries.Pairwise fun a b => a.1 < b.1) (hmem : (key, data) ∈ entries) {row : Row}
    (hrow : deserializeRow data = .ok row) :
    lookupLoop bytes key entries.length o = .ok (some row) := by
  induction entries generalizing o with
  | nil => cases hmem
  | cons e entries ih =>
      obtain ⟨storedKey, stored⟩ := e
      rw [List.flatMap_cons, List.append_assoc] at h
      obtain ⟨hkey, hlen, hslice, h'⟩ := readEntry_at h (hsize _ List.mem_cons_self)
      obtain ⟨hfirst, hsorted'⟩ := List.pairwise_cons.mp hsorted
      rw [List.length_cons, lookupLoop, hkey, ok_bind_fault, hlen, ok_bind_fault]
      rcases List.mem_cons.mp hmem with heq | hmem'
      · obtain ⟨rfl, rfl⟩ := Prod.mk.inj heq
        rw [if_pos rfl, hslice, ok_bind_fault, hrow]
        rfl
      · have hne : storedKey ≠ key := (hfirst _ hmem').ne
        rw [if_neg hne]
        exact ih h' (fun e he => hsize e (List.mem_cons_of_mem _ he)) hsorted' hmem'

theorem lookupLoop_absent (h : At bytes o (entries.flatMap encodeEntry ++ rest))
    (hsize : ∀ e ∈ entries, e.2.length < 2 ^ 32) (habsent : ∀ e ∈ entries, e.1 ≠ key) :
    lookupLoop bytes key entries.length o = .ok none := by
  induction entries generalizing o with
  | nil => rfl
  | cons e entries ih =>
      rw [List.flatMap_cons, List.append_assoc] at h
      obtain ⟨hkey, hlen, -, h'⟩ := readEntry_at h (hsize e List.mem_cons_self)
      rw [List.length_cons, lookupLoop, hkey, ok_bind_fault, hlen, ok_bind_fault,
        if_neg (habsent e List.mem_cons_self)]
      exact ih h' (fun e he => hsize e (List.mem_cons_of_mem _ he))
        fun e he => habsent e (List.mem_cons_of_mem _ he)

/-! ## The tree the pages show -/

/-- The pages of a tree are leaves and inner nodes. -/
theorem exists_image (T : Tree least f.state root L) (hp : p ∈ L.pages) :
    ∃ page node, f.pages[p]? = some page ∧ Image page node ∧ f.state.view p = some node.view := by
  rcases hn : f.state.nodes p with _ | node
  · refine absurd ?_ (BTree.Pages.view_ne_none T.whole hp)
    rw [State.view, hn]
    rfl
  · obtain ⟨page, hpage, himg⟩ := File.exists_page hn
    refine ⟨page, node, hpage, himg, ?_⟩
    rw [State.view, hn]
    rfl

/-- `find_leaf` ends in the leaf whose range the key is in. -/
theorem findLeaf_tree (T : Tree least f.state root L) {fuel : Nat} (hp : p ∈ L.pages)
    (hlo : L.lo p ≤ Bound.key key) (hhi : Bound.key key < L.hi p) (hfuel : L.level p < fuel) :
    ∃ leafId parent entries, findLeaf fuel p key f.pages = some (.ok leafId, f.pages) ∧
      LeafOf f.state L key leafId parent entries := by
  induction fuel generalizing p with
  | zero => exact absurd hfuel (Nat.not_lt_zero _)
  | succ fuel ih =>
      obtain ⟨page, node, hpage, himg, hview⟩ := exists_image T hp
      have hS := Forest.suits_of T.whole hp hview
      rw [findLeaf, Fuelled.bind_ok (readPage_some hpage)]
      cases himg with
      | @leaf parent entries hlaid =>
          refine ⟨p, parent, entries, ?_, hp, ?_, hlo, hhi⟩
          · rw [check_ok hlaid.deserialize, if_pos rfl]
            rfl
          · rw [File.nodes_eq hpage]
            exact nodeOf_eq_some.mpr (.leaf hlaid)
      | @internal tag parent first slots htag hfirst hslots hlaid =>
          obtain ⟨junk, hat⟩ := hlaid.at_body
          rw [length_leBytes] at hat
          obtain ⟨hmem, hle, hlt⟩ := route_covers hS.2 hlo hhi
          obtain ⟨hchild, hlevel⟩ := hS.1 _ hmem
          rw [check_ok hlaid.deserialize, if_neg htag, check_ok (hlaid.readFirst hfirst),
            check_ok (routeLoop_at hat hslots)]
          exact ih hchild hle hlt (by omega)

/-- `scan_node` lists what is below the page. -/
theorem scanNode_tree (T : Tree least f.state root L)
    (hrows : ∀ e, L.Holds f.state.view e → deserializeRow e.2 = .ok (rows e.2)) {fuel : Nat}
    (hp : p ∈ L.pages) (hfuel : L.level p < fuel) (results : List (Int64 × Row)) :
    scanNode fuel p results f.pages =
      some (.ok (results ++ (inorder f.state.view fuel p).map (rowOf rows)), f.pages) := by
  induction fuel generalizing p results with
  | zero => exact absurd hfuel (Nat.not_lt_zero _)
  | succ fuel ih =>
      obtain ⟨page, node, hpage, himg, hview⟩ := exists_image T hp
      have hS := Forest.suits_of T.whole hp hview
      rw [scanNode, Fuelled.bind_ok (readPage_some hpage), inorder, hview]
      cases himg with
      | @leaf parent entries hlaid =>
          obtain ⟨junk, hat⟩ := hlaid.at_start
          have hdec : ∀ e ∈ entries, deserializeRow e.2 = .ok (rows e.2) := fun e he =>
            hrows e ⟨p, hp, entries, hview, he⟩
          rw [check_ok hlaid.deserialize, if_pos rfl, check,
            scanEntries_at hat hlaid.sizes hdec]
          rfl
      | @internal tag parent first slots htag hfirst hslots hlaid =>
          obtain ⟨junk, hat⟩ := hlaid.at_body
          rw [length_leBytes] at hat
          have hvisit : ∀ c ∈ first :: slots.map (·.2), ∀ results,
              scanNode fuel c results f.pages =
                some (.ok (results ++ (inorder f.state.view fuel c).map (rowOf rows)), f.pages) := by
            intro c hc results
            obtain ⟨hmem, hlevel⟩ := hS.1 c hc
            exact ih hmem (by omega) results
          rw [check_ok hlaid.deserialize, if_neg htag, check_ok (hlaid.readFirst hfirst),
            Fuelled.bind_ok (hvisit first List.mem_cons_self results),
            scanChildren_at hat hslots fun c hc => hvisit c (List.mem_cons_of_mem _ hc)]
          simp only [Node.view, List.flatMap_cons, List.map_append, List.map_flatMap,
            List.append_assoc]

/-! ## The calls -/

section Calls

variable (T : Tree least f.state f.rootPage L) {fuel : Nat} (hfuel : L.level f.rootPage < fuel)
include T hfuel

/-- `search` looks through the leaf of the key. -/
theorem search_leaf_of (key : Int64) : ∃ page leafId parent entries,
    LeafOf f.state L key leafId parent entries ∧
      Laid page ⟨1, entries.length, parent⟩ (entries.flatMap encodeEntry) ∧
      search fuel f.rootPage key f.pages =
        some (lookupLoop page.data key entries.length headerSize, f.pages) := by
  have hlo : L.lo f.rootPage ≤ Bound.key key := by rw [T.whole.root_lo]; exact bot_le
  have hhi : Bound.key key < L.hi f.rootPage := by rw [T.whole.root_hi]; exact key_lt_top
  obtain ⟨leafId, parent, entries, hfind, H⟩ := findLeaf_tree T T.whole.root_mem hlo hhi hfuel
  obtain ⟨page, hpage, himg⟩ := File.exists_page H.node_eq
  cases himg with
  | leaf hlaid =>
      refine ⟨page, leafId, parent, entries, H, hlaid, ?_⟩
      rw [search, Fuelled.bind_ok hfind, Fuelled.bind_ok (readPage_some hpage),
        check_ok hlaid.deserialize]
      rfl

/-- The row of a key. -/
theorem search_holds {row : Row} (h : L.Holds f.state.view (key, data))
    (hrow : deserializeRow data = .ok row) :
    search fuel f.rootPage key f.pages = some (.ok (some row), f.pages) := by
  obtain ⟨page, leafId, parent, entries, H, hlaid, hsearch⟩ := search_leaf_of T hfuel key
  obtain ⟨junk, hat⟩ := hlaid.at_start
  rw [hsearch, lookupLoop_found hat hlaid.sizes (H.within T).2.sorted ((H.holds_iff T).mp h) hrow]

/-- A key that is not there. -/
theorem search_lacks (h : ∀ data, ¬ L.Holds f.state.view (key, data)) :
    search fuel f.rootPage key f.pages = some (.ok none, f.pages) := by
  obtain ⟨page, leafId, parent, entries, H, hlaid, hsearch⟩ := search_leaf_of T hfuel key
  obtain ⟨junk, hat⟩ := hlaid.at_start
  have habsent : ∀ e ∈ entries, e.1 ≠ key := by
    rintro ⟨k, v⟩ he rfl
    exact h v ((H.holds_iff T).mpr he)
  rw [hsearch, lookupLoop_absent hat hlaid.sizes habsent]

/-- All rows, by increasing keys. -/
theorem scan_lists (hrows : ∀ e, L.Holds f.state.view e → deserializeRow e.2 = .ok (rows e.2)) :
    ∃ es, Lists L f.state.view ⊥ ⊤ es ∧
      scan fuel f.rootPage f.pages = some (.ok (es.map (rowOf rows)), f.pages) := by
  refine ⟨_, Whole.lists_root T.whole hfuel, ?_⟩
  rw [scan, scanNode_tree T hrows T.whole.root_mem hfuel, List.nil_append]

end Calls

end VelociDB.BTree.Pages
