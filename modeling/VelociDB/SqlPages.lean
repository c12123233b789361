/-
# Statements over the bytes of the pages

The executor run with the B-trees of one file: each of its calls on a tree is answered by the
procedures on the pages (`BTreeBytes`), through the handle with that number.  A handle keeps
its number when its root moves.

    Answers      one call, sound where it is made (`SoundCall`)
    Shown        the trees hold the maps of a `TreeFile`
    Statements   statements that end well, one after the other

Each answer is the one the maps give (`Answers.perform`), so that a statement does to the
tables what it does on lists of rows (`sim_executeStatement`).
-/
import VelociDB.BTreeFile
import VelociDB.TreeSim
import VelociDB.PrimaryKey

namespace VelociDB.BTree.Pages

open Fuelled Multimap SearchTree

/-- A call on a tree, sound where it is made. -/
inductive Answers : (op : TreeCall) → Trees → op.Ans → Trees → Prop
  | create {t t' : Trees} : Step t .create t' → Answers .create t t.roots.length t'
  | search {t : Trees} {i root : Nat} {key : Int64} {found : Option Row} :
      t.roots[i]? = some root →
      Returns (fun fuel => search fuel root key) t.pages (.ok found, t.pages) →
      Answers (.search i key) t found t
  | scan {t : Trees} {i root : Nat} {rows : List (Int64 × Row)} : t.roots[i]? = some root →
      Returns (fun fuel => scan fuel root) t.pages (.ok rows, t.pages) →
      Answers (.scan i) t rows t
  | insert {t t' : Trees} {i : Nat} {key : Int64} {row : Row} :
      SoundCall t (.insert i key row) → Step t (.insert i key row) t' →
      Answers (.insert i key row) t i t'
  | delete {t : Trees} {f : File} {i root : Nat} {key : Int64} {b : Bool} :
      SoundCall t (.delete i key) → t.roots[i]? = some root →
      Returns (fun fuel => delete fuel key) (t.file root) (.ok b, f) →
      Answers (.delete i key) t (b, i) ⟨f.pages, t.roots.set i f.rootPage⟩

/-- The calls of a statement. -/
inductive PagesStep : (c : FileCall) → Trees → Except Fault c.Ans → Trees → Prop
  | tree {op : TreeCall} {t t' : Trees} {a : op.Ans} : Answers op t a t' →
      PagesStep (.tree op) t (.ok a) t'

/-- The trees hold the maps. -/
structure Shown (f : TreeFile) (t : Trees) : Prop where
  free : f.free = t.roots.length
  rows : ∃ m L, Separate t m L ∧ ∀ i, i < t.roots.length →
    Ascending (f.trees i) ∧ ∀ key, Multimap.search (f.trees i) key = m.stored i key

variable {t t' : Trees} {m : Contents} {L : Nat → Layout Int64 Nat} {f : TreeFile}
  {es : RowMap} {i root : Nat} {key : Int64} {row : Row} {db db' : Tables Nat} {ext : Externals}

/-! ## What is read -/

theorem search_growing (p : Nat) (key : Int64) : Growing fun fuel => search fuel p key :=
  fun fuel => (findLeaf_growing p key fuel).bind fun _ => .refl _

theorem scan_growing (p : Nat) : Growing fun fuel => scan fuel p :=
  fun fuel => scanNode_growing fuel p []

/-- Two ascending lists with the same pairs are the same list. -/
theorem ascending_unique {es' : RowMap} (h : Ascending es)
    (h' : es'.Pairwise fun a b => a.1 < b.1) (hmem : ∀ e, e ∈ es' ↔ e ∈ es) : es' = es := by
  have hirrefl : Std.Irrefl fun a b : Int64 × Row => a.1 < b.1 := ⟨fun a => lt_irrefl a.1⟩
  exact h'.eq_of_mem_iff (List.pairwise_map.mp h) hmem

theorem mem_iff_search (h : Ascending es) : (key, row) ∈ es ↔ Multimap.search es key = some row :=
  ⟨search_eq_some_of_mem h.nodup, mem_of_search⟩

/-! ## What is written -/

theorem Step.length_create (h : Step t .create t') : t'.roots.length = t.roots.length + 1 := by
  cases h with
  | create => exact List.length_append

/-- Only a create adds a handle. -/
theorem Step.length_eq {c : Call} (h : Step t c t') (hc : c ≠ .create) :
    t'.roots.length = t.roots.length := by
  cases h with
  | create => exact absurd rfl hc
  | insert => exact List.length_set
  | delete => exact List.length_set

/-- The maps after a sound call. -/
theorem Shown.step {c : Call} {f' : TreeFile} (S : Separate t m L) (hs : SoundCall t c)
    (hstep : Step t c t') (hfree : f'.free = t'.roots.length)
    (hrows : ∀ j, j < t'.roots.length → Ascending (f'.trees j) ∧
      ∀ key, Multimap.search (f'.trees j) key = (m.after t.roots.length c).stored j key) :
    Shown f' t' := by
  obtain ⟨t'', L', hstep', S'⟩ := S.call hs
  obtain rfl := step_unique hstep hstep'
  exact ⟨hfree, _, L', S', hrows⟩

/-- The map of one handle has changed. -/
theorem Shown.set {c : Call} {n : Int64 → Option Row} (hshown : Shown f t) (S : Separate t m L)
    (hrows : ∀ j, j < t.roots.length →
      Ascending (f.trees j) ∧ ∀ key, Multimap.search (f.trees j) key = m.stored j key)
    (hs : SoundCall t c) (hstep : Step t c t') (hc : c ≠ .create)
    (hafter : m.after t.roots.length c = Function.update m i n) (hasc : Ascending es)
    (hes : ∀ key, Multimap.search es key = (n key).map Row.stored) : Shown (f.set i es) t' := by
  have hlen : t'.roots.length = t.roots.length := hstep.length_eq hc
  refine .step S hs hstep (hshown.free.trans hlen.symm) fun j hj => ?_
  rw [hlen] at hj
  rw [hafter]
  by_cases hji : j = i
  · subst hji
    have htree : (f.set j es).trees j = es := Function.update_self ..
    rw [htree]
    refine ⟨hasc, fun key => ?_⟩
    rw [hes, Contents.stored, Function.update_self]
  · have htree : (f.set i es).trees j = f.trees j := Function.update_of_ne hji _ _
    rw [htree]
    refine ⟨(hrows j hj).1, fun key => ?_⟩
    rw [(hrows j hj).2, Contents.stored, Contents.stored, Function.update_of_ne hji]

/-- A sound call is answered as the maps answer it. -/
theorem Answers.perform {op : TreeCall} {a : op.Ans} (h : Answers op t a t') (hshown : Shown f t) :
    (op.perform f).1 = a ∧ Shown (op.perform f).2 t' := by
  obtain ⟨m, L, S, hrows⟩ := hshown.rows
  cases h with
  | create hstep =>
      have hlen := hstep.length_create
      have hsound : SoundCall t .create := trivial
      refine ⟨hshown.free, .step S hsound hstep ?_ fun j hj => ?_⟩
      · show f.free + 1 = _
        rw [hshown.free, hlen]
      · show Ascending (Function.update f.trees f.free [] j) ∧ ∀ key,
          Multimap.search (Function.update f.trees f.free [] j) key =
            ((Function.update m t.roots.length fun _ => none) j key).map Row.stored
        rw [hshown.free]
        by_cases hj' : j = t.roots.length
        · subst hj'
          rw [Function.update_self, Function.update_self]
          exact ⟨List.Pairwise.nil, fun key => rfl⟩
        · rw [Function.update_of_ne hj', Function.update_of_ne hj']
          exact hrows j (by omega)
  | search hi hret =>
      obtain ⟨hasc, hsearch⟩ := hrows _ (lt_of_root hi)
      have heq := (search_growing _ _).unique hret (S.search hi _)
      refine ⟨?_, hshown⟩
      rw [Except.ok.inj (Prod.mk.inj heq).1]
      exact hsearch _
  | scan hi hret =>
      obtain ⟨hasc, hsearch⟩ := hrows _ (lt_of_root hi)
      obtain ⟨rows, hret', hsorted, hmem⟩ := S.scan hi
      have heq := (scan_growing _).unique hret hret'
      refine ⟨?_, hshown⟩
      rw [Except.ok.inj (Prod.mk.inj heq).1]
      refine (ascending_unique hasc hsorted fun ⟨key, row⟩ => ?_).symm
      rw [hmem, mem_iff_search hasc, hsearch]
  | @insert t t' i key row hs hstep =>
      obtain ⟨root, hi, -⟩ := id hs
      obtain ⟨hasc, hsearch⟩ := hrows i (lt_of_root hi)
      refine ⟨rfl, hshown.set S hrows hs hstep nofun rfl hasc.replace fun k => ?_⟩
      by_cases hk : k = key
      · subst hk
        rw [search_replace_self hasc.nodup, Function.update_self]
        rfl
      · rw [search_replace_of_ne hk, Function.update_of_ne hk, hsearch]
        rfl
  | @delete t f' i root key b hs hi hret =>
      obtain ⟨hasc, hsearch⟩ := hrows i (lt_of_root hi)
      have hanswer := S.delete_answer hs hi hret
      refine ⟨Prod.ext ?_ rfl, hshown.set S hrows hs (.delete hi hret) nofun rfl hasc.delete fun k => ?_⟩
      · have hkey : key ∈ keys (f.trees i) ↔ m i key ≠ none := by
          rw [← not_iff_not, ← search_eq_none, hsearch, Contents.stored, Option.map_eq_none_iff,
            not_not]
        show decide (key ∈ keys (f.trees i)) = b
        rw [Bool.eq_iff_iff, decide_eq_true_iff, hkey, hanswer]
      · by_cases hk : k = key
        · subst hk
          rw [search_delete_self hasc.nodup, Function.update_self]
          rfl
        · rw [search_delete_of_ne hk, Function.update_of_ne hk, hsearch]
          rfl

/-! ## Statements -/

/-- A file with the maps of the trees, outside any group. -/
def Mirrors (t : Trees) (s : FileStore) : Prop := ∃ f, s = ⟨f, none, none⟩ ∧ Shown f t

/-- What ends on the pages ends so on the maps. -/
theorem exec_maps {α : Type} {p : FileProg α} {o : Except Fault α}
    (h : Prog.Exec PagesStep p t o t') (hshown : Shown f t) :
    ∃ f', Prog.Exec FileStore.Faulty p ⟨f, none, none⟩ o ⟨f', none, none⟩ ∧ Shown f' t' := by
  have hstep : ∀ c t r t' s, Mirrors t s → PagesStep c t r t' →
      ∃ s', FileStore.Faulty c s r s' ∧ Mirrors t' s' := by
    rintro c t r t' _ ⟨f, rfl, hshown⟩ hstep
    cases hstep with
    | @tree op _ _ a ha =>
        obtain ⟨rfl, hshown'⟩ := ha.perform hshown
        exact ⟨_, .done (.tree op) ⟨f, none, none⟩, _, rfl, hshown'⟩
  have hmirrors : Mirrors t ⟨f, none, none⟩ := ⟨f, rfl, hshown⟩
  obtain ⟨s, hx, f', rfl, hshown'⟩ := h.follows hstep hmirrors
  exact ⟨f', hx, hshown'⟩

/-- A statement that ends well on the pages ends well on the maps, with the tables the pages
show and the same changes. -/
theorem statement_maps {stmt : Statement} {changes : List StagedChange}
    (h : Prog.Exec PagesStep (executeStatement ext treeCalls db stmt) t (.ok (db', changes)) t')
    (hshown : Shown f t) (hown : f.Owns db) : ∃ f', Shown f' t' ∧ f'.Owns db' ∧
      executeStatement ext maps (f.view db) stmt = .ok (f'.view db', changes) := by
  obtain ⟨f', hx, hshown'⟩ := exec_maps h hshown
  have hown' : (FileStore.mk f none none).view.Owns db := hown
  obtain ⟨-, -, v, hv, V⟩ := Prog.wp_exec hx (sim_executeStatement hown' stmt)
  refine ⟨f', hshown', V.owns, ?_⟩
  obtain ⟨tables, more⟩ := v
  obtain rfl : tables = f'.view db' := V.view
  obtain rfl : more = changes := V.changes
  exact hv

/-- Statements that end well, from a database without tables, and the changes they stage. -/
inductive SqlRun (ext : Externals) (pages : List Page) :
    List Statement → Trees → Tables Nat → List StagedChange → Prop
  | start : SqlRun ext pages [] ⟨pages, []⟩ .empty []
  | statement {stmts : List Statement} {t t' : Trees} {db db' : Tables Nat} {stmt : Statement}
      {changes more : List StagedChange} : SqlRun ext pages stmts t db changes →
      Prog.Exec PagesStep (executeStatement ext treeCalls db stmt) t (.ok (db', more)) t' →
      SqlRun ext pages (stmts ++ [stmt]) t' db' (changes ++ more)

/-- One more statement on the maps. -/
def mapsStatement (ext : Externals) (r : Tables RowMap × List StagedChange) (stmt : Statement) :
    Except Fault (Tables RowMap × List StagedChange) := do
  let (tables, more) ← executeStatement ext maps r.1 stmt
  return (tables, r.2 ++ more)

/-- The same statements on the maps. -/
def mapsRun (ext : Externals) (stmts : List Statement) :
    Except Fault (Tables RowMap × List StagedChange) :=
  stmts.foldlM (mapsStatement ext) (.empty, [])

theorem SqlRun.maps {pages : List Page} {stmts : List Statement} {changes : List StagedChange}
    (h : 0 < pages.length) (hrun : SqlRun ext pages stmts t db changes) :
    ∃ f, Shown f t ∧ f.Owns db ∧ mapsRun ext stmts = .ok (f.view db, changes) := by
  induction hrun with
  | start =>
      refine ⟨⟨fun _ => [], 0, .empty⟩, ⟨rfl, _, _, separate_empty h fun _ _ => none, nofun⟩,
        ⟨nofun, nofun⟩, ?_⟩
      have hview : TreeFile.view ⟨fun _ => [], 0, .empty⟩ .empty = .empty :=
        congrArg (Tables.mk ∅) (Std.ExtTreeMap.ext_getElem? fun name => by simp [Tables.empty])
      rw [hview]
      rfl
  | @statement stmts t t' db db' stmt changes more _ hx ih =>
      obtain ⟨f, hshown, hown, hmaps⟩ := ih
      obtain ⟨f', hshown', hown', hstmt⟩ := statement_maps hx hshown hown
      refine ⟨f', hshown', hown', ?_⟩
      rw [mapsRun, List.foldlM_append, ← mapsRun, hmaps]
      show List.foldlM (mapsStatement ext) (f.view db, changes) [stmt] = _
      rw [List.foldlM_cons, mapsStatement, hstmt]
      rfl

/-- Whatever statements ran over the pages of the file, the tables are those of a run on lists
of rows, with the same changes staged, and the trees of the handles are the rows. -/
theorem statements_on_pages {pages : List Page} {stmts : List Statement}
    {changes : List StagedChange} (h : 0 < pages.length)
    (hrun : SqlRun ext pages stmts t db changes) :
    ∃ tables, mapsRun ext stmts = .ok (tables, changes) ∧ tables.schema = db.schema ∧
      (∀ name : String, tables.btrees[name]? = none ↔ db.btrees[name]? = none) ∧
      ∀ (name : String) (i : Nat) (rows : RowMap), db.btrees[name]? = some i → tables.btrees[name]? = some rows →
        ∃ root, t.roots[i]? = some root ∧
          Returns (fun fuel => scan fuel root) t.pages (.ok rows, t.pages) ∧
          ∀ key, Returns (fun fuel => search fuel root key) t.pages
            (.ok (Multimap.search rows key), t.pages) := by
  obtain ⟨f, hshown, hown, hmaps⟩ := hrun.maps h
  obtain ⟨m, L, S, hrows⟩ := hshown.rows
  refine ⟨_, hmaps, rfl, fun name => ?_, fun name i rows hname hview => ?_⟩
  · rw [TreeFile.view_btrees, Option.map_eq_none_iff]
  · rw [TreeFile.view_btrees, hname] at hview
    obtain rfl : f.trees i = rows := Option.some.inj hview
    have hi : i < t.roots.length := hshown.free ▸ hown.used name i hname
    obtain ⟨hasc, hsearch⟩ := hrows i hi
    obtain ⟨root, hroot⟩ : ∃ root, t.roots[i]? = some root := ⟨_, List.getElem?_eq_getElem hi⟩
    refine ⟨root, hroot, ?_, fun key => ?_⟩
    · obtain ⟨rows, hret, hsorted, hmem⟩ := S.scan hroot
      rwa [ascending_unique hasc hsorted fun ⟨key, row⟩ => by
        rw [hmem, mem_iff_search hasc, hsearch]] at hret
    · rw [hsearch]
      exact S.search hroot key

/-- The tables after `CREATE TABLE t (id INTEGER PRIMARY KEY)`. -/
def keyedTables : Tables Nat :=
  ⟨(∅ : Std.ExtTreeMap String TableSchema).insert "t" ⟨"t", [⟨"id", .integer, true, true, false⟩]⟩,
    (∅ : Std.ExtTreeMap String Nat).insert "t" 0⟩

theorem exec_createKeyed {t t' : Trees} (h : Step t .create t') (hlen : t.roots.length = 0) :
    Prog.Exec PagesStep (executeStatement mute treeCalls .empty createKeyed) t
      (.ok (keyedTables, [])) t' := by
  have hans : Answers .create t 0 t' := hlen ▸ .create h
  with_unfolding_all exact .call (.tree hans) (.ret _ _)

theorem exec_insertKey {t t' : Trees} {root : Nat} (hi : t.roots[0]? = some root)
    (hfree : Returns (fun fuel => search fuel root 2) t.pages (.ok none, t.pages))
    (hs : SoundCall t (.insert 0 2 ⟨[.integer 2]⟩)) (hstep : Step t (.insert 0 2 ⟨[.integer 2]⟩) t') :
    Prog.Exec PagesStep (executeStatement mute treeCalls keyedTables (insertKey 2)) t
      (.ok (⟨keyedTables.schema, keyedTables.btrees.insert "t" 0⟩,
        [⟨"t", .insert, 2, none, some ⟨[.integer 2]⟩⟩])) t' := by
  with_unfolding_all exact .call (.tree (.search hi hfree)) (.call (.tree (.insert hs hstep))
    (.ret _ _))

/-- A table is made and takes a row. -/
theorem exists_sqlRun : ∃ t db changes,
    SqlRun mute [Page.new] [createKeyed, insertKey 2] t db changes := by
  obtain ⟨f, hnew, hroot, hnum, hleaf⟩ := exists_firstTree
  have hcreate : Step ⟨[Page.new], []⟩ .create ⟨f.pages, [] ++ [f.rootPage]⟩ := .create hnew
  have hrun : Run ⟨[Page.new], []⟩ nothing ⟨f.pages, [] ++ [f.rootPage]⟩ (nothing.after 0 .create) :=
    .call .start trivial hcreate
  have hsound : SoundCall ⟨f.pages, [f.rootPage]⟩ (.insert 0 2 ⟨[.integer 2]⟩) := by
    refine sound_firstInsert hnum hroot hleaf ?_
    rw [pageSize_eq]
    decide
  obtain ⟨L, S⟩ := hrun.separate (separate_empty (by decide) _)
  obtain ⟨t', -, hinsert, -⟩ := S.call hsound
  have hroots : ([] ++ [f.rootPage])[0]? = some f.rootPage := rfl
  exact ⟨t', _, _, .statement (.statement .start (exec_createKeyed hcreate rfl))
    (exec_insertKey hroots (S.search hroots 2) hsound hinsert)⟩

theorem statements_on_pages_inserted : ∃ t db changes tables,
    SqlRun mute [Page.new] [createKeyed, insertKey 2] t db changes ∧
      mapsRun mute [createKeyed, insertKey 2] = .ok (tables, changes) := by
  obtain ⟨t, db, changes, hrun⟩ := exists_sqlRun
  obtain ⟨tables, hmaps, -⟩ := statements_on_pages (by decide) hrun
  exact ⟨t, db, changes, tables, hrun, hmaps⟩

end VelociDB.BTree.Pages
