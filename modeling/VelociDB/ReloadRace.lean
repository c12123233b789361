/-
# A query beside a failed statement (`storage.rs`)

When a statement fails, or a transaction is rolled back, `reload_schema` builds the schema
and the B-tree handles anew:

    reset   the schema is replaced by an empty one
    clear   the handles are dropped
    then for every table in the schema pages
    handle  its B-tree handle is put back
    entry   its schema is put back

Readers hold no lock that keeps these steps away, so a query on a table that has nothing to
do with the statement can find its schema or its handle missing.  It answers as ever when
its clone and its read stay out of the two windows.
-/
import VelociDB.AlterRace

namespace VelociDB

/-- What the schema pages and the data file hold for one table. -/
structure SavedTable where
  name : String
  schema : TableSchema
  tree : RowMap

/-- Where `reload_schema` is. -/
inductive ReloadPhase where
  | idle
  | reset
  | loading (rest : List SavedTable)
  | handle (t : SavedTable) (rest : List SavedTable)

namespace ReloadPhase

/-- The schema of the table is missing: after the reset, until its entry is back. -/
def NoSchema (table : String) : ReloadPhase → Prop
  | .idle => False
  | .reset => True
  | .loading rest => table ∈ rest.map SavedTable.name
  | .handle t rest => table ∈ (t :: rest).map SavedTable.name

/-- The handle of the table is missing: after the clear, until it is back. -/
def NoHandle (table : String) : ReloadPhase → Prop
  | .idle | .reset => False
  | .loading rest => table ∈ rest.map SavedTable.name
  | .handle _ rest => table ∈ rest.map SavedTable.name

instance (table : String) : (p : ReloadPhase) → Decidable (p.NoSchema table)
  | .idle => inferInstanceAs (Decidable False)
  | .reset => inferInstanceAs (Decidable True)
  | .loading rest => inferInstanceAs (Decidable (table ∈ rest.map SavedTable.name))
  | .handle t rest => inferInstanceAs (Decidable (table ∈ (t :: rest).map SavedTable.name))

instance (table : String) : (p : ReloadPhase) → Decidable (p.NoHandle table)
  | .idle | .reset => inferInstanceAs (Decidable False)
  | .loading rest => inferInstanceAs (Decidable (table ∈ rest.map SavedTable.name))
  | .handle _ rest => inferInstanceAs (Decidable (table ∈ rest.map SavedTable.name))

end ReloadPhase

/-- A query, and statements on other tables that fail. -/
structure ReloadRace where
  db : Tables RowMap
  query : QueryPhase
  reload : ReloadPhase

namespace ReloadRace

/-- Whose turn it is.  `other` is whatever statements do to other tables; `clear` comes with
what the schema pages hold. -/
inductive Act where
  | clone
  | read
  | other (db : Tables RowMap)
  | reset
  | clear (saved : List SavedTable)
  | handle
  | entry
  | finish

/-- The steps.  `own` is the query's table, which no statement touches: it is in the schema
pages as it was, under a name of its own. -/
inductive Step (ext : Externals) (vec : VectorFns) (q : SelectQuery) (own : SavedTable) :
    ReloadRace → Act → ReloadRace → Prop
  | clone {s : ReloadRace} {ts : TableSchema} : s.query = .start → q.clone s.db = .ok ts →
      Step ext vec q own s .clone { s with query := .cloned ts }
  | cloneFails {s : ReloadRace} {e : Fault} : s.query = .start → q.clone s.db = .error e →
      Step ext vec q own s .clone { s with query := .done (.error e) }
  | read {s : ReloadRace} {ts : TableSchema} : s.query = .cloned ts →
      Step ext vec q own s .read { s with query := .done (q.read ext vec ts s.db) }
  | other {s : ReloadRace} {db : Tables RowMap} : s.reload = .idle →
      db.schema[q.table]? = s.db.schema[q.table]? → db.btrees[q.table]? = s.db.btrees[q.table]? →
      Step ext vec q own s (.other db) { s with db := db }
  | reset {s : ReloadRace} : s.reload = .idle →
      Step ext vec q own s .reset { s with db := ⟨∅, s.db.btrees⟩, reload := .reset }
  | clear {s : ReloadRace} {saved : List SavedTable} : s.reload = .reset →
      (saved.map SavedTable.name).Nodup → own ∈ saved →
      Step ext vec q own s (.clear saved) { s with db := ⟨s.db.schema, ∅⟩, reload := .loading saved }
  | handle {s : ReloadRace} {t : SavedTable} {rest : List SavedTable} :
      s.reload = .loading (t :: rest) →
      Step ext vec q own s .handle
        { s with db := ⟨s.db.schema, s.db.btrees.insert t.name t.tree⟩, reload := .handle t rest }
  | entry {s : ReloadRace} {t : SavedTable} {rest : List SavedTable} : s.reload = .handle t rest →
      Step ext vec q own s .entry
        { s with db := ⟨s.db.schema.insert t.name t.schema, s.db.btrees⟩, reload := .loading rest }
  | finish {s : ReloadRace} : s.reload = .loading [] →
      Step ext vec q own s .finish { s with reload := .idle }

/-- The clone stays out of the window without a schema, the read out of the one without a
handle. -/
def Outside (table : String) (s : ReloadRace) : Act → Prop
  | .clone => ¬ s.reload.NoSchema table
  | .read => ¬ s.reload.NoHandle table
  | _ => True

variable {ext : Externals} {vec : VectorFns} {q : SelectQuery} {own : SavedTable}
  {s s' : ReloadRace} {a : Act}

/-- Away from the windows the table is there. -/
structure Inv (ext : Externals) (vec : VectorFns) (q : SelectQuery) (own : SavedTable)
    (s : ReloadRace) : Prop where
  schema : ¬ s.reload.NoSchema q.table → s.db.schema[q.table]? = some own.schema
  btree : ¬ s.reload.NoHandle q.table → s.db.btrees[q.table]? = some own.tree
  handles : ∀ t rest, s.reload = .handle t rest → (t.name = q.table → t = own) ∧
    ∀ u ∈ rest, u.name = q.table → u = own
  entries : ∀ rest, s.reload = .loading rest → ∀ u ∈ rest, u.name = q.table → u = own
  cloned : ∀ ts, s.query = .cloned ts → ts = own.schema
  answered : ∀ r, s.query = .done r → ∀ db : Tables RowMap, db.schema[q.table]? = some own.schema →
    db.btrees[q.table]? = some own.tree → r = q.run ext vec db

theorem clone_eq {db : Tables RowMap} (h : db.schema[q.table]? = some own.schema) :
    q.clone db = .ok own.schema := getTable_ok.mpr h

theorem eq_own {saved : List SavedTable} (hnd : (saved.map SavedTable.name).Nodup) (hmem : own ∈ saved)
    (hown : own.name = q.table) : ∀ u ∈ saved, u.name = q.table → u = own := by
  intro u hu hname
  exact List.inj_on_of_nodup_map hnd hu hmem (hname.trans hown.symm)

theorem Inv.step (h : Inv ext vec q own s) (hown : own.name = q.table)
    (hok : Outside q.table s a) (hx : Step ext vec q own s a s') : Inv ext vec q own s' := by
  cases hx with
  | @clone ts hstart hclone =>
      refine ⟨h.schema, h.btree, h.handles, h.entries, fun ts' hts => ?_, fun _ hr => by cases hr⟩
      obtain rfl := QueryPhase.cloned.inj hts
      exact Except.ok.inj (hclone.symm.trans (clone_eq (h.schema hok)))
  | @cloneFails e hstart hclone =>
      rw [clone_eq (h.schema hok)] at hclone
      cases hclone
  | @read ts hcloned =>
      refine ⟨h.schema, h.btree, h.handles, h.entries, fun _ hts => (by cases hts),
        fun r hr db hs hb => ?_⟩
      obtain rfl := QueryPhase.done.inj hr
      obtain rfl := h.cloned ts hcloned
      rw [SelectQuery.run_of_clone (clone_eq hs)]
      exact SelectQuery.read_congr ((h.btree hok).trans hb.symm)
  | @other db hidle hs hb =>
      refine ⟨fun hno => ?_, fun hno => ?_, h.handles, h.entries, h.cloned, h.answered⟩
      · rw [hs]
        exact h.schema hno
      · rw [hb]
        exact h.btree hno
  | reset hidle =>
      refine ⟨fun hno => absurd trivial hno, fun _ => h.btree ?_, fun _ _ hr => (by cases hr),
        fun _ hr => (by cases hr), h.cloned, h.answered⟩
      rw [hidle]
      exact id
  | @clear saved hreset hnd hmem =>
      have hthere : q.table ∈ saved.map SavedTable.name := hown ▸ List.mem_map_of_mem hmem
      refine ⟨fun hno => absurd hthere hno, fun hno => absurd hthere hno, fun _ _ hr => (by cases hr),
        fun rest hr => ?_, h.cloned, h.answered⟩
      obtain rfl := ReloadPhase.loading.inj hr
      exact eq_own hnd hmem hown
  | @handle t rest hloading =>
      have hrest := h.entries _ hloading
      refine ⟨fun hno => h.schema ?_, fun hno => ?_, fun t' rest' hr => ?_, fun _ hr => (by cases hr),
        h.cloned, h.answered⟩
      · rw [hloading]
        exact hno
      · by_cases hname : t.name = q.table
        · obtain rfl := hrest t List.mem_cons_self hname
          rw [← hname]
          exact Std.ExtTreeMap.getElem?_insert_self
        · show (s.db.btrees.insert t.name t.tree)[q.table]? = _
          rw [Std.ExtTreeMap.getElem?_insert, if_neg (by simpa using hname)]
          refine h.btree ?_
          rw [hloading]
          intro hmem
          rcases List.mem_cons.mp hmem with heq | hmem
          · exact hname heq.symm
          · exact hno hmem
      · obtain ⟨rfl, rfl⟩ := ReloadPhase.handle.inj hr
        exact ⟨hrest t List.mem_cons_self, fun u hu => hrest u (List.mem_cons_of_mem _ hu)⟩
  | @entry t rest hhandle =>
      obtain ⟨hfirst, hrest⟩ := h.handles t rest hhandle
      refine ⟨fun hno => ?_, fun hno => h.btree ?_, fun _ _ hr => (by cases hr), fun rest' hr => ?_,
        h.cloned, h.answered⟩
      · by_cases hname : t.name = q.table
        · obtain rfl := hfirst hname
          rw [← hname]
          exact Std.ExtTreeMap.getElem?_insert_self
        · show (s.db.schema.insert t.name t.schema)[q.table]? = _
          rw [Std.ExtTreeMap.getElem?_insert, if_neg (by simpa using hname)]
          refine h.schema ?_
          rw [hhandle]
          intro hmem
          rcases List.mem_cons.mp hmem with heq | hmem
          · exact hname heq.symm
          · exact hno hmem
      · rw [hhandle]
        exact hno
      · obtain rfl := ReloadPhase.loading.inj hr
        exact hrest
  | finish hloading =>
      refine ⟨fun _ => h.schema ?_, fun _ => h.btree ?_, fun _ _ hr => (by cases hr),
        fun _ hr => (by cases hr), h.cloned, h.answered⟩
      · rw [hloading]
        exact List.not_mem_nil
      · rw [hloading]
        exact List.not_mem_nil

/-- In every interleaving in which the query's two lookups stay out of the windows, it
answers from the rows of its table. -/
theorem select_beside_reload {db₀ : Tables RowMap} {result : Except Fault QueryResult}
    (hown : own.name = q.table) (hschema : db₀.schema[q.table]? = some own.schema)
    (hbtree : db₀.btrees[q.table]? = some own.tree)
    (hs : Transition.Reaches (Step ext vec q own) (Outside q.table) ⟨db₀, .start, .idle⟩ s)
    (hdone : s.query = .done result) : result = q.run ext vec db₀ := by
  have hinit : Inv ext vec q own ⟨db₀, .start, .idle⟩ :=
    ⟨fun _ => hschema, fun _ => hbtree, fun _ _ h => (by cases h), fun _ h => (by cases h),
      fun _ h => (by cases h), fun _ h => by cases h⟩
  have hinv : Inv ext vec q own s :=
    Transition.Reaches.invariant hinit (fun _ _ _ h hok hx => h.step hown hok hx) hs
  exact hinv.answered result hdone db₀ hschema hbtree

/-- The table of `oneRow`. -/
def tableT : SavedTable := ⟨"t", ⟨"t", [⟨"id", .integer, true, true, false⟩]⟩, [(1, ⟨[.integer 1]⟩)]⟩

theorem clone_oneRow : selectAll.clone oneRow = .ok tableT.schema :=
  getTable_ok.mpr Std.ExtTreeMap.getElem?_insert_self

/-- The query clones its schema before the reset and reads once its handle is back. -/
theorem select_beside_reload_straddling : ∃ s result,
    Transition.Reaches (Step mute noVectors selectAll tableT) (Outside "t")
      ⟨oneRow, .start, .idle⟩ s ∧ s.query = .done result ∧ s.reload = .handle tableT [] ∧
      result = selectAll.run mute noVectors oneRow := by
  have hcloned : Transition.Reaches (Step mute noVectors selectAll tableT) (Outside "t")
      ⟨oneRow, .start, .idle⟩ ⟨oneRow, .cloned tableT.schema, .idle⟩ :=
    .tail (a := .clone) .refl id (.clone rfl clone_oneRow)
  have hreset := hcloned.tail (a := Act.reset) trivial (.reset rfl)
  have hclear := hreset.tail (a := Act.clear [tableT]) trivial (.clear rfl (by simp) (by simp))
  have hhandle := hclear.tail (a := Act.handle) trivial (.handle rfl)
  have hread := hhandle.tail (a := Act.read) (by simp [Outside, ReloadPhase.NoHandle]) (.read rfl)
  exact ⟨_, _, hread, rfl, rfl, select_beside_reload rfl Std.ExtTreeMap.getElem?_insert_self
    Std.ExtTreeMap.getElem?_insert_self hread rfl⟩

/-- After the reset the query does not find its table. -/
theorem not_select_beside_reload : ¬ ∀ (s : ReloadRace) (result : Except Fault QueryResult),
    Transition.Reaches (Step mute noVectors selectAll tableT) Transition.Any
      ⟨oneRow, .start, .idle⟩ s → s.query = .done result →
    result = selectAll.run mute noVectors oneRow := by
  intro hall
  have hreset : Transition.Reaches (Step mute noVectors selectAll tableT) Transition.Any
      ⟨oneRow, .start, .idle⟩ ⟨⟨∅, oneRow.btrees⟩, .start, .reset⟩ :=
    .tail (a := .reset) .refl trivial (.reset rfl)
  have hlost : selectAll.clone ⟨∅, oneRow.btrees⟩ = .error (.error (.notFound "Table 't' not found")) := by
    simp [SelectQuery.clone, getTable, selectAll]
    rfl
  have hclone := hreset.tail (a := Act.clone) trivial (.cloneFails rfl hlost)
  have heq := hall _ _ hclone rfl
  have hok : (selectAll.run mute noVectors oneRow).isOk = true := by with_unfolding_all decide
  rw [← heq] at hok
  cases hok

end ReloadRace

end VelociDB
