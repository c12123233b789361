/-
# Rows are as wide as their table

Rows and schema are changed one after the other, in two places:

    ALTER TABLE ADD     every row gets a NULL, then the schema its column
    ALTER TABLE DROP    every row loses a value, then the schema its column
    INSERT, UPDATE      rows are filled and changed at the width of the schema
    a failure           the file goes back, then the schema is loaded from it

`Rowed` is what the map of a table keeps; `TreeSys.Inv` ties it to the schema that is saved
and to the copies the group and the savepoint hold.  On rows of that width no index is out
of range.
-/
import VelociDB.InsertRow
import VelociDB.TreeSim
import VelociDB.Unique

namespace VelociDB

open Multimap FileStore Transition

variable {ext : Externals} {ts : TableSchema} {es : RowMap} {ok : Tables RowMap → Statement → Prop}

/-! ## What the map of a table keeps -/

theorem Keeps.and {put : Put} {P Q : TableSchema → RowMap → Prop} (hP : Keeps ext put ok P)
    (hQ : Keeps ext put ok Q) : Keeps ext put ok fun ts es => P ts es ∧ Q ts es where
  create hok := ⟨hP.create hok, hQ.create hok⟩
  renameTable name h := ⟨hP.renameTable name h.1, hQ.renameTable name h.2⟩
  renameColumn i h hno := ⟨hP.renameColumn i h.1 hno, hQ.renameColumn i h.2 hno⟩
  addColumn hok h hno := ⟨hP.addColumn hok h.1 hno, hQ.addColumn hok h.2 hno⟩
  dropColumn h hno := ⟨hP.dropColumn h.1 hno, hQ.dropColumn h.2 hno⟩
  insert hok h hi := ⟨hP.insert hok h.1 hi, hQ.insert hok h.2 hi⟩
  update hok h hu := ⟨hP.update hok h.1 hu, hQ.update hok h.2 hu⟩
  delete h hs := ⟨hP.delete h.1 hs, hQ.delete h.2 hs⟩

theorem ascending_rewriteAll (f : Row → Row) : ∀ {rest : List (Int64 × Row)} {es : RowMap},
    Ascending es → Ascending (rewriteAll replace f es rest)
  | [], _, h => h
  | e :: rest, es, h => by
      have hstep : Ascending (replace (delete es e.1) e.1 (f e.2).stored) := h.delete.replace
      exact (ascending_rewriteAll f hstep :)

theorem ascending_replaceAll : ∀ {us : List RowUpdate} {es : RowMap},
    Ascending es → Ascending (replaceAll replace es us)
  | [], _, h => h
  | u :: us, es, h => by
      have hstep : Ascending (replace (delete es u.key) u.newKey u.updated.stored) :=
        h.delete.replace
      exact (ascending_replaceAll hstep :)

theorem keeps_ascending : Keeps ext replace ok fun _ es => Ascending es where
  create _ := List.Pairwise.nil
  renameTable _ h := h
  renameColumn _ h _ := h
  addColumn _ h _ := ascending_rewriteAll _ h
  dropColumn h _ := ascending_rewriteAll _ h
  insert _ h _ := h.replace
  update _ h _ := ascending_replaceAll h
  delete h hs := h.sublist hs

/-- Ascending keys, and rows as wide as the table and as they are read back. -/
def Rowed (ts : TableSchema) (es : RowMap) : Prop :=
  (Ascending es ∧ ∀ e ∈ es, Fits (fun _ _ => True) ts e.2) ∧ ∀ e ∈ es, e.2.stored = e.2

theorem keeps_rowed (ext : Externals) (ok : Tables RowMap → Statement → Prop) :
    Keeps ext replace ok Rowed :=
  (keeps_fits lawful_replace fitRule_any keeps_ascending fun h => h.nodup).and
    (keeps_stored lawful_replace)

theorem Rowed.width (h : Rowed ts es) : ∀ e ∈ es, e.2.values.length = ts.columns.length :=
  fun e he => (h.1.2 e he).length_eq.symm

/-! ## No index out of range -/

section Safety

variable {db : Tables RowMap} {table : String}

theorem safe_getTree : Safe (getTree db table : Except Fault RowMap) := by
  unfold getTree
  split
  · exact safe_ok _
  · exact safe_error _

theorem safe_ofResult {α : Type} {x : Except Fault α} (h : Safe x) :
    Safe (ofResult x : Except Fault α) := by
  cases x with
  | ok a => exact safe_ok a
  | error e => exact h

theorem safe_createTable (schema : Std.ExtTreeMap String TableSchema) (ts : TableSchema) :
    Safe (createTable schema ts : Except Fault _) :=
  (safe_errIf _ _).bind fun _ _ => safe_ok _

theorem safe_mapError {α : Type} (x : Except VelociError α) : Safe (x.mapError Fault.error) := by
  cases x with
  | ok a => exact safe_ok a
  | error e => exact safe_error e

theorem safe_filterRows (clause : Option WhereClause)
    (h : ∀ e ∈ es, e.2.values.length = ts.columns.length) :
    Safe (filterRows ext ts clause es) := by
  cases clause with
  | none => exact safe_ok _
  | some w =>
      rw [filterRows, keepMatching_eq h]
      exact safe_ok _

theorem safe_rows (clause : Option WhereClause) (h : Rowed ts es)
    {candidates : List (Int64 × Row)}
    (hc : candidateRows maps es clause ts = .ok candidates) :
    Safe (ofResult (filterRows ext ts clause candidates) : Except Fault _) := by
  have hsub : candidates.Sublist es := candidateRows_sublist hc
  exact safe_ofResult (safe_filterRows clause fun e he => h.width e (hsub.subset he))

theorem safe_candidateRows (clause : Option WhereClause) :
    Safe (candidateRows maps es clause ts) := by
  unfold candidateRows
  dsimp only
  split
  · exact safe_ok _
  · exact safe_ok _

theorem safe_checkUnique (rows : List Row) : ∀ cols : List Nat,
    Safe (checkUnique ext ts rows cols : Except Fault Unit)
  | [] => safe_ok ()
  | i :: cols => by
      rw [checkUnique]
      cases adjacentDuplicate ext _ with
      | none => exact safe_checkUnique rows cols
      | some v => exact safe_error _

/-- The assignments index a row at the positions of columns. -/
theorem safe_applyAssignments {pkIndex : Nat} :
    ∀ {assignments : List (String × Value)} {key : Int64} {b : Bool} {row : Row},
      row.values.length = ts.columns.length →
      Safe (applyAssignments ext ts pkIndex key b row assignments)
  | [], _, _, _, _ => safe_ok _
  | (name, value) :: rest, key, b, row, hw => by
      rw [applyAssignments]
      split
      · exact safe_applyAssignments hw
      · rename_i i hi
        refine (safe_errIf _ _).bind fun _ _ => ?_
        rw [index_of_lt (hw ▸ position_lt hi)]
        refine (safe_ok _).bind fun _ _ => ?_
        have hset : (row.values.set i value).length = ts.columns.length := by
          rw [List.length_set, hw]
        split
        · exact (safe_mapError _).bind fun _ _ => safe_applyAssignments hset
        · exact safe_applyAssignments hset

theorem safe_computeUpdates {pkIndex : Nat} {assignments : List (String × Value)} :
    ∀ {rows : List (Int64 × Row)}, (∀ e ∈ rows, e.2.values.length = ts.columns.length) →
      Safe (computeUpdates ext maps table ts es pkIndex assignments rows)
  | [], _ => safe_ok _
  | (key, row) :: rest, h => by
      have hrow : Safe (applyAssignments ext ts pkIndex key false row assignments) :=
        safe_applyAssignments (h _ List.mem_cons_self)
      refine (safe_ofResult hrow).bind fun r _ => ?_
      obtain ⟨newKey, assigned, updated⟩ := r
      have hkey : Safe (checkNewKey maps table es key newKey assigned) := by
        unfold checkNewKey
        split
        · exact (safe_ok _).bind fun _ _ => safe_errIf _ _
        · exact safe_ok ()
      refine hkey.bind fun _ _ => ?_
      exact (safe_computeUpdates fun e he => h e (List.mem_cons_of_mem _ he)).bind fun _ _ =>
        safe_ok _

theorem safe_rewriteRows (f : Row → Row) (es : RowMap) (rows : List (Int64 × Row)) :
    Safe (rewriteRows maps f es rows) := by
  rw [rewriteRows_eq]
  exact safe_ok _

theorem safe_executeAlterTable (action : AlterAction) :
    Safe (executeAlterTable maps table action db) := by
  cases action with
  | renameTable newName =>
      refine (safe_errIf _ _).bind fun _ _ => (safe_getTable _ _).bind fun ts _ => ?_
      refine (safe_createTable _ _).bind fun _ _ => ?_
      cases db.btrees[table]? with
      | none => exact safe_ok _
      | some tree => exact safe_ok _
  | renameColumn oldName newName =>
      refine (safe_getTable _ _).bind fun ts _ => (safe_errIf _ _).bind fun _ _ => ?_
      cases ts.position oldName with
      | none => exact safe_error _
      | some i => exact safe_ok _
  | addColumn column =>
      refine (safe_getTable _ _).bind fun ts _ => (safe_errIf _ _).bind fun _ _ => ?_
      refine safe_getTree.bind fun es _ => (safe_ok _).bind fun rows _ => ?_
      exact (safe_rewriteRows _ es rows).bind fun _ _ => safe_ok _
  | dropColumn name =>
      refine (safe_getTable _ _).bind fun ts _ => ?_
      cases ts.position name with
      | none => exact safe_error _
      | some i =>
          refine (safe_errIf _ _).bind fun _ _ => ?_
          refine safe_getTree.bind fun es _ => (safe_ok _).bind fun rows _ => ?_
          exact (safe_rewriteRows _ es rows).bind fun _ _ => safe_ok _

theorem safe_executeInsert (columns : Option (List String)) (values : List Value) :
    Safe (executeInsert ext maps table columns values db) := by
  refine (safe_getTable _ _).bind fun ts _ => (safe_errIf _ _).bind fun _ _ => ?_
  cases ts.columns.find? Column.primaryKey with
  | none => exact safe_error _
  | some pk =>
  dsimp only
  cases ((columns.getD (ts.columns.map Column.name)).zip values).find? fun e => e.1 == pk.name with
  | none => exact safe_error _
  | some e =>
  refine (safe_ofResult (safe_mapError _)).bind fun key _ => ?_
  refine (safe_ofResult (safe_checkValues _)).bind fun _ _ => safe_getTree.bind fun es _ => ?_
  refine (safe_ok _).bind fun found _ => (safe_errIf _ _).bind fun _ _ => ?_
  refine Safe.bind ?_ fun _ _ => (safe_ok _).bind fun _ _ => safe_ok _
  unfold checkInsertUnique
  dsimp only
  split
  · exact safe_ok ()
  · refine (safe_ok _).bind fun rows _ => ?_
    cases rows.findSome? fun e => findDuplicate ext _ e.2 _ with
    | none => exact safe_ok ()
    | some d => exact safe_error _

theorem safe_executeUpdate (h : db.All Rowed) (assignments : List (String × Value))
    (clause : Option WhereClause) :
    Safe (executeUpdate ext maps table assignments clause db) := by
  refine (safe_getTable _ _).bind fun ts hts => safe_getTree.bind fun es hes => ?_
  have hrowed := h.each table ts es (getTable_ok.mp hts) (getTree_ok.mp hes)
  refine (safe_candidateRows clause).bind fun candidates hc => ?_
  refine (safe_rows clause hrowed hc).bind fun rows hrows => ?_
  cases ts.pkIndex with
  | none => exact safe_error _
  | some pkIndex =>
      have hsub := (filterRows_sublist (ofResult_ok.mp hrows)).trans (candidateRows_sublist hc)
      refine (safe_computeUpdates fun e he => hrowed.width e (hsub.subset he)).bind fun us _ => ?_
      have hunique : Safe (checkUpdateUnique ext maps ts es assignments us) := by
        unfold checkUpdateUnique
        dsimp only
        split
        · exact safe_ok ()
        · exact (safe_ok _).bind fun _ _ => safe_checkUnique _ _
      refine hunique.bind fun _ _ => ?_
      rw [applyUpdates_eq]
      exact (safe_ok _).bind fun _ _ => safe_ok _

theorem safe_executeDelete (h : db.All Rowed) (clause : Option WhereClause) :
    Safe (executeDelete ext maps table clause db) := by
  refine (safe_getTable _ _).bind fun ts hts => safe_getTree.bind fun es hes => ?_
  have hrowed := h.each table ts es (getTable_ok.mp hts) (getTree_ok.mp hes)
  refine (safe_candidateRows clause).bind fun candidates hc => ?_
  refine (safe_rows clause hrowed hc).bind fun rows hrows => ?_
  rw [deleteRows_eq]
  exact (safe_ok _).bind fun _ _ => safe_ok _

/-- No statement panics. -/
theorem safe_executeStatement (h : db.All Rowed) (stmt : Statement) :
    Safe (executeStatement ext maps db stmt) := by
  cases stmt with
  | createTable name columns =>
      refine Safe.bind ?_ fun _ _ => safe_ok _
      exact (safe_ok _).bind fun _ _ => (safe_createTable _ _).bind fun _ _ => safe_ok _
  | dropTable name =>
      refine Safe.bind ?_ fun _ _ => safe_ok _
      exact (safe_getTable _ _).bind fun _ _ => safe_ok _
  | alterTable table action => exact (safe_executeAlterTable action).bind fun _ _ => safe_ok _
  | insert table columns values => exact safe_executeInsert columns values
  | update table assignments clause => exact safe_executeUpdate h assignments clause
  | delete table clause => exact safe_executeDelete h clause

/-- Nor does a SELECT. -/
theorem safe_executeSelect {vec : VectorFns} (h : db.All Rowed) (columns : List String)
    (clause : Option WhereClause) (order : Option OrderBy) (limit : Option Nat) :
    Safe (executeSelect ext vec maps table columns clause order limit db) :=
  SelectQuery.run_safe (q := ⟨table, columns, clause, order, limit⟩) fun ts es hts hes e he =>
    ((h.each table ts es hts hes).width e he).ge

end Safety

/-! ## ADD COLUMN, then DROP COLUMN -/

/-- With ascending keys every row is rewritten in its place. -/
theorem rewriteAll_append (f : Row → Row) : ∀ {rest done : List (Int64 × Row)},
    Ascending (done ++ rest) →
    rewriteAll replace f (done ++ rest) rest = done ++ rest.map fun e => (e.1, (f e.2).stored)
  | [], _, _ => rfl
  | e :: rest, done, h => by
      obtain ⟨hdone, hrest⟩ := h.append_cons
      have hfree : e.1 ∉ keys (done ++ rest) := by
        have hnd := h.nodup
        rw [keys, List.map_append, List.map_cons] at hnd
        rw [keys, List.map_append]
        exact (List.nodup_middle.mp hnd).notMem
      have hstep : replace (delete (done ++ e :: rest) e.1) e.1 (f e.2).stored =
          (done ++ [(e.1, (f e.2).stored)]) ++ rest := by
        rw [Ascending.delete_between hdone, replace_of_notMem hfree,
          Ascending.insert_between hdone hrest, List.append_assoc]
        rfl
      have hkeys : keys ((done ++ [(e.1, (f e.2).stored)]) ++ rest) = keys (done ++ e :: rest) := by
        simp [keys]
      have hasc : Ascending ((done ++ [(e.1, (f e.2).stored)]) ++ rest) := by
        rw [Ascending, hkeys]
        exact h
      have hih := rewriteAll_append f hasc
      rw [← hstep] at hih
      refine (hih :).trans ?_
      rw [List.append_assoc]
      rfl

theorem rewriteAll_eq_map (f : Row → Row) (h : Ascending es) :
    rewriteAll replace f es es = es.map fun e => (e.1, (f e.2).stored) :=
  @rewriteAll_append f es [] h

/-- Taking away what was put behind every row. -/
theorem rewriteAll_back (h : Rowed ts es) (v : Value) :
    rewriteAll replace (fun row => ⟨row.values.eraseIdx ts.columns.length⟩)
        (rewriteAll replace (fun row => ⟨row.values ++ [v]⟩) es es)
        (rewriteAll replace (fun row => ⟨row.values ++ [v]⟩) es es) = es := by
  have hasc : Ascending (rewriteAll replace (fun row => ⟨row.values ++ [v]⟩) es es) :=
    ascending_rewriteAll _ h.1.1
  rw [rewriteAll_eq_map _ hasc, rewriteAll_eq_map _ h.1.1, List.map_map]
  refine (List.map_congr_left fun e he => ?_).trans (List.map_id es)
  have hvalues : e.2.values.map Value.stored = e.2.values := by
    have hstored := h.2 e he
    rw [Row.stored] at hstored
    exact congrArg Row.values hstored
  have hwidth := h.width e he
  have hlast : (e.2.values ++ [v.stored]).eraseIdx ts.columns.length = e.2.values := by
    rw [← hwidth, List.eraseIdx_append_of_length_le le_rfl]
    simp
  simp only [Function.comp_apply, Row.stored, List.map_append, hvalues, List.map_cons, List.map_nil,
    hlast, id]

section AddDrop

variable {db db' : Tables RowMap} {table : String} {column : Column}

theorem insert_insert_self {V : Type} {t : Std.ExtTreeMap String V} {v w : V}
    (h : t[table]? = some v) : (t.insert table w).insert table v = t := by
  refine Std.ExtTreeMap.ext_getElem? fun name => ?_
  rw [Std.ExtTreeMap.getElem?_insert, Std.ExtTreeMap.getElem?_insert]
  split
  · rename_i heq
    rw [← Std.compare_eq_iff_eq.mp heq, h]
  · rfl

/-- The new column is found behind the old ones. -/
theorem position_append (hno : ∀ c ∈ ts.columns, c.name ≠ column.name) :
    TableSchema.position { ts with columns := ts.columns ++ [column] } column.name =
      some ts.columns.length := by
  rw [TableSchema.position, List.findIdx?_append, List.findIdx?_eq_none_iff.mpr fun c hc => by
    simpa using hno c hc]
  simp

/-- A column that is no key, added and dropped. -/
theorem drop_added (h : db.All Rowed) (hpk : column.primaryKey = false)
    (hadd : executeAlterTable maps table (.addColumn column) db = .ok db') :
    executeAlterTable maps table (.dropColumn column.name) db' = .ok db := by
  obtain ⟨ts, es, hts, hes, hno, rfl⟩ := addColumn_ok hadd
  have hts' : (db.schema.insert table { ts with columns := ts.columns ++ [column] })[table]? =
      some { ts with columns := ts.columns ++ [column] } := Std.ExtTreeMap.getElem?_insert_self
  have hes' : (db.btrees.insert table
      (rewriteAll replace (fun row => ⟨row.values ++ [.null]⟩) es es))[table]? =
        some (rewriteAll replace (fun row => ⟨row.values ++ [.null]⟩) es es) :=
    Std.ExtTreeMap.getElem?_insert_self
  have hcolumns : (ts.columns ++ [column]).eraseIdx ts.columns.length = ts.columns := by
    rw [List.eraseIdx_append_of_length_le le_rfl]
    simp
  have hkey : ¬ (ts.columns ++ [column])[ts.columns.length]?.any Column.primaryKey := by
    simp [hpk]
  rw [executeAlterTable, bind_ok]
  refine ⟨_, getTable_ok.mpr hts', ?_⟩
  rw [position_append hno]
  refine bind_ok.mpr ⟨(), errIf_ok.mpr hkey, bind_ok.mpr ⟨_, getTree_ok.mpr hes', ?_⟩⟩
  refine bind_ok.mpr ⟨_, rfl, bind_ok.mpr ⟨_, rewriteRows_eq _ _ _, ?_⟩⟩
  rw [rewriteAll_back (h.each table ts es hts hes), insert_insert_self hes, hcolumns,
    insert_insert_self hts]
  rfl

end AddDrop

end VelociDB
