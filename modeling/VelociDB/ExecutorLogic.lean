/-
# Statements over lists of rows

The trees taken as lists of rows in key order, and what an Ok statement did: one inversion
lemma for each `execute_*`, from which the results about statements follow without looking
into the code again.  What an insert under a key that is already there does is left open
(`put`): a B-tree keeps both rows, a map keeps the new one.
-/
import VelociDB.Select
import VelociDB.Lib.Multimap
import VelociDB.Lib.Transition

namespace VelociDB

open Multimap

/-- A B-tree as an ordered multimap. -/
abbrev RowMap := Multimap Int64 Row

/-- What an insert does to a tree. -/
abbrev Put := RowMap → Int64 → Row → RowMap

/-- The trees as lists; a row is stored as it will be read back. -/
def listTrees (put : Put) : TreeOps (Except Fault) RowMap where
  create := .ok []
  search es key := .ok (search es key)
  scan es := .ok es
  insert es key row := .ok (put es key row.stored)
  delete es key := .ok (decide (key ∈ keys es), delete es key)

/-- The trees as multimaps: an insert keeps the rows that have its key. -/
abbrev multimaps : TreeOps (Except Fault) RowMap := listTrees insert

/-- The trees as maps: an insert takes the place of a row that has its key. -/
abbrev maps : TreeOps (Except Fault) RowMap := listTrees replace

section Steps

variable {α β τ : Type}

theorem bind_ok {x : Except Fault α} {f : α → Except Fault β} {b : β} :
    (x >>= f) = .ok b ↔ ∃ a, x = .ok a ∧ f a = .ok b := by
  cases x with
  | error e => simp [bind, Except.bind]
  | ok a => simp [bind, Except.bind]

theorem exists_ok_of_isOk {x : Except Fault α} (h : x.isOk = true) : ∃ a, x = .ok a := by
  cases x with
  | error e => cases h
  | ok a => exact ⟨a, rfl⟩

theorem pure_ok {a b : α} : (pure a : Except Fault α) = .ok b ↔ a = b := by
  simp [pure, Except.pure]

theorem fail_ok {e : VelociError} {a : α} : (fail e : Except Fault α) = .ok a ↔ False := by
  simp [fail, throw, throwThe, MonadExceptOf.throw]

theorem errIf_ok {c : Prop} [Decidable c] {e : VelociError} {u : Unit} :
    (errIf c e : Except Fault Unit) = .ok u ↔ ¬ c := by
  unfold errIf
  split
  · simpa [fail_ok] using ‹c›
  · simpa [pure, Except.pure] using ‹¬ c›

theorem ofResult_ok {x : Except Fault α} {a : α} :
    (ofResult x : Except Fault α) = .ok a ↔ x = .ok a := by
  cases x <;> simp [ofResult, pure, Except.pure, throw, throwThe, MonadExceptOf.throw]

theorem getTable_ok {schema : Std.ExtTreeMap String TableSchema} {name : String}
    {table : TableSchema} :
    (getTable schema name : Except Fault TableSchema) = .ok table ↔ schema[name]? = some table := by
  unfold getTable
  split <;> simp_all [pure_ok, fail_ok]

theorem getTree_ok {db : Tables τ} {name : String} {tree : τ} :
    (getTree db name : Except Fault τ) = .ok tree ↔ db.btrees[name]? = some tree := by
  unfold getTree
  split <;> simp_all [pure_ok, fail_ok]

theorem createTable_ok {schema schema' : Std.ExtTreeMap String TableSchema} {table : TableSchema} :
    (createTable schema table : Except Fault _) = .ok schema' ↔
      table.name ∉ schema ∧ schema' = schema.insert table.name table := by
  simp only [createTable, bind_ok, errIf_ok, pure_ok]
  constructor
  · rintro ⟨-, h, rfl⟩
    exact ⟨h, rfl⟩
  · rintro ⟨h, rfl⟩
    exact ⟨(), h, rfl⟩

theorem asInteger_ok {ext : Externals} {v : Value} {i : Int64} :
    (v.asInteger ext).mapError Fault.error = .ok i ↔ v = .integer i := by
  cases v <;> simp [Value.asInteger, Except.mapError]

end Steps

variable {ext : Externals} {put : Put} {ts : TableSchema} {es : RowMap}
  {clause : Option WhereClause}

/-! ## Choosing rows -/

theorem candidateRows_sublist {rows : List (Int64 × Row)}
    (h : candidateRows (listTrees put) es clause ts = .ok rows) : rows.Sublist es := by
  unfold candidateRows at h
  dsimp only at h
  split at h
  · obtain ⟨found, hfound, hrows⟩ := bind_ok.mp h
    obtain rfl := Except.ok.inj hfound
    obtain rfl := pure_ok.mp hrows
    cases hs : search es _ with
    | none => simp
    | some row => simpa using mem_of_search hs
  · obtain rfl := Except.ok.inj h
    exact List.Sublist.refl _

theorem keepMatching_sublist {w : WhereClause} : ∀ {rows kept : List (Int64 × Row)},
    keepMatching ext ts w rows = .ok kept → kept.Sublist rows
  | [], kept, h => by
      obtain rfl := Except.ok.inj h
      exact List.Sublist.refl _
  | e :: rest, kept, h => by
      obtain ⟨keep, -, h⟩ := bind_ok.mp h
      obtain ⟨tail, htail, h⟩ := bind_ok.mp h
      obtain rfl := pure_ok.mp h
      have hsub := keepMatching_sublist htail
      cases keep with
      | true => exact hsub.cons_cons e
      | false => exact hsub.cons e

theorem filterRows_sublist {rows kept : List (Int64 × Row)}
    (h : filterRows ext ts clause rows = .ok kept) : kept.Sublist rows := by
  cases clause with
  | none =>
      obtain rfl := Except.ok.inj h
      exact List.Sublist.refl _
  | some w => exact keepMatching_sublist h

/-- The rows an UPDATE or a DELETE works on. -/
def chosenRows (ext : Externals) (ts : TableSchema) (es : RowMap) (clause : Option WhereClause) :
    Except Fault (List (Int64 × Row)) := do
  filterRows ext ts clause (← candidateRows multimaps es clause ts)

theorem chosenRows_ok {rows : List (Int64 × Row)} :
    chosenRows ext ts es clause = .ok rows ↔
      ∃ candidates, candidateRows (listTrees put) es clause ts = .ok candidates ∧
        filterRows ext ts clause candidates = .ok rows := by
  -- neither the search nor the scan looks at `put`
  have hput : candidateRows (listTrees put) es clause ts =
    candidateRows multimaps es clause ts := rfl
  rw [hput]
  exact bind_ok

theorem chosenRows_sublist {rows : List (Int64 × Row)}
    (h : chosenRows ext ts es clause = .ok rows) : rows.Sublist es := by
  obtain ⟨candidates, hc, hf⟩ := bind_ok.mp h
  exact (filterRows_sublist hf).trans (candidateRows_sublist hc)

/-! ## Changing rows -/

/-- The tree after the delete-insert pairs of an UPDATE. -/
def replaceAll (put : Put) (es : RowMap) (us : List RowUpdate) : RowMap :=
  us.foldl (fun es u => put (delete es u.key) u.newKey u.updated.stored) es

theorem applyUpdates_eq (es : RowMap) (us : List RowUpdate) :
    applyUpdates (listTrees put) es us = .ok (replaceAll put es us) := by
  induction us generalizing es with
  | nil => rfl
  | cons u us ih => exact ih _

/-- The tree after every row of `rows` has been rewritten. -/
def rewriteAll (put : Put) (f : Row → Row) (es : RowMap) (rows : List (Int64 × Row)) : RowMap :=
  rows.foldl (fun es e => put (delete es e.1) e.1 (f e.2).stored) es

theorem rewriteRows_eq (f : Row → Row) (es : RowMap) (rows : List (Int64 × Row)) :
    rewriteRows (listTrees put) f es rows = .ok (rewriteAll put f es rows) := by
  induction rows generalizing es with
  | nil => rfl
  | cons e rows ih => exact ih _

theorem deleteRows_eq (es : RowMap) (rows : List (Int64 × Row)) :
    deleteRows (listTrees put) es rows = .ok (rows.foldl (fun es e => delete es e.1) es) := by
  induction rows generalizing es with
  | nil => rfl
  | cons e rows ih => exact ih _

theorem foldl_delete_sublist (rows : List (Int64 × Row)) (es : RowMap) :
    (rows.foldl (fun es e => delete es e.1) es).Sublist es := by
  induction rows generalizing es with
  | nil => exact List.Sublist.refl _
  | cons e rows ih => exact (ih _).trans delete_sublist

/-- What `computeUpdates` made of one row. -/
structure Updated (ext : Externals) (ts : TableSchema) (es : RowMap) (pkIndex : Nat)
    (assignments : List (String × Value)) (e : Int64 × Row) (u : RowUpdate) : Prop where
  key : u.key = e.1
  row : u.row = e.2
  computed : ∃ assigned,
    applyAssignments ext ts pkIndex e.1 false e.2 assignments = .ok (u.newKey, assigned, u.updated) ∧
      (assigned = true → u.newKey ≠ e.1 → u.newKey ∉ keys es)

theorem index_ok {row : Row} {i : Nat} {v : Value} (h : row.index i = .ok v) :
    i < row.values.length := by
  rw [Row.index] at h
  split at h
  · exact (List.getElem?_eq_some_iff.mp ‹_›).1
  · cases h

/-- What every single assignment keeps, a whole list of them keeps. -/
theorem applyAssignments_invariant {pkIndex : Nat} {J : Int64 → Bool → Row → Prop} :
    ∀ {assignments : List (String × Value)} {key newKey : Int64} {b b' : Bool} {row row' : Row},
      (∀ name value i key b row, (name, value) ∈ assignments → ts.position name = some i →
        ¬ (ts.columns[i]?.any Column.notNull ∧ value = .null) → i < row.values.length →
        J key b row →
        (i ≠ pkIndex → J key b ⟨row.values.set i value⟩) ∧
          ∀ k, i = pkIndex → value = .integer k → J k true ⟨row.values.set i value⟩) →
      J key b row →
      applyAssignments ext ts pkIndex key b row assignments = .ok (newKey, b', row') →
      J newKey b' row'
  | [], key, newKey, b, b', row, row', _, hJ, h => by
      simp only [applyAssignments, Except.ok.injEq, Prod.mk.injEq] at h
      obtain ⟨rfl, rfl, rfl⟩ := h
      exact hJ
  | (name, value) :: rest, key, newKey, b, b', row, row', hstep, hJ, h => by
      have hrest := fun n v i k c r hmem => hstep n v i k c r (List.mem_cons_of_mem _ hmem)
      rw [applyAssignments] at h
      split at h
      · exact applyAssignments_invariant hrest hJ h
      · rename_i i hi
        obtain ⟨u, hnull, h⟩ := bind_ok.mp h
        obtain ⟨v, hv, h⟩ := bind_ok.mp h
        have hset := hstep name value i key b row List.mem_cons_self hi (errIf_ok.mp hnull)
          (index_ok hv) hJ
        split at h
        · rename_i hpk
          obtain ⟨k, hk, h⟩ := bind_ok.mp h
          exact applyAssignments_invariant hrest (hset.2 k hpk (asInteger_ok.mp hk)) h
        · rename_i hpk
          exact applyAssignments_invariant hrest (hset.1 hpk) h

theorem checkNewKey_ok {name : String} {key newKey : Int64} {assigned : Bool} {u : Unit} :
    checkNewKey (listTrees put) name es key newKey assigned = .ok u ↔
      (assigned = true → newKey ≠ key → newKey ∉ keys es) := by
  unfold checkNewKey
  split
  · rename_i h
    rw [bind_ok]
    simp only [listTrees, Except.ok.injEq, exists_eq_left', errIf_ok, Bool.not_eq_true,
      Option.isSome_eq_false_iff, Option.isNone_iff_eq_none, search_eq_none]
    exact ⟨fun hk _ _ => hk, fun hk => hk h.1 h.2⟩
  · rename_i h
    simp only [pure_ok, true_iff]
    exact fun ha hne => absurd ⟨ha, hne⟩ h

theorem computeUpdates_ok {name : String} {pkIndex : Nat} {assignments : List (String × Value)} :
    ∀ {rows : List (Int64 × Row)} {us : List RowUpdate},
      computeUpdates ext (listTrees put) name ts es pkIndex assignments rows = .ok us →
      List.Forall₂ (Updated ext ts es pkIndex assignments) rows us
  | [], us, h => by
      obtain rfl := pure_ok.mp h
      exact .nil
  | (key, row) :: rest, us, h => by
      obtain ⟨⟨newKey, assigned, updated⟩, happly, h⟩ := bind_ok.mp h
      obtain ⟨u, hfree, h⟩ := bind_ok.mp h
      obtain ⟨tail, htail, h⟩ := bind_ok.mp h
      obtain rfl := pure_ok.mp h
      exact .cons ⟨rfl, rfl, assigned, ofResult_ok.mp happly, checkNewKey_ok.mp hfree⟩
        (computeUpdates_ok htail)

/-- The updates of a statement carry the keys of the rows it chose. -/
theorem map_key_of_computed {pkIndex : Nat} {assignments : List (String × Value)}
    {rows : List (Int64 × Row)} {us : List RowUpdate}
    (h : List.Forall₂ (Updated ext ts es pkIndex assignments) rows us) :
    us.map RowUpdate.key = keys rows := by
  induction h with
  | nil => rfl
  | cons hx _ ih => rw [List.map_cons, ih, hx.key]; rfl

theorem exists_of_forall₂ {α β : Type} {R : α → β → Prop} {xs : List α} {ys : List β}
    (h : List.Forall₂ R xs ys) {y : β} (hy : y ∈ ys) : ∃ x ∈ xs, R x y := by
  induction h with
  | nil => cases hy
  | @cons x z xs ys hR _ ih =>
      rcases List.mem_cons.mp hy with rfl | hy
      · exact ⟨x, List.mem_cons_self, hR⟩
      · obtain ⟨w, hw, hRw⟩ := ih hy
        exact ⟨w, List.mem_cons_of_mem _ hw, hRw⟩

/-! ## What an Ok statement did -/

variable {db db' : Tables RowMap} {table : String} {changes : List StagedChange}

theorem executeCreateTable_ok {columns : List Column}
    (h : executeCreateTable (listTrees put) table columns db = .ok db') :
    table ∉ db.schema ∧
      db' = ⟨db.schema.insert table ⟨table, columns⟩, db.btrees.insert table []⟩ := by
  simp only [executeCreateTable, bind_ok, createTable_ok, pure_ok] at h
  obtain ⟨root, hroot, schema, ⟨hno, rfl⟩, rfl⟩ := h
  obtain rfl := Except.ok.inj hroot
  exact ⟨hno, rfl⟩

theorem executeDropTable_ok
    (h : (executeDropTable table db : Except Fault (Tables RowMap)) = .ok db') :
    db' = ⟨db.schema.erase table, db.btrees.erase table⟩ := by
  simp only [executeDropTable, bind_ok, pure_ok] at h
  obtain ⟨-, -, rfl⟩ := h
  rfl

theorem renameTable_ok {newName : String}
    (h : executeAlterTable (listTrees put) table (.renameTable newName) db = .ok db') :
    ∃ ts, db.schema[table]? = some ts ∧ newName ∉ db.schema ∧
      db' = ⟨(db.schema.erase table).insert newName { ts with name := newName },
        match db.btrees[table]? with
        | some tree => (db.btrees.erase table).insert newName tree
        | none => db.btrees⟩ := by
  simp only [executeAlterTable, bind_ok, errIf_ok, getTable_ok, createTable_ok] at h
  obtain ⟨-, hno, ts, hts, schema, ⟨-, rfl⟩, h⟩ := h
  refine ⟨ts, hts, hno, ?_⟩
  split at h
  · rename_i tree htree
    rw [← pure_ok.mp h, htree]
  · rename_i htree
    rw [← pure_ok.mp h, htree]

theorem renameColumn_ok {oldName newName : String}
    (h : executeAlterTable (listTrees put) table (.renameColumn oldName newName) db = .ok db') :
    ∃ ts i, db.schema[table]? = some ts ∧ (∀ c ∈ ts.columns, c.name ≠ newName) ∧
      ts.position oldName = some i ∧
      db' = ⟨db.schema.insert table
        { ts with columns := ts.columns.modify i fun c => { c with name := newName } },
        db.btrees⟩ := by
  simp only [executeAlterTable, bind_ok, errIf_ok, getTable_ok] at h
  obtain ⟨ts, hts, -, hno, h⟩ := h
  split at h
  · exact (fail_ok.mp h).elim
  · rename_i i hi
    exact ⟨ts, i, hts, fun c hc hn => hno ⟨c, hc, hn⟩, hi, (pure_ok.mp h).symm⟩

theorem addColumn_ok {column : Column}
    (h : executeAlterTable (listTrees put) table (.addColumn column) db = .ok db') :
    ∃ ts es, db.schema[table]? = some ts ∧ db.btrees[table]? = some es ∧
      (∀ c ∈ ts.columns, c.name ≠ column.name) ∧
      db' = ⟨db.schema.insert table { ts with columns := ts.columns ++ [column] },
        db.btrees.insert table (rewriteAll put (fun row => ⟨row.values ++ [.null]⟩) es es)⟩ := by
  simp only [executeAlterTable, bind_ok, errIf_ok, getTable_ok, getTree_ok, rewriteRows_eq,
    Except.ok.injEq, exists_eq_left', pure_ok] at h
  obtain ⟨ts, hts, -, hno, es, hes, rows, hrows, rfl⟩ := h
  obtain rfl := Except.ok.inj hrows
  exact ⟨ts, es, hts, hes, fun c hc hn => hno ⟨c, hc, hn⟩, rfl⟩

theorem dropColumn_ok {name : String}
    (h : executeAlterTable (listTrees put) table (.dropColumn name) db = .ok db') :
    ∃ ts es i, db.schema[table]? = some ts ∧ db.btrees[table]? = some es ∧
      ts.position name = some i ∧ ¬ ts.columns[i]?.any Column.primaryKey ∧
      db' = ⟨db.schema.insert table { ts with columns := ts.columns.eraseIdx i },
        db.btrees.insert table (rewriteAll put (fun row => ⟨row.values.eraseIdx i⟩) es es)⟩ := by
  simp only [executeAlterTable, bind_ok, getTable_ok] at h
  obtain ⟨ts, hts, h⟩ := h
  split at h
  · exact (fail_ok.mp h).elim
  · rename_i i hi
    simp only [bind_ok, errIf_ok, getTree_ok, rewriteRows_eq, Except.ok.injEq, exists_eq_left',
      pure_ok] at h
    obtain ⟨-, hno, es, hes, rows, hrows, rfl⟩ := h
    obtain rfl := Except.ok.inj hrows
    exact ⟨ts, es, i, hts, hes, hi, hno, rfl⟩

/-- The named values of an INSERT. -/
def namedValues (ts : TableSchema) (columns : Option (List String)) (values : List Value) :
    List (String × Value) :=
  (columns.getD (ts.columns.map Column.name)).zip values

/-- The row an INSERT builds. -/
def insertedRow (ts : TableSchema) (columns : Option (List String)) (values : List Value) : Row :=
  ⟨fillRow ts (List.replicate ts.columns.length .null) (namedValues ts columns values)⟩

/-- What an Ok INSERT did. -/
structure Inserted (ext : Externals) (put : Put) (table : String) (columns : Option (List String))
    (values : List Value) (db db' : Tables RowMap) (changes : List StagedChange)
    (ts : TableSchema) (es : RowMap) (pk : Column) (key : Int64) : Prop where
  schema : db.schema[table]? = some ts
  btree : db.btrees[table]? = some es
  counts : (columns.getD (ts.columns.map Column.name)).length = values.length
  isPk : ts.columns.find? Column.primaryKey = some pk
  named : (namedValues ts columns values).find? (fun e => e.1 == pk.name) =
    some (pk.name, .integer key)
  checked : checkValues ext ts (namedValues ts columns values) = .ok ()
  free : key ∉ keys es
  unique : checkInsertUnique ext (listTrees put) ts es (insertedRow ts columns values) = .ok ()
  result : db' = ⟨db.schema,
    db.btrees.insert table (put es key (insertedRow ts columns values).stored)⟩
  staged : changes = [⟨table, .insert, key, none, some (insertedRow ts columns values)⟩]

theorem executeInsert_ok {columns : Option (List String)} {values : List Value}
    (h : executeInsert ext (listTrees put) table columns values db = .ok (db', changes)) :
    ∃ ts es pk key, Inserted ext put table columns values db db' changes ts es pk key := by
  simp only [executeInsert, bind_ok, errIf_ok, getTable_ok, not_not] at h
  obtain ⟨ts, hts, -, hlen, h⟩ := h
  split at h
  · exact (fail_ok.mp h).elim
  rename_i pk hpk
  split at h
  · exact (fail_ok.mp h).elim
  rename_i e he
  simp only [bind_ok, ofResult_ok, asInteger_ok, getTree_ok, errIf_ok, pure_ok] at h
  obtain ⟨key, hkey, u, hchecked, es, hes, found, hfound, -, hfree, u', hunique, es', hes', h⟩ := h
  obtain rfl := Except.ok.inj hfound
  obtain rfl := Except.ok.inj hes'
  obtain ⟨rfl, rfl⟩ := Prod.mk.inj h
  have hname : e.1 = pk.name := by simpa using List.find?_some he
  refine ⟨ts, es, pk, key, hts, hes, hlen, hpk, ?_, hchecked, ?_, hunique, rfl, rfl⟩
  · rw [namedValues, he, ← hname, ← hkey]
  · rw [← search_eq_none]
    simpa using hfree

/-- What an Ok UPDATE did. -/
structure UpdateDone (ext : Externals) (put : Put) (table : String)
    (assignments : List (String × Value)) (clause : Option WhereClause) (db db' : Tables RowMap)
    (changes : List StagedChange) (ts : TableSchema) (es : RowMap) (pkIndex : Nat)
    (rows : List (Int64 × Row)) (us : List RowUpdate) : Prop where
  schema : db.schema[table]? = some ts
  btree : db.btrees[table]? = some es
  isPk : ts.pkIndex = some pkIndex
  chosen : chosenRows ext ts es clause = .ok rows
  computed : List.Forall₂ (Updated ext ts es pkIndex assignments) rows us
  unique : checkUpdateUnique ext (listTrees put) ts es assignments us = .ok ()
  result : db' = ⟨db.schema, db.btrees.insert table (replaceAll put es us)⟩
  staged : changes = us.map fun u => ⟨table, .update, u.key, some u.row, some u.updated⟩

theorem executeUpdate_ok {assignments : List (String × Value)}
    (h : executeUpdate ext (listTrees put) table assignments clause db = .ok (db', changes)) :
    ∃ ts es pkIndex rows us,
      UpdateDone ext put table assignments clause db db' changes ts es pkIndex rows us := by
  simp only [executeUpdate, bind_ok, getTable_ok, getTree_ok, ofResult_ok] at h
  obtain ⟨ts, hts, es, hes, candidates, hc, rows, hrows, h⟩ := h
  split at h
  · exact (fail_ok.mp h).elim
  rename_i pkIndex hpk
  simp only [bind_ok, applyUpdates_eq, Except.ok.injEq, exists_eq_left', pure_ok] at h
  obtain ⟨us, hus, u, hunique, h⟩ := h
  obtain ⟨rfl, rfl⟩ := Prod.mk.inj h
  exact ⟨ts, es, pkIndex, rows, us, hts, hes, hpk, chosenRows_ok.mpr ⟨candidates, hc, hrows⟩,
    computeUpdates_ok hus, hunique, rfl, rfl⟩

theorem executeDelete_ok (h : executeDelete ext (listTrees put) table clause db = .ok (db', changes)) :
    ∃ ts es rows, db.schema[table]? = some ts ∧ db.btrees[table]? = some es ∧
      chosenRows ext ts es clause = .ok rows ∧
      db' = ⟨db.schema, db.btrees.insert table (rows.foldl (fun es e => delete es e.1) es)⟩ ∧
      changes = rows.map fun e => ⟨table, .delete, e.1, some e.2, none⟩ := by
  simp only [executeDelete, bind_ok, getTable_ok, getTree_ok, ofResult_ok, deleteRows_eq,
    Except.ok.injEq, exists_eq_left', pure_ok] at h
  obtain ⟨ts, hts, es, hes, candidates, hc, rows, hrows, h⟩ := h
  obtain ⟨rfl, rfl⟩ := Prod.mk.inj h
  exact ⟨ts, es, rows, hts, hes, chosenRows_ok.mpr ⟨candidates, hc, hrows⟩, rfl, rfl⟩

/-- Externals that print nothing for floats and strings, and a regex that never
matches. -/
def mute : Externals where
  debugFloat _ := ""
  displayFloat _ := ""
  debugComponent _ := ""
  displayComponent _ := ""
  quote _ := ""
  regexIsMatch _ _ := .ok false

/-! ## Runs of Ok statements -/

/-- The tables, and inside a transaction the tables at its BEGIN. -/
structure SqlState where
  tables : Tables RowMap
  saved : Option (Tables RowMap)

namespace SqlState

/-- An empty database. -/
def init : SqlState := ⟨.empty, none⟩

/-- What a run is made of. -/
inductive Act where
  | statement (stmt : Statement)
  | begin
  | commit
  | rollback

/-- A condition on statements as one on steps. -/
def When (ok : Tables RowMap → Statement → Prop) (s : SqlState) : Act → Prop
  | .statement stmt => ok s.tables stmt
  | _ => True

/-- Steps that return Ok.  ROLLBACK goes back to the tables at BEGIN. -/
inductive Step (ext : Externals) (put : Put) : SqlState → Act → SqlState → Prop
  | statement {s : SqlState} {stmt : Statement} {tables : Tables RowMap}
      {changes : List StagedChange} :
      executeStatement ext (listTrees put) s.tables stmt = .ok (tables, changes) →
      Step ext put s (.statement stmt) { s with tables := tables }
  | begin {s : SqlState} : s.saved = none → Step ext put s .begin { s with saved := some s.tables }
  | commit {s : SqlState} : s.saved ≠ none → Step ext put s .commit { s with saved := none }
  | rollback {s : SqlState} {tables : Tables RowMap} : s.saved = some tables →
      Step ext put s .rollback ⟨tables, none⟩

/-- An invariant of the tables that every Ok statement keeps holds in every state of a
run. -/
theorem tables_invariant {I : Tables RowMap → Prop} {ok : Tables RowMap → Statement → Prop}
    (hinit : I .empty)
    (hstmt : ∀ db stmt db' changes, I db → ok db stmt →
      executeStatement ext (listTrees put) db stmt = .ok (db', changes) → I db')
    {s : SqlState} (hs : Transition.Reaches (Step ext put) (When ok) init s) : I s.tables := by
  have hboth : I s.tables ∧ ∀ t, s.saved = some t → I t := by
    refine Transition.Reaches.invariant (I := fun s => I s.tables ∧ ∀ t, s.saved = some t → I t)
      ⟨hinit, by simp [init]⟩ ?_ hs
    rintro s a s' ⟨hI, hsaved⟩ hok hstep
    cases hstep with
    | statement hx => exact ⟨hstmt s.tables _ _ _ hI hok hx, hsaved⟩
    | begin hno =>
        refine ⟨hI, fun t ht => ?_⟩
        obtain rfl := Option.some.inj ht
        exact hI
    | commit hno => exact ⟨hI, by simp⟩
    | rollback h => exact ⟨hsaved _ h, by simp⟩
  exact hboth.1

/-! A list of statements outside a transaction, run to its end. -/

/-- The tables after some statements, all of which return Ok. -/
def runStatements (ext : Externals) (put : Put) : List Statement → Tables RowMap → Except Fault (Tables RowMap)
  | [], db => .ok db
  | stmt :: rest, db => do
      let (db, _) ← executeStatement ext (listTrees put) db stmt
      runStatements ext put rest db

/-- Every statement meets the condition where it runs. -/
def okStatements (ext : Externals) (put : Put) (ok : Tables RowMap → Statement → Prop) :
    List Statement → Tables RowMap → Prop
  | [], _ => True
  | stmt :: rest, db => ok db stmt ∧
      ∀ db' changes, executeStatement ext (listTrees put) db stmt = .ok (db', changes) →
        okStatements ext put ok rest db'

theorem okStatements_of_all {ok : Tables RowMap → Statement → Prop} (hall : ∀ db stmt, ok db stmt) :
    ∀ {stmts : List Statement} {db : Tables RowMap}, okStatements ext put ok stmts db
  | [], _ => trivial
  | _ :: _, _ => ⟨hall _ _, fun _ _ _ => okStatements_of_all hall⟩

theorem reaches_runStatements {ok : Tables RowMap → Statement → Prop} :
    ∀ {stmts : List Statement} {db₀ db : Tables RowMap}, okStatements ext put ok stmts db₀ →
      Transition.Reaches (Step ext put) (When ok) init ⟨db₀, none⟩ →
      runStatements ext put stmts db₀ = .ok db →
      Transition.Reaches (Step ext put) (When ok) init ⟨db, none⟩
  | [], db₀, db, _, hr, h => by
      obtain rfl := Except.ok.inj h
      exact hr
  | stmt :: rest, db₀, db, hok, hr, h => by
      obtain ⟨⟨db₁, changes⟩, hstmt, hrest⟩ := bind_ok.mp h
      have hr₁ : Transition.Reaches (Step ext put) (When ok) init ⟨db₁, none⟩ :=
        hr.tail (a := .statement stmt) hok.1 (.statement hstmt)
      exact reaches_runStatements (hok.2 db₁ changes hstmt) hr₁ hrest

/-- A run that starts with CREATE TABLE. -/
theorem okStatements_create {ok : Tables RowMap → Statement → Prop} {name : String}
    {columns : List Column} {rest : List Statement} (hok : ok .empty (.createTable name columns))
    (hrest : okStatements ext put ok rest
      ⟨Std.ExtTreeMap.insert ∅ name ⟨name, columns⟩, Std.ExtTreeMap.insert ∅ name []⟩) :
    okStatements ext put ok (.createTable name columns :: rest) .empty := by
  refine ⟨hok, fun db changes h => ?_⟩
  obtain ⟨db', hcreate, hdb⟩ := bind_ok.mp h
  obtain ⟨rfl, -⟩ := Prod.mk.inj (pure_ok.mp hdb)
  obtain ⟨-, rfl⟩ := executeCreateTable_ok hcreate
  exact hrest

/-- Reading a result off a run on given statements. -/
theorem of_runStatements {α : Type} {f : Tables RowMap → α} {a : α} {stmts : List Statement}
    (h : (runStatements ext put stmts .empty).toOption.map f = some a) :
    ∃ db, runStatements ext put stmts .empty = .ok db ∧ f db = a := by
  cases hrun : runStatements ext put stmts .empty with
  | error e =>
      rw [hrun] at h
      cases h
  | ok db =>
      rw [hrun] at h
      exact ⟨db, rfl, Option.some.inj h⟩

end SqlState

end VelociDB
