/-
# Invariants of tables

Every table of the schema has a tree under its name and every tree a table
(`Tables.All`), and each such pair has a property `P`.  `Keeps` lists what `P` has to
survive, one clause for each kind of change to a table; `Keeps.all_reaches` is then the
invariant of every run.  A property that says something about each row by itself
(`Fits`) has its own rule, `keeps_fits`.
-/
import VelociDB.Columns

namespace VelociDB

open Multimap

/-- Tables and trees go together, and `P` holds of each pair. -/
structure Tables.All (P : TableSchema → RowMap → Prop) (db : Tables RowMap) : Prop where
  names : ∀ name : String, name ∈ db.schema ↔ name ∈ db.btrees
  each : ∀ (name : String) (ts : TableSchema) (es : RowMap), db.schema[name]? = some ts →
    db.btrees[name]? = some es → P ts es

namespace Tables.All

variable {P : TableSchema → RowMap → Prop} {db : Tables RowMap} {table : String}
  {ts : TableSchema} {es : RowMap}

theorem empty : All P .empty := ⟨by simp [Tables.empty], by simp [Tables.empty]⟩

theorem imp {Q : TableSchema → RowMap → Prop} (h : All P db) (hPQ : ∀ ts es, P ts es → Q ts es) :
    All Q db := ⟨h.names, fun name ts es hts hes => hPQ ts es (h.each name ts es hts hes)⟩

theorem tree_of_table (h : All P db) (hts : db.schema[table]? = some ts) :
    ∃ es, db.btrees[table]? = some es ∧ P ts es := by
  have hmem : table ∈ db.schema := Std.ExtTreeMap.isSome_getElem?_iff_mem.mp (by simp [hts])
  have hsome := Std.ExtTreeMap.isSome_getElem?_iff_mem.mpr ((h.names table).mp hmem)
  obtain ⟨es, hes⟩ := Option.isSome_iff_exists.mp hsome
  exact ⟨es, hes, h.each table ts es hts hes⟩

/-- One table gets new columns and a new tree. -/
theorem set (h : All P db) (hP : P ts es) :
    All P ⟨db.schema.insert table ts, db.btrees.insert table es⟩ := by
  constructor
  · intro name
    simp only [Std.ExtTreeMap.mem_insert, h.names name]
  · intro name ts' es' hts hes
    simp only [Std.ExtTreeMap.getElem?_insert] at hts hes
    split at hts
    · rename_i heq
      rw [if_pos heq] at hes
      rwa [← Option.some.inj hts, ← Option.some.inj hes]
    · rename_i hne
      rw [if_neg hne] at hes
      exact h.each name ts' es' hts hes

/-- One table gets a new tree. -/
theorem setTree (h : All P db) (hts : db.schema[table]? = some ts) (hP : P ts es) :
    All P ⟨db.schema, db.btrees.insert table es⟩ := by
  constructor
  · intro name
    have hmem : table ∈ db.schema := Std.ExtTreeMap.isSome_getElem?_iff_mem.mp (by simp [hts])
    simp only [Std.ExtTreeMap.mem_insert, Std.compare_eq_iff_eq, ← h.names name]
    exact ⟨Or.inr, fun hn => hn.elim (fun heq => heq ▸ hmem) id⟩
  · intro name ts' es' hts' hes
    simp only [Std.ExtTreeMap.getElem?_insert] at hes
    split at hes
    · rename_i heq
      obtain rfl := Std.compare_eq_iff_eq.mp heq
      obtain rfl := Option.some.inj (hts.symm.trans hts')
      rwa [← Option.some.inj hes]
    · exact h.each name ts' es' hts' hes

/-- One table gets new columns. -/
theorem setTable (h : All P db) (hes : db.btrees[table]? = some es) (hP : P ts es) :
    All P ⟨db.schema.insert table ts, db.btrees⟩ := by
  constructor
  · intro name
    have hmem : table ∈ db.btrees := Std.ExtTreeMap.isSome_getElem?_iff_mem.mp (by simp [hes])
    simp only [Std.ExtTreeMap.mem_insert, Std.compare_eq_iff_eq, h.names name]
    exact ⟨fun hn => hn.elim (fun heq => heq ▸ hmem) id, Or.inr⟩
  · intro name ts' es' hts hes'
    simp only [Std.ExtTreeMap.getElem?_insert] at hts
    split at hts
    · rename_i heq
      obtain rfl := Std.compare_eq_iff_eq.mp heq
      obtain rfl := Option.some.inj (hes.symm.trans hes')
      rwa [← Option.some.inj hts]
    · exact h.each name ts' es' hts hes'

theorem erase (h : All P db) : All P ⟨db.schema.erase table, db.btrees.erase table⟩ := by
  constructor
  · intro name
    simp only [Std.ExtTreeMap.mem_erase, h.names name]
  · intro name ts es hts hes
    simp only [Std.ExtTreeMap.getElem?_erase] at hts hes
    split at hts
    · cases hts
    · rename_i hne
      rw [if_neg hne] at hes
      exact h.each name ts es hts hes

end Tables.All

/-- What a property of tables survives, when statements meet `ok`. -/
structure Keeps (ext : Externals) (put : Put) (ok : Tables RowMap → Statement → Prop)
    (P : TableSchema → RowMap → Prop) : Prop where
  create : ∀ {db name columns}, ok db (.createTable name columns) → P ⟨name, columns⟩ []
  renameTable : ∀ {ts es} name, P ts es → P { ts with name := name } es
  renameColumn : ∀ {ts es newName} i, P ts es → (∀ c ∈ ts.columns, c.name ≠ newName) →
    P { ts with columns := ts.columns.modify i fun c => { c with name := newName } } es
  addColumn : ∀ {db table ts es column}, ok db (.alterTable table (.addColumn column)) → P ts es →
    (∀ c ∈ ts.columns, c.name ≠ column.name) →
    P { ts with columns := ts.columns ++ [column] }
      (rewriteAll put (fun row => ⟨row.values ++ [.null]⟩) es es)
  dropColumn : ∀ {ts es i}, P ts es → ¬ ts.columns[i]?.any Column.primaryKey →
    P { ts with columns := ts.columns.eraseIdx i }
      (rewriteAll put (fun row => ⟨row.values.eraseIdx i⟩) es es)
  insert : ∀ {db table columns values db' changes ts es pk key},
    ok db (.insert table columns values) → P ts es →
    Inserted ext put table columns values db db' changes ts es pk key →
    P ts (put es key (insertedRow ts columns values).stored)
  update : ∀ {db table assignments clause db' changes ts es pkIndex rows us},
    ok db (.update table assignments clause) → P ts es →
    UpdateDone ext put table assignments clause db db' changes ts es pkIndex rows us →
    P ts (replaceAll put es us)
  delete : ∀ {ts es es'}, P ts es → es'.Sublist es → P ts es'

namespace Keeps

variable {ext : Externals} {put : Put} {ok : Tables RowMap → Statement → Prop}
  {P : TableSchema → RowMap → Prop} {db db' : Tables RowMap} {table : String}

theorem alterTable (hk : Keeps ext put ok P) {action : AlterAction} (h : db.All P)
    (hok : ok db (.alterTable table action))
    (hx : executeAlterTable (listTrees put) table action db = .ok db') : db'.All P := by
  cases action with
  | renameTable newName =>
      obtain ⟨ts, hts, -, rfl⟩ := renameTable_ok hx
      obtain ⟨es, hes, hP⟩ := h.tree_of_table hts
      rw [hes]
      exact h.erase.set (hk.renameTable newName hP)
  | renameColumn oldName newName =>
      obtain ⟨ts, i, hts, hno, -, rfl⟩ := renameColumn_ok hx
      obtain ⟨es, hes, hP⟩ := h.tree_of_table hts
      exact h.setTable hes (hk.renameColumn i hP hno)
  | addColumn column =>
      obtain ⟨ts, es, hts, hes, hno, rfl⟩ := addColumn_ok hx
      exact h.set (hk.addColumn hok (h.each table ts es hts hes) hno)
  | dropColumn name =>
      obtain ⟨ts, es, i, hts, hes, -, hno, rfl⟩ := dropColumn_ok hx
      exact h.set (hk.dropColumn (h.each table ts es hts hes) hno)

/-- The step: an Ok statement that meets the condition. -/
theorem all_statement (hk : Keeps ext put ok P) {stmt : Statement} {changes : List StagedChange}
    (h : db.All P) (hok : ok db stmt)
    (hx : executeStatement ext (listTrees put) db stmt = .ok (db', changes)) : db'.All P := by
  cases stmt with
  | createTable name columns =>
      obtain ⟨db₁, hcreate, hdb⟩ := bind_ok.mp hx
      obtain ⟨rfl, -⟩ := Prod.mk.inj (pure_ok.mp hdb)
      obtain ⟨-, rfl⟩ := executeCreateTable_ok hcreate
      exact h.set (hk.create hok)
  | dropTable name =>
      obtain ⟨db₁, hdrop, hdb⟩ := bind_ok.mp hx
      obtain ⟨rfl, -⟩ := Prod.mk.inj (pure_ok.mp hdb)
      rw [executeDropTable_ok hdrop]
      exact h.erase
  | alterTable table action =>
      obtain ⟨db₁, halter, hdb⟩ := bind_ok.mp hx
      obtain ⟨rfl, -⟩ := Prod.mk.inj (pure_ok.mp hdb)
      exact hk.alterTable h hok halter
  | insert table columns values =>
      obtain ⟨ts, es, pk, key, hi⟩ := executeInsert_ok hx
      rw [hi.result]
      exact h.setTree hi.schema (hk.insert hok (h.each table ts es hi.schema hi.btree) hi)
  | update table assignments clause =>
      obtain ⟨ts, es, pkIndex, rows, us, hu⟩ := executeUpdate_ok hx
      rw [hu.result]
      exact h.setTree hu.schema (hk.update hok (h.each table ts es hu.schema hu.btree) hu)
  | delete table clause =>
      obtain ⟨ts, es, rows, hts, hes, -, rfl, -⟩ := executeDelete_ok hx
      exact h.setTree hts (hk.delete (h.each table ts es hts hes) (foldl_delete_sublist rows es))

/-- The run. -/
theorem all_reaches (hk : Keeps ext put ok P) {s : SqlState}
    (hs : Transition.Reaches (SqlState.Step ext put) (SqlState.When ok) .init s) :
    s.tables.All P :=
  SqlState.tables_invariant Tables.All.empty (fun _ _ _ _ => hk.all_statement) hs

end Keeps

/-! ## What a tree keeps -/

/-- An insert adds its row, and under a free key it does nothing else. -/
structure LawfulPut (put : Put) : Prop where
  mem : ∀ {es key row e}, e ∈ put es key row → e = (key, row) ∨ e ∈ es
  fresh : ∀ {es key row}, key ∉ keys es → put es key row = insert es key row

theorem lawful_insert : LawfulPut insert := ⟨mem_insert.mp, fun _ => rfl⟩

theorem lawful_replace : LawfulPut replace :=
  ⟨fun h => (mem_replace.mp h).imp id And.left, replace_of_notMem⟩

/-- What is in the tree while the rows `rest` are still to be rewritten: they, and
rewritten rows. -/
theorem rewriteAll_rest {put : Put} (hput : LawfulPut put) (f : Row → Row) {all : RowMap} :
    ∀ {rest : List (Int64 × Row)} {es : RowMap}, (∀ e ∈ rest, e ∈ all) → (keys es).Nodup →
      (∀ e ∈ es, e ∈ rest ∨ ∃ e' ∈ all, e = (e'.1, (f e'.2).stored)) →
      (keys (rewriteAll put f es rest)).Nodup ∧
        ∀ e ∈ rewriteAll put f es rest, ∃ e' ∈ all, e = (e'.1, (f e'.2).stored)
  | [], es, _, hnd, h => ⟨hnd, fun e he => (h e he).resolve_left (by simp)⟩
  | x :: rest, es, hall, hnd, h => by
      have hrest : ∀ e ∈ rest, e ∈ all := fun e he => hall e (List.mem_cons_of_mem _ he)
      have hfresh : put (delete es x.1) x.1 (f x.2).stored =
        insert (delete es x.1) x.1 (f x.2).stored := hput.fresh (notMem_keys_delete hnd)
      have hstep : ∀ e ∈ insert (delete es x.1) x.1 (f x.2).stored,
          e ∈ rest ∨ ∃ e' ∈ all, e = (e'.1, (f e'.2).stored) := by
        intro e he
        rcases mem_insert.mp he with rfl | he
        · exact Or.inr ⟨x, hall x List.mem_cons_self, rfl⟩
        · rcases h e (mem_of_mem_delete he) with hr | hr
          · rcases List.mem_cons.mp hr with rfl | hr
            · exact absurd rfl (key_ne_of_mem_delete hnd he)
            · exact Or.inl hr
          · exact Or.inr hr
      have hih := rewriteAll_rest hput f hrest (nodup_move hnd (Or.inl rfl)) hstep
      rw [← hfresh] at hih
      exact (hih :)

/-- With distinct keys, every row is rewritten. -/
theorem rewriteAll_mem {put : Put} (hput : LawfulPut put) (f : Row → Row) {es : RowMap}
    (hnd : (keys es).Nodup) : (keys (rewriteAll put f es es)).Nodup ∧
      ∀ e ∈ rewriteAll put f es es, ∃ e' ∈ es, e = (e'.1, (f e'.2).stored) :=
  rewriteAll_rest hput f (fun _ he => he) hnd fun _ he => Or.inl he

theorem replaceAll_mem {put : Put} (hput : LawfulPut put) :
    ∀ {us : List RowUpdate} {es : RowMap} {e : Int64 × Row}, e ∈ replaceAll put es us →
      e ∈ es ∨ ∃ u ∈ us, e = (u.newKey, u.updated.stored)
  | [], es, e, h => Or.inl h
  | u :: us, es, e, h => by
      have hih : e ∈ put (delete es u.key) u.newKey u.updated.stored ∨
        ∃ v ∈ us, e = (v.newKey, v.updated.stored) := replaceAll_mem hput h
      rcases hih with he | ⟨v, hv, he⟩
      · rcases hput.mem he with rfl | he
        · exact Or.inr ⟨u, List.mem_cons_self, rfl⟩
        · exact Or.inl (mem_of_mem_delete he)
      · exact Or.inr ⟨v, List.mem_cons_of_mem _ hv, he⟩

/-! ## As read back from storage -/

theorem Row.stored_stored (row : Row) : row.stored.stored = row.stored := by
  simp only [Row.stored, Row.mk.injEq, List.map_map]
  refine List.map_congr_left fun v _ => ?_
  cases v <;> rfl

section

variable {ext : Externals} {put : Put} {ok : Tables RowMap → Statement → Prop}

theorem rewriteAll_stored (hput : LawfulPut put) {f : Row → Row} : ∀ {rest es : RowMap},
    (∀ e ∈ es, e.2.stored = e.2) → ∀ e ∈ rewriteAll put f es rest, e.2.stored = e.2
  | [], _, h => h
  | x :: rest, es, h => by
      have hstep : ∀ e ∈ put (delete es x.1) x.1 (f x.2).stored, e.2.stored = e.2 := by
        intro e he
        rcases hput.mem he with rfl | he
        · exact Row.stored_stored _
        · exact h e (mem_of_mem_delete he)
      exact (rewriteAll_stored hput hstep :)

/-- Every row of a tree is as it is read back. -/
theorem keeps_stored (hput : LawfulPut put) :
    Keeps ext put ok fun _ es => ∀ e ∈ es, e.2.stored = e.2 where
  create _ := by simp
  renameTable _ h := h
  renameColumn _ h _ := h
  addColumn _ h _ := rewriteAll_stored hput h
  dropColumn h _ := rewriteAll_stored hput h
  insert _ h _ e he := by
    rcases hput.mem he with rfl | he
    · exact Row.stored_stored _
    · exact h e he
  update _ h _ e he := by
    rcases replaceAll_mem hput he with he | ⟨u, _, rfl⟩
    · exact h e he
    · exact Row.stored_stored _
  delete h hs e he := h e (hs.subset he)

end

/-! ## Row by row -/

/-- A row fits its table: one value for each column, each allowed there. -/
def Fits (allowed : Column → Value → Prop) (ts : TableSchema) (row : Row) : Prop :=
  List.Forall₂ allowed ts.columns row.values

section Forall₂

variable {α β : Type} {R : α → β → Prop}

theorem forall₂_set {xs : List α} {ys : List β} (h : List.Forall₂ R xs ys) :
    ∀ {i : Nat} {y : β}, (∀ x, xs[i]? = some x → R x y) → List.Forall₂ R xs (ys.set i y) := by
  induction h with
  | nil =>
      intro i y _
      exact .nil
  | cons hxy hrest ih =>
      intro i y hR
      cases i with
      | zero => exact .cons (hR _ rfl) hrest
      | succ i => exact .cons hxy (ih hR)

theorem forall₂_eraseIdx {xs : List α} {ys : List β} (h : List.Forall₂ R xs ys) :
    ∀ i : Nat, List.Forall₂ R (xs.eraseIdx i) (ys.eraseIdx i) := by
  induction h with
  | nil =>
      intro i
      exact .nil
  | cons hxy hrest ih =>
      intro i
      cases i with
      | zero => exact hrest
      | succ i => exact .cons hxy (ih i)

theorem forall₂_modify {f : α → α} (hf : ∀ x y, R x y → R (f x) y) {xs : List α} {ys : List β}
    (h : List.Forall₂ R xs ys) : ∀ i : Nat, List.Forall₂ R (xs.modify i f) ys := by
  induction h with
  | nil =>
      intro i
      simp
  | cons hxy hrest ih =>
      intro i
      cases i with
      | zero => exact .cons (hf _ _ hxy) hrest
      | succ i => exact .cons hxy (ih i)

theorem forall₂_of_getElem? {xs : List α} {ys : List β} (hlen : xs.length = ys.length)
    (h : ∀ (i : Nat) x, xs[i]? = some x → ∃ y, ys[i]? = some y ∧ R x y) : List.Forall₂ R xs ys := by
  rw [List.forall₂_iff_get]
  refine ⟨hlen, fun i hi hi' => ?_⟩
  obtain ⟨y, hy, hR⟩ := h i _ (List.getElem?_eq_getElem hi)
  obtain ⟨_, rfl⟩ := List.getElem?_eq_some_iff.mp hy
  exact hR

end Forall₂

/-- What makes every row fit: how a value can come into a column. -/
structure FitRule (ext : Externals) (put : Put) (ok : Tables RowMap → Statement → Prop)
    (allowed : Column → Value → Prop) : Prop where
  renamed : ∀ {c v} name, allowed c v → allowed { c with name := name } v
  stored : ∀ {c v}, allowed c v → allowed c v.stored
  added : ∀ {db table column}, ok db (.alterTable table (.addColumn column)) → allowed column .null
  given : ∀ {ts name i c v}, ts.position name = some i → ts.columns[i]? = some c →
    checkValue ext ts name v = .ok () → allowed c v
  omitted : ∀ {db table columns values db' changes ts es pk key},
    ok db (.insert table columns values) →
    Inserted ext put table columns values db db' changes ts es pk key →
    ∀ {i c}, ts.columns[i]? = some c →
      (∀ name ∈ columns.getD (ts.columns.map Column.name), ts.position name ≠ some i) →
      allowed c .null
  assigned : ∀ {db table assignments clause db' changes ts es pkIndex rows us},
    ok db (.update table assignments clause) →
    UpdateDone ext put table assignments clause db db' changes ts es pkIndex rows us → rows ≠ [] →
    ∀ {name v i c}, (name, v) ∈ assignments → ts.position name = some i →
      ts.columns[i]? = some c → (c.notNull = true → v ≠ .null) → allowed c v

section

variable {ext : Externals} {put : Put} {ok : Tables RowMap → Statement → Prop}
  {allowed : Column → Value → Prop} {ts : TableSchema}

theorem Fits.stored {row : Row} (hr : FitRule ext put ok allowed) (h : Fits allowed ts row) :
    Fits allowed ts row.stored := by
  rw [Fits, Row.stored, List.forall₂_map_right_iff]
  exact List.Forall₂.imp (fun _ _ => hr.stored) h

/-- The values a table's INSERT names passed their checks. -/
theorem checkValue_of_mem : ∀ {nv : List (String × Value)}, checkValues ext ts nv = .ok () →
    ∀ e ∈ nv, checkValue ext ts e.1 e.2 = .ok ()
  | (name, value) :: nv, h, e, he => by
      obtain ⟨u, hfirst, hrest⟩ := bind_ok.mp h
      rcases List.mem_cons.mp he with rfl | he
      · exact hfirst
      · exact checkValue_of_mem hrest e he

theorem Inserted.fits {db db' : Tables RowMap} {table : String} {columns : Option (List String)}
    {values : List Value} {changes : List StagedChange} {es : RowMap} {pk : Column} {key : Int64}
    (hr : FitRule ext put ok allowed) (hok : ok db (.insert table columns values))
    (hi : Inserted ext put table columns values db db' changes ts es pk key) :
    Fits allowed ts (insertedRow ts columns values) := by
  refine forall₂_of_getElem? (by simp [insertedRow, fillRow_length]) fun i c hc => ?_
  have hlt : i < (List.replicate ts.columns.length Value.null).length := by
    simpa using (List.getElem?_eq_some_iff.mp hc).1
  rcases fillRow_value (namedValues ts columns values) hlt with ⟨e, he, hp, hv⟩ | ⟨hno, hv⟩
  · exact ⟨e.2, hv, hr.given hp hc (checkValue_of_mem hi.checked e he)⟩
  · refine ⟨.null, ?_, hr.omitted hok hi hc fun name hname => ?_⟩
    · rw [List.length_replicate] at hlt
      exact hv.trans (by simp [hlt])
    · have hmap : name ∈ (namedValues ts columns values).map Prod.fst := by
        rwa [namedValues, List.map_fst_zip (le_of_eq hi.counts)]
      obtain ⟨e, he, rfl⟩ := List.mem_map.mp hmap
      exact hno e he

theorem applyAssignments_fits {pkIndex : Nat} {assignments : List (String × Value)}
    {key newKey : Int64} {b b' : Bool} {row row' : Row}
    (hall : ∀ name v i c, (name, v) ∈ assignments → ts.position name = some i →
      ts.columns[i]? = some c → (c.notNull = true → v ≠ .null) → allowed c v)
    (hrow : Fits allowed ts row)
    (h : applyAssignments ext ts pkIndex key b row assignments = .ok (newKey, b', row')) :
    Fits allowed ts row' := by
  refine applyAssignments_invariant (J := fun _ _ r => Fits allowed ts r)
    (fun name value i _ _ r hmem hp hnull _ hr => ?_) hrow h
  have hset : Fits allowed ts ⟨r.values.set i value⟩ := by
    refine forall₂_set hr fun c hc => hall name value i c hmem hp hc fun hnn hv => ?_
    exact hnull ⟨by simp [hc, hnn], hv⟩
  exact ⟨fun _ => hset, fun _ _ _ => hset⟩

/-- A column no assignment resolves to keeps its value. -/
theorem applyAssignments_kept {pkIndex i : Nat} {assignments : List (String × Value)}
    {key newKey : Int64} {b b' : Bool} {row row' : Row}
    (hno : ∀ a ∈ assignments, ts.position a.1 ≠ some i)
    (h : applyAssignments ext ts pkIndex key b row assignments = .ok (newKey, b', row')) :
    row'.values[i]? = row.values[i]? := by
  refine applyAssignments_invariant (J := fun _ _ r => r.values[i]? = row.values[i]?)
    (fun name value j _ _ r hmem hp _ _ hr => ?_) rfl h
  have hji : j ≠ i := by
    rintro rfl
    exact hno _ hmem hp
  have hset : (r.values.set j value)[i]? = row.values[i]? := (List.getElem?_set_ne hji).trans hr
  exact ⟨fun _ => hset, fun _ _ _ => hset⟩

/-- On top of a property that keeps the keys distinct, every row fits. -/
theorem keeps_fits {N : TableSchema → RowMap → Prop} (hput : LawfulPut put)
    (hr : FitRule ext put ok allowed) (hN : Keeps ext put ok N)
    (hnd : ∀ {ts es}, N ts es → (keys es).Nodup) :
    Keeps ext put ok fun ts es => N ts es ∧ ∀ e ∈ es, Fits allowed ts e.2 where
  create hok := ⟨hN.create hok, by simp⟩
  renameTable name h := ⟨hN.renameTable name h.1, h.2⟩
  renameColumn i h hno :=
    ⟨hN.renameColumn i h.1 hno, fun e he => forall₂_modify (fun _ _ => hr.renamed _) (h.2 e he) i⟩
  addColumn hok h hno := by
    refine ⟨hN.addColumn hok h.1 hno, fun e he => ?_⟩
    obtain ⟨e', he', rfl⟩ := (rewriteAll_mem hput _ (hnd h.1)).2 e he
    exact Fits.stored hr (List.rel_append (h.2 e' he') (.cons (hr.added hok) .nil))
  dropColumn {ts es i} h hno := by
    refine ⟨hN.dropColumn h.1 hno, fun e he => ?_⟩
    obtain ⟨e', he', rfl⟩ := (rewriteAll_mem hput _ (hnd h.1)).2 e he
    exact Fits.stored hr (forall₂_eraseIdx (h.2 e' he') i)
  insert hok h hi := by
    refine ⟨hN.insert hok h.1 hi, fun e he => ?_⟩
    rcases hput.mem he with rfl | he
    · exact (hi.fits hr hok).stored hr
    · exact h.2 e he
  update hok h hu := by
    refine ⟨hN.update hok h.1 hu, fun e he => ?_⟩
    rcases replaceAll_mem hput he with he | ⟨u, hmem, rfl⟩
    · exact h.2 e he
    · obtain ⟨x, hx, hup⟩ := exists_of_forall₂ hu.computed hmem
      obtain ⟨b, happly, -⟩ := hup.computed
      refine Fits.stored hr (applyAssignments_fits (fun name v i c hmem hp hc hnn => ?_)
        (h.2 x ((chosenRows_sublist hu.chosen).subset hx)) happly)
      exact hr.assigned hok hu (List.ne_nil_of_mem hx) hmem hp hc hnn
  delete h hs := ⟨hN.delete h.1 hs, fun e he => h.2 e (hs.subset he)⟩

/-- Every row is as wide as its table. -/
theorem fitRule_any {put : Put} {ok : Tables RowMap → Statement → Prop} :
    FitRule ext put ok fun _ _ => True where
  renamed _ _ := trivial
  stored _ := trivial
  added _ := trivial
  given _ _ _ := trivial
  omitted _ _ _ _ _ _ := trivial
  assigned _ _ _ _ _ _ _ _ _ _ _ := trivial

theorem nodup_replaceAll : ∀ {us : List RowUpdate} {es : RowMap}, (keys es).Nodup →
    (keys (replaceAll replace es us)).Nodup
  | [], _, h => h
  | u :: us, es, h => by
      have hstep := nodup_replace (k := u.newKey) (v := u.updated.stored)
        (nodup_delete (k := u.key) h)
      exact (nodup_replaceAll hstep :)

/-- A map keeps its keys distinct. -/
theorem keeps_nodup : Keeps ext replace ok fun _ es => (keys es).Nodup where
  create _ := by simp
  renameTable _ h := h
  renameColumn _ h _ := h
  addColumn _ h _ := (rewriteAll_mem lawful_replace _ h).1
  dropColumn h _ := (rewriteAll_mem lawful_replace _ h).1
  insert _ h _ := nodup_replace h
  update _ h _ := nodup_replaceAll h
  delete h hs := h.sublist (hs.map _)

end

end VelociDB
