/-
# A query beside ALTER TABLE (`executor.rs`)

SELECT takes a shared lock on its table, ALTER TABLE takes none, so their steps interleave:

    query   clone    the schema of the table, under the schema lock
            read     the rows, under the B-tree lock
    ALTER   rewrite  every row, under the B-tree lock
            update   the schema of the table, under the schema lock

RENAME COLUMN has nothing to rewrite.  A query that clones the old schema and reads the new
rows fits neither; it can index a row beyond its width.  It answers as before or as after
the ALTER when the rewrite does not come between its two steps, and its clone not between
the two steps of the ALTER.
-/
import VelociDB.QuerySteps
import VelociDB.Lib.Transition

namespace VelociDB

open Multimap

/-- The actions of ALTER TABLE on a column. -/
inductive ColumnEdit where
  | rename (oldName newName : String)
  | add (column : Column)
  | drop (name : String)

/-- As an action of ALTER TABLE. -/
def ColumnEdit.action : ColumnEdit → AlterAction
  | .rename oldName newName => .renameColumn oldName newName
  | .add column => .addColumn column
  | .drop name => .dropColumn name

/-- RENAME COLUMN. -/
def ColumnEdit.isRename : ColumnEdit → Bool
  | .rename _ _ => true
  | _ => false

/-- What is left to do to the schema once the rows are rewritten. -/
inductive SchemaEdit where
  | rename (oldName newName : String)
  | push (column : Column)
  | remove (i : Nat)

/-- The checks of ALTER TABLE and the rewrite of the rows. -/
def alterRows (table : String) (db : Tables RowMap) :
    ColumnEdit → Except Fault (Tables RowMap × SchemaEdit)
  | .rename oldName newName => .ok (db, .rename oldName newName)
  | .add column => do
      let ts ← getTable db.schema table
      errIf (∃ c ∈ ts.columns, c.name = column.name)
        (.constraintViolation s!"Column '{column.name}' already exists in table '{table}'")
      let tree ← getTree db table
      let rows ← multimaps.scan tree
      let tree ← rewriteRows multimaps (fun row => ⟨row.values ++ [.null]⟩) tree rows
      return ({ db with btrees := db.btrees.insert table tree }, .push column)
  | .drop name => do
      let ts ← getTable db.schema table
      match ts.position name with
      | none => fail (.notFound s!"Column '{name}' not found in table '{table}'")
      | some i =>
          errIf (ts.columns[i]?.any Column.primaryKey)
            (.constraintViolation "Cannot drop the primary key column")
          let tree ← getTree db table
          let rows ← multimaps.scan tree
          let tree ← rewriteRows multimaps (fun row => ⟨row.values.eraseIdx i⟩) tree rows
          return ({ db with btrees := db.btrees.insert table tree }, .remove i)

/-- The update of the schema, under its write lock. -/
def alterSchema (table : String) (db : Tables RowMap) : SchemaEdit → Except Fault (Tables RowMap)
  | .rename oldName newName => do
      let ts ← getTable db.schema table
      errIf (∃ c ∈ ts.columns, c.name = newName)
        (.constraintViolation s!"Column '{newName}' already exists in table '{table}'")
      match ts.position oldName with
      | none => fail (.notFound s!"Column '{oldName}' not found in table '{table}'")
      | some i =>
          let columns := ts.columns.modify i fun c => { c with name := newName }
          return { db with schema := db.schema.insert table { ts with columns := columns } }
  | .push column => do
      let ts ← getTable db.schema table
      return { db with schema := db.schema.insert table { ts with columns := ts.columns ++ [column] } }
  | .remove i => do
      let ts ← getTable db.schema table
      return { db with schema := db.schema.insert table { ts with columns := ts.columns.eraseIdx i } }

variable {table : String} {db db' : Tables RowMap} {edit : ColumnEdit}

/-- The two steps one after the other are `execute_alter_table`. -/
theorem executeAlterTable_eq : executeAlterTable multimaps table edit.action db =
    alterRows table db edit >>= fun r => alterSchema table r.1 r.2 := by
  cases edit with
  | rename oldName newName => rfl
  | add column =>
      cases hts : (getTable db.schema table : Except Fault TableSchema) with
      | error e => simp only [ColumnEdit.action, executeAlterTable, alterRows, hts]; rfl
      | ok ts =>
          have hpure : (getTable db.schema table : Except Fault TableSchema) = pure ts := hts
          simp only [ColumnEdit.action, executeAlterTable, alterRows, hpure, alterSchema, bind_assoc,
            pure_bind]
  | drop name =>
      cases hts : (getTable db.schema table : Except Fault TableSchema) with
      | error e => simp only [ColumnEdit.action, executeAlterTable, alterRows, hts]; rfl
      | ok ts =>
          simp only [ColumnEdit.action, executeAlterTable, alterRows, hts]
          show (match ts.position name with
            | none => _
            | some i => _) = (match ts.position name with
            | none => _
            | some i => _) >>= _
          cases ts.position name with
          | none => rfl
          | some i =>
              simp only [alterSchema, hts, bind_assoc, pure_bind]
              rfl

/-! ## The steps of both -/

/-- Where a query is. -/
inductive QueryPhase where
  | start
  | cloned (ts : TableSchema)
  | done (result : Except Fault QueryResult)

/-- Where an ALTER TABLE is. -/
inductive AlterPhase where
  | start
  | rewritten (e : SchemaEdit)
  | done

/-- Between its two steps. -/
def QueryPhase.isCloned : QueryPhase → Bool
  | .cloned _ => true
  | _ => false

/-- Between its two steps. -/
def AlterPhase.isRewritten : AlterPhase → Bool
  | .rewritten _ => true
  | _ => false

/-- One query and one ALTER TABLE on its table. -/
structure AlterRace where
  db : Tables RowMap
  query : QueryPhase
  alter : AlterPhase

namespace AlterRace

/-- Whose turn it is. -/
inductive Act where
  | clone
  | read
  | rewrite
  | update

variable (ext : Externals) (vec : VectorFns) (q : SelectQuery) (edit : ColumnEdit)

/-- One step.  An ALTER whose checks fail has no further step. -/
def step (s : AlterRace) : Act → Option AlterRace
  | .clone =>
      match s.query with
      | .start =>
          match q.clone s.db with
          | .ok ts => some { s with query := .cloned ts }
          | .error e => some { s with query := .done (.error e) }
      | _ => none
  | .read =>
      match s.query with
      | .cloned ts => some { s with query := .done (q.read ext vec ts s.db) }
      | _ => none
  | .rewrite =>
      match s.alter, alterRows q.table s.db edit with
      | .start, .ok (db, e) => some { s with db := db, alter := .rewritten e }
      | _, _ => none
  | .update =>
      match s.alter with
      | .rewritten e =>
          match alterSchema q.table s.db e with
          | .ok db => some { s with db := db, alter := .done }
          | .error _ => none
      | _ => none

/-- RENAME COLUMN, or: no rewrite between the two steps of the query, and no clone between
the two steps of the ALTER. -/
def Apart (s : AlterRace) (a : Act) : Prop :=
  edit.isRename ∨
    match a with
    | .rewrite => ¬ s.query.isCloned
    | .clone => ¬ s.alter.isRewritten
    | _ => True

instance (s : AlterRace) : (a : Act) → Decidable (Apart edit s a)
  | .rewrite => inferInstanceAs (Decidable (_ ∨ ¬ _))
  | .clone => inferInstanceAs (Decidable (_ ∨ ¬ _))
  | .read | .update => inferInstanceAs (Decidable (_ ∨ True))

variable {ext vec q edit} {s s' : AlterRace} {a : Act} {db₀ : Tables RowMap}

theorem btrees_alterSchema {e : SchemaEdit} (h : alterSchema table db e = .ok db') :
    db'.btrees = db.btrees := by
  cases e with
  | rename oldName newName =>
      obtain ⟨ts, -, h⟩ := bind_ok.mp h
      obtain ⟨-, -, h⟩ := bind_ok.mp h
      split at h
      · exact (fail_ok.mp h).elim
      · rw [← pure_ok.mp h]
  | push column =>
      obtain ⟨ts, -, h⟩ := bind_ok.mp h
      rw [← pure_ok.mp h]
  | remove i =>
      obtain ⟨ts, -, h⟩ := bind_ok.mp h
      rw [← pure_ok.mp h]

/-- RENAME COLUMN leaves the rows alone. -/
theorem eq_of_isRename {e : SchemaEdit} (hrename : edit.isRename)
    (h : alterRows table db edit = .ok (db', e)) : db' = db := by
  cases edit with
  | rename oldName newName => exact (Prod.mk.inj (Except.ok.inj h)).1.symm
  | add | drop => cases hrename

/-- The answer of the query before the ALTER, or after it. -/
def Answers (ext : Externals) (vec : VectorFns) (q : SelectQuery) (edit : ColumnEdit)
    (db₀ : Tables RowMap) (result : Except Fault QueryResult) : Prop :=
  result = q.run ext vec db₀ ∨
    ∃ db₁, executeAlterTable multimaps q.table edit.action db₀ = .ok db₁ ∧ result = q.run ext vec db₁

/-- What holds when the steps stay apart. -/
structure Inv (ext : Externals) (vec : VectorFns) (q : SelectQuery) (edit : ColumnEdit)
    (db₀ : Tables RowMap) (s : AlterRace) : Prop where
  start : s.alter = .start → s.db = db₀
  rewritten : ∀ e, s.alter = .rewritten e → alterRows q.table db₀ edit = .ok (s.db, e)
  done : s.alter = .done → executeAlterTable multimaps q.table edit.action db₀ = .ok s.db
  cloned : ∀ ts, s.query = .cloned ts →
    (q.clone db₀ = .ok ts ∧ s.db.btrees[q.table]? = db₀.btrees[q.table]?) ∨
      (s.alter = .done ∧ q.clone s.db = .ok ts)
  answered : ∀ result, s.query = .done result → Answers ext vec q edit db₀ result

theorem inv_init : Inv ext vec q edit db₀ ⟨db₀, .start, .start⟩ where
  start _ := rfl
  rewritten _ h := by cases h
  done h := by cases h
  cloned _ h := by cases h
  answered _ h := by cases h

/-- A query that starts sees the old tables or the new ones. -/
theorem Inv.fresh (h : Inv ext vec q edit db₀ s) (hok : Apart edit s .clone) :
    s.db = db₀ ∨ (s.alter = .done ∧ executeAlterTable multimaps q.table edit.action db₀ = .ok s.db) := by
  cases halter : s.alter with
  | start => exact Or.inl (h.start halter)
  | rewritten e =>
      rcases hok with hrename | hno
      · exact Or.inl (eq_of_isRename hrename (h.rewritten e halter))
      · exact absurd (by rw [halter]; rfl) hno
  | done => exact Or.inr ⟨rfl, h.done halter⟩

theorem Inv.step (h : Inv ext vec q edit db₀ s) (hok : Apart edit s a)
    (hx : s.step ext vec q edit a = some s') : Inv ext vec q edit db₀ s' := by
  cases a with
  | clone =>
      simp only [AlterRace.step] at hx
      split at hx
      · cases hclone : q.clone s.db with
        | ok ts =>
            rw [hclone] at hx
            obtain rfl := Option.some.inj hx
            refine ⟨h.start, h.rewritten, h.done, fun ts' hts => ?_, fun _ hr => by cases hr⟩
            obtain rfl := QueryPhase.cloned.inj hts
            rcases h.fresh hok with hdb | ⟨hdone, -⟩
            · exact Or.inl ⟨hdb ▸ hclone, by rw [hdb]⟩
            · exact Or.inr ⟨hdone, hclone⟩
        | error e =>
            rw [hclone] at hx
            obtain rfl := Option.some.inj hx
            refine ⟨h.start, h.rewritten, h.done, fun _ hts => (by cases hts), fun r hr => ?_⟩
            obtain rfl := QueryPhase.done.inj hr
            rcases h.fresh hok with hdb | ⟨-, hdb⟩
            · exact Or.inl (SelectQuery.run_of_clone_error (hdb ▸ hclone)).symm
            · exact Or.inr ⟨s.db, hdb, (SelectQuery.run_of_clone_error hclone).symm⟩
      · cases hx
  | read =>
      simp only [AlterRace.step] at hx
      split at hx
      · rename_i ts hquery
        obtain rfl := Option.some.inj hx
        refine ⟨h.start, h.rewritten, h.done, fun _ hts => (by cases hts), fun r hr => ?_⟩
        obtain rfl := QueryPhase.done.inj hr
        rcases h.cloned ts hquery with ⟨hclone, hrows⟩ | ⟨hdone, hclone⟩
        · refine Or.inl ?_
          rw [SelectQuery.run_of_clone hclone]
          exact SelectQuery.read_congr hrows
        · exact Or.inr ⟨s.db, h.done hdone, (SelectQuery.run_of_clone hclone).symm⟩
      · cases hx
  | rewrite =>
      simp only [AlterRace.step] at hx
      split at hx
      · rename_i db e hstart hrows
        obtain rfl := Option.some.inj hx
        rw [h.start hstart] at hrows
        refine ⟨fun hs => (by cases hs), fun e' he => ?_, fun hd => (by cases hd), fun ts hts => ?_,
          h.answered⟩
        · obtain rfl := AlterPhase.rewritten.inj he
          exact hrows
        · rcases hok with hrename | hno
          · rcases h.cloned ts hts with ⟨hclone, -⟩ | ⟨hdone, -⟩
            · exact Or.inl ⟨hclone, by rw [eq_of_isRename hrename hrows]⟩
            · rw [hstart] at hdone
              cases hdone
          · exact absurd (by rw [hts]; rfl) hno
      · cases hx
  | update =>
      simp only [AlterRace.step] at hx
      split at hx
      · rename_i e halter
        split at hx
        · rename_i db hschema
          obtain rfl := Option.some.inj hx
          have hrows := h.rewritten e halter
          refine ⟨fun hs => (by cases hs), fun _ he => (by cases he), fun _ => ?_, fun ts hts => ?_,
            h.answered⟩
          · rw [executeAlterTable_eq, hrows]
            exact hschema
          · rcases h.cloned ts hts with ⟨hclone, hsame⟩ | ⟨hdone, -⟩
            · refine Or.inl ⟨hclone, ?_⟩
              rw [← hsame, ← btrees_alterSchema hschema]
            · rw [halter] at hdone
              cases hdone
        · cases hx
      · cases hx

/-- Distinct keys, and every row as wide as the schema. -/
def RowsFit (table : String) (db : Tables RowMap) : Prop :=
  ∀ ts es, db.schema[table]? = some ts → db.btrees[table]? = some es →
    (keys es).Nodup ∧ ∀ e ∈ es, e.2.values.length = ts.columns.length

/-- ALTER TABLE keeps rows and schema at the same width. -/
theorem RowsFit.alter (h : RowsFit table db)
    (hx : executeAlterTable multimaps table edit.action db = .ok db') : RowsFit table db' := by
  intro ts' es' hts' hes'
  cases edit with
  | rename oldName newName =>
      obtain ⟨ts, i, hts, -, -, rfl⟩ := renameColumn_ok hx
      obtain rfl := Option.some.inj (Std.ExtTreeMap.getElem?_insert_self.symm.trans hts')
      obtain ⟨hnd, hwide⟩ := h ts es' hts hes'
      exact ⟨hnd, fun e he => (hwide e he).trans (List.length_modify ..).symm⟩
  | add column =>
      obtain ⟨ts, es, hts, hes, -, rfl⟩ := addColumn_ok hx
      obtain rfl := Option.some.inj (Std.ExtTreeMap.getElem?_insert_self.symm.trans hts')
      obtain rfl := Option.some.inj (Std.ExtTreeMap.getElem?_insert_self.symm.trans hes')
      obtain ⟨hnd, hwide⟩ := h ts es hts hes
      obtain ⟨hnd', hrows⟩ := rewriteAll_mem lawful_insert (fun row => ⟨row.values ++ [.null]⟩) hnd
      refine ⟨hnd', fun e he => ?_⟩
      obtain ⟨e', he', rfl⟩ := hrows e he
      simp [Row.stored, hwide e' he']
  | drop name =>
      obtain ⟨ts, es, i, hts, hes, hi, -, rfl⟩ := dropColumn_ok hx
      obtain rfl := Option.some.inj (Std.ExtTreeMap.getElem?_insert_self.symm.trans hts')
      obtain rfl := Option.some.inj (Std.ExtTreeMap.getElem?_insert_self.symm.trans hes')
      obtain ⟨hnd, hwide⟩ := h ts es hts hes
      obtain ⟨hnd', hrows⟩ := rewriteAll_mem lawful_insert (fun row => ⟨row.values.eraseIdx i⟩) hnd
      refine ⟨hnd', fun e he => ?_⟩
      obtain ⟨e', he', rfl⟩ := hrows e he
      simp [Row.stored, List.length_eraseIdx, hwide e' he']

theorem RowsFit.run_safe (h : RowsFit q.table db) : Safe (q.run ext vec db) :=
  SelectQuery.run_safe fun ts es hts hes e he => ((h ts es hts hes).2 e he).symm.le

/-- In every interleaving whose steps stay apart the query answers as before or as after the
ALTER, and on tables whose rows fit it indexes no row beyond its width. -/
theorem select_beside_alter {result : Except Fault QueryResult}
    (hs : Transition.Reaches (Transition.Via (step ext vec q edit)) (Apart edit)
      ⟨db₀, .start, .start⟩ s)
    (hdone : s.query = .done result) :
    Answers ext vec q edit db₀ result ∧
      (RowsFit q.table db₀ → Safe result) := by
  have hinv : Inv ext vec q edit db₀ s :=
    Transition.Reaches.invariant inv_init (fun _ _ _ h hok hx => h.step hok hx) hs
  have hanswer := hinv.answered result hdone
  refine ⟨hanswer, fun hfit => ?_⟩
  rcases hanswer with rfl | ⟨db₁, hx, rfl⟩
  · exact hfit.run_safe
  · exact (hfit.alter hx).run_safe

/-- `CREATE TABLE t (id INTEGER PRIMARY KEY, a INTEGER, b INTEGER)` and one row. -/
def wideTable : List Statement :=
  [.createTable "t" [⟨"id", .integer, true, true, false⟩, ⟨"a", .integer, false, false, false⟩,
      ⟨"b", .integer, false, false, false⟩],
    .insert "t" none [.integer 1, .integer 10, .integer 20]]

/-- `SELECT * FROM t WHERE b = 20`. -/
def selectByB : SelectQuery := ⟨"t", ["*"], some ⟨[⟨"b", .equal, .integer 20⟩]⟩, none, none⟩

/-- The query runs before the ALTER. -/
theorem select_beside_alter_first : ∃ db₀ s result,
    SqlState.runStatements mute insert wideTable .empty = .ok db₀ ∧
    Transition.runActions (step mute noVectors selectByB (.drop "a")) (Apart (.drop "a"))
      ⟨db₀, .start, .start⟩ [.clone, .read, .rewrite, .update] = some s ∧
    s.query = .done result ∧ Answers mute noVectors selectByB (.drop "a") db₀ result := by
  obtain ⟨db₀, hdb₀, hrun⟩ : ∃ db₀, SqlState.runStatements mute insert wideTable .empty = .ok db₀ ∧
      (Transition.runActions (step mute noVectors selectByB (.drop "a")) (Apart (.drop "a"))
        ⟨db₀, .start, .start⟩ [.clone, .read, .rewrite, .update]).any (fun s =>
          match s.query with
          | .done _ => true
          | _ => false) = true := by
    refine SqlState.of_runStatements ?_
    with_unfolding_all decide
  obtain ⟨s, hs, hdone⟩ := Option.any_eq_true .. |>.mp hrun
  split at hdone
  · rename_i result hquery
    have hreach := Transition.reaches_of_runActions _ .refl hs
    exact ⟨db₀, s, result, hdb₀, hs, hquery, (select_beside_alter hreach hquery).1⟩
  · cases hdone

/-- The query has panicked. -/
def panicked (s : AlterRace) : Bool :=
  match s.query with
  | .done (.error .panic) => true
  | _ => false

/-- DROP COLUMN between the two steps of a query: it looks for `b` where no value is. -/
theorem not_select_beside_alter : ¬ ∀ (db₀ : Tables RowMap) (s : AlterRace)
    (result : Except Fault QueryResult),
    SqlState.runStatements mute insert wideTable .empty = .ok db₀ →
    Transition.Reaches (Transition.Via (step mute noVectors selectByB (.drop "a"))) Transition.Any
      ⟨db₀, .start, .start⟩ s →
    s.query = .done result →
    Answers mute noVectors selectByB (.drop "a") db₀ result ∧ Safe result := by
  intro hall
  obtain ⟨db₀, hdb₀, hrun⟩ : ∃ db₀, SqlState.runStatements mute insert wideTable .empty = .ok db₀ ∧
      (Transition.runActions (step mute noVectors selectByB (.drop "a")) Transition.Any
        ⟨db₀, .start, .start⟩ [.clone, .rewrite, .read]).any panicked = true := by
    refine SqlState.of_runStatements ?_
    with_unfolding_all decide
  obtain ⟨s, hs, hpanic⟩ := Option.any_eq_true .. |>.mp hrun
  unfold panicked at hpanic
  split at hpanic
  · rename_i hquery
    have hreach := Transition.reaches_of_runActions _ .refl hs
    exact (hall db₀ s _ hdb₀ hreach hquery).2 rfl
  · cases hpanic

end AlterRace

end VelociDB
