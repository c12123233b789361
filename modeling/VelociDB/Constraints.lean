/-
# NOT NULL and the dimension of vectors

Both are checked on the values a statement mentions, but on different sides: an INSERT
does not look at the NOT NULL columns it leaves out, and an UPDATE does not look at the
dimension of a vector.  Away from these two gaps every stored row meets both constraints.
-/
import VelociDB.TableInv

namespace VelociDB

open Multimap

variable {ext : Externals} {put : Put} {ts : TableSchema}

/-- NULL only where it may stand. -/
def NullOk (c : Column) (v : Value) : Prop := c.notNull = true → v ≠ .null

/-- A vector column holds NULL or a vector of its dimension. -/
def DimensionOk (c : Column) (v : Value) : Prop :=
  ∀ dim, c.dataType = .vector dim → v = .null ∨ ∃ w, v = .vector w ∧ w.length = dim.toNat

/-- What the checks of an INSERT establish for a value. -/
theorem checkValue_ok {name : String} {i : Nat} {c : Column} {v : Value}
    (hp : ts.position name = some i) (hc : ts.columns[i]? = some c)
    (h : checkValue ext ts name v = .ok ()) : NullOk c v ∧ DimensionOk c v := by
  unfold checkValue at h
  rw [find_of_position hp, hc] at h
  dsimp only at h
  split at h
  · cases h
  rename_i hnull
  refine ⟨fun hnn hv => hnull ⟨hnn, hv⟩, fun dim hdim => ?_⟩
  rw [hdim] at h
  cases v with
  | null => exact Or.inl rfl
  | vector w =>
      dsimp only at h
      split at h
      · rename_i hlen
        exact Or.inr ⟨w, rfl, hlen⟩
      · cases h
  | integer | float | real | text | blob => cases h

theorem stored_eq_null {v : Value} : v.stored = .null ↔ v = .null := by
  cases v <;> simp [Value.stored]

theorem DimensionOk.stored {c : Column} {v : Value} (h : DimensionOk c v) :
    DimensionOk c v.stored := by
  intro dim hdim
  rcases h dim hdim with rfl | ⟨w, rfl, hlen⟩
  · exact Or.inl rfl
  · exact Or.inr ⟨w, rfl, hlen⟩

/-! ## NOT NULL -/

/-- The condition on a statement: an INSERT names every NOT NULL column. -/
def FillsNotNull (db : Tables RowMap) (stmt : Statement) : Prop :=
  stmt.Parsed ∧
    match stmt with
    | .insert table columns _ => ∀ (ts : TableSchema) (i : Nat) (c : Column),
        db.schema[table]? = some ts → ts.columns[i]? = some c → c.notNull = true →
        ∃ name ∈ columns.getD (ts.columns.map Column.name), ts.position name = some i
    | _ => True

theorem fitRule_nullOk : FitRule ext put FillsNotNull NullOk where
  renamed _ h := h
  stored h hnn hv := h hnn (stored_eq_null.mp hv)
  added hok hnn := by
    rw [hok.1.2] at hnn
    cases hnn
  given hp hc h := (checkValue_ok hp hc h).1
  omitted hok hi i c hc hno hnn := by
    obtain ⟨name, hname, hp⟩ := hok.2 _ i c hi.schema hc hnn
    exact absurd hp (hno name hname)
  assigned _ _ _ _ _ _ _ _ _ _ hnn := hnn

/-- In every run that meets the condition, no row has NULL in a NOT NULL column. -/
theorem not_null_enforced {s : SqlState}
    (hs : Transition.Reaches (SqlState.Step ext replace) (SqlState.When FillsNotNull) .init s)
    {table : String} {es : RowMap} (hts : s.tables.schema[table]? = some ts)
    (hes : s.tables.btrees[table]? = some es) {e : Int64 × Row} (he : e ∈ es) {i : Nat}
    {c : Column} (hc : ts.columns[i]? = some c) (hnn : c.notNull = true) :
    ∃ v, e.2.values[i]? = some v ∧ v ≠ .null := by
  have hall := (keeps_fits lawful_replace fitRule_nullOk keeps_nodup id).all_reaches hs
  have hfit := (hall.each table ts es hts hes).2 e he
  obtain ⟨hi, rfl⟩ := List.getElem?_eq_some_iff.mp hc
  have hi' : i < e.2.values.length := hfit.length_eq ▸ hi
  exact ⟨_, List.getElem?_eq_getElem hi', hfit.get hi hi' hnn⟩

/-- `CREATE TABLE t (id INTEGER PRIMARY KEY, name TEXT NOT NULL)`. -/
def createNamed : Statement :=
  .createTable "t" [⟨"id", .integer, true, true, false⟩, ⟨"name", .text, false, true, false⟩]

/-- `INSERT INTO t (name, id) VALUES ('a', 1)`. -/
def insertNamed : Statement := .insert "t" (some ["name", "id"]) [.text "a", .integer 1]

/-- `INSERT INTO t (id) VALUES (1)`. -/
def insertUnnamed : Statement := .insert "t" (some ["id"]) [.integer 1]

theorem insertNamed_fills :
    SqlState.okStatements mute replace FillsNotNull [createNamed, insertNamed] .empty := by
  refine SqlState.okStatements_create ⟨trivial, trivial⟩
    ⟨⟨trivial, fun ts i c hts hc _ => ?_⟩, fun _ _ _ => trivial⟩
  obtain rfl : ts = ⟨"t", [⟨"id", .integer, true, true, false⟩,
    ⟨"name", .text, false, true, false⟩]⟩ := by simpa using hts.symm
  have hi : i < 2 := (List.getElem?_eq_some_iff.mp hc).1
  match i, hi with
  | 0, _ => exact ⟨"id", by decide, by decide⟩
  | 1, _ => exact ⟨"name", by decide, by decide⟩

theorem not_null_enforced_named : ∃ db,
    SqlState.runStatements mute replace [createNamed, insertNamed] .empty = .ok db ∧
      ∃ e v, (db.btrees["t"]?.bind List.head?) = some e ∧ e.2.values[1]? = some v ∧ v ≠ .null := by
  have hrun : (SqlState.runStatements mute replace [createNamed, insertNamed] .empty).toOption.map
      (fun db => (db.schema["t"]?, db.btrees["t"]?)) =
        some (some ⟨"t", [⟨"id", .integer, true, true, false⟩, ⟨"name", .text, false, true, false⟩]⟩,
          some [(1, ⟨[.integer 1, .text "a"]⟩)]) := by with_unfolding_all decide
  obtain ⟨db, hdb, hview⟩ := SqlState.of_runStatements hrun
  obtain ⟨hts, hes⟩ := Prod.mk.inj hview
  obtain ⟨v, hv, hne⟩ := not_null_enforced
    (SqlState.reaches_runStatements insertNamed_fills .refl hdb) hts hes List.mem_cons_self
    (i := 1) rfl rfl
  exact ⟨db, hdb, _, v, by rw [hes]; rfl, hv, hne⟩

/-- Left out of the column list, a NOT NULL column is stored as NULL. -/
theorem not_not_null_enforced : ¬ ∀ s : SqlState,
    Transition.Reaches (SqlState.Step mute replace)
      (SqlState.When fun _ stmt => stmt.Parsed) .init s →
    ∀ (table : String) (ts : TableSchema) (es : RowMap) (e : Int64 × Row) (i : Nat) (c : Column),
      s.tables.schema[table]? = some ts → s.tables.btrees[table]? = some es → e ∈ es →
      ts.columns[i]? = some c → c.notNull = true → e.2.values[i]? ≠ some .null := by
  intro hall
  have hrun : (SqlState.runStatements mute replace [createNamed, insertUnnamed] .empty).toOption.map
      (fun db => (db.schema["t"]?, db.btrees["t"]?)) =
        some (some ⟨"t", [⟨"id", .integer, true, true, false⟩, ⟨"name", .text, false, true, false⟩]⟩,
          some [(1, ⟨[.integer 1, .null]⟩)]) := by with_unfolding_all decide
  obtain ⟨db, hdb, hview⟩ := SqlState.of_runStatements hrun
  obtain ⟨hts, hes⟩ := Prod.mk.inj hview
  have hparsed : SqlState.okStatements mute replace (fun _ stmt => stmt.Parsed)
      [createNamed, insertUnnamed] .empty :=
    ⟨trivial, fun _ _ _ => ⟨trivial, fun _ _ _ => trivial⟩⟩
  exact hall _ (SqlState.reaches_runStatements hparsed .refl hdb) "t" _ _ _ 1 _ hts hes
    List.mem_cons_self rfl rfl rfl

/-! ## Dimensions -/

/-- The condition on a statement: an UPDATE that finds a row assigns a vector column NULL
or a vector of its dimension. -/
def AssignsDimension (ext : Externals) (db : Tables RowMap) : Statement → Prop
  | .update table assignments clause => ∀ (ts : TableSchema) (es : RowMap) rows name v i c,
      db.schema[table]? = some ts → db.btrees[table]? = some es →
      chosenRows ext ts es clause = .ok rows → rows ≠ [] → (name, v) ∈ assignments →
      ts.position name = some i → ts.columns[i]? = some c → DimensionOk c v
  | _ => True

theorem fitRule_dimensionOk : FitRule ext put (AssignsDimension ext) DimensionOk where
  renamed _ h := h
  stored h := h.stored
  added _ _ _ := Or.inl rfl
  given hp hc h := (checkValue_ok hp hc h).2
  omitted _ _ _ _ _ _ _ _ := Or.inl rfl
  assigned hok hu hne _ _ _ _ hmem hp hc _ :=
    hok _ _ _ _ _ _ _ hu.schema hu.btree hu.chosen hne hmem hp hc

/-- In every run that meets the condition, every value of a vector column is NULL or a
vector of the declared dimension. -/
theorem dimension_kept {s : SqlState}
    (hs : Transition.Reaches (SqlState.Step ext replace) (SqlState.When (AssignsDimension ext))
      .init s)
    {table : String} {es : RowMap} (hts : s.tables.schema[table]? = some ts)
    (hes : s.tables.btrees[table]? = some es) {e : Int64 × Row} (he : e ∈ es) {i : Nat}
    {c : Column} (hc : ts.columns[i]? = some c) {dim : UInt32} (hdim : c.dataType = .vector dim) :
    ∃ v, e.2.values[i]? = some v ∧
      (v = .null ∨ ∃ w, v = .vector w ∧ w.length = dim.toNat) := by
  have hall := (keeps_fits lawful_replace fitRule_dimensionOk keeps_nodup id).all_reaches hs
  have hfit := (hall.each table ts es hts hes).2 e he
  obtain ⟨hi, rfl⟩ := List.getElem?_eq_some_iff.mp hc
  have hi' : i < e.2.values.length := hfit.length_eq ▸ hi
  exact ⟨_, List.getElem?_eq_getElem hi', hfit.get hi hi' dim hdim⟩

/-- `CREATE TABLE t (id INTEGER PRIMARY KEY, emb VECTOR(2))`. -/
def createVectors : Statement :=
  .createTable "t" [⟨"id", .integer, true, true, false⟩, ⟨"emb", .vector 2, false, false, false⟩]

/-- `INSERT INTO t VALUES (1, vector32('[0, 0]'))`. -/
def insertVector : Statement := .insert "t" none [.integer 1, .vector [0, 0]]

/-- `UPDATE t SET emb = vector32(…)`. -/
def assignVector (w : List UInt32) : Statement := .update "t" [("emb", .vector w)] none

theorem assignVector_fits :
    SqlState.okStatements mute replace (AssignsDimension mute) [createVectors, insertVector,
      assignVector [1, 1]] .empty := by
  refine SqlState.okStatements_create trivial
    ⟨trivial, fun db changes h => ⟨fun ts es rows name v i c hts _ _ _ hmem hp hc => ?_,
      fun _ _ _ => trivial⟩⟩
  obtain ⟨ts', es', pk, key, hi⟩ := executeInsert_ok h
  rw [hi.result] at hts
  obtain rfl : ts = ⟨"t", [⟨"id", .integer, true, true, false⟩,
    ⟨"emb", .vector 2, false, false, false⟩]⟩ := by simpa using hts.symm
  obtain ⟨rfl, rfl⟩ := Prod.mk.inj (List.mem_singleton.mp hmem)
  obtain rfl : i = 1 := Option.some.inj (hp.symm.trans (by decide))
  obtain rfl := Option.some.inj hc
  rintro dim ⟨⟩
  exact Or.inr ⟨[1, 1], rfl, rfl⟩

theorem dimension_kept_assigned : ∃ db, SqlState.runStatements mute replace
      [createVectors, insertVector, assignVector [1, 1]] .empty = .ok db ∧
    ∃ e v, (db.btrees["t"]?.bind List.head?) = some e ∧ e.2.values[1]? = some v ∧
      (v = .null ∨ ∃ w, v = .vector w ∧ w.length = 2) := by
  have hrun : (SqlState.runStatements mute replace
      [createVectors, insertVector, assignVector [1, 1]] .empty).toOption.map
      (fun db => (db.schema["t"]?, db.btrees["t"]?)) =
        some (some ⟨"t", [⟨"id", .integer, true, true, false⟩,
          ⟨"emb", .vector 2, false, false, false⟩]⟩,
          some [(1, ⟨[.integer 1, .vector [1, 1]]⟩)]) := by with_unfolding_all decide
  obtain ⟨db, hdb, hview⟩ := SqlState.of_runStatements hrun
  obtain ⟨hts, hes⟩ := Prod.mk.inj hview
  obtain ⟨v, hv, hdim⟩ := dimension_kept
    (SqlState.reaches_runStatements assignVector_fits .refl hdb) hts hes List.mem_cons_self
    (i := 1) rfl rfl
  exact ⟨db, hdb, _, v, by rw [hes]; rfl, hv, hdim⟩

/-- An UPDATE stores a vector of any dimension. -/
theorem not_dimension_kept : ¬ ∀ s : SqlState,
    Transition.Reaches (SqlState.Step mute replace)
      (SqlState.When fun _ stmt => stmt.Parsed) .init s →
    ∀ (table : String) (ts : TableSchema) (es : RowMap) (e : Int64 × Row) (i : Nat) (c : Column)
      (dim : UInt32) (v : Value),
      s.tables.schema[table]? = some ts → s.tables.btrees[table]? = some es → e ∈ es →
      ts.columns[i]? = some c → c.dataType = .vector dim → e.2.values[i]? = some v →
      v = .null ∨ ∃ w, v = .vector w ∧ w.length = dim.toNat := by
  intro hall
  have hrun : (SqlState.runStatements mute replace
      [createVectors, insertVector, assignVector [1]] .empty).toOption.map
      (fun db => (db.schema["t"]?, db.btrees["t"]?)) =
        some (some ⟨"t", [⟨"id", .integer, true, true, false⟩,
          ⟨"emb", .vector 2, false, false, false⟩]⟩,
          some [(1, ⟨[.integer 1, .vector [1]]⟩)]) := by with_unfolding_all decide
  obtain ⟨db, hdb, hview⟩ := SqlState.of_runStatements hrun
  obtain ⟨hts, hes⟩ := Prod.mk.inj hview
  have hparsed : SqlState.okStatements mute replace (fun _ stmt => stmt.Parsed)
      [createVectors, insertVector, assignVector [1]] .empty :=
    ⟨trivial, fun _ _ _ => ⟨trivial, fun _ _ _ => ⟨trivial, fun _ _ _ => trivial⟩⟩⟩
  have hbad := hall _ (SqlState.reaches_runStatements hparsed .refl hdb) "t" _ _ _ 1 _ 2 _ hts hes
    List.mem_cons_self rfl rfl rfl
  simp at hbad

end VelociDB
