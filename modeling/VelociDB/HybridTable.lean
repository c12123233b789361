/-
# Column projections (`hybrid_storage.rs`)

`HybridTable` keeps its rows in a map and builds a column out of them on demand.  A column is
a vector of one type, the type of the first value found in it, and is kept for the next call.

    insert_row               drops the kept columns, in the hybrid layout only
    get_column_projection    a kept column, or one vector entry for each row: a value of
                             another type becomes NULL, and a NULL in front is no type at all

`Shows` is what a projection should be: the column of the rows as they are.  The three places
where it goes wrong are the three parts of `Meets`.
-/
import VelociDB.Types
import VelociDB.Lib.Transition

namespace VelociDB

open Transition

/-- `StorageLayout`. -/
inductive StorageLayout where
  | rowMajor
  | columnMajor
  | hybrid
  deriving DecidableEq, Repr

/-- `VectorColumn`. -/
inductive VectorColumn where
  | integer (values : List Int64)
  | real (values : List UInt64)
  | text (values : List String)
  | null (count : ℕ)
  deriving DecidableEq

/-- `ColumnStorage`. -/
structure ColumnStorage where
  name : String
  data : VectorColumn
  nullBitmap : List Bool
  deriving DecidableEq

namespace ColumnStorage

def fromIntegers (name : String) (values : List Int64) (nulls : List Bool) : ColumnStorage :=
  ⟨name, .integer values, nulls⟩

def fromReals (name : String) (values : List UInt64) (nulls : List Bool) : ColumnStorage :=
  ⟨name, .real values, nulls⟩

def fromText (name : String) (values : List String) (nulls : List Bool) : ColumnStorage :=
  ⟨name, .text values, nulls⟩

/-- `ColumnStorage::get`. -/
def get (col : ColumnStorage) (index : ℕ) : Option Value :=
  if col.nullBitmap.length ≤ index then none
  else if col.nullBitmap.getD index false then some .null
  else
    match col.data with
    | .integer vec => vec[index]?.map .integer
    | .real vec => vec[index]?.map .real
    | .text vec => vec[index]?.map .text
    | .null _ => some .null

def len (col : ColumnStorage) : ℕ := col.nullBitmap.length

end ColumnStorage

/-- `HybridTable`.  A `RowRecord` repeats the key it is stored under. -/
structure HybridTable where
  columns : List Column
  rowStore : Std.ExtTreeMap Int64 (List Value)
  columnStore : Std.ExtTreeMap String ColumnStorage
  layout : StorageLayout

namespace HybridTable

def new (columns : List Column) (layout : StorageLayout) : HybridTable := ⟨columns, ∅, ∅, layout⟩

def insertRow (t : HybridTable) (key : Int64) (values : List Value) : HybridTable :=
  { t with
    rowStore := t.rowStore.insert key values
    columnStore := if t.layout = .hybrid then ∅ else t.columnStore }

/-- The rows, sorted by key. -/
def sortedRows (t : HybridTable) : List (List Value) :=
  t.rowStore.keys.map fun key => t.rowStore[key]?.getD []

/-- `columns.iter().position(..)` -/
def columnIdx (t : HybridTable) (columnName : String) : Option ℕ :=
  t.columns.findIdx? fun c => c.name = columnName

/-- The first value in the column. -/
def firstValue (t : HybridTable) (idx : ℕ) : Option Value := t.sortedRows.findSome? fun r => r[idx]?

/-- The entry of a row: its value if it has the type, or a filler that is marked NULL. -/
def entry {α : Type} (pick : Value → Option α) (filler : α) (value : Option Value) : α × Bool :=
  match value.bind pick with
  | some v => (v, false)
  | none => (filler, true)

/-- The entries of all rows, as the vector and the NULL marks. -/
def entries {α : Type} (pick : Value → Option α) (filler : α) (rows : List (List Value)) (idx : ℕ) :
    List α × List Bool :=
  (rows.map fun r => entry pick filler r[idx]?).unzip

def pickInteger : Value → Option Int64
  | .integer v => some v
  | _ => none

def pickReal : Value → Option UInt64
  | .real v => some v
  | _ => none

def pickText : Value → Option String
  | .text v => some v
  | _ => none

/-- The column, with the type of `first`; `debug` is its `{:?}`. -/
def materialize (debug : Value → String) (columnName : String) (rows : List (List Value)) (idx : ℕ)
    (first : Value) : Except VelociError ColumnStorage :=
  match first with
  | .integer _ =>
      let (values, nulls) := entries pickInteger 0 rows idx
      .ok (.fromIntegers columnName values nulls)
  | .real _ =>
      let (values, nulls) := entries pickReal 0 rows idx
      .ok (.fromReals columnName values nulls)
  | .text _ =>
      let (values, nulls) := entries pickText "" rows idx
      .ok (.fromText columnName values nulls)
  | _ => .error (.typeMismatch "Integer, Real, or Text" (debug first))

/-- `get_column_projection`. -/
def getColumnProjection (debug : Value → String) (t : HybridTable) (columnName : String) :
    Except VelociError ColumnStorage × HybridTable :=
  match t.columnStore[columnName]? with
  | some col => (.ok col, t)
  | none =>
      match t.columnIdx columnName with
      | none => (.error (.notFound ("Column " ++ columnName ++ " not found")), t)
      | some idx =>
          match t.firstValue idx with
          | none => (.error (.notFound "No values in column"), t)
          | some first =>
              match materialize debug columnName t.sortedRows idx first with
              | .error e => (.error e, t)
              | .ok col => (.ok col, { t with columnStore := t.columnStore.insert columnName col })

/-! ## What a projection should be -/

/-- The column of the rows, NULL where a row is shorter. -/
def cells (t : HybridTable) (idx : ℕ) : List Value := t.sortedRows.map fun r => r[idx]?.getD .null

/-- One entry for each row, with the row's value. -/
def Shows (col : ColumnStorage) (t : HybridTable) (idx : ℕ) : Prop :=
  col.len = t.sortedRows.length ∧ ∀ i value, (t.cells idx)[i]? = some value → col.get i = some value

/-- A projection that returns is the column as it is, and a NULL in front does not keep it from
returning. -/
def Projects (debug : Value → String) (t : HybridTable) (columnName : String) : Prop :=
  (∀ col, (t.getColumnProjection debug columnName).1 = .ok col →
    ∃ idx, t.columnIdx columnName = some idx ∧ Shows col t idx) ∧
  ∀ idx, t.columnIdx columnName = some idx → t.firstValue idx = some .null →
    ∃ col, (t.getColumnProjection debug columnName).1 = .ok col

/-- Two values with one vector type. -/
def sameType : Value → Value → Bool
  | .integer _, .integer _ => true
  | .real _, .real _ => true
  | .text _, .text _ => true
  | _, _ => false

/-- The calls. -/
inductive Call where
  | insertRow (key : Int64) (values : List Value)
  | getColumnProjection (columnName : String)

def step (debug : Value → String) (t : HybridTable) : Call → Option HybridTable
  | .insertRow key values => some (t.insertRow key values)
  | .getColumnProjection columnName => some (t.getColumnProjection debug columnName).2

/-- The row replaces one with the same value in the column. -/
def KeepsCell (t : HybridTable) (key : Int64) (values : List Value) (idx : ℕ) : Prop :=
  ∃ old, t.rowStore[key]? = some old ∧ old[idx]?.getD .null = values[idx]?.getD .null

/-- The condition on a call.  An insert: the layout is hybrid, or the columns that are kept
stay as they are.  A projection that is built: the first value is no NULL, and if it has a
vector type then every value has it or is NULL. -/
def Meets (t : HybridTable) : Call → Prop
  | .insertRow key values => t.layout = .hybrid ∨
      ∀ name ∈ t.columnStore, ∀ idx, t.columnIdx name = some idx → t.KeepsCell key values idx
  | .getColumnProjection name => name ∈ t.columnStore ∨
      ∀ idx first, t.columnIdx name = some idx → t.firstValue idx = some first →
        first ≠ .null ∧ (sameType first first = true →
          ∀ value ∈ t.cells idx, value = .null ∨ sameType first value = true)

/-- Every column that is kept is the column as it is. -/
def Fresh (t : HybridTable) : Prop :=
  ∀ name col, t.columnStore[name]? = some col → ∃ idx, t.columnIdx name = some idx ∧ Shows col t idx

/-! ## One column out of the rows -/

variable {debug : Value → String} {t t' : HybridTable} {rows : List (List Value)} {idx : ℕ}
  {name : String} {col : ColumnStorage} {first value : Value} {key : Int64} {values : List Value}

theorem entries_eq {α : Type} (pick : Value → Option α) (filler : α) (rows : List (List Value))
    (idx : ℕ) : entries pick filler rows idx =
      (rows.map fun r => (r[idx]?.bind pick).getD filler,
        rows.map fun r => (r[idx]?.bind pick).isNone) := by
  have hentry : ∀ value, entry pick filler value =
      ((value.bind pick).getD filler, (value.bind pick).isNone) := by
    intro value
    unfold entry
    cases value.bind pick <;> rfl
  unfold entries
  rw [List.unzip_eq_map, List.map_map, List.map_map]
  simp only [Function.comp_def, hentry]

/-- What a projection makes of a value when its type is the one of `first`. -/
def seen (first value : Value) : Value := if sameType first value then value else .null

theorem seen_eq_self : seen first value = value ↔ value = .null ∨ sameType first value = true := by
  unfold seen
  split
  · rename_i h
    exact ⟨fun _ => Or.inr h, fun _ => rfl⟩
  · rename_i h
    exact ⟨fun heq => Or.inl heq.symm, fun hor => (hor.resolve_right h).symm⟩

@[simp] theorem seen_null : seen first .null = .null := by
  unfold seen
  split <;> rfl

/-- A column of entries, read back.  `w` makes a value of an element of the vector. -/
theorem get_entries {α : Type} {pick : Value → Option α} {filler : α} {w : α → Value}
    {rows : List (List Value)} {idx : ℕ}
    (hget : ∀ i, col.get i =
      if (rows.map fun r => (r[idx]?.bind pick).isNone).length ≤ i then none
      else if (rows.map fun r => (r[idx]?.bind pick).isNone).getD i false then some .null
      else (rows.map fun r => (r[idx]?.bind pick).getD filler)[i]?.map w)
    (hpick : ∀ value, (pick value).elim .null w = seen first value) {i : ℕ} {r : List Value}
    (hr : rows[i]? = some r) : col.get i = some (seen first (r[idx]?.getD .null)) := by
  obtain ⟨hi, -⟩ := List.getElem?_eq_some_iff.mp hr
  rw [hget, List.length_map, if_neg (not_le.mpr hi), List.getD_eq_getElem?_getD, List.getElem?_map,
    List.getElem?_map, hr, Option.map_some, Option.map_some, Option.getD_some, Option.map_some]
  have helim : ∀ o : Option α, (if o.isNone then some Value.null else some (w (o.getD filler))) =
      some (o.elim .null w) := by
    intro o
    cases o <;> rfl
  rw [helim]
  cases r[idx]? with
  | none => rw [Option.bind_none, Option.getD_none, seen_null, Option.elim_none]
  | some value => rw [Option.bind_some, Option.getD_some, hpick]

/-- A type that has a vector makes a column with one entry for each row. -/
theorem materialize_ok (debug : Value → String) (name : String) (rows : List (List Value))
    (idx : ℕ) (h : sameType first first = true) :
    ∃ col, materialize debug name rows idx first = .ok col ∧ col.len = rows.length ∧
      ∀ i r, rows[i]? = some r → col.get i = some (seen first (r[idx]?.getD .null)) := by
  cases first with
  | integer v =>
      have hcol : materialize debug name rows idx (.integer v) = .ok (.fromIntegers name
          (rows.map fun r => (r[idx]?.bind pickInteger).getD 0)
          (rows.map fun r => (r[idx]?.bind pickInteger).isNone)) := by
        rw [materialize, entries_eq]
      refine ⟨_, hcol, List.length_map _, fun i r hr => ?_⟩
      refine get_entries (w := .integer) (fun _ => rfl) (fun value => ?_) hr
      cases value <;> rfl
  | real v =>
      have hcol : materialize debug name rows idx (.real v) = .ok (.fromReals name
          (rows.map fun r => (r[idx]?.bind pickReal).getD 0)
          (rows.map fun r => (r[idx]?.bind pickReal).isNone)) := by
        rw [materialize, entries_eq]
      refine ⟨_, hcol, List.length_map _, fun i r hr => ?_⟩
      refine get_entries (w := .real) (fun _ => rfl) (fun value => ?_) hr
      cases value <;> rfl
  | text v =>
      have hcol : materialize debug name rows idx (.text v) = .ok (.fromText name
          (rows.map fun r => (r[idx]?.bind pickText).getD "")
          (rows.map fun r => (r[idx]?.bind pickText).isNone)) := by
        rw [materialize, entries_eq]
      refine ⟨_, hcol, List.length_map _, fun i r hr => ?_⟩
      refine get_entries (w := .text) (fun _ => rfl) (fun value => ?_) hr
      cases value <;> rfl
  | null => cases h
  | float v => cases h
  | blob v => cases h
  | vector v => cases h

theorem materialize_error (debug : Value → String) (name : String) (rows : List (List Value))
    (idx : ℕ) (h : sameType first first = false) :
    ∃ e, materialize debug name rows idx first = .error e := by
  cases first with
  | integer v => cases h
  | real v => cases h
  | text v => cases h
  | null => exact ⟨_, rfl⟩
  | float v => exact ⟨_, rfl⟩
  | blob v => exact ⟨_, rfl⟩
  | vector v => exact ⟨_, rfl⟩

/-! ## A projection -/

theorem length_cells (t : HybridTable) (idx : ℕ) : (t.cells idx).length = t.sortedRows.length :=
  List.length_map _

/-- What a kept column shows fixes the column of the rows. -/
theorem Shows.cells_eq (h : Shows col t idx) (h' : Shows col t' idx) : t.cells idx = t'.cells idx := by
  have hlen : (t.cells idx).length = (t'.cells idx).length := by
    rw [length_cells, length_cells, ← h.1, ← h'.1]
  refine List.ext_getElem? fun i => ?_
  rcases lt_or_ge i (t.cells idx).length with hi | hi
  · have hget := h.2 i _ (List.getElem?_eq_getElem hi)
    have hget' := h'.2 i _ (List.getElem?_eq_getElem (hlen ▸ hi))
    rw [List.getElem?_eq_getElem hi, List.getElem?_eq_getElem (hlen ▸ hi), ← hget, ← hget']
  · rw [List.getElem?_eq_none hi, List.getElem?_eq_none (hlen ▸ hi)]

theorem Shows.of_cells (h : Shows col t idx) (hcells : t'.cells idx = t.cells idx) :
    Shows col t' idx := by
  refine ⟨?_, hcells ▸ h.2⟩
  rw [h.1, ← length_cells t idx, ← length_cells t' idx, hcells]

/-- A column built from the rows shows them when no value is of another type. -/
theorem shows_materialized (hlen : col.len = t.sortedRows.length)
    (hget : ∀ i r, t.sortedRows[i]? = some r → col.get i = some (seen first (r[idx]?.getD .null))) :
    Shows col t idx ↔ ∀ value ∈ t.cells idx, value = .null ∨ sameType first value = true := by
  have hseen : ∀ i value, (t.cells idx)[i]? = some value → col.get i = some (seen first value) := by
    intro i value hi
    rw [cells, List.getElem?_map] at hi
    obtain ⟨r, hr, rfl⟩ := Option.map_eq_some_iff.mp hi
    exact hget i r hr
  constructor
  · rintro ⟨-, hshow⟩ value hmem
    obtain ⟨i, hi⟩ := List.mem_iff_getElem?.mp hmem
    have heq := (hseen i value hi).symm.trans (hshow i value hi)
    exact seen_eq_self.mp (Option.some.inj heq)
  · intro hall
    refine ⟨hlen, fun i value hi => ?_⟩
    rw [hseen i value hi, seen_eq_self.mpr (hall value (List.mem_of_getElem? hi))]

/-- A projection is right exactly when it meets its condition. -/
theorem projects_iff (hfresh : Fresh t) (name : String) :
    Projects debug t name ↔ Meets t (.getColumnProjection name) := by
  unfold Projects getColumnProjection
  dsimp only [Meets]
  cases hstore : t.columnStore[name]? with
  | some col =>
      have hmem : name ∈ t.columnStore :=
        Std.ExtTreeMap.mem_iff_isSome_getElem?.mpr (by rw [hstore]; rfl)
      refine ⟨fun _ => Or.inl hmem, fun _ => ⟨fun col' hcol => ?_, fun _ _ _ => ⟨col, rfl⟩⟩⟩
      obtain rfl := Except.ok.inj hcol
      exact hfresh name _ hstore
  | none =>
      have hmem : name ∉ t.columnStore := by
        rw [Std.ExtTreeMap.mem_iff_isSome_getElem?, hstore]
        exact Bool.false_ne_true
      rw [or_iff_right hmem]
      cases hidx : t.columnIdx name with
      | none =>
          refine ⟨fun _ _ _ h => ?_, fun _ => ⟨fun _ h => ?_, fun _ h => ?_⟩⟩
          · cases h
          · cases h
          · cases h
      | some idx =>
          dsimp only
          cases hfirst : t.firstValue idx with
          | none =>
              refine ⟨fun _ i first h h' => ?_, fun _ => ⟨fun _ h => ?_, fun i h h' => ?_⟩⟩
              · obtain rfl := Option.some.inj h
                rw [hfirst] at h'
                cases h'
              · cases h
              · obtain rfl := Option.some.inj h
                rw [hfirst] at h'
                cases h'
          | some first =>
              dsimp only
              have hone : ∀ i f, some idx = some i → t.firstValue i = some f → i = idx ∧ f = first := by
                intro i f h h'
                obtain rfl := Option.some.inj h
                exact ⟨rfl, Option.some.inj (h'.symm.trans hfirst)⟩
              cases htype : sameType first first with
              | true =>
                  obtain ⟨col, hcol, hlen, hget⟩ := materialize_ok debug name t.sortedRows idx htype
                  have hshows := shows_materialized hlen hget
                  have hne : first ≠ .null := by
                    rintro rfl
                    cases htype
                  rw [hcol]
                  refine ⟨fun h i f hi hf => ?_, fun h => ⟨fun c hc => ?_, fun _ _ _ => ⟨col, rfl⟩⟩⟩
                  · obtain ⟨rfl, rfl⟩ := hone i f hi hf
                    obtain ⟨j, hj, hshow⟩ := h.1 col rfl
                    obtain rfl := Option.some.inj hj
                    exact ⟨hne, fun _ => hshows.mp hshow⟩
                  · obtain rfl := Except.ok.inj hc
                    exact ⟨idx, rfl, hshows.mpr ((h idx first rfl hfirst).2 htype)⟩
              | false =>
                  obtain ⟨e, he⟩ := materialize_error debug name t.sortedRows idx htype
                  rw [he]
                  refine ⟨fun h i f hi hf => ⟨?_, fun hsame => ?_⟩, fun h => ⟨fun c hc => ?_, ?_⟩⟩
                  · rintro rfl
                    obtain ⟨c, hc⟩ := h.2 i hi hf
                    cases hc
                  · obtain ⟨rfl, rfl⟩ := hone i f hi hf
                    rw [htype] at hsame
                    cases hsame
                  · cases hc
                  · intro i hi hf
                    exact absurd rfl (h i .null hi hf).1

/-- A projection that is right leaves right columns behind. -/
theorem fresh_projection (hfresh : Fresh t) (h : Projects debug t name) :
    Fresh (t.getColumnProjection debug name).2 := by
  have hshow := h.1
  revert hshow
  unfold getColumnProjection
  cases t.columnStore[name]? with
  | some col => exact fun _ => hfresh
  | none =>
      cases hidx : t.columnIdx name with
      | none => exact fun _ => hfresh
      | some idx =>
          dsimp only
          cases t.firstValue idx with
          | none => exact fun _ => hfresh
          | some first =>
              dsimp only
              cases materialize debug name t.sortedRows idx first with
              | error e => exact fun _ => hfresh
              | ok col =>
                  intro hshow name' col' hstore
                  change (t.columnStore.insert name col)[name']? = some col' at hstore
                  rw [Std.ExtTreeMap.getElem?_insert] at hstore
                  split at hstore
                  · rename_i heq
                    obtain rfl := Std.LawfulEqCmp.eq_of_compare heq
                    obtain rfl := Option.some.inj hstore
                    obtain ⟨j, hj, hcol⟩ := hshow col rfl
                    exact ⟨j, hidx.trans hj, hcol⟩
                  · exact hfresh name' col' hstore

/-! ## An insert -/

/-- Two maps with the same keys list them alike. -/
theorem keys_congr {β : Type} {m m' : Std.ExtTreeMap Int64 β} (h : ∀ k, k ∈ m ↔ k ∈ m') :
    m.keys = m'.keys := by
  refine List.Perm.eq_of_pairwise ?_ Std.ExtTreeMap.ordered_keys Std.ExtTreeMap.ordered_keys ?_
  · intro a b _ _ hab hba
    rw [Std.OrientedCmp.gt_of_lt hab] at hba
    cases hba
  · refine (List.perm_ext_iff_of_nodup Std.ExtTreeMap.nodup_keys Std.ExtTreeMap.nodup_keys).mpr ?_
    intro k
    rw [Std.ExtTreeMap.mem_keys, Std.ExtTreeMap.mem_keys]
    exact h k

theorem length_sortedRows (t : HybridTable) : t.sortedRows.length = t.rowStore.size := by
  rw [sortedRows, List.length_map, Std.ExtTreeMap.length_keys]

/-- The cell of one key. -/
def cellOf (t : HybridTable) (idx : ℕ) (key : Int64) : Value :=
  (t.rowStore[key]?.getD [])[idx]?.getD .null

theorem cells_eq (t : HybridTable) (idx : ℕ) :
    t.cells idx = t.rowStore.keys.map (t.cellOf idx) := by
  rw [cells, sortedRows, List.map_map]
  rfl

theorem cellOf_insertRow_ne {k : Int64} (hne : key ≠ k) :
    (t.insertRow key values).cellOf idx k = t.cellOf idx k := by
  unfold cellOf insertRow
  dsimp only
  rw [Std.ExtTreeMap.getElem?_insert, if_neg (by simpa using hne)]

theorem cellOf_insertRow_self :
    (t.insertRow key values).cellOf idx key = values[idx]?.getD .null := by
  unfold cellOf insertRow
  dsimp only
  rw [Std.ExtTreeMap.getElem?_insert_self]
  rfl

/-- An insert leaves a column as it is exactly when the row replaces one with the same value. -/
theorem cells_insertRow : (t.insertRow key values).cells idx = t.cells idx ↔
    t.KeepsCell key values idx := by
  cases hold : t.rowStore[key]? with
  | none =>
      -- a row more
      have hnew : key ∉ t.rowStore := by
        rw [Std.ExtTreeMap.mem_iff_isSome_getElem?, hold]
        exact Bool.false_ne_true
      constructor
      · intro heq
        have hlen := congrArg List.length heq
        rw [length_cells, length_cells, length_sortedRows, length_sortedRows] at hlen
        change (t.rowStore.insert key values).size = _ at hlen
        rw [Std.ExtTreeMap.size_insert] at hlen
        have hone := (if_neg hnew).symm.trans hlen
        exact absurd hone (Nat.succ_ne_self _)
      · rintro ⟨old, h, -⟩
        rw [hold] at h
        cases h
  | some old =>
      have hmem : key ∈ t.rowStore :=
        Std.ExtTreeMap.mem_iff_isSome_getElem?.mpr (by rw [hold]; rfl)
      have hkeys : (t.insertRow key values).rowStore.keys = t.rowStore.keys := by
        refine keys_congr fun k => ?_
        change k ∈ t.rowStore.insert key values ↔ _
        rw [Std.ExtTreeMap.mem_insert]
        refine or_iff_right_of_imp fun heq => ?_
        exact Std.LawfulEqCmp.eq_of_compare heq ▸ hmem
      have hcell : t.cellOf idx key = old[idx]?.getD .null := by
        unfold cellOf
        rw [hold]
        rfl
      rw [cells_eq, cells_eq, hkeys]
      constructor
      · intro heq
        have hkey := List.map_inj_left.mp heq key (Std.ExtTreeMap.mem_keys.mpr hmem)
        rw [cellOf_insertRow_self, hcell] at hkey
        exact ⟨old, hold, hkey.symm⟩
      · rintro ⟨old', hold', hsame⟩
        obtain rfl := Option.some.inj (hold.symm.trans hold')
        refine List.map_inj_left.mpr fun k _ => ?_
        rcases eq_or_ne key k with rfl | hne
        · rw [cellOf_insertRow_self, hcell, hsame]
        · exact cellOf_insertRow_ne hne

/-- An insert leaves right columns behind exactly when it meets its condition. -/
theorem fresh_insertRow (hfresh : Fresh t) (key : Int64) (values : List Value) :
    Fresh (t.insertRow key values) ↔ Meets t (.insertRow key values) := by
  dsimp only [Meets]
  by_cases hlayout : t.layout = .hybrid
  · refine ⟨fun _ => Or.inl hlayout, fun _ name col hstore => ?_⟩
    unfold insertRow at hstore
    dsimp only at hstore
    rw [if_pos hlayout, Std.ExtTreeMap.getElem?_empty] at hstore
    cases hstore
  · rw [or_iff_right hlayout]
    have hsame : (t.insertRow key values).columnStore = t.columnStore := if_neg hlayout
    constructor
    · intro hafter name hmem idx hidx
      obtain ⟨col, hcol⟩ := Option.isSome_iff_exists.mp
        (Std.ExtTreeMap.mem_iff_isSome_getElem?.mp hmem)
      obtain ⟨i, hi, hshow⟩ := hfresh name col hcol
      obtain ⟨j, hj, hshow'⟩ := hafter name col (hsame ▸ hcol)
      obtain rfl := Option.some.inj (hi.symm.trans hidx)
      obtain rfl := Option.some.inj (hi.symm.trans hj)
      exact cells_insertRow.mp (hshow'.cells_eq hshow)
    · intro hmeets name col hstore
      rw [hsame] at hstore
      obtain ⟨idx, hidx, hshow⟩ := hfresh name col hstore
      have hmem : name ∈ t.columnStore :=
        Std.ExtTreeMap.mem_iff_isSome_getElem?.mpr (by rw [hstore]; rfl)
      exact ⟨idx, hidx, hshow.of_cells (cells_insertRow.mpr (hmeets name hmem idx hidx))⟩

/-! ## Runs -/

/-- As long as every call meets its condition, every projection is the column of the rows.
From there a projection is right, and an insert keeps the kept columns right, exactly when it
meets its condition. -/
theorem projections_show {columns : List Column} {layout : StorageLayout}
    (h : Reaches (Via (step debug)) Meets (new columns layout) t) :
    (∀ name, Projects debug t name ↔ Meets t (.getColumnProjection name)) ∧
      ∀ key values, Fresh (t.insertRow key values) ↔ Meets t (.insertRow key values) := by
  have hfresh : Fresh t := by
    refine Reaches.invariant ?_ ?_ h
    · intro name col hstore
      change (∅ : Std.ExtTreeMap String ColumnStorage)[name]? = some col at hstore
      rw [Std.ExtTreeMap.getElem?_empty] at hstore
      cases hstore
    · intro t call t' hfresh hmeets hstep
      cases call with
      | insertRow key values =>
          cases hstep
          exact (fresh_insertRow hfresh key values).mpr hmeets
      | getColumnProjection name =>
          cases hstep
          exact fresh_projection hfresh ((projects_iff hfresh name).mpr hmeets)
  exact ⟨fun name => projects_iff hfresh name, fresh_insertRow hfresh⟩

/-- A table with one column. -/
def oneColumn (layout : StorageLayout) : HybridTable :=
  new [⟨"a", .integer, false, false, false⟩] layout

/-- Two rows, of which the second has no value. -/
def twoRows : HybridTable := ((oneColumn .hybrid).insertRow 1 [.integer 5]).insertRow 2 []

theorem projections_show_short : Projects (fun _ => "") twoRows "a" := by
  have hrun : Reaches (Via (step fun _ => "")) Meets (new (oneColumn .hybrid).columns .hybrid)
      twoRows :=
    (Reaches.refl.tail (a := Call.insertRow 1 [.integer 5]) (Or.inl rfl) rfl).tail
      (a := Call.insertRow 2 []) (Or.inl rfl) rfl
  refine ((projections_show hrun).1 "a").mpr (Or.inr fun idx first hidx hfirst => ?_)
  obtain rfl : idx = 0 := Option.some.inj (hidx.symm.trans (by decide))
  obtain rfl : first = .integer 5 := Option.some.inj (hfirst.symm.trans (by decide))
  exact ⟨by decide, fun _ => by decide⟩

/-- A NULL in the first row keeps the column from being projected. -/
theorem not_projections_show : ¬ ∀ (debug : Value → String) columns layout t,
    Reaches (Via (step debug)) Any (new columns layout) t → ∀ name, Projects debug t name := by
  intro hall
  have hprojects := hall (fun _ => "") _ .hybrid
    (((oneColumn .hybrid).insertRow 1 [.null]).insertRow 2 [.integer 5])
    ((Reaches.refl.tail (a := Call.insertRow 1 [.null]) trivial rfl).tail
      (a := Call.insertRow 2 [.integer 5]) trivial rfl) "a"
  obtain ⟨col, hcol⟩ := hprojects.2 0 (by decide) (by decide)
  have herror : (getColumnProjection (fun _ => "")
      (((oneColumn .hybrid).insertRow 1 [.null]).insertRow 2 [.integer 5]) "a").1 =
      .error (.typeMismatch "Integer, Real, or Text" "") := by decide
  rw [herror] at hcol
  cases hcol

/-- In a row-major table, a row that is inserted after a projection never shows up. -/
def staleTable : HybridTable :=
  (((oneColumn .rowMajor).insertRow 1 [.integer 5]).getColumnProjection (fun _ => "") "a").2.insertRow
    2 [.integer 6]

example : ((staleTable.getColumnProjection (fun _ => "") "a").1.toOption.map ColumnStorage.len) =
    some 1 ∧ staleTable.sortedRows.length = 2 := by decide

end HybridTable

end VelociDB
