/-
# Batches of columns (`simd.rs`, `hybrid_storage.rs`)

`get_vector_batch` projects columns and hands their vectors to the kernels.  A vector has no
mark for NULL, only the filler that the projection wrote there:

    SUM                 not changed by fillers
    COUNT               counts every row, with a value or without
    MIN, MAX, filters   see a zero where a row has no number

So in the batch of a table whose kept columns are up to date (`Timely`), a kernel over the
vector answers what a loop over the rows answers, with zero for what is no number
(`batch_rows`).
-/
import VelociDB.Simd
import VelociDB.HybridTable

namespace VelociDB

open Transition

namespace VectorizedAggregation

/-- `sum_integers`, where `avx2` is what the processor has. -/
def sumIntegers (avx2 : Bool) (values : List Int64) : Option Int64 :=
  if avx2 then sumIntegersAvx2 values else some (values.foldl (· + ·) 0)

/-- `average_integers`; `divide` is the division of floats. -/
def averageIntegers (avx2 : Bool) (divide : Int64 → ℕ → UInt64) (values : List Int64) :
    Option UInt64 :=
  if values = [] then some 0 else (sumIntegers avx2 values).map fun sum => divide sum values.length

/-- `min_integers`. -/
def minIntegers (avx2 : Bool) (values : List Int64) : Option (Option Int64) :=
  if values = [] then some none
  else if avx2 then (minIntegersAvx2 values).map some
  else some values.min?

/-- `max_integers`. -/
def maxIntegers (avx2 : Bool) (values : List Int64) : Option (Option Int64) :=
  if values = [] then some none
  else if avx2 then (maxIntegersAvx2 values).map some
  else some values.max?

end VectorizedAggregation

/-- `FilterPredicate`. -/
inductive FilterPredicate where
  | equal (value : Value)
  | notEqual (value : Value)
  | greaterThan (value : Value)
  | lessThan (value : Value)
  | greaterThanOrEqual (value : Value)
  | lessThanOrEqual (value : Value)

/-- `AggregateFunction`. -/
inductive AggregateFunction where
  | sum
  | count
  | avg
  | min
  | max

/-- `VectorBatch`. -/
structure VectorBatch where
  columns : List VectorColumn
  rowCount : ℕ

namespace VectorBatch

def new : VectorBatch := ⟨[], 0⟩

/-- `add_column`. -/
def addColumn (batch : VectorBatch) (column : VectorColumn) : VectorBatch :=
  { batch with columns := batch.columns ++ [column] }

/-- `set_row_count`. -/
def setRowCount (batch : VectorBatch) (count : ℕ) : VectorBatch := { batch with rowCount := count }

/-- `filter_column`. -/
def filterColumn (avx2 : Bool) (batch : VectorBatch) (columnIdx : ℕ) (predicate : FilterPredicate) :
    Option (Except VelociError (List Bool)) :=
  match batch.columns[columnIdx]? with
  | none => some (.error (.notFound ("Column " ++ toString columnIdx ++ " not found")))
  | some column =>
      match column, predicate with
      | .integer values, .greaterThan (.integer threshold) =>
          (VectorizedFilter.filterIntegersGreaterThan avx2 values threshold).map .ok
      | .integer values, .equal (.integer target) =>
          (VectorizedFilter.filterIntegersEqual avx2 values target).map .ok
      | _, _ =>
          some (.error (.notImplemented "Predicate type not supported for vectorized execution"))

/-- `aggregate_column`. -/
def aggregateColumn (avx2 : Bool) (divide : Int64 → ℕ → UInt64) (batch : VectorBatch)
    (columnIdx : ℕ) (aggFunc : AggregateFunction) : Option (Except VelociError Value) :=
  match batch.columns[columnIdx]? with
  | none => some (.error (.notFound ("Column " ++ toString columnIdx ++ " not found")))
  | some column =>
      match column, aggFunc with
      | .integer values, .sum =>
          (VectorizedAggregation.sumIntegers avx2 values).map fun s => .ok (.integer s)
      | .integer values, .count => some (.ok (.integer (Int64.ofNat values.length)))
      | .integer values, .avg =>
          (VectorizedAggregation.averageIntegers avx2 divide values).map fun a => .ok (.real a)
      | .integer values, .min =>
          (VectorizedAggregation.minIntegers avx2 values).map fun m => .ok (.integer (m.getD 0))
      | .integer values, .max =>
          (VectorizedAggregation.maxIntegers avx2 values).map fun m => .ok (.integer (m.getD 0))
      | _, _ => some (.error (.notImplemented "Aggregate function not supported"))

end VectorBatch

namespace HybridTable

/-- The loop of `get_vector_batch`, with the table it leaves. -/
def addColumns (debug : Value → String) :
    VectorBatch → HybridTable → List String → Except VelociError VectorBatch × HybridTable
  | batch, t, [] => (.ok batch, t)
  | batch, t, columnName :: columnNames =>
      match t.getColumnProjection debug columnName with
      | (.error e, t) => (.error e, t)
      | (.ok col, t) => addColumns debug (batch.addColumn col.data) t columnNames

/-- `get_vector_batch`. -/
def getVectorBatch (debug : Value → String) (t : HybridTable) (columnNames : List String) :
    Except VelociError VectorBatch × HybridTable :=
  match addColumns debug .new t columnNames with
  | (.error e, t) => (.error e, t)
  | (.ok batch, t) => (.ok (batch.setRowCount t.rowStore.size), t)

end HybridTable

/-! ## What a batch should be -/

/-- The number of a cell, zero for any other value. -/
def amount (value : Value) : Int64 := (HybridTable.pickInteger value).getD 0

/-- The vector of a column of values, with a filler for a value of another type. -/
def VectorColumn.Holds (cells : List Value) : VectorColumn → Prop
  | .integer values => values = cells.map amount
  | .real values => values = cells.map fun v => (HybridTable.pickReal v).getD 0
  | .text values => values = cells.map fun v => (HybridTable.pickText v).getD ""
  | .null _ => False

/-- The kernels answer about column `i` what a loop over `numbers` answers. -/
structure VectorBatch.Answers (batch : VectorBatch) (i : ℕ) (numbers : List Int64) (avx2 : Bool)
    (divide : Int64 → ℕ → UInt64) : Prop where
  sum : batch.aggregateColumn avx2 divide i .sum =
    some (.ok (.integer (Int64.ofInt (numbers.map Int64.toInt).sum)))
  count : batch.aggregateColumn avx2 divide i .count =
    some (.ok (.integer (Int64.ofNat numbers.length)))
  avg : numbers ≠ [] → batch.aggregateColumn avx2 divide i .avg =
    some (.ok (.real (divide (Int64.ofInt (numbers.map Int64.toInt).sum) numbers.length)))
  min : numbers ≠ [] → ∃ m ∈ numbers, (∀ v ∈ numbers, m ≤ v) ∧
    batch.aggregateColumn avx2 divide i .min = some (.ok (.integer m))
  max : numbers ≠ [] → ∃ m ∈ numbers, (∀ v ∈ numbers, v ≤ m) ∧
    batch.aggregateColumn avx2 divide i .max = some (.ok (.integer m))
  greaterThan : ∀ threshold, batch.filterColumn avx2 i (.greaterThan (.integer threshold)) =
    some (.ok (numbers.map fun v => decide (v > threshold)))
  equal : ∀ target, batch.filterColumn avx2 i (.equal (.integer target)) =
    some (.ok (numbers.map fun v => decide (v = target)))

namespace HybridTable

/-- The column can be projected: it is kept, or its first value has a vector type. -/
def Typed (t : HybridTable) (name : String) : Prop :=
  name ∈ t.columnStore ∨ ∃ idx first, t.columnIdx name = some idx ∧ t.firstValue idx = some first ∧
    sameType first first = true

/-- An insert keeps the kept columns up to date; a projection is free. -/
def Timely (t : HybridTable) : Call → Prop
  | .insertRow key values => t.Meets (.insertRow key values)
  | .getColumnProjection _ => True

/-- Every column that is kept is the vector of the rows. -/
def Held (t : HybridTable) : Prop :=
  ∀ name col, t.columnStore[name]? = some col →
    ∃ idx, t.columnIdx name = some idx ∧ col.data.Holds (t.cells idx)

end HybridTable

/-! ## The kernels -/

namespace VectorizedAggregation

variable {values : List Int64}

theorem sumIntegers_eq (avx2 : Bool) (values : List Int64) :
    sumIntegers avx2 values = some (Int64.ofInt (values.map Int64.toInt).sum) := by
  cases avx2 with
  | true => exact (sumIntegersAvx2_eq values).trans (congrArg some (foldl_add values))
  | false => exact congrArg some (foldl_add values)

theorem minIntegers_eq (avx2 : Bool) (hne : values ≠ []) :
    ∃ m ∈ values, (∀ v ∈ values, m ≤ v) ∧ minIntegers avx2 values = some (some m) := by
  obtain ⟨m, hmem, hfold, hle⟩ := foldl_min hne
  refine ⟨m, hmem, hle, ?_⟩
  rw [minIntegers, if_neg hne]
  cases avx2 with
  | true => rw [if_pos rfl, minIntegersAvx2_eq hne, hfold, Option.map_some]
  | false =>
      rw [if_neg Bool.false_ne_true]
      exact congrArg some (List.min?_eq_some_iff.mpr ⟨hmem, hle⟩)

theorem maxIntegers_eq (avx2 : Bool) (hne : values ≠ []) :
    ∃ m ∈ values, (∀ v ∈ values, v ≤ m) ∧ maxIntegers avx2 values = some (some m) := by
  obtain ⟨m, hmem, hfold, hle⟩ := foldl_max hne
  refine ⟨m, hmem, hle, ?_⟩
  rw [maxIntegers, if_neg hne]
  cases avx2 with
  | true => rw [if_pos rfl, maxIntegersAvx2_eq hne, hfold, Option.map_some]
  | false =>
      rw [if_neg Bool.false_ne_true]
      exact congrArg some (List.max?_eq_some_iff.mpr ⟨hmem, hle⟩)

end VectorizedAggregation

/-- An integer column answers for its vector. -/
theorem VectorBatch.answers {batch : VectorBatch} {i : ℕ} {values : List Int64}
    (h : batch.columns[i]? = some (.integer values)) (avx2 : Bool) (divide : Int64 → ℕ → UInt64) :
    batch.Answers i values avx2 divide := by
  have hsum := VectorizedAggregation.sumIntegers_eq avx2 values
  refine ⟨?_, ?_, fun hne => ?_, fun hne => ?_, fun hne => ?_, fun threshold => ?_, fun target => ?_⟩
  · rw [aggregateColumn, h]
    exact congrArg (Option.map fun s => Except.ok (Value.integer s)) hsum
  · rw [aggregateColumn, h]
  · rw [aggregateColumn, h]
    dsimp only
    rw [VectorizedAggregation.averageIntegers, if_neg hne, hsum]
    rfl
  · obtain ⟨m, hmem, hle, hmin⟩ := VectorizedAggregation.minIntegers_eq avx2 hne
    refine ⟨m, hmem, hle, ?_⟩
    rw [aggregateColumn, h]
    exact congrArg (Option.map fun m => Except.ok (Value.integer (m.getD 0))) hmin
  · obtain ⟨m, hmem, hle, hmax⟩ := VectorizedAggregation.maxIntegers_eq avx2 hne
    refine ⟨m, hmem, hle, ?_⟩
    rw [aggregateColumn, h]
    exact congrArg (Option.map fun m => Except.ok (Value.integer (m.getD 0))) hmax
  · rw [filterColumn, h]
    exact congrArg (Option.map Except.ok) (filterIntegersGreaterThan_eq avx2 values threshold)
  · rw [filterColumn, h]
    exact congrArg (Option.map Except.ok) (filterIntegersEqual_eq avx2 values target)

/-! ## A projection -/

namespace HybridTable

variable {debug : Value → String} {t t' : HybridTable} {name name' : String} {col : ColumnStorage}
  {idx : ℕ} {first : Value}

/-- What is built from the rows holds their column. -/
theorem materialize_holds {rows : List (List Value)}
    (h : materialize debug name rows idx first = .ok col) :
    col.data.Holds (rows.map fun r => r[idx]?.getD .null) := by
  have hcell : ∀ {α : Type} (pick : Value → Option α) (filler : α), pick .null = none →
      (rows.map fun r => (r[idx]?.bind pick).getD filler) =
        (rows.map fun r => r[idx]?.getD .null).map fun v => (pick v).getD filler := by
    intro α pick filler hnull
    rw [List.map_map]
    refine List.map_congr_left fun r _ => ?_
    rw [Function.comp_apply]
    cases r[idx]? with
    | none => rw [Option.bind_none, Option.getD_none, Option.getD_none, hnull, Option.getD_none]
    | some value => rw [Option.bind_some, Option.getD_some]
  cases first with
  | integer v =>
      rw [materialize, entries_eq] at h
      obtain rfl := Except.ok.inj h
      exact hcell pickInteger 0 rfl
  | real v =>
      rw [materialize, entries_eq] at h
      obtain rfl := Except.ok.inj h
      exact hcell pickReal 0 rfl
  | text v =>
      rw [materialize, entries_eq] at h
      obtain rfl := Except.ok.inj h
      exact hcell pickText "" rfl
  | null => cases h
  | float v => cases h
  | blob v => cases h
  | vector v => cases h

/-- How a projection ends: with a kept column, with a new one, or with an error. -/
theorem projection_cases (debug : Value → String) (t : HybridTable) (name : String) :
    (∃ col, t.columnStore[name]? = some col ∧ t.getColumnProjection debug name = (.ok col, t)) ∨
    (∃ idx first col, name ∉ t.columnStore ∧ t.columnIdx name = some idx ∧
      t.firstValue idx = some first ∧ sameType first first = true ∧
      materialize debug name t.sortedRows idx first = .ok col ∧
      t.getColumnProjection debug name =
        (.ok col, { t with columnStore := t.columnStore.insert name col })) ∨
    (¬ t.Typed name ∧ ∃ e, t.getColumnProjection debug name = (.error e, t)) := by
  rw [getColumnProjection]
  cases hstore : t.columnStore[name]? with
  | some col => exact Or.inl ⟨col, rfl, rfl⟩
  | none =>
      have hnew : name ∉ t.columnStore := by
        rw [Std.ExtTreeMap.mem_iff_isSome_getElem?, hstore]
        exact Bool.false_ne_true
      refine Or.inr ?_
      cases hidx : t.columnIdx name with
      | none =>
          refine Or.inr ⟨?_, _, rfl⟩
          rintro (hmem | ⟨idx, first, h, -⟩)
          · exact hnew hmem
          · rw [hidx] at h
            cases h
      | some idx =>
          dsimp only
          cases hfirst : t.firstValue idx with
          | none =>
              refine Or.inr ⟨?_, _, rfl⟩
              rintro (hmem | ⟨i, first, h, h', -⟩)
              · exact hnew hmem
              · obtain rfl := Option.some.inj (hidx.symm.trans h)
                rw [hfirst] at h'
                cases h'
          | some first =>
              dsimp only
              cases htype : sameType first first with
              | true =>
                  obtain ⟨col, hcol, -⟩ := materialize_ok debug name t.sortedRows idx htype
                  rw [hcol]
                  exact Or.inl ⟨idx, first, col, hnew, rfl, hfirst, htype, hcol, rfl⟩
              | false =>
                  obtain ⟨e, he⟩ := materialize_error debug name t.sortedRows idx htype
                  rw [he]
                  refine Or.inr ⟨?_, _, rfl⟩
                  rintro (hmem | ⟨i, f, h, h', h''⟩)
                  · exact hnew hmem
                  · obtain rfl := Option.some.inj (hidx.symm.trans h)
                    obtain rfl := Option.some.inj (hfirst.symm.trans h')
                    rw [htype] at h''
                    cases h''

/-- What a projection that returns gives and leaves. -/
structure Projected (t t' : HybridTable) (name : String) (col : ColumnStorage) : Prop where
  held : t'.Held
  holds : ∃ idx, t.columnIdx name = some idx ∧ col.data.Holds (t.cells idx)
  rows : t'.rowStore = t.rowStore
  columns : t'.columns = t.columns
  typed : ∀ name', t'.Typed name' ↔ t.Typed name'

theorem Held.projected (hheld : t.Held) (h : t.getColumnProjection debug name = (.ok col, t')) :
    t.Typed name ∧ Projected t t' name col := by
  rcases projection_cases debug t name with ⟨c, hstore, heq⟩ | ⟨idx, first, c, hnew, hidx, hfirst,
    htype, hcol, heq⟩ | ⟨-, e, heq⟩
  · obtain ⟨hc, rfl⟩ := Prod.mk.inj (heq.symm.trans h)
    obtain rfl := Except.ok.inj hc
    have hmem : name ∈ t.columnStore :=
      Std.ExtTreeMap.mem_iff_isSome_getElem?.mpr (by rw [hstore]; rfl)
    exact ⟨Or.inl hmem, hheld, hheld name _ hstore, rfl, rfl, fun _ => Iff.rfl⟩
  · obtain ⟨hc, rfl⟩ := Prod.mk.inj (heq.symm.trans h)
    obtain rfl := Except.ok.inj hc
    have htyped : t.Typed name := Or.inr ⟨idx, first, hidx, hfirst, htype⟩
    have hholds : c.data.Holds (t.cells idx) := materialize_holds hcol
    refine ⟨htyped, fun name' col' hstore => ?_, ⟨idx, hidx, hholds⟩, rfl, rfl, fun name' => ?_⟩
    · rw [Std.ExtTreeMap.getElem?_insert] at hstore
      split at hstore
      · rename_i hname
        obtain rfl := Std.LawfulEqCmp.eq_of_compare hname
        obtain rfl := Option.some.inj hstore
        exact ⟨idx, hidx, hholds⟩
      · exact hheld name' col' hstore
    · refine or_congr_left' fun hrest => ?_
      rw [Std.ExtTreeMap.mem_insert]
      refine or_iff_right_of_imp fun hname => ?_
      obtain rfl := Std.LawfulEqCmp.eq_of_compare hname
      exact absurd ⟨idx, first, hidx, hfirst, htype⟩ hrest
  · cases (Prod.mk.inj (heq.symm.trans h)).1

/-- A column that can be projected is. -/
theorem Typed.projection (h : t.Typed name) (debug : Value → String) :
    ∃ col t', t.getColumnProjection debug name = (.ok col, t') := by
  rcases projection_cases debug t name with ⟨c, -, heq⟩ | ⟨_, _, c, -, -, -, -, -, heq⟩ | ⟨hnot, -⟩
  · exact ⟨c, t, heq⟩
  · exact ⟨c, _, heq⟩
  · exact absurd h hnot

/-! ## The columns of a batch -/

theorem cells_congr (hrows : t'.rowStore = t.rowStore) (idx : ℕ) : t'.cells idx = t.cells idx := by
  rw [cells, cells, sortedRows, sortedRows, hrows]

/-- The columns are added one for each name, each with the vector of the rows. -/
theorem Held.addColumns (hheld : t.Held) {names : List String} {batch batch' : VectorBatch}
    (h : addColumns debug batch t names = (.ok batch', t')) :
    t'.rowStore = t.rowStore ∧ ∃ added, batch'.columns = batch.columns ++ added ∧
      List.Forall₂ (fun name column =>
        ∃ idx, t.columnIdx name = some idx ∧ column.Holds (t.cells idx)) names added := by
  induction names generalizing t batch with
  | nil =>
      obtain ⟨hbatch, rfl⟩ := Prod.mk.inj h
      obtain rfl := Except.ok.inj hbatch
      exact ⟨rfl, [], (List.append_nil _).symm, .nil⟩
  | cons name names ih =>
      rw [HybridTable.addColumns] at h
      cases hproj : t.getColumnProjection debug name with
      | mk result t₁ =>
          rw [hproj] at h
          cases result with
          | error e => cases (Prod.mk.inj h).1
          | ok col =>
              obtain ⟨-, hp⟩ := hheld.projected hproj
              obtain ⟨hrows, added, hcols, hall⟩ := ih hp.held h
              refine ⟨hrows.trans hp.rows, col.data :: added, ?_, .cons hp.holds ?_⟩
              · rw [hcols, VectorBatch.addColumn, List.append_assoc, List.singleton_append]
              · refine hall.imp fun name' column => ?_
                rintro ⟨idx, hidx, hholds⟩
                rw [columnIdx, hp.columns] at hidx
                exact ⟨idx, hidx, cells_congr hp.rows idx ▸ hholds⟩

/-- The loop returns exactly when every column can be projected. -/
theorem Held.addColumns_ok (hheld : t.Held) (names : List String) (batch : VectorBatch) :
    (∃ batch' t', HybridTable.addColumns debug batch t names = (.ok batch', t')) ↔
      ∀ name ∈ names, t.Typed name := by
  induction names generalizing t batch with
  | nil => exact ⟨fun _ _ h => absurd h List.not_mem_nil, fun _ => ⟨batch, t, rfl⟩⟩
  | cons name names ih =>
      rw [List.forall_mem_cons, HybridTable.addColumns]
      constructor
      · rintro ⟨batch', t', h⟩
        cases hproj : t.getColumnProjection debug name with
        | mk result t₁ =>
            rw [hproj] at h
            cases result with
            | error e => cases (Prod.mk.inj h).1
            | ok col =>
                obtain ⟨htyped, hp⟩ := hheld.projected hproj
                refine ⟨htyped, fun name' hname' => (hp.typed name').mp ?_⟩
                exact (ih hp.held _).mp ⟨batch', t', h⟩ name' hname'
      · rintro ⟨htyped, hrest⟩
        obtain ⟨col, t₁, hproj⟩ := htyped.projection debug
        obtain ⟨-, hp⟩ := hheld.projected hproj
        rw [hproj]
        exact (ih hp.held _).mpr fun name' hname' => (hp.typed name').mpr (hrest name' hname')

/-! ## Runs -/

theorem held_new (columns : List Column) (layout : StorageLayout) : (new columns layout).Held := by
  intro name col hstore
  change (∅ : Std.ExtTreeMap String ColumnStorage)[name]? = some col at hstore
  rw [Std.ExtTreeMap.getElem?_empty] at hstore
  cases hstore

/-- An insert that leaves the kept columns as they are, or drops them. -/
theorem Held.insertRow (hheld : t.Held) {key : Int64} {values : List Value}
    (h : t.Meets (.insertRow key values)) : (t.insertRow key values).Held := by
  intro name col hstore
  rcases h with hlayout | hkeep
  · rw [HybridTable.insertRow] at hstore
    dsimp only at hstore
    rw [if_pos hlayout, Std.ExtTreeMap.getElem?_empty] at hstore
    cases hstore
  · have hold : t.columnStore[name]? = some col := by
      rw [HybridTable.insertRow] at hstore
      dsimp only at hstore
      split at hstore
      · rw [Std.ExtTreeMap.getElem?_empty] at hstore
        cases hstore
      · exact hstore
    have hmem : name ∈ t.columnStore :=
      Std.ExtTreeMap.mem_iff_isSome_getElem?.mpr (by rw [hold]; rfl)
    obtain ⟨idx, hidx, hholds⟩ := hheld name col hold
    refine ⟨idx, hidx, ?_⟩
    rw [cells_insertRow.mpr (hkeep name hmem idx hidx)]
    exact hholds

theorem Held.projection (hheld : t.Held) (debug : Value → String) (name : String) :
    (t.getColumnProjection debug name).2.Held := by
  cases hproj : t.getColumnProjection debug name with
  | mk result t' =>
      cases result with
      | ok col => exact (hheld.projected hproj).2.held
      | error e =>
          rcases projection_cases debug t name with ⟨_, -, heq⟩ | ⟨_, _, _, -, -, -, -, -, heq⟩ |
            ⟨-, _, heq⟩
          · cases (Prod.mk.inj (heq.symm.trans hproj)).1
          · cases (Prod.mk.inj (heq.symm.trans hproj)).1
          · rw [← (Prod.mk.inj (heq.symm.trans hproj)).2]
            exact hheld

theorem held_of_run {columns : List Column} {layout : StorageLayout}
    (h : Reaches (Via (step debug)) Timely (new columns layout) t) : t.Held := by
  refine h.invariant (held_new columns layout) ?_
  intro t call t' hheld hmeets hstep
  cases call with
  | insertRow key values =>
      cases hstep
      exact hheld.insertRow hmeets
  | getColumnProjection name =>
      cases hstep
      exact hheld.projection debug name

/-- A batch returns exactly when each of its columns can be projected, and its kernels answer
what the rows do: over a vector of integers, what a loop over the column of the rows answers,
with zero for a cell that is no integer. -/
theorem batch_rows {columns : List Column} {layout : StorageLayout}
    (hrun : Reaches (Via (step debug)) Timely (new columns layout) t) (names : List String) :
    ((∃ batch, (t.getVectorBatch debug names).1 = .ok batch) ↔ ∀ name ∈ names, t.Typed name) ∧
      ∀ batch, (t.getVectorBatch debug names).1 = .ok batch →
        batch.rowCount = t.sortedRows.length ∧ batch.columns.length = names.length ∧
        ∀ (i : ℕ) (name : String), names[i]? = some name →
          ∃ idx, t.columnIdx name = some idx ∧
            ∀ values, batch.columns[i]? = some (.integer values) → ∀ avx2 divide,
              batch.Answers i ((t.cells idx).map amount) avx2 divide := by
  have hheld := held_of_run hrun
  rw [← hheld.addColumns_ok names .new, getVectorBatch]
  cases hadd : addColumns debug .new t names with
  | mk result t' =>
      cases result with
      | error e =>
          refine ⟨⟨?_, ?_⟩, ?_⟩
          · rintro ⟨batch, h⟩
            cases h
          · rintro ⟨batch, t₂, h⟩
            cases (Prod.mk.inj h).1
          · rintro batch h
            cases h
      | ok batch' =>
          refine ⟨⟨fun _ => ⟨batch', t', rfl⟩, fun _ => ⟨_, rfl⟩⟩, fun batch hbatch => ?_⟩
          obtain rfl := Except.ok.inj hbatch
          obtain ⟨hrows, added, hcols, hall⟩ := hheld.addColumns hadd
          have hadded : batch'.columns = added := hcols.trans (List.nil_append _)
          refine ⟨?_, ?_, fun i name hname => ?_⟩
          · rw [length_sortedRows, VectorBatch.setRowCount, hrows]
          · exact (congrArg List.length hadded).trans hall.length_eq.symm
          · obtain ⟨hi, heq⟩ := List.getElem?_eq_some_iff.mp hname
            have hi' : i < added.length := hall.length_eq ▸ hi
            obtain ⟨idx, hidx, hholds⟩ := hall.get hi hi'
            rw [List.get_eq_getElem, heq] at hidx
            refine ⟨idx, hidx, fun values hvalues avx2 divide => ?_⟩
            have hat : added[i]? = some (.integer values) := hadded ▸ hvalues
            obtain ⟨_, hcol⟩ := List.getElem?_eq_some_iff.mp hat
            rw [List.get_eq_getElem, hcol] at hholds
            have hvals : values = (t.cells idx).map amount := hholds
            exact hvals ▸ VectorBatch.answers hvalues avx2 divide

/-- Two rows, the second without a value. -/
theorem batch_rows_short :
    ∃ batch, (twoRows.getVectorBatch (fun _ => "") ["a"]).1 = .ok batch ∧
      batch.rowCount = twoRows.sortedRows.length ∧ batch.columns.length = 1 := by
  have hrun : Reaches (Via (step fun _ => "")) Timely (new (oneColumn .hybrid).columns .hybrid)
      twoRows :=
    (Reaches.refl.tail (a := Call.insertRow 1 [.integer 5]) (Or.inl rfl) rfl).tail
      (a := Call.insertRow 2 []) (Or.inl rfl) rfl
  have hbatch := batch_rows hrun ["a"]
  have htyped : ∀ name ∈ ["a"], twoRows.Typed name := by
    rintro name hname
    obtain rfl := List.mem_singleton.mp hname
    exact Or.inr ⟨0, .integer 5, by decide, by decide, rfl⟩
  obtain ⟨batch, hok⟩ := hbatch.1.mpr htyped
  exact ⟨batch, hok, (hbatch.2 batch hok).1, (hbatch.2 batch hok).2.1⟩

end HybridTable

end VelociDB
