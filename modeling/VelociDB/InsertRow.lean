/-
# What an INSERT stores

`execute_insert` looks a column name up three times: for the key, for the checks and for
the row.  Each lookup is a first match, and the last one skips a name without a column.
So the row is what the statement gives exactly when its names are columns of the table
and no name comes twice:

    INSERT INTO t (id, nmae) VALUES (1, 'x')    Ok, the text is dropped
    INSERT INTO t (id, id) VALUES (1, 2)        Ok, key 1 over a row with id 2

A statement without a column list names every column of the table, in order, and a table
may have two columns of one name.
-/
import VelociDB.FastPath
import VelociDB.QuerySteps

namespace VelociDB

open Multimap

variable {ext : Externals} {table : String} {columns : Option (List String)}
  {values : List Value} {db db' : Tables RowMap} {changes : List StagedChange}
  {ts : TableSchema} {es : RowMap} {pk : Column} {key : Int64}

/-- The names an INSERT gives values for. -/
def columnNames (ts : TableSchema) (columns : Option (List String)) : List String :=
  columns.getD (ts.columns.map Column.name)

/-! ## When the statement is accepted -/

/-- The conditions under which `execute_insert` gets as far as the tree. -/
structure Admits (ext : Externals) (table : String) (columns : Option (List String))
    (values : List Value) (db : Tables RowMap) (ts : TableSchema) (es : RowMap) (pk : Column)
    (key : Int64) : Prop where
  schema : db.schema[table]? = some ts
  btree : db.btrees[table]? = some es
  counts : (columnNames ts columns).length = values.length
  isPk : ts.columns.find? Column.primaryKey = some pk
  named : (namedValues ts columns values).find? (fun e => e.1 == pk.name) =
    some (pk.name, .integer key)
  checked : checkValues ext ts (namedValues ts columns values) = .ok ()
  free : key ∉ keys es
  unique : checkInsertUnique ext multimaps ts es (insertedRow ts columns values) = .ok ()

theorem Admits.inserts (h : Admits ext table columns values db ts es pk key) :
    executeInsert ext multimaps table columns values db = .ok
      (⟨db.schema, db.btrees.insert table (insert es key (insertedRow ts columns values).stored)⟩,
        [⟨table, .insert, key, none, some (insertedRow ts columns values)⟩]) := by
  have hnamed := h.named
  rw [namedValues] at hnamed
  have hsearch : search es key = none := search_eq_none.mpr h.free
  refine bind_ok.mpr ⟨ts, getTable_ok.mpr h.schema, ?_⟩
  refine bind_ok.mpr ⟨(), errIf_ok.mpr (not_not.mpr h.counts), ?_⟩
  rw [h.isPk]
  dsimp only
  rw [hnamed]
  refine bind_ok.mpr ⟨key, rfl, ?_⟩
  refine bind_ok.mpr ⟨(), ofResult_ok.mpr h.checked, ?_⟩
  refine bind_ok.mpr ⟨es, getTree_ok.mpr h.btree, ?_⟩
  refine bind_ok.mpr ⟨none, congrArg Except.ok hsearch, ?_⟩
  refine bind_ok.mpr ⟨(), errIf_ok.mpr (by simp), ?_⟩
  refine bind_ok.mpr ⟨(), h.unique, ?_⟩
  exact bind_ok.mpr ⟨_, rfl, rfl⟩

theorem safe_getTable (schema : Std.ExtTreeMap String TableSchema) (name : String) :
    Safe (getTable schema name : Except Fault TableSchema) := by
  unfold getTable
  split
  · exact safe_ok _
  · exact safe_error _

theorem safe_errIf (c : Prop) [Decidable c] (e : VelociError) :
    Safe (errIf c e : Except Fault Unit) := by
  unfold errIf
  split
  · exact safe_error _
  · exact safe_ok _

theorem safe_checkValues : ∀ nv : List (String × Value), Safe (checkValues ext ts nv)
  | [] => safe_ok _
  | (name, value) :: nv => by
      refine Safe.bind ?_ fun _ _ => safe_checkValues nv
      unfold checkValue
      split
      · exact safe_ok _
      split
      · exact safe_error _
      split
      · split
        · exact safe_ok _
        · exact safe_error _
      · exact safe_ok _
      · exact safe_error _
      · exact safe_ok _

end VelociDB
