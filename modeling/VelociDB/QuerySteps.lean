/-
# A query in two steps (`executor.rs`)

`execute_select` clones the schema of its table under the schema lock and then, under the
B-tree lock, reads the rows; what it does with them needs no lock.  `SelectQuery.read` is
everything after the clone.  A query looks at one table only, and on rows as wide as the
schema it was given it does not panic.
-/
import VelociDB.Select
import VelociDB.TableInv

namespace VelociDB

/-- `Statement::Select`. -/
structure SelectQuery where
  table : String
  columns : List String
  clause : Option WhereClause
  order : Option OrderBy
  limit : Option Nat

namespace SelectQuery

variable (ext : Externals) (vec : VectorFns)

/-- The query as one step. -/
def run (q : SelectQuery) (db : Tables RowMap) : Except Fault QueryResult :=
  executeSelect ext vec multimaps q.table q.columns q.clause q.order q.limit db

/-- The first step: `schema.get_table(table)?.clone()`. -/
def clone (q : SelectQuery) (db : Tables RowMap) : Except Fault TableSchema :=
  getTable db.schema q.table

/-- The rows that were read, filtered, ordered, cut and projected. -/
def process (q : SelectQuery) (ts : TableSchema) (candidates : List (Int64 × Row)) :
    Except Fault QueryResult := do
  let rows ← filterRows ext ts q.clause candidates
  let rows ← orderRows ext vec q.table ts q.order q.limit rows
  let rows := match q.limit with
    | some n => rows.take n
    | none => rows
  if isCount q.columns then
    return ⟨[⟨q.columns.headD "", .integer, false, true, false⟩],
      [⟨[.integer (Int64.ofNat rows.length)]⟩]⟩
  let items ← q.columns.mapM fun c => projItem vec q.table ts c
  return ⟨(q.columns.zip items).flatMap fun ci => projectColumns ts ci.1 ci.2,
    rows.map fun e => ⟨items.flatMap (projectItem ext vec e.2)⟩⟩

/-- The second step, with the schema the first one found. -/
def read (q : SelectQuery) (ts : TableSchema) (db : Tables RowMap) : Except Fault QueryResult := do
  let tree ← getTree db q.table
  let candidates ← candidateRows multimaps tree q.clause ts
  process ext vec q ts candidates

variable {ext vec} {q : SelectQuery} {db db' : Tables RowMap} {ts : TableSchema}

theorem ofResult_eq {α : Type} (r : Except Fault α) : (ofResult r : Except Fault α) = r := by
  cases r <;> rfl

theorem run_eq : q.run ext vec db = q.clone db >>= fun ts => q.read ext vec ts db := by
  simp only [run, clone, read, process, executeSelect, selectRows, ofResult_eq, bind_assoc, pure_bind]
  all_goals rfl

theorem run_of_clone (h : q.clone db = .ok ts) : q.run ext vec db = q.read ext vec ts db := by
  rw [run_eq, h]
  rfl

theorem run_of_clone_error {e : Fault} (h : q.clone db = .error e) :
    q.run ext vec db = .error e := by
  rw [run_eq, h]
  rfl

/-- Each step looks at its own entry of the table. -/
theorem clone_congr (h : db'.schema[q.table]? = db.schema[q.table]?) : q.clone db' = q.clone db := by
  simp only [clone, getTable, h]

theorem read_congr (h : db'.btrees[q.table]? = db.btrees[q.table]?) :
    q.read ext vec ts db' = q.read ext vec ts db := by
  simp only [read, getTree, h]

theorem run_congr (hs : db'.schema[q.table]? = db.schema[q.table]?)
    (hb : db'.btrees[q.table]? = db.btrees[q.table]?) : q.run ext vec db' = q.run ext vec db := by
  rw [run_eq, run_eq, clone_congr hs]
  exact congrArg _ (funext fun ts => read_congr hb)

/-! ## No index out of range -/

theorem evaluateConditions_safe {row : Row} (h : ts.columns.length ≤ row.values.length) :
    ∀ conditions : List Condition, Safe (evaluateConditions ext ts row conditions)
  | [] => safe_ok _
  | c :: rest => by
      simp only [evaluateConditions]
      split
      · exact safe_error _
      · rename_i i hi
        obtain ⟨_, hcol, -⟩ := position_spec hi
        have hlt : i < row.values.length := (List.getElem?_eq_some_iff.mp hcol).1.trans_le h
        have hindex : row.index i = .ok row.values[i] := by simp [Row.index, hlt]
        rw [hindex]
        refine (safe_ok _).bind fun v _ => ?_
        split
        · exact safe_error _
        · exact safe_ok _
        · exact evaluateConditions_safe h rest

theorem keepMatching_safe {clause : WhereClause} : ∀ {rows : List (Int64 × Row)},
    (∀ e ∈ rows, ts.columns.length ≤ e.2.values.length) → Safe (keepMatching ext ts clause rows)
  | [], _ => safe_ok _
  | e :: rows, h => by
      have hmatch : Safe (matchesWhere ext ts clause e.2) := by
        have heval : Safe (evaluateConditions ext ts e.2 clause.conditions) :=
          evaluateConditions_safe (h e List.mem_cons_self) _
        unfold matchesWhere
        split
        · exact safe_ok _
        · exact heval
      refine hmatch.bind fun keep _ => ?_
      exact (keepMatching_safe fun x hx => h x (List.mem_cons_of_mem _ hx)).bind fun _ _ => safe_ok _

theorem orderRows_safe {rows : List (Int64 × Row)} :
    Safe (orderRows ext vec q.table ts q.order q.limit rows) := by
  unfold orderRows
  repeat' split
  all_goals first | exact safe_ok _ | exact safe_error _

theorem projItem_safe (c : String) : Safe (projItem vec q.table ts c) := by
  unfold projItem
  repeat' split
  all_goals first | exact safe_ok _ | exact safe_error _

theorem mapM_safe {α β : Type} {f : α → Except Fault β} (hf : ∀ a, Safe (f a)) :
    ∀ l : List α, Safe (l.mapM f)
  | [] => safe_ok _
  | a :: l => by
      rw [List.mapM_cons]
      exact (hf a).bind fun _ _ => (mapM_safe hf l).bind fun _ _ => safe_ok _

theorem process_safe {rows : List (Int64 × Row)}
    (h : ∀ e ∈ rows, ts.columns.length ≤ e.2.values.length) : Safe (process ext vec q ts rows) := by
  have hfilter : Safe (filterRows ext ts q.clause rows) := by
    unfold filterRows
    split
    · exact safe_ok _
    · exact keepMatching_safe h
  refine hfilter.bind fun _ _ => orderRows_safe.bind fun _ _ => ?_
  dsimp only
  generalize isCount q.columns = count
  cases count
  · exact (mapM_safe projItem_safe _).bind fun _ _ => safe_ok _
  · exact safe_ok _

theorem candidateRows_safe {es : RowMap} : Safe (candidateRows multimaps es q.clause ts) := by
  unfold candidateRows
  dsimp only
  split
  · exact safe_ok _
  · exact safe_ok _

/-- On rows that are as wide as the schema. -/
theorem read_safe (h : ∀ es, db.btrees[q.table]? = some es →
    ∀ e ∈ es, ts.columns.length ≤ e.2.values.length) : Safe (q.read ext vec ts db) := by
  have htree : Safe (getTree db q.table : Except Fault RowMap) := by
    unfold getTree
    split
    · exact safe_ok _
    · exact safe_error _
  refine htree.bind fun es hes => ?_
  refine candidateRows_safe.bind fun rows hrows => process_safe fun e he => ?_
  exact h es (getTree_ok.mp hes) e ((candidateRows_sublist hrows).subset he)

theorem run_safe (h : ∀ ts es, db.schema[q.table]? = some ts → db.btrees[q.table]? = some es →
    ∀ e ∈ es, ts.columns.length ≤ e.2.values.length) : Safe (q.run ext vec db) := by
  rw [run_eq]
  have hclone : Safe (q.clone db) := by
    unfold clone getTable
    split
    · exact safe_ok _
    · exact safe_error _
  exact hclone.bind fun ts hts => read_safe fun es hes => h ts es (getTable_ok.mp hts) hes

end SelectQuery

/-! ## A table with one row -/

/-- No distance expressions. -/
def noVectors : VectorFns := ⟨fun _ => none, fun _ _ _ => .ok 0, .bySort _⟩

/-- A table `t` with one row. -/
def oneRow : Tables RowMap :=
  ⟨Std.ExtTreeMap.insert ∅ "t" ⟨"t", [⟨"id", .integer, true, true, false⟩]⟩,
    Std.ExtTreeMap.insert ∅ "t" [(1, ⟨[.integer 1]⟩)]⟩

/-- `SELECT * FROM t`. -/
def selectAll : SelectQuery := ⟨"t", ["*"], none, none, none⟩

end VelociDB
