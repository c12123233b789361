/-
# The primary-key lookup agrees with the scan

`candidate_rows` looks a key up in the tree where the WHERE clause has a condition
`<pk> = <integer>`, and scans otherwise.  Where every row carries its key and keys are
distinct (`Keyed`), a row the clause accepts is the row found under that key.
-/
import VelociDB.PrimaryKey

namespace VelociDB

open Multimap

variable {ext : Externals} {ts : TableSchema} {es : RowMap} {w : WhereClause}

/-! ## Conditions on a row -/

theorem position_lt {name : String} {i : Nat} (h : ts.position name = some i) :
    i < ts.columns.length := by
  obtain ⟨c, hc, -⟩ := position_spec h
  exact (List.getElem?_eq_some_iff.mp hc).1

theorem index_of_lt {row : Row} {i : Nat} (h : i < row.values.length) :
    row.index i = .ok row.values[i] := by
  simp [Row.index, h]

/-- On a row as wide as its table no condition panics. -/
theorem evaluateConditions_no_panic {row : Row} (hw : row.values.length = ts.columns.length) :
    ∀ cs : List Condition, evaluateConditions ext ts row cs ≠ .error .panic
  | [] => by simp [evaluateConditions]
  | c :: cs => by
      rw [evaluateConditions]
      split
      · simp
      · rename_i i hi
        rw [index_of_lt (hw ▸ position_lt hi)]
        dsimp only [bind, Except.bind]
        split
        · simp
        · simp [pure, Except.pure]
        · exact evaluateConditions_no_panic hw cs

/-- The clause accepts the row. -/
def accepts (ext : Externals) (ts : TableSchema) (w : WhereClause) (row : Row) : Bool :=
  match matchesWhere ext ts w row with
  | .ok b => b
  | .error _ => false

theorem matchesWhere_eq {row : Row} (hw : row.values.length = ts.columns.length) :
    matchesWhere ext ts w row = .ok (accepts ext ts w row) := by
  have hno : evaluateConditions ext ts row w.conditions ≠ .error .panic :=
    evaluateConditions_no_panic hw _
  unfold accepts matchesWhere
  cases h : evaluateConditions ext ts row w.conditions with
  | ok b => rfl
  | error e =>
      cases e with
      | error e => rfl
      | panic => exact absurd h hno

theorem keepMatching_eq : ∀ {rows : List (Int64 × Row)},
    (∀ e ∈ rows, e.2.values.length = ts.columns.length) →
    keepMatching ext ts w rows = .ok (rows.filter fun e => accepts ext ts w e.2)
  | [], _ => rfl
  | e :: rows, h => by
      rw [keepMatching, matchesWhere_eq (h e List.mem_cons_self),
        keepMatching_eq fun x hx => h x (List.mem_cons_of_mem _ hx), List.filter_cons]
      rfl

/-- A clause with a condition that is false of a row does not accept it. -/
theorem evaluateConditions_false {row : Row} {c : Condition} {i : Nat} {v : Value}
    (hp : ts.position c.column = some i) (hv : row.values[i]? = some v)
    (hc : c.operator.evaluate ext v c.value = .ok false) :
    ∀ {cs : List Condition}, c ∈ cs → evaluateConditions ext ts row cs ≠ .ok true
  | d :: cs, hmem => by
      rw [evaluateConditions]
      rcases List.mem_cons.mp hmem with rfl | hmem
      · obtain ⟨hi, rfl⟩ := List.getElem?_eq_some_iff.mp hv
        rw [hp]
        dsimp only
        rw [index_of_lt hi]
        simp [bind, Except.bind, hc, pure, Except.pure]
      · split
        · simp
        · intro h
          obtain ⟨u, -, h⟩ := bind_ok.mp h
          split at h
          · cases h
          · cases h
          · exact evaluateConditions_false hp hv hc hmem h

/-! ## Rows under a key -/

theorem pkCondition_spec {pk : String} {key : Int64} (h : pkCondition pk w = some key) :
    ∃ c ∈ w.conditions, c.column = pk ∧ c.operator = .equal ∧ c.value = .integer key := by
  obtain ⟨c, hc, h⟩ := List.exists_of_findSome?_eq_some h
  split at h
  · rename_i key' hop hval
    split at h
    · obtain rfl := Option.some.inj h
      exact ⟨c, hc, ‹_›, hop, hval⟩
    · cases h
  · cases h

/-- What a clause with `<pk> = key` accepts is stored under the key. -/
theorem key_of_accepts {pk : Column} {key : Int64} (hk : Keyed ts es)
    (hpk : ts.columns.find? Column.primaryKey = some pk) (hkey : pkCondition pk.name w = some key)
    {e : Int64 × Row} (he : e ∈ es) (hacc : accepts ext ts w e.2 = true) : e.1 = key := by
  obtain ⟨c, hc, hcol, hop, hval⟩ := pkCondition_spec hkey
  obtain ⟨i, hi, hrow⟩ := hk.pk e he
  obtain ⟨i', hi', hcolumn⟩ := pkIndex_of_find hpk
  obtain rfl := Option.some.inj (hi.symm.trans hi')
  by_contra hne
  have hfalse : c.operator.evaluate ext (.integer e.1) c.value = .ok false := by
    rw [hop, hval]
    simp only [Operator.evaluate, Operator.holds]
    simp [hne]
  have hno := evaluateConditions_false (hcol ▸ hk.named.position hi hcolumn) hrow hfalse hc
  unfold accepts matchesWhere at hacc
  split at hacc
  · rename_i b hb
    subst hacc
    split at hb
    · cases hb
    · exact hno hb
  · cases hacc

/-- With distinct keys, the pairs with a key are the one `search` finds. -/
theorem filter_eq_search {key : Int64} {p : Int64 × Row → Bool} (hnd : (keys es).Nodup)
    (hp : ∀ e ∈ es, p e = true → e.1 = key) :
    es.filter p = ((search es key).map fun row => (key, row)).toList.filter p := by
  induction es with
  | nil => rfl
  | cons e es ih =>
      rw [keys, List.map_cons, List.nodup_cons] at hnd
      have hrest := ih hnd.2 fun x hx => hp x (List.mem_cons_of_mem _ hx)
      by_cases hk : e.1 = key
      · have hnone : es.filter p = [] := by
          refine List.filter_eq_nil_iff.mpr fun x hx hpx => hnd.1 ?_
          rw [hk, ← hp x (List.mem_cons_of_mem _ hx) hpx]
          exact List.mem_map_of_mem hx
        have hfound : search (e :: es) key = some e.2 := by simp [search, hk]
        rw [List.filter_cons, hnone, hfound, ← hk]
        simp [List.filter_cons]
      · have hpe : p e = false := by
          by_contra hpe
          exact hk (hp e List.mem_cons_self (by simpa using hpe))
        have hskip : search (e :: es) key = search es key := by simp [search, hk]
        rw [List.filter_cons, hpe, hskip]
        simpa using hrest

/-! ## Runs -/

/-- Keyed, and every row as wide as the table. -/
def KeyedWide (ts : TableSchema) (es : RowMap) : Prop :=
  Keyed ts es ∧ ∀ e ∈ es, Fits (fun _ _ => True) ts e.2

theorem keeps_keyedWide (ext : Externals) : Keeps ext insert (KeySafe ext) KeyedWide :=
  keeps_fits lawful_insert fitRule_any keeps_keyed fun h => h.nodup

theorem filterRows_eq (h : KeyedWide ts es) (clause : Option WhereClause) :
    filterRows ext ts clause es = .ok (match clause with
      | none => es
      | some w => es.filter fun e => accepts ext ts w e.2) := by
  cases clause with
  | none => rfl
  | some w => exact keepMatching_eq fun e he => (h.2 e he).length_eq.symm

/-- The rows the lookup offers and the clause accepts are those of the scan. -/
theorem chosenRows_eq (h : KeyedWide ts es) (clause : Option WhereClause) :
    chosenRows ext ts es clause = filterRows ext ts clause es := by
  unfold chosenRows candidateRows
  dsimp only
  split
  · rename_i key hkey
    obtain ⟨w, rfl, hfound⟩ := Option.bind_eq_some_iff.mp hkey
    obtain ⟨name, hname, hcond⟩ := Option.bind_eq_some_iff.mp hfound
    obtain ⟨pk, hpk, rfl⟩ := Option.map_eq_some_iff.mp hname
    have hwide : ∀ e ∈ ((search es key).map fun row => (key, row)).toList,
        e.2.values.length = ts.columns.length := by
      intro e he
      obtain ⟨row, hrow, rfl⟩ := Option.map_eq_some_iff.mp (Option.mem_toList.mp he)
      exact (h.2 _ (mem_of_search hrow)).length_eq.symm
    rw [filterRows_eq h]
    refine (keepMatching_eq hwide).trans (congrArg Except.ok ?_)
    exact (filter_eq_search h.1.nodup fun e he => key_of_accepts h.1 hpk hcond he).symm
  · rfl

section

variable {table : String} {db : Tables RowMap} {clause : Option WhereClause}

theorem getTable_eq (hts : db.schema[table]? = some ts) :
    (getTable db.schema table : Except Fault TableSchema) = .ok ts := getTable_ok.mpr hts

theorem getTree_eq (hes : db.btrees[table]? = some es) :
    (getTree db table : Except Fault RowMap) = .ok es := getTree_ok.mpr hes

variable {w' : WhereClause} (hts : db.schema[table]? = some ts)
  (hes : db.btrees[table]? = some es)
  (hsame : chosenRows ext ts es (some w) = chosenRows ext ts es (some w'))

include hts hes hsame

end

/-- `WHERE id = 2`. -/
def idIsTwo : WhereClause := ⟨[⟨"id", .equal, .integer 2⟩]⟩

end VelociDB
