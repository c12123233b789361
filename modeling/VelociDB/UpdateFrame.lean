/-
# What an UPDATE changes

    selected     the rows the lookup or the scan offers and the clause accepts
    assignRow    a row with the assigned values written into it
    planned      the updates, one for each selected row

An UPDATE that does not assign the primary key either is refused as a whole or rewrites the
selected rows under their keys and leaves the rest (`update_cases`).  Two things keep this
from being what the statement says: an assignment to an unknown column is skipped in
silence, and a lookup by `<pk> = <integer>` does not see a row that is stored under another
key than the one in its primary-key column.
-/
import VelociDB.FastPath
import VelociDB.Unique

namespace VelociDB

open Multimap

variable {ext : Externals} {ts : TableSchema} {es : RowMap} {clause : Option WhereClause}
  {assignments : List (String × Value)}

/-! ## The rows an UPDATE works on -/

/-- The clause accepts the row; without a clause every row is accepted. -/
def satisfies (ext : Externals) (ts : TableSchema) : Option WhereClause → Row → Bool
  | none, _ => true
  | some w, row => accepts ext ts w row

/-- The key `candidate_rows` looks up. -/
def lookupKey (ts : TableSchema) (clause : Option WhereClause) : Option Int64 :=
  clause.bind fun w => ((ts.columns.find? Column.primaryKey).map Column.name).bind fun pk =>
    pkCondition pk w

/-- A row under this key is among the candidates. -/
def offered (ts : TableSchema) (clause : Option WhereClause) (key : Int64) : Bool :=
  match lookupKey ts clause with
  | some k => key = k
  | none => true

/-- The rows that are offered and accepted. -/
def selected (ext : Externals) (ts : TableSchema) (es : RowMap) (clause : Option WhereClause) :
    List (Int64 × Row) :=
  es.filter fun e => offered ts clause e.1 && satisfies ext ts clause e.2

theorem filterRows_satisfies {rows : List (Int64 × Row)}
    (hwide : ∀ e ∈ rows, e.2.values.length = ts.columns.length) :
    filterRows ext ts clause rows = .ok (rows.filter fun e => satisfies ext ts clause e.2) := by
  cases clause with
  | none => exact congrArg Except.ok (List.filter_eq_self.mpr fun _ _ => rfl).symm
  | some w => exact keepMatching_eq hwide

theorem chosenRows_selected (h : Wide ts es) :
    chosenRows ext ts es clause = .ok (selected ext ts es clause) := by
  have hwide : ∀ e ∈ es, e.2.values.length = ts.columns.length :=
    fun e he => (h.2 e he).length_eq.symm
  unfold chosenRows candidateRows
  dsimp only
  split
  · rename_i key hkey
    have hlookup : lookupKey ts clause = some key := hkey
    have hoffered : ∀ k, offered ts clause k = decide (k = key) := by
      intro k
      rw [offered, hlookup]
    have hmem : ∀ e ∈ ((search es key).map fun row => (key, row)).toList, e ∈ es ∧ e.1 = key := by
      intro e he
      obtain ⟨row, hrow, rfl⟩ := Option.map_eq_some_iff.mp (Option.mem_toList.mp he)
      exact ⟨mem_of_search hrow, rfl⟩
    have hfound := @filter_eq_search es key
      (fun e => offered ts clause e.1 && satisfies ext ts clause e.2) h.1 fun e _ hp => by
        rw [hoffered, Bool.and_eq_true] at hp
        exact of_decide_eq_true hp.1
    rw [selected, hfound]
    refine (filterRows_satisfies fun e he => hwide e (hmem e he).1).trans ?_
    refine congrArg Except.ok (List.filter_congr fun e he => ?_)
    rw [hoffered, decide_eq_true (hmem e he).2, Bool.true_and]
  · rename_i hkey
    have hlookup : lookupKey ts clause = none := hkey
    refine (filterRows_satisfies hwide).trans ?_
    refine congrArg Except.ok (List.filter_congr fun e he => ?_)
    rw [offered, hlookup]
    exact (Bool.true_and _).symm

/-! ## The assignments -/

/-- The row with the assignments written into it. -/
def assignRow (ts : TableSchema) (assignments : List (String × Value)) (row : Row) : Row :=
  ⟨fillRow ts row.values assignments⟩

/-- A column that may not be NULL is assigned NULL. -/
def AssignsNull (ts : TableSchema) (assignments : List (String × Value)) : Prop :=
  ∃ a ∈ assignments, ∃ i, ts.position a.1 = some i ∧ ts.columns[i]?.any Column.notNull ∧ a.2 = .null

/-- The assigned values in the assigned columns, as they are read back, and the old ones in
the others. -/
structure Sets (ts : TableSchema) (assignments : List (String × Value)) (row row' : Row) :
    Prop where
  assigned : ∀ name v i, (name, v) ∈ assignments → ts.position name = some i →
    row'.values[i]? = some v.stored
  others : ∀ i, (∀ a ∈ assignments, ts.position a.1 ≠ some i) → row'.values[i]? = row.values[i]?

theorem sets_assignRow {row : Row} (hnd : (assignments.map Prod.fst).Nodup)
    (hwide : row.values.length = ts.columns.length) (hstored : row.stored = row) :
    Sets ts assignments row (assignRow ts assignments row).stored := by
  have hback : ∀ i : Nat, (assignRow ts assignments row).stored.values[i]? =
      (fillRow ts row.values assignments)[i]?.map Value.stored := fun i => by
    rw [Row.stored, List.getElem?_map, assignRow]
  constructor
  · intro name v i hmem hpos
    have hi : i < row.values.length := hwide ▸ position_lt hpos
    rcases fillRow_value assignments hi with ⟨a, ha, hp, hv⟩ | ⟨hno, -⟩
    · have heq : a = (name, v) :=
        List.inj_on_of_nodup_map hnd ha hmem (position_inj hp hpos)
      rw [hback, hv, heq]
      rfl
    · exact absurd hpos (hno _ hmem)
  · intro i hno
    have hold : row.values[i]? = (row.values[i]?).map Value.stored := by
      conv_lhs => rw [← hstored]
      rw [Row.stored, List.getElem?_map]
    rw [hback, hold]
    by_cases hi : i < row.values.length
    · rcases fillRow_value assignments hi with ⟨a, ha, hp, -⟩ | ⟨-, hv⟩
      · exact absurd hp (hno a ha)
      · rw [hv]
    · rw [List.getElem?_eq_none (by rw [fillRow_length]; omega),
        List.getElem?_eq_none (by omega : row.values.length ≤ i)]

/-- Assignments that leave the primary key alone. -/
def KeepsKey (ts : TableSchema) (assignments : List (String × Value)) : Prop :=
  ∀ a ∈ assignments, ∀ i, ts.pkIndex = some i → ts.position a.1 ≠ some i

theorem applyAssignments_cases {pkIndex : Nat} (hpk : ts.pkIndex = some pkIndex) :
    ∀ {assignments : List (String × Value)} {key : Int64} {b : Bool} {row : Row},
      KeepsKey ts assignments → row.values.length = ts.columns.length →
      (AssignsNull ts assignments ∧
          ∃ e, applyAssignments ext ts pkIndex key b row assignments = .error (.error e)) ∨
        (¬ AssignsNull ts assignments ∧ applyAssignments ext ts pkIndex key b row assignments =
          .ok (key, b, assignRow ts assignments row))
  | [], key, b, row, _, _ => Or.inr ⟨by simp [AssignsNull], rfl⟩
  | (name, value) :: rest, key, b, row, hkeep, hwide => by
      have hrest : KeepsKey ts rest := fun a ha => hkeep a (List.mem_cons_of_mem _ ha)
      have hlater : AssignsNull ts rest → AssignsNull ts ((name, value) :: rest) := by
        rintro ⟨a, ha, hnull⟩
        exact ⟨a, List.mem_cons_of_mem _ ha, hnull⟩
      have hfirst : AssignsNull ts ((name, value) :: rest) → ¬ AssignsNull ts rest →
          ∃ i, ts.position name = some i ∧ ts.columns[i]?.any Column.notNull ∧ value = .null := by
        rintro ⟨a, ha, hnull⟩ hno
        rcases List.mem_cons.mp ha with rfl | ha
        · exact hnull
        · exact absurd ⟨a, ha, hnull⟩ hno
      rw [applyAssignments]
      split
      · rename_i hpos
        have hrow : assignRow ts ((name, value) :: rest) row = assignRow ts rest row := by
          rw [assignRow, assignRow, fillRow, hpos]
        rw [hrow]
        rcases applyAssignments_cases hpk hrest hwide with ⟨hbad, herr⟩ | ⟨hok, hval⟩
        · exact Or.inl ⟨hlater hbad, herr⟩
        · refine Or.inr ⟨fun h => ?_, hval⟩
          obtain ⟨i, hi, -⟩ := hfirst h hok
          rw [hpos] at hi
          cases hi
      · rename_i i hpos
        have hi : i < row.values.length := hwide ▸ position_lt hpos
        have hrow : assignRow ts ((name, value) :: rest) row =
            assignRow ts rest ⟨row.values.set i value⟩ := by
          rw [assignRow, assignRow, fillRow, hpos]
        by_cases hnull : ts.columns[i]?.any Column.notNull ∧ value = .null
        · refine Or.inl ⟨⟨_, List.mem_cons_self, i, hpos, hnull⟩,
            .constraintViolation s!"Column '{name}' cannot be NULL", ?_⟩
          rw [errIf, if_pos hnull]
          rfl
        · have hpass : (errIf (ts.columns[i]?.any Column.notNull ∧ value = .null)
              (.constraintViolation s!"Column '{name}' cannot be NULL") : Except Fault Unit) =
              .ok () := errIf_ok.mpr hnull
          have hne : i ≠ pkIndex := by
            rintro rfl
            exact hkeep _ List.mem_cons_self i hpk hpos
          rw [hpass, hrow]
          dsimp only [bind, Except.bind]
          rw [index_of_lt hi]
          dsimp only
          rw [if_neg hne]
          have hwide' : (row.values.set i value).length = ts.columns.length := by
            rwa [List.length_set]
          have hih : _ ∨ _ := @applyAssignments_cases pkIndex hpk rest key b
            ⟨row.values.set i value⟩ hrest hwide'
          rcases hih with ⟨hbad, herr⟩ | ⟨hok, hval⟩
          · exact Or.inl ⟨hlater hbad, herr⟩
          · refine Or.inr ⟨fun h => ?_, hval⟩
            obtain ⟨j, hj, hbad⟩ := hfirst h hok
            obtain rfl := Option.some.inj (hpos.symm.trans hj)
            exact hnull hbad

/-! ## The statement -/

/-- The updates, one for each row. -/
def planned (ts : TableSchema) (assignments : List (String × Value)) (rows : List (Int64 × Row)) :
    List RowUpdate :=
  rows.map fun e => ⟨e.1, e.1, e.2, assignRow ts assignments e.2⟩

theorem planned_keys {rows : List (Int64 × Row)} :
    ∀ u ∈ planned ts assignments rows, u.newKey = u.key := by
  intro u hu
  obtain ⟨e, -, rfl⟩ := List.mem_map.mp hu
  rfl

theorem computeUpdates_cases {name : String} {pkIndex : Nat} (hpk : ts.pkIndex = some pkIndex)
    (hkeep : KeepsKey ts assignments) : ∀ {rows : List (Int64 × Row)},
      (∀ e ∈ rows, e.2.values.length = ts.columns.length) →
      (rows ≠ [] ∧ AssignsNull ts assignments ∧
          ∃ e, computeUpdates ext maps name ts es pkIndex assignments rows = .error (.error e)) ∨
        (¬ (rows ≠ [] ∧ AssignsNull ts assignments) ∧
          computeUpdates ext maps name ts es pkIndex assignments rows =
            .ok (planned ts assignments rows))
  | [], _ => Or.inr ⟨by simp, rfl⟩
  | (key, row) :: rest, hwide => by
      have hrow : row.values.length = ts.columns.length := hwide _ List.mem_cons_self
      have hfirst : _ ∨ _ := @applyAssignments_cases ext ts pkIndex hpk assignments key false row
        hkeep hrow
      rw [computeUpdates]
      rcases hfirst with ⟨hbad, e, he⟩ | ⟨hok, hval⟩
      · refine Or.inl ⟨by simp, hbad, e, ?_⟩
        rw [he]
        rfl
      · refine Or.inr ⟨fun h => hok h.2, ?_⟩
        have hfree : checkNewKey maps name es key key false = .ok () :=
          checkNewKey_ok.mpr (by simp)
        have hrest : computeUpdates ext maps name ts es pkIndex assignments rest =
            .ok (planned ts assignments rest) :=
          (computeUpdates_cases hpk hkeep fun e he => hwide e (List.mem_cons_of_mem _ he)).elim
            (fun h => absurd h.2.1 hok) fun h => h.2
        exact bind_ok.mpr ⟨_, ofResult_ok.mpr hval, bind_ok.mpr ⟨(), hfree, bind_ok.mpr
          ⟨_, hrest, rfl⟩⟩⟩

theorem checkUnique_cases {rows : List Row} : ∀ cols : List Nat,
    (checkUnique ext ts rows cols : Except Fault Unit) = .ok () ∨
      ∃ e, (checkUnique ext ts rows cols : Except Fault Unit) = .error (.error e)
  | [] => Or.inl rfl
  | i :: cols => by
      rw [checkUnique]
      split
      · exact Or.inr ⟨_, rfl⟩
      · exact checkUnique_cases cols

theorem checkUpdateUnique_cases {us : List RowUpdate} :
    checkUpdateUnique ext maps ts es assignments us = .ok () ∨
      ∃ e, checkUpdateUnique ext maps ts es assignments us = .error (.error e) := by
  unfold checkUpdateUnique
  dsimp only
  split
  · exact Or.inl rfl
  · exact checkUnique_cases _

/-- The statement is refused, its unknown columns apart: there is no primary key, or a row
is to get NULL where it may not be, or a value twice in a UNIQUE column. -/
def UpdateRefused (ext : Externals) (ts : TableSchema) (es : RowMap)
    (assignments : List (String × Value)) (rows : List (Int64 × Row)) : Prop :=
  ts.pkIndex = none ∨ (rows ≠ [] ∧ AssignsNull ts assignments) ∨
    checkUpdateUnique ext maps ts es assignments (planned ts assignments rows) ≠ .ok ()

section Update

variable {db : Tables RowMap} {table : String}

/-- An UPDATE that leaves the primary key alone: refused, or the selected rows rewritten. -/
theorem update_cases (hts : db.schema[table]? = some ts) (hes : db.btrees[table]? = some es)
    (h : Wide ts es) (hkeep : KeepsKey ts assignments) :
    (UpdateRefused ext ts es assignments (selected ext ts es clause) ∧
        ∃ e, executeUpdate ext maps table assignments clause db = .error (.error e)) ∨
      (¬ UpdateRefused ext ts es assignments (selected ext ts es clause) ∧
        ∃ changes, executeUpdate ext maps table assignments clause db =
          .ok (⟨db.schema, db.btrees.insert table
            (replaceAll replace es (planned ts assignments (selected ext ts es clause)))⟩, changes)) := by
  set rows := selected ext ts es clause with hrows
  have hchosen : chosenRows ext ts es clause = .ok rows := chosenRows_selected h
  obtain ⟨candidates, hc, hf⟩ : ∃ candidates, candidateRows maps es clause ts = .ok candidates ∧
      filterRows ext ts clause candidates = .ok rows := chosenRows_ok.mp hchosen
  have hwide : ∀ e ∈ rows, e.2.values.length = ts.columns.length :=
    fun e he => (h.2 e (List.mem_of_mem_filter he)).length_eq.symm
  rw [executeUpdate, getTable_eq hts]
  dsimp only [bind, Except.bind]
  rw [getTree_eq hes]
  dsimp only
  rw [hc]
  dsimp only
  rw [hf]
  dsimp only [ofResult, pure, Except.pure]
  cases hpk : ts.pkIndex with
  | none => exact Or.inl ⟨Or.inl hpk, _, rfl⟩
  | some pkIndex =>
      dsimp only
      have hcompute : _ ∨ _ := @computeUpdates_cases ext ts es assignments table pkIndex hpk hkeep
        rows hwide
      rcases hcompute with ⟨hne, hnull, e, he⟩ | ⟨hno, hus⟩
      · rw [he]
        exact Or.inl ⟨Or.inr (Or.inl ⟨hne, hnull⟩), e, rfl⟩
      rw [hus]
      dsimp only
      have hunique : _ ∨ _ := @checkUpdateUnique_cases ext ts es assignments
        (planned ts assignments rows)
      rcases hunique with hok | ⟨e, he⟩
      · rw [hok]
        dsimp only
        rw [applyUpdates_eq]
        refine Or.inr ⟨?_, _, rfl⟩
        rintro (hnone | hnull | hbad)
        · rw [hpk] at hnone
          cases hnone
        · exact hno hnull
        · exact hbad hok
      · rw [he]
        refine Or.inl ⟨Or.inr (Or.inr ?_), e, rfl⟩
        rw [he]
        simp

end Update

/-! ## The rows after it -/

theorem search_replaceAll_of_notMem {key : Int64} : ∀ {us : List RowUpdate} {es : RowMap},
    (∀ u ∈ us, u.newKey = u.key) → key ∉ us.map RowUpdate.key →
    search (replaceAll replace es us) key = search es key
  | [], _, _, _ => rfl
  | u :: us, es, hsame, hno => by
      rw [List.map_cons, List.mem_cons, not_or] at hno
      have hu : u.newKey = u.key := hsame u List.mem_cons_self
      have hne : key ≠ u.newKey := hu ▸ hno.1
      have hrest : ∀ v ∈ us, v.newKey = v.key := fun v hv => hsame v (List.mem_cons_of_mem _ hv)
      have hstep : search (replace (delete es u.key) u.newKey u.updated.stored) key =
          search es key := by
        rw [search_replace_of_ne hne, search_delete_of_ne hno.1]
      have hih := @search_replaceAll_of_notMem key us
        (replace (delete es u.key) u.newKey u.updated.stored) hrest hno.2
      exact hih.trans hstep

theorem search_replaceAll {u : RowUpdate} : ∀ {us : List RowUpdate} {es : RowMap},
    (keys es).Nodup → (∀ v ∈ us, v.newKey = v.key) → (us.map RowUpdate.key).Nodup → u ∈ us →
    search (replaceAll replace es us) u.key = some u.updated.stored
  | v :: us, es, hnd, hsame, hus, hu => by
      rw [List.map_cons, List.nodup_cons] at hus
      have hrest : ∀ x ∈ us, x.newKey = x.key := fun x hx => hsame x (List.mem_cons_of_mem _ hx)
      have hdel : (keys (delete es v.key)).Nodup := nodup_delete hnd
      rcases List.mem_cons.mp hu with rfl | hu
      · have heq : u.newKey = u.key := hsame u List.mem_cons_self
        have hstep : search (replace (delete es u.key) u.newKey u.updated.stored) u.key =
            some u.updated.stored := by
          rw [heq]
          exact search_replace_self hdel
        have hih := @search_replaceAll_of_notMem u.key us
          (replace (delete es u.key) u.newKey u.updated.stored) hrest hus.1
        exact hih.trans hstep
      · have hnd' : (keys (replace (delete es v.key) v.newKey v.updated.stored)).Nodup :=
          nodup_replace hdel
        exact (search_replaceAll hnd' hrest hus.2 hu :)

/-- Exactly what the statement says: the rows the clause accepts have the assigned values,
every other row, every key and every other table is as it was. -/
structure UpdateFrame (ext : Externals) (ts : TableSchema) (es : RowMap) (table : String)
    (assignments : List (String × Value)) (clause : Option WhereClause) (db db' : Tables RowMap) :
    Prop where
  schema : db'.schema = db.schema
  otherTables : ∀ name, name ≠ table → db'.btrees[name]? = db.btrees[name]?
  rows : ∃ es', db'.btrees[table]? = some es' ∧
    (∀ key, search es key = none → search es' key = none) ∧
    ∀ key row, search es key = some row → ∃ row', search es' key = some row' ∧
      if satisfies ext ts clause row then Sets ts assignments row row' else row' = row

/-- The UPDATE keeps its word: when Ok it does what it says, and an assignment to an
unknown column is an error. -/
structure UpdateKeepsWord (ext : Externals) (ts : TableSchema) (es : RowMap) (table : String)
    (assignments : List (String × Value)) (clause : Option WhereClause) (db : Tables RowMap) :
    Prop where
  frame : ∀ db' changes, executeUpdate ext maps table assignments clause db = .ok (db', changes) →
    UpdateFrame ext ts es table assignments clause db db'
  unknown : (∃ a ∈ assignments, ts.position a.1 = none) →
    ∃ e, executeUpdate ext maps table assignments clause db = .error (.error e)

/-- Every row the clause accepts is under the key that is looked up, or holds the assigned
values already. -/
def LookupFinds (ext : Externals) (ts : TableSchema) (es : RowMap)
    (assignments : List (String × Value)) (clause : Option WhereClause) : Prop :=
  ∀ e ∈ es, satisfies ext ts clause e.2 = true → offered ts clause e.1 = true ∨
    Sets ts assignments e.2 e.2

section Rows

variable {db : Tables RowMap} {table : String} (h : Wide ts es)

include h

theorem selected_keys_nodup : ((planned ts assignments (selected ext ts es clause)).map
    RowUpdate.key).Nodup := by
  have hkeys : (planned ts assignments (selected ext ts es clause)).map RowUpdate.key =
      keys (selected ext ts es clause) := by
    rw [planned, List.map_map]
    rfl
  rw [hkeys]
  exact h.1.sublist (List.filter_sublist.map _)

/-- A selected row is rewritten. -/
theorem search_selected {key : Int64} {row : Row} (hrow : search es key = some row)
    (hoff : offered ts clause key = true) (hsat : satisfies ext ts clause row = true) :
    search (replaceAll replace es (planned ts assignments (selected ext ts es clause))) key =
      some (assignRow ts assignments row).stored := by
  have hmem : (key, row) ∈ selected ext ts es clause :=
    List.mem_filter.mpr ⟨mem_of_search hrow, by rw [hoff, hsat]; rfl⟩
  have hu : (⟨key, key, row, assignRow ts assignments row⟩ : RowUpdate) ∈
      planned ts assignments (selected ext ts es clause) := List.mem_map_of_mem hmem
  exact search_replaceAll h.1 planned_keys (selected_keys_nodup h) hu

/-- What is not selected stays. -/
theorem search_not_selected {key : Int64}
    (hno : ∀ row, search es key = some row → offered ts clause key = true →
      satisfies ext ts clause row = false) :
    search (replaceAll replace es (planned ts assignments (selected ext ts es clause))) key =
      search es key := by
  refine search_replaceAll_of_notMem planned_keys fun hmem => ?_
  obtain ⟨u, hu, rfl⟩ := List.mem_map.mp hmem
  obtain ⟨e, he, rfl⟩ := List.mem_map.mp hu
  obtain ⟨hes, hp⟩ := List.mem_filter.mp he
  rw [Bool.and_eq_true] at hp
  have hfound : search es e.1 = some e.2 := search_eq_some_of_mem h.1 hes
  rw [hno e.2 hfound hp.1] at hp
  cases hp.2

end Rows

/-- In every run, on every table, for assignments that leave the primary key alone: an
UPDATE keeps its word if and only if it is refused on its known columns, or it assigns only
columns of the table and its lookup finds the rows the clause accepts. -/
theorem update_keeps_word_iff {s : SqlState}
    (hs : Transition.Reaches (SqlState.Step ext replace) Transition.Any .init s) {table : String}
    (hts : s.tables.schema[table]? = some ts) (hes : s.tables.btrees[table]? = some es)
    (hnames : (assignments.map Prod.fst).Nodup) (hkeep : KeepsKey ts assignments) :
    UpdateKeepsWord ext ts es table assignments clause s.tables ↔
      UpdateRefused ext ts es assignments (selected ext ts es clause) ∨
        ((∀ a ∈ assignments, ts.position a.1 ≠ none) ∧
          LookupFinds ext ts es assignments clause) := by
  have hs' : Transition.Reaches (SqlState.Step ext replace)
      (SqlState.When fun _ _ => True) .init s := hs.mono fun _ a _ => by cases a <;> trivial
  have hwide : Wide ts es := ((keeps_wide ext _).all_reaches hs').each table ts es hts hes
  have hstored : ∀ e ∈ es, e.2.stored = e.2 :=
    ((keeps_stored lawful_replace).all_reaches hs').each table ts es hts hes
  have hcases : _ ∨ _ := @update_cases ext ts es clause assignments s.tables table hts hes hwide hkeep
  rcases hcases with ⟨hrefused, e, he⟩ | ⟨hno, changes, hx⟩
  · refine iff_of_true ⟨fun db' c h => ?_, fun _ => ⟨e, he⟩⟩ (Or.inl hrefused)
    rw [he] at h
    cases h
  constructor
  · intro hword
    refine Or.inr ⟨fun a ha hnone => ?_, fun e he hsat => ?_⟩
    · obtain ⟨err, herr⟩ := hword.unknown ⟨a, ha, hnone⟩
      rw [hx] at herr
      cases herr
    · by_cases hoff : offered ts clause e.1 = true
      · exact Or.inl hoff
      -- the row is not looked up, so it stays; and it has been assigned
      right
      obtain ⟨es', hes', -, hrows⟩ := (hword.frame _ _ hx).rows
      have hfound : search es e.1 = some e.2 := search_eq_some_of_mem hwide.1 he
      obtain ⟨row', hrow', hset⟩ := hrows e.1 e.2 hfound
      rw [if_pos hsat] at hset
      have htree : replaceAll replace es (planned ts assignments (selected ext ts es clause)) =
          es' := by
        simpa using hes'
      rw [← htree, search_not_selected hwide fun _ _ h => absurd h hoff, hfound] at hrow'
      obtain rfl := Option.some.inj hrow'
      exact hset
  · rintro (hrefused | ⟨hknown, hfinds⟩)
    · exact absurd hrefused hno
    refine ⟨fun db' c h => ?_, ?_⟩
    · obtain ⟨rfl, -⟩ := Prod.mk.inj (Except.ok.inj (hx.symm.trans h))
      refine ⟨rfl, fun name hne => ?_, _, Std.ExtTreeMap.getElem?_insert_self, fun key hkey => ?_,
        fun key row hrow => ?_⟩
      · rw [Std.ExtTreeMap.getElem?_insert, if_neg]
        exact fun heq => hne (Std.compare_eq_iff_eq.mp heq).symm
      · rw [search_not_selected hwide fun row hrow => ?_]
        · exact hkey
        · rw [hkey] at hrow
          cases hrow
      · have hmem : (key, row) ∈ es := mem_of_search hrow
        split
        · rename_i hsat
          by_cases hoff : offered ts clause key = true
          · refine ⟨_, search_selected hwide hrow hoff hsat, ?_⟩
            exact sets_assignRow hnames (hwide.2 _ hmem).length_eq.symm (hstored _ hmem)
          · refine ⟨row, ?_, (hfinds _ hmem hsat).resolve_left hoff⟩
            rw [search_not_selected hwide fun _ _ h => absurd h hoff]
            exact hrow
        · rename_i hsat
          refine ⟨row, ?_, rfl⟩
          rw [search_not_selected hwide fun row' hrow' _ => ?_]
          · exact hrow
          · obtain rfl := Option.some.inj (hrow.symm.trans hrow')
            simpa using hsat
    · rintro ⟨a, ha, hnone⟩
      exact absurd hnone (hknown a ha)

/-- A table with a row `(1, 'a')`. -/
theorem mailTable_reaches : ∃ db,
    Transition.Reaches (SqlState.Step mute replace) Transition.Any .init ⟨db, none⟩ ∧
      db.schema["t"]? = some ⟨"t", [⟨"id", .integer, true, true, false⟩,
        ⟨"mail", .text, false, false, true⟩]⟩ ∧
      db.btrees["t"]? = some [(1, ⟨[.integer 1, .text "a"]⟩)] ∧
      (executeUpdate mute maps "t" [("nmae", .text "b")] none db).isOk = true := by
  have hrun : (SqlState.runStatements mute replace [createMails, insertMail 1 "a"] .empty).toOption.map
      (fun db => (db.schema["t"]?, db.btrees["t"]?,
        (executeUpdate mute maps "t" [("nmae", .text "b")] none db).isOk)) =
        some (some ⟨"t", [⟨"id", .integer, true, true, false⟩, ⟨"mail", .text, false, false, true⟩]⟩,
          some [(1, ⟨[.integer 1, .text "a"]⟩)], true) := by with_unfolding_all decide
  obtain ⟨db, hdb, hview⟩ := SqlState.of_runStatements hrun
  obtain ⟨hts, hview⟩ := Prod.mk.inj hview
  obtain ⟨hes, hok⟩ := Prod.mk.inj hview
  have hall : SqlState.okStatements mute replace (fun _ _ => True) [createMails, insertMail 1 "a"]
      .empty := SqlState.okStatements_of_all fun _ _ => trivial
  exact ⟨db, (SqlState.reaches_runStatements hall .refl hdb).mono fun _ _ _ => trivial, hts, hes, hok⟩

/-- `UPDATE t SET mail = 'b'`. -/
theorem update_keeps_word_iff_mail : ∃ db,
    db.btrees["t"]? = some [(1, ⟨[.integer 1, .text "a"]⟩)] ∧
      UpdateKeepsWord mute ⟨"t", [⟨"id", .integer, true, true, false⟩,
        ⟨"mail", .text, false, false, true⟩]⟩ [(1, ⟨[.integer 1, .text "a"]⟩)] "t"
        [("mail", .text "b")] none db := by
  obtain ⟨db, hreach, hts, hes, -⟩ := mailTable_reaches
  refine ⟨db, hes, (update_keeps_word_iff hreach hts hes (by decide) ?_).mpr (Or.inr ⟨?_, ?_⟩)⟩
  · intro a ha i hi hpos
    obtain rfl := List.mem_singleton.mp ha
    obtain rfl : 0 = i := Option.some.inj hi
    cases hpos
  · intro a ha
    obtain rfl := List.mem_singleton.mp ha
    decide
  · exact fun _ _ _ => Or.inl rfl

/-- `UPDATE t SET nmae = 'b'` returns Ok. -/
theorem not_update_keeps_word : ¬ ∀ s : SqlState,
    Transition.Reaches (SqlState.Step mute replace) Transition.Any .init s →
    ∀ (table : String) (ts : TableSchema) (es : RowMap) (assignments : List (String × Value))
      (clause : Option WhereClause),
      s.tables.schema[table]? = some ts → s.tables.btrees[table]? = some es →
      (assignments.map Prod.fst).Nodup → KeepsKey ts assignments →
      UpdateKeepsWord mute ts es table assignments clause s.tables := by
  intro hall
  obtain ⟨db, hreach, hts, hes, hok⟩ := mailTable_reaches
  have hkeep : KeepsKey ⟨"t", [⟨"id", .integer, true, true, false⟩,
      ⟨"mail", .text, false, false, true⟩]⟩ [("nmae", .text "b")] := by
    intro a ha i _ hpos
    obtain rfl := List.mem_singleton.mp ha
    cases hpos
  have hword := hall _ hreach "t" _ _ [("nmae", .text "b")] none hts hes (by decide) hkeep
  obtain ⟨e, he⟩ := hword.unknown ⟨_, List.mem_cons_self, by decide⟩
  rw [he] at hok
  cases hok

end VelociDB
