/-
# A WHERE clause with an unknown column

`evaluate_where_clause` finds the column of each condition and returns an error where
there is none, but its five callers read an error as "does not match".  So a clause that
mentions an unknown column matches no row, wherever it stands in the list of conditions,
and the statement goes on with no rows: what decides its result is what the rest of it
does then.
-/
import VelociDB.FastPath
import VelociDB.QuerySteps
import VelociDB.Unique

namespace VelociDB

open Multimap

variable {ext : Externals} {vec : VectorFns} {ts : TableSchema} {es : RowMap} {w : WhereClause}

/-- A condition is on a column that the table does not have. -/
def MentionsUnknown (ts : TableSchema) (w : WhereClause) : Prop :=
  ∃ c ∈ w.conditions, ts.position c.column = none

/-! ## No row matches -/

theorem evaluateConditions_unknown {row : Row} : ∀ {cs : List Condition},
    (∃ c ∈ cs, ts.position c.column = none) → evaluateConditions ext ts row cs ≠ .ok true
  | d :: cs, hbad => by
      rw [evaluateConditions]
      intro h
      split at h
      · cases h
      · rename_i i hi
        obtain ⟨v, -, h⟩ := bind_ok.mp h
        split at h
        · cases h
        · cases h
        · obtain ⟨c, hc, hnone⟩ := hbad
          rcases List.mem_cons.mp hc with rfl | hc
          · rw [hnone] at hi
            cases hi
          · exact evaluateConditions_unknown ⟨c, hc, hnone⟩ h

theorem accepts_unknown (hbad : MentionsUnknown ts w) (row : Row) : accepts ext ts w row = false := by
  have hno : evaluateConditions ext ts row w.conditions ≠ .ok true :=
    evaluateConditions_unknown hbad
  unfold accepts matchesWhere
  cases h : evaluateConditions ext ts row w.conditions with
  | ok b =>
      cases b with
      | true => exact absurd h hno
      | false => rfl
  | error e => cases e <;> rfl

/-- The statement goes on with no rows. -/
theorem chosenRows_unknown (hbad : MentionsUnknown ts w)
    (hwide : ∀ e ∈ es, Fits (fun _ _ => True) ts e.2) : chosenRows ext ts es (some w) = .ok [] := by
  have hcandidates : ∃ candidates, candidateRows multimaps es (some w) ts = .ok candidates := by
    unfold candidateRows
    dsimp only
    split
    · exact ⟨_, rfl⟩
    · exact ⟨_, rfl⟩
  obtain ⟨candidates, hc⟩ := hcandidates
  have hsub := candidateRows_sublist hc
  refine bind_ok.mpr ⟨candidates, hc, ?_⟩
  refine (keepMatching_eq fun e he => (hwide e (hsub.subset he)).length_eq.symm).trans ?_
  exact congrArg Except.ok (List.filter_eq_nil_iff.mpr fun e _ => by simp [accepts_unknown hbad])

/-! ## What is refused without rows -/

/-- The text is no distance from a column of the table. -/
def NoDistance (vec : VectorFns) (ts : TableSchema) (text : String) : Prop :=
  ∀ expr, vec.parseDistanceExpr text = some (.ok expr) → ts.position expr.column = none

/-- ORDER BY names neither a column nor a distance. -/
def OrderRefused (vec : VectorFns) (ts : TableSchema) (order : Option OrderBy) : Prop :=
  ∃ o, order = some o ∧ NoDistance vec ts o.column ∧
    (vec.parseDistanceExpr o.column = none → ts.position o.column = none)

/-- An item of the list is neither `*` nor a column nor a distance. -/
def ItemsRefused (vec : VectorFns) (ts : TableSchema) (columns : List String) : Prop :=
  isCount columns = false ∧
    ∃ c ∈ columns, c ≠ "*" ∧ ts.position c = none ∧ NoDistance vec ts c

theorem noDistance_of_none {text : String} (h : vec.parseDistanceExpr text = none) :
    NoDistance vec ts text := by
  intro expr hexpr
  rw [h] at hexpr
  cases hexpr

theorem noDistance_of_error {text : String} {e : VelociError}
    (h : vec.parseDistanceExpr text = some (.error e)) : NoDistance vec ts text := by
  intro expr hexpr
  rw [h] at hexpr
  cases hexpr

theorem noDistance_iff {text : String} {expr : DistanceExpr}
    (h : vec.parseDistanceExpr text = some (.ok expr)) :
    NoDistance vec ts text ↔ ts.position expr.column = none := by
  refine ⟨fun hno => hno expr h, fun hnone expr' h' => ?_⟩
  obtain rfl := Except.ok.inj (Option.some.inj (h.symm.trans h'))
  exact hnone

/-- ORDER BY is refused for what it names, whatever rows there are. -/
theorem orderRows_cases (name : String) (order : Option OrderBy) (limit : Option Nat)
    (rows : List (Int64 × Row)) :
    (OrderRefused vec ts order ∧
        ∃ e, orderRows ext vec name ts order limit rows = .error (.error e)) ∨
      (¬ OrderRefused vec ts order ∧
        ∃ sorted, orderRows ext vec name ts order limit rows = .ok sorted) := by
  cases order with
  | none =>
      refine Or.inr ⟨?_, rows, rfl⟩
      rintro ⟨o, ho, -⟩
      cases ho
  | some o =>
  have hrefused : OrderRefused vec ts (some o) ↔ NoDistance vec ts o.column ∧
      (vec.parseDistanceExpr o.column = none → ts.position o.column = none) := by
    refine ⟨?_, fun h => ⟨o, rfl, h⟩⟩
    rintro ⟨o', ho, h⟩
    obtain rfl := Option.some.inj ho
    exact h
  rw [hrefused]
  unfold orderRows
  dsimp only
  split
  · rename_i e he
    exact Or.inl ⟨⟨noDistance_of_error he, by simp [he]⟩, e, rfl⟩
  · rename_i expr he
    rw [noDistance_iff he]
    split
    · rename_i hno
      exact Or.inl ⟨⟨hno, by simp [he]⟩, _, rfl⟩
    · rename_i i hi
      refine Or.inr ⟨by simp [hi], ?_⟩
      split
      · exact ⟨_, rfl⟩
      · exact ⟨_, rfl⟩
  · rename_i he
    split
    · rename_i hno
      exact Or.inl ⟨⟨noDistance_of_none he, fun _ => hno⟩, _, rfl⟩
    · rename_i i hi
      exact Or.inr ⟨by simp [he, hi], _, rfl⟩

/-- Without rows ORDER BY gives none back, or is refused. -/
theorem orderRows_nil (name : String) (order : Option OrderBy) (limit : Option Nat) :
    (OrderRefused vec ts order ∧
        ∃ e, orderRows ext vec name ts order limit [] = .error (.error e)) ∨
      (¬ OrderRefused vec ts order ∧ orderRows ext vec name ts order limit [] = .ok []) := by
  have hcases : _ ∨ _ := @orderRows_cases ext vec ts name order limit []
  refine hcases.imp id fun h => ⟨h.1, ?_⟩
  obtain ⟨sorted, hsorted⟩ := h.2
  have hnil : sorted = [] := List.subperm_nil.mp (orderRows_subperm hsorted)
  rw [hsorted, hnil]

theorem projItem_cases (name column : String) :
    ((column ≠ "*" ∧ ts.position column = none ∧ NoDistance vec ts column) ∧
        ∃ e, projItem vec name ts column = .error (.error e)) ∨
      (¬ (column ≠ "*" ∧ ts.position column = none ∧ NoDistance vec ts column) ∧
        ∃ item, projItem vec name ts column = .ok item) := by
  unfold projItem
  split
  · rename_i hstar
    exact Or.inr ⟨by simp [hstar], _, rfl⟩
  rename_i hstar
  split
  · rename_i i hi
    exact Or.inr ⟨by simp [hi], _, rfl⟩
  rename_i hno
  split
  · rename_i e he
    exact Or.inl ⟨⟨hstar, hno, noDistance_of_error he⟩, e, rfl⟩
  · rename_i expr he
    rw [noDistance_iff he]
    split
    · rename_i hcol
      exact Or.inl ⟨⟨hstar, hno, hcol⟩, _, rfl⟩
    · rename_i i hi
      exact Or.inr ⟨by simp [hi], _, rfl⟩
  · rename_i he
    exact Or.inl ⟨⟨hstar, hno, noDistance_of_none he⟩, _, rfl⟩

/-- The list is refused at its first bad item. -/
theorem mapM_projItem (name : String) : ∀ columns : List String,
    ((∃ c ∈ columns, c ≠ "*" ∧ ts.position c = none ∧ NoDistance vec ts c) ∧
        ∃ e, (columns.mapM fun c => projItem vec name ts c) = .error (.error e)) ∨
      ((¬ ∃ c ∈ columns, c ≠ "*" ∧ ts.position c = none ∧ NoDistance vec ts c) ∧
        ∃ items, (columns.mapM fun c => projItem vec name ts c) = .ok items)
  | [] => Or.inr ⟨by simp, [], rfl⟩
  | c :: cs => by
      rw [List.mapM_cons]
      have hfirst : _ ∨ _ := @projItem_cases vec ts name c
      rcases hfirst with ⟨hbad, e, he⟩ | ⟨hgood, item, hitem⟩
      · rw [he]
        exact Or.inl ⟨⟨c, List.mem_cons_self, hbad⟩, e, rfl⟩
      · rw [hitem]
        rcases mapM_projItem name cs with ⟨⟨d, hd, hbad⟩, e, he⟩ | ⟨hgood', items, hitems⟩
        · refine Or.inl ⟨⟨d, List.mem_cons_of_mem _ hd, hbad⟩, e, ?_⟩
          rw [he]
          rfl
        · refine Or.inr ⟨?_, item :: items, ?_⟩
          · rintro ⟨d, hd, hbad⟩
            rcases List.mem_cons.mp hd with rfl | hd
            · exact hgood hbad
            · exact hgood' ⟨d, hd, hbad⟩
          · rw [hitems]
            rfl

/-! ## The statements -/

theorem bind_eq_of_ok {α β : Type} {x : Except Fault α} {a : α} (h : x = .ok a)
    (f : α → Except Fault β) : x >>= f = f a := by
  rw [h]
  rfl

/-- SELECT, UPDATE and DELETE without table and WHERE clause. -/
inductive RowStatement where
  | select (columns : List String) (order : Option OrderBy) (limit : Option Nat)
  | update (assignments : List (String × Value))
  | delete

/-- The statement returns Err, and so changes nothing. -/
def RowStatement.Errs (ext : Externals) (vec : VectorFns) (table : String) (w : WhereClause)
    (db : Tables RowMap) : RowStatement → Prop
  | .select columns order limit =>
      ∃ e, executeSelect ext vec maps table columns (some w) order limit db = .error (.error e)
  | .update assignments =>
      ∃ e, executeUpdate ext maps table assignments (some w) db = .error (.error e)
  | .delete => ∃ e, executeDelete ext maps table (some w) db = .error (.error e)

/-- The rest of the statement is refused, whatever rows there are. -/
def RowStatement.Refused (vec : VectorFns) (ts : TableSchema) : RowStatement → Prop
  | .select columns order _ => OrderRefused vec ts order ∨ ItemsRefused vec ts columns
  | .update _ => ts.pkIndex = none
  | .delete => False

section

variable {db : Tables RowMap} {table : String} (hts : db.schema[table]? = some ts)
  (hes : db.btrees[table]? = some es) (hnone : chosenRows ext ts es (some w) = .ok [])

include hts hes hnone

theorem selectRows_done (order : Option OrderBy) (limit : Option Nat) :
    (OrderRefused vec ts order ∧
        ∃ e, selectRows ext vec maps table (some w) order limit db = .error (.error e)) ∨
      (¬ OrderRefused vec ts order ∧
        selectRows ext vec maps table (some w) order limit db = .ok (ts, [])) := by
  obtain ⟨candidates, hc, hf⟩ := chosenRows_ok.mp hnone
  rw [selectRows, bind_eq_of_ok (getTable_eq hts), bind_eq_of_ok (getTree_eq hes),
    bind_eq_of_ok hc, bind_eq_of_ok (ofResult_ok.mpr hf)]
  rcases orderRows_nil table order limit with ⟨hrefused, e, he⟩ | ⟨hok, hrows⟩
  · rw [he]
    exact Or.inl ⟨hrefused, e, rfl⟩
  · rw [bind_eq_of_ok (ofResult_ok.mpr hrows)]
    cases limit with
    | none => exact Or.inr ⟨hok, rfl⟩
    | some n => exact Or.inr ⟨hok, by simp [pure, Except.pure]⟩

theorem select_done (columns : List String) (order : Option OrderBy) (limit : Option Nat) :
    ((OrderRefused vec ts order ∨ ItemsRefused vec ts columns) ∧
        ∃ e, executeSelect ext vec maps table columns (some w) order limit db =
          .error (.error e)) ∨
      (¬ (OrderRefused vec ts order ∨ ItemsRefused vec ts columns) ∧
        ∃ result, executeSelect ext vec maps table columns (some w) order limit db = .ok result) := by
  rw [executeSelect]
  have hselect : _ ∨ _ := @selectRows_done ext vec ts es w db table hts hes hnone order limit
  rcases hselect with ⟨hrefused, e, he⟩ | ⟨hok, hrows⟩
  · rw [he]
    exact Or.inl ⟨Or.inl hrefused, e, rfl⟩
  rw [bind_eq_of_ok hrows]
  dsimp only
  split
  · rename_i hcount
    refine Or.inr ⟨?_, _, rfl⟩
    rintro (h | ⟨hno, -⟩)
    · exact hok h
    · rw [hcount] at hno
      cases hno
  · rename_i hcount
    rcases mapM_projItem table columns with ⟨hbad, e, he⟩ | ⟨hgood, items, hitems⟩
    · rw [he]
      exact Or.inl ⟨Or.inr ⟨by simpa using hcount, hbad⟩, e, rfl⟩
    · refine Or.inr ⟨?_, _, bind_eq_of_ok (ofResult_ok.mpr hitems) _⟩
      rintro (h | ⟨-, hbad⟩)
      · exact hok h
      · exact hgood hbad

theorem update_done (assignments : List (String × Value)) :
    (ts.pkIndex = none ∧
        ∃ e, executeUpdate ext maps table assignments (some w) db = .error (.error e)) ∨
      (ts.pkIndex ≠ none ∧
        ∃ out, executeUpdate ext maps table assignments (some w) db = .ok out) := by
  obtain ⟨candidates, hc, hf⟩ := chosenRows_ok.mp hnone
  rw [executeUpdate, bind_eq_of_ok (getTable_eq hts), bind_eq_of_ok (getTree_eq hes), bind_eq_of_ok hc,
    bind_eq_of_ok (ofResult_ok.mpr hf)]
  cases hpk : ts.pkIndex with
  | none => exact Or.inl ⟨rfl, _, rfl⟩
  | some i =>
      have hunique : checkUpdateUnique ext maps ts es assignments [] = .ok () := by
        simp [checkUpdateUnique, pure, Except.pure]
      exact Or.inr ⟨by simp, _, (bind_eq_of_ok hunique _).trans rfl⟩

theorem delete_done : ∃ out, executeDelete ext maps table (some w) db = .ok out := by
  obtain ⟨candidates, hc, hf⟩ := chosenRows_ok.mp hnone
  rw [executeDelete, bind_eq_of_ok (getTable_eq hts), bind_eq_of_ok (getTree_eq hes), bind_eq_of_ok hc,
    bind_eq_of_ok (ofResult_ok.mpr hf)]
  exact ⟨_, rfl⟩

end

/-- In every run, on every table: a SELECT, an UPDATE or a DELETE whose WHERE clause
mentions a column the table does not have returns Err if and only if the rest of the
statement is refused by itself. -/
theorem bad_where_reported_iff {s : SqlState}
    (hs : Transition.Reaches (SqlState.Step ext replace) Transition.Any .init s) {table : String}
    (hts : s.tables.schema[table]? = some ts) (hes : s.tables.btrees[table]? = some es)
    (hbad : MentionsUnknown ts w) (stmt : RowStatement) :
    stmt.Errs ext vec table w s.tables ↔ stmt.Refused vec ts := by
  have hs' : Transition.Reaches (SqlState.Step ext replace)
      (SqlState.When fun _ _ => True) .init s := hs.mono fun _ a _ => by cases a <;> trivial
  have hwide := ((keeps_wide ext _).all_reaches hs').each table ts es hts hes
  have hnone : chosenRows ext ts es (some w) = .ok [] := chosenRows_unknown hbad hwide.2
  cases stmt with
  | select columns order limit =>
      rcases select_done hts hes hnone columns order limit with ⟨hrefused, herr⟩ | ⟨hno, out, hout⟩
      · exact iff_of_true herr hrefused
      · refine iff_of_false ?_ hno
        rintro ⟨e, he⟩
        rw [hout] at he
        cases he
  | update assignments =>
      rcases update_done hts hes hnone assignments with ⟨hrefused, herr⟩ | ⟨hno, out, hout⟩
      · exact iff_of_true herr hrefused
      · refine iff_of_false ?_ hno
        rintro ⟨e, he⟩
        rw [hout] at he
        cases he
  | delete =>
      obtain ⟨out, hout⟩ := delete_done hts hes hnone
      refine iff_of_false ?_ id
      rintro ⟨e, he⟩
      rw [hout] at he
      cases he

/-- `WHERE nmae = 1`. -/
def nmaeIsOne : WhereClause := ⟨[⟨"nmae", .equal, .integer 1⟩]⟩

theorem bad_where_reported_iff_list : ∃ db,
    SqlState.runStatements mute replace [createKeyed, insertKey 2] .empty = .ok db ∧
      (RowStatement.select ["nmae"] none none).Errs mute noVectors "t" nmaeIsOne db := by
  have hrun : (SqlState.runStatements mute replace [createKeyed, insertKey 2] .empty).toOption.map
      (fun db => (db.schema["t"]?, db.btrees["t"]?)) =
        some (some ⟨"t", [⟨"id", .integer, true, true, false⟩]⟩,
          some [(2, ⟨[.integer 2]⟩)]) := by with_unfolding_all decide
  obtain ⟨db, hdb, hview⟩ := SqlState.of_runStatements hrun
  obtain ⟨hts, hes⟩ := Prod.mk.inj hview
  have hall : SqlState.okStatements mute replace (fun _ _ => True) [createKeyed, insertKey 2]
      .empty := SqlState.okStatements_of_all fun _ _ => trivial
  have hreach := (SqlState.reaches_runStatements hall .refl hdb).mono fun _ _ _ => trivial
  have hbad : MentionsUnknown ⟨"t", [⟨"id", .integer, true, true, false⟩]⟩ nmaeIsOne :=
    ⟨_, List.mem_cons_self, by decide⟩
  refine ⟨db, hdb, (bad_where_reported_iff hreach hts hes hbad _).mpr (Or.inr ⟨by with_unfolding_all decide, ?_⟩)⟩
  exact ⟨"nmae", List.mem_cons_self, by decide, by decide, by rintro expr ⟨⟩⟩

/-- `DELETE FROM t WHERE nmae = 1` returns Ok. -/
theorem not_bad_where_reported : ¬ ∀ s : SqlState,
    Transition.Reaches (SqlState.Step mute replace) Transition.Any .init s →
    ∀ (table : String) (ts : TableSchema) (es : RowMap) (w : WhereClause) (stmt : RowStatement),
      s.tables.schema[table]? = some ts → s.tables.btrees[table]? = some es → es ≠ [] →
      MentionsUnknown ts w → stmt.Errs mute noVectors table w s.tables := by
  intro hall
  have hrun : (SqlState.runStatements mute replace [createKeyed, insertKey 2] .empty).toOption.map
      (fun db => (db.schema["t"]?, db.btrees["t"]?,
        (executeDelete mute maps "t" (some nmaeIsOne) db).isOk)) =
        some (some ⟨"t", [⟨"id", .integer, true, true, false⟩]⟩,
          some [(2, ⟨[.integer 2]⟩)], true) := by with_unfolding_all decide
  obtain ⟨db, hdb, hview⟩ := SqlState.of_runStatements hrun
  obtain ⟨hts, hview⟩ := Prod.mk.inj hview
  obtain ⟨hes, hok⟩ := Prod.mk.inj hview
  have hreach := SqlState.reaches_runStatements
    (SqlState.okStatements_of_all fun _ _ => trivial) .refl hdb
  obtain ⟨e, he⟩ := hall _ (hreach.mono fun _ _ _ => trivial) "t" _ _ nmaeIsOne .delete hts hes
    (by simp) ⟨_, List.mem_cons_self, by decide⟩
  rw [he] at hok
  cases hok

end VelociDB
