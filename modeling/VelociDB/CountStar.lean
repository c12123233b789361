/-
# COUNT

`execute_select` counts at the end of its pipeline, so every stage has its say:

    candidate_rows, WHERE   the rows to be counted
    ORDER BY                refused for what it names, else no row is lost before LIMIT
    LIMIT                   `truncate`
    COUNT                   the rows that are left

The comment on `truncate` says that LIMIT does not affect COUNT; the count is taken
behind it.
-/
import VelociDB.Knn
import VelociDB.WhereErrors

namespace VelociDB

open Multimap

variable {ext : Externals} {vec : VectorFns} {ts : TableSchema} {es : RowMap}
  {db : Tables RowMap} {table : String} {clause : Option WhereClause} {rows : List (Int64 × Row)}

/-- The rows that the clause accepts. -/
def matching (ext : Externals) (ts : TableSchema) (clause : Option WhereClause)
    (es : RowMap) : List (Int64 × Row) :=
  es.filter fun e => clause.all fun w => accepts ext ts w e.2

theorem chosenRows_matching (h : KeyedWide ts es) (clause : Option WhereClause) :
    chosenRows ext ts es clause = .ok (matching ext ts clause es) := by
  rw [chosenRows_eq h, filterRows_eq h]
  cases clause with
  | none => simp [matching]
  | some w => simp [matching]

/-! ## No stage before LIMIT changes what LIMIT leaves -/

theorem scoreRows_length (expr : DistanceExpr) (i : Nat) (rows : List (Int64 × Row)) :
    (scoreRows ext vec expr i rows).length = rows.length := List.length_map _

theorem sortBy_length {α : Type} (cmp : α → α → Ordering) (l : List α) :
    (sortBy cmp l).length = l.length := List.length_mergeSort _

theorem knn_length (expr : DistanceExpr) (i k : Nat) (rows : List (Int64 × Row)) :
    (knn ext vec expr i k rows).length = min k rows.length := by
  have hscored : (scoreRows ext vec expr i rows).length = rows.length := scoreRows_length expr i rows
  unfold knn
  split
  · rename_i hk
    rw [hk, List.length_nil, Nat.zero_min]
  · rename_i hk
    dsimp only
    rw [sortBy_length]
    split
    · rename_i hlt
      have hn : k - 1 < (scoreRows ext vec expr i rows).length := by omega
      have hperm := (vec.selection.perm nearer hn).length_eq
      rw [List.length_take]
      omega
    · omega

/-- ORDER BY drops no row, or what LIMIT would have dropped. -/
theorem orderRows_length {order : Option OrderBy} {limit : Option Nat}
    {sorted : List (Int64 × Row)}
    (h : orderRows ext vec table ts order limit rows = .ok sorted) :
    sorted.length = rows.length ∨
      sorted.length = min (limit.getD rows.length) rows.length := by
  unfold orderRows at h
  split at h
  · obtain rfl := Except.ok.inj h
    exact Or.inl rfl
  rename_i order
  split at h
  · cases h
  · rename_i expr _
    split at h
    · cases h
    · rename_i i _
      split at h
      · obtain rfl := Except.ok.inj h
        refine Or.inr ?_
        rw [List.length_map, knn_length, min_assoc, min_self]
      · obtain rfl := Except.ok.inj h
        refine Or.inl ?_
        rw [List.length_map, sortBy_length, scoreRows_length]
  · split at h
    · cases h
    · obtain rfl := Except.ok.inj h
      exact Or.inl (sortBy_length _ rows)

section

variable (hts : db.schema[table]? = some ts) (hes : db.btrees[table]? = some es)
  (hrows : chosenRows ext ts es clause = .ok rows)

include hts hes hrows

/-- The rows before projection: ORDER BY is refused, or LIMIT decides how many they are. -/
theorem selectRows_length (order : Option OrderBy) (limit : Option Nat) :
    (OrderRefused vec ts order ∧
        ∃ e, selectRows ext vec multimaps table clause order limit db = .error (.error e)) ∨
      (¬ OrderRefused vec ts order ∧ ∃ left,
        selectRows ext vec multimaps table clause order limit db = .ok (ts, left) ∧
          left.length = min (limit.getD rows.length) rows.length) := by
  obtain ⟨candidates, hc, hf⟩ := chosenRows_ok.mp hrows
  rw [selectRows, bind_eq_of_ok (getTable_eq hts), bind_eq_of_ok (getTree_eq hes),
    bind_eq_of_ok hc, bind_eq_of_ok (ofResult_ok.mpr hf)]
  rcases orderRows_cases table order limit rows with ⟨hrefused, e, he⟩ | ⟨hok, sorted, hsorted⟩
  · rw [he]
    exact Or.inl ⟨hrefused, e, rfl⟩
  · rw [bind_eq_of_ok (ofResult_ok.mpr hsorted)]
    have hlen := orderRows_length hsorted
    cases limit with
    | none =>
        refine Or.inr ⟨hok, sorted, rfl, ?_⟩
        rw [Option.getD_none] at *
        omega
    | some k =>
        refine Or.inr ⟨hok, sorted.take k, rfl, ?_⟩
        rw [Option.getD_some] at *
        rw [List.length_take]
        omega

/-- `SELECT *` with the clause alone. -/
theorem select_star : ∃ star,
    executeSelect ext vec multimaps table ["*"] clause none none db = .ok star ∧
      star.rows = rows.map Prod.snd := by
  obtain ⟨candidates, hc, hf⟩ := chosenRows_ok.mp hrows
  have hselect : selectRows ext vec multimaps table clause none none db = .ok (ts, rows) := by
    rw [selectRows, bind_eq_of_ok (getTable_eq hts), bind_eq_of_ok (getTree_eq hes),
      bind_eq_of_ok hc, bind_eq_of_ok (ofResult_ok.mpr hf)]
    rfl
  have hitems : (["*"].mapM fun c => projItem vec table ts c) = .ok [ProjItem.star] := rfl
  refine ⟨⟨(["*"].zip [ProjItem.star]).flatMap fun ci => projectColumns ts ci.1 ci.2,
    rows.map fun e => ⟨[ProjItem.star].flatMap (projectItem ext vec e.2)⟩⟩, ?_, ?_⟩
  · rw [executeSelect, bind_eq_of_ok hselect]
    dsimp only
    rw [isCount_star]
    exact bind_ok.mpr ⟨_, ofResult_ok.mpr hitems, rfl⟩
  · simp only [List.flatMap_singleton, projectItem]

/-- COUNT is refused with its ORDER BY, else it is the number of rows LIMIT leaves. -/
theorem select_count {columns : List String} (hcount : isCount columns = true)
    (order : Option OrderBy) (limit : Option Nat) :
    (OrderRefused vec ts order ∧
        ∃ e, executeSelect ext vec multimaps table columns clause order limit db =
          .error (.error e)) ∨
      (¬ OrderRefused vec ts order ∧ ∃ counted,
        executeSelect ext vec multimaps table columns clause order limit db = .ok counted ∧
          counted.rows =
            [⟨[.integer (Int64.ofNat (min (limit.getD rows.length) rows.length))]⟩]) := by
  rw [executeSelect]
  have hcases : _ ∨ _ := @selectRows_length ext vec ts es db table clause rows hts hes hrows
    order limit
  rcases hcases with ⟨hrefused, e, he⟩ | ⟨hok, left, hleft, hlen⟩
  · rw [he]
    exact Or.inl ⟨hrefused, e, rfl⟩
  · rw [bind_eq_of_ok hleft, ← hlen]
    dsimp only
    rw [if_pos hcount]
    exact Or.inr ⟨hok, _, rfl, rfl⟩

end

/-- COUNT with these clauses returns one row, with the number of rows that `SELECT *` with
the same WHERE clause returns, and these are `rows`. -/
def CountsRows (ext : Externals) (vec : VectorFns) (table : String) (columns : List String)
    (clause : Option WhereClause) (order : Option OrderBy) (limit : Option Nat)
    (db : Tables RowMap) (rows : List (Int64 × Row)) : Prop :=
  ∃ star counted n,
    executeSelect ext vec multimaps table ["*"] clause none none db = .ok star ∧
      star.rows = rows.map Prod.snd ∧
      executeSelect ext vec multimaps table columns clause order limit db = .ok counted ∧
      counted.rows = [⟨[.integer n]⟩] ∧ n.toInt = star.rows.length

/-- Nothing refuses ORDER BY, LIMIT leaves all rows, and an `i64` holds their number. -/
def Countable (vec : VectorFns) (ts : TableSchema) (order : Option OrderBy)
    (limit : Option Nat) (rows : List (Int64 × Row)) : Prop :=
  ¬ OrderRefused vec ts order ∧ (∀ n, limit = some n → rows.length ≤ n) ∧ rows.length < 2 ^ 63

theorem toInt_ofNat_eq_iff {k n : Nat} (hk : k ≤ n) :
    (Int64.ofNat k).toInt = n ↔ k = n ∧ n < 2 ^ 63 := by
  constructor
  · intro h
    have hlt : (n : ℤ) < 2 ^ 63 := h ▸ Int64.toInt_lt _
    have hsmall : n < 2 ^ 63 := by exact_mod_cast hlt
    rw [Int64.toInt_ofNat_of_lt (by omega)] at h
    exact ⟨by exact_mod_cast h, hsmall⟩
  · rintro ⟨rfl, hsmall⟩
    exact Int64.toInt_ofNat_of_lt hsmall

/-- On every table: COUNT counts the rows that are found with the WHERE clause if and only
if it is `Countable`; and in every run that meets the condition on keys these are the rows
of the table that the clause accepts. -/
theorem count_matches :
    (∀ (db : Tables RowMap) (table : String) (ts : TableSchema) (es : RowMap)
      (columns : List String) (clause : Option WhereClause) (order : Option OrderBy)
      (limit : Option Nat) (rows : List (Int64 × Row)),
      db.schema[table]? = some ts → db.btrees[table]? = some es →
      chosenRows ext ts es clause = .ok rows → isCount columns = true →
      (CountsRows ext vec table columns clause order limit db rows ↔
        Countable vec ts order limit rows)) ∧
    ∀ s : SqlState,
      Transition.Reaches (SqlState.Step ext insert) (SqlState.When (KeySafe ext)) .init s →
      ∀ (table : String) (ts : TableSchema) (es : RowMap) (clause : Option WhereClause),
        s.tables.schema[table]? = some ts → s.tables.btrees[table]? = some es →
        chosenRows ext ts es clause = .ok (matching ext ts clause es) := by
  refine ⟨?_, fun s hs table ts es clause hts hes =>
    chosenRows_matching (((keeps_keyedWide ext).all_reaches hs).each table ts es hts hes) clause⟩
  intro db table ts es columns clause order limit rows hts hes hrows hcount
  obtain ⟨star, hstar, hall⟩ := @select_star ext vec ts es db table clause rows hts hes hrows
  have hlen : star.rows.length = rows.length := by rw [hall, List.length_map]
  have hcases : _ ∨ _ := @select_count ext vec ts es db table clause rows hts hes hrows columns
    hcount order limit
  rcases hcases with ⟨hrefused, e, he⟩ | ⟨hok, counted, hcounted, hone⟩
  · refine iff_of_false ?_ fun h => h.1 hrefused
    rintro ⟨_, _, _, -, -, hcounted, -⟩
    rw [he] at hcounted
    cases hcounted
  have hleft : min (limit.getD rows.length) rows.length = rows.length ↔
      ∀ n, limit = some n → rows.length ≤ n := by
    cases limit with
    | none => simp
    | some k => simp
  have hnumber := toInt_ofNat_eq_iff (Nat.min_le_right (limit.getD rows.length) rows.length)
  rw [Countable, ← hleft]
  constructor
  · rintro ⟨star', counted', n, hstar', -, hcounted', hn, hint⟩
    obtain rfl := Except.ok.inj (hstar.symm.trans hstar')
    obtain rfl := Except.ok.inj (hcounted.symm.trans hcounted')
    rw [hone] at hn
    obtain rfl : Int64.ofNat (min (limit.getD rows.length) rows.length) = n := by
      injection hn with hrow
      injection hrow with hvalues
      injection hvalues with hvalue
      exact Value.integer.inj hvalue
    exact ⟨hok, hnumber.mp (hlen ▸ hint)⟩
  · rintro ⟨-, hall', hsmall⟩
    exact ⟨star, counted, _, hstar, hall, hcounted, hone, hlen ▸ hnumber.mpr ⟨hall', hsmall⟩⟩

/-- `t (id INTEGER PRIMARY KEY)`. -/
def keyTable : TableSchema := ⟨"t", [⟨"id", .integer, true, true, false⟩]⟩

theorem twoKeys_safe : SqlState.okStatements mute insert (KeySafe mute)
    [createKeyed, insertKey 2, insertKey 3] .empty := by
  refine SqlState.okStatements_create (TableSchema.Distinct.keyNamed ?_)
    ⟨fun _ _ _ _ _ h => ?_, fun _ _ _ => ⟨fun _ _ _ _ _ h => ?_, fun _ _ _ => trivial⟩⟩
  · simp [TableSchema.Distinct]
  · cases h
  · cases h

theorem twoKeys_run : ∃ db,
    SqlState.runStatements mute insert [createKeyed, insertKey 2, insertKey 3] .empty = .ok db ∧
      db.schema["t"]? = some keyTable ∧
      db.btrees["t"]? = some [(2, ⟨[.integer 2]⟩), (3, ⟨[.integer 3]⟩)] := by
  have hrun : (SqlState.runStatements mute insert [createKeyed, insertKey 2, insertKey 3]
      .empty).toOption.map (fun db => (db.schema["t"]?, db.btrees["t"]?)) =
        some (some keyTable, some [(2, ⟨[.integer 2]⟩), (3, ⟨[.integer 3]⟩)]) := by with_unfolding_all decide
  obtain ⟨db, hdb, hview⟩ := SqlState.of_runStatements hrun
  exact ⟨db, hdb, Prod.mk.inj hview⟩

theorem isCount_count : isCount ["COUNT(*)"] = true := by with_unfolding_all decide

/-- `SELECT COUNT(*) FROM t WHERE id = 2 LIMIT 1`. -/
theorem count_matches_two : ∃ db,
    SqlState.runStatements mute insert [createKeyed, insertKey 2, insertKey 3] .empty = .ok db ∧
      CountsRows mute noVectors "t" ["COUNT(*)"] (some idIsTwo) none (some 1) db
        (matching mute keyTable (some idIsTwo) [(2, ⟨[.integer 2]⟩), (3, ⟨[.integer 3]⟩)]) := by
  obtain ⟨db, hdb, hts, hes⟩ := twoKeys_run
  have hchosen := (@count_matches mute noVectors).2 _
    (SqlState.reaches_runStatements twoKeys_safe .refl hdb) "t" _ _ (some idIsTwo) hts hes
  have hone : (matching mute keyTable (some idIsTwo)
      [(2, ⟨[.integer 2]⟩), (3, ⟨[.integer 3]⟩)]).length = 1 := by with_unfolding_all decide
  refine ⟨db, hdb, (count_matches.1 db "t" _ _ _ _ _ _ _ hts hes hchosen isCount_count).mpr
    ⟨?_, ?_, ?_⟩⟩
  · rintro ⟨o, ho, -⟩
    cases ho
  · intro n hn
    obtain rfl := Option.some.inj hn
    exact hone.le
  · rw [hone]
    decide

/-- `SELECT COUNT(*) FROM t LIMIT 1` returns 1 on a table of two rows. -/
theorem not_count_matches : ¬ ∀ s : SqlState,
    Transition.Reaches (SqlState.Step mute insert) (SqlState.When (KeySafe mute)) .init s →
    ∀ (table : String) (ts : TableSchema) (es : RowMap) (clause : Option WhereClause)
      (order : Option OrderBy) (limit : Option Nat),
      s.tables.schema[table]? = some ts → s.tables.btrees[table]? = some es →
      CountsRows mute noVectors table ["COUNT(*)"] clause order limit s.tables
        (matching mute ts clause es) := by
  intro hall
  obtain ⟨db, hdb, hts, hes⟩ := twoKeys_run
  have hreach := SqlState.reaches_runStatements twoKeys_safe .refl hdb
  have hcounts := hall _ hreach "t" _ _ none none (some 1) hts hes
  obtain ⟨star, counted, n, -, hstar, hcounted, hn, hint⟩ := hcounts
  have hchosen : chosenRows mute keyTable [(2, ⟨[.integer 2]⟩), (3, ⟨[.integer 3]⟩)] none =
      .ok [(2, ⟨[.integer 2]⟩), (3, ⟨[.integer 3]⟩)] := by with_unfolding_all decide
  have hcases : (OrderRefused noVectors keyTable none ∧ _) ∨ _ :=
    select_count hts hes hchosen isCount_count none (some 1)
  rcases hcases with
    ⟨⟨o, ho, -⟩, -⟩ | ⟨-, counted', hcounted', hone⟩
  · cases ho
  obtain rfl := Except.ok.inj (hcounted.symm.trans hcounted')
  rw [hone] at hn
  have hnumber : Int64.ofNat 1 = n := by
    injection hn with hrow
    injection hrow with hvalues
    injection hvalues with hvalue
    exact Value.integer.inj hvalue
  rw [hstar, ← hnumber] at hint
  exact absurd hint (by decide)

end VelociDB
