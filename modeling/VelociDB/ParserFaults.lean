/-
# Where the parser panics (`parser.rs`)

Every statement hands literals to `parse_value`, one after the other, until one is refused.
The parser panics if the first literal that is not accepted is broken, and, for a SELECT, if
the scan for ORDER BY meets `ORDER bẙ`: the upper case of `ẙ` starts with a Y, so `BY` is
found, and the slice behind it cuts the letter.  No other slice is out of range or cuts a
letter.
-/
import VelociDB.ParserRegex

namespace VelociDB

open Text

namespace Parser

variable {tx : TextFns}

/-! ## Statements without literals -/

theorem safe_refuse {α : Type} (msg : String) : Safe (refuse msg : Except Fault α) := safe_error _

theorem safe_some {α : Type} (a : α) : Safe (orPanic (some a)) := safe_ok a

/-- A group that every match has. -/
theorem safe_group (h : tx.Lawful) {r : Regex Char} {s : List Char} {m : Regex.Match Char}
    (hm : tx.captures r s = some m) {n : Nat} (hn : n ∈ r.binds) : Safe (orPanic (m.group n)) := by
  rw [h.captures_eq] at hm
  obtain ⟨t, ht⟩ := Regex.search_group hm hn
  rw [ht]
  exact safe_some t

theorem safe_groupName (h : tx.Lawful) {r : Regex Char} {s : List Char} {m : Regex.Match Char}
    (hm : tx.captures r s = some m) {n : Nat} (hn : n ∈ r.binds) : Safe (groupName m n) :=
  (safe_group h hm hn).bind fun _ _ => safe_ok _

theorem safe_mapM {α β : Type} {f : α → Except Fault β} (h : ∀ a, Safe (f a)) (l : List α) :
    Safe (l.mapM f) := by
  intro hpanic
  obtain ⟨u, x, v, -, -, hx⟩ := mapM_panics.mp hpanic
  exact h x hx

/-- The slice behind the closing quote starts at a letter. -/
theorem safe_identifierLoop (endQuote : Char) (rest : List Char) :
    ∀ (s done : List Char) (escaped : Bool) (identifier : List Char), s = done ++ rest →
      Safe (identifierLoop s endQuote (size done) escaped identifier rest) := by
  induction rest with
  | nil =>
      intro s done escaped identifier hs
      exact safe_refuse _
  | cons ch rest ih =>
      intro s done escaped identifier hs
      have hnext : s = (done ++ [ch]) ++ rest := by rw [hs, List.append_assoc]; rfl
      have hsize : size done + ch.utf8Size = size (done ++ [ch]) := by
        rw [size_append, size_cons, size_nil, Nat.add_zero]
      rw [identifierLoop, hsize]
      split
      · exact ih s _ _ _ hnext
      · split
        · exact ih s _ _ _ hnext
        · split
          · have hslice : sliceFrom s (size (done ++ [ch])) = some rest := by
              rw [hnext]
              exact sliceFrom_size _ _
            rw [hslice]
            exact safe_ok _
          · exact ih s _ _ _ hnext

theorem safe_parseIdentifier (s : List Char) : Safe (parseIdentifier s) := by
  rw [parseIdentifier]
  cases hs : trim isWhite s with
  | nil => exact safe_ok _
  | cons c rest =>
      have hone : c.utf8Size = size [c] := by rw [size_cons, size_nil, Nat.add_zero]
      dsimp only
      rw [hone]
      split
      · exact safe_identifierLoop _ _ _ [c] _ _ rfl
      · split
        · exact safe_identifierLoop _ _ _ [c] _ _ rfl
        · exact safe_ok _

theorem safe_parseColumn (colDef : List Char) : Safe (parseColumn tx colDef) := by
  refine (safe_parseIdentifier colDef).bind fun e _ => ?_
  dsimp only
  split
  · exact safe_refuse _
  · split
    · exact safe_refuse _
    · exact safe_ok _

theorem safe_parseAddedColumn (colDef : List Char) : Safe (parseAddedColumn tx colDef) := by
  refine (safe_parseIdentifier colDef).bind fun e _ => ?_
  dsimp only
  split
  · exact safe_refuse _
  · split
    · exact safe_refuse _
    · split
      · exact safe_refuse _
      · exact safe_ok _

theorem safe_parseCreateTable (h : tx.Lawful) (sql : List Char) :
    Safe (parseCreateTable tx sql) := by
  rw [parseCreateTable]
  split
  · exact safe_refuse _
  · rename_i m hm
    refine (safe_groupName h hm (by simp)).bind fun _ _ => ?_
    refine (safe_group h hm (by simp)).bind fun _ _ => ?_
    exact (safe_mapM safe_parseColumn _).bind fun _ _ => safe_ok _

theorem safe_parseDropTable (h : tx.Lawful) (sql : List Char) :
    Safe (parseDropTable tx sql) := by
  rw [parseDropTable]
  split
  · exact safe_refuse _
  · rename_i m hm
    exact (safe_groupName h hm (by simp)).bind fun _ _ => safe_ok _

theorem safe_parseAlterTable (h : tx.Lawful) (sql : List Char) :
    Safe (parseAlterTable tx sql) := by
  rw [parseAlterTable]
  split
  · rename_i m hm
    refine (safe_groupName h hm (by simp)).bind fun _ _ => ?_
    exact (safe_groupName h hm (by simp)).bind fun _ _ => safe_ok _
  · split
    · rename_i m hm
      refine (safe_groupName h hm (by simp)).bind fun _ _ => ?_
      refine (safe_groupName h hm (by simp)).bind fun _ _ => ?_
      exact (safe_groupName h hm (by simp)).bind fun _ _ => safe_ok _
    · split
      · rename_i m hm
        refine (safe_groupName h hm (by simp)).bind fun _ _ => ?_
        refine (safe_group h hm (by simp)).bind fun _ _ => ?_
        exact (safe_parseAddedColumn _).bind fun _ _ => safe_ok _
      · split
        · rename_i m hm
          refine (safe_groupName h hm (by simp)).bind fun _ _ => ?_
          exact (safe_groupName h hm (by simp)).bind fun _ _ => safe_ok _
        · exact safe_refuse _

/-! ## Literals one after the other

A list of steps: the literal of each, or none if the step is refused before it parses one. -/

/-- A step that succeeds. -/
def Accepted (tx : TextFns) (step : Option (List Char)) : Prop :=
  ∃ l, step = some l ∧ ¬ Broken l ∧ ¬ Refused tx l

/-- The first step that does not succeed has a broken literal. -/
def FirstBroken (tx : TextFns) (steps : List (Option (List Char))) : Prop :=
  ∃ u l v, steps = u ++ some l :: v ∧ (∀ x ∈ u, Accepted tx x) ∧ Broken l

theorem not_firstBroken_nil : ¬ FirstBroken tx [] := by
  rintro ⟨u, l, v, h, -⟩
  exact List.append_ne_nil_of_right_ne_nil u (List.cons_ne_nil _ v) h.symm

theorem firstBroken_cons {x : Option (List Char)} {xs : List (Option (List Char))} :
    FirstBroken tx (x :: xs) ↔
      (∃ l, x = some l ∧ Broken l) ∨ (Accepted tx x ∧ FirstBroken tx xs) := by
  constructor
  · rintro ⟨u, l, v, heq, hu, hl⟩
    cases u with
    | nil => exact Or.inl ⟨l, (List.cons.inj heq).1, hl⟩
    | cons y u =>
        obtain ⟨rfl, rfl⟩ := List.cons.inj heq
        exact Or.inr ⟨hu x List.mem_cons_self, u, l, v, rfl,
          fun z hz => hu z (List.mem_cons_of_mem _ hz), hl⟩
  · rintro (⟨l, rfl, hl⟩ | ⟨hx, u, l, v, rfl, hu, hl⟩)
    · exact ⟨[], l, xs, rfl, by simp, hl⟩
    · refine ⟨x :: u, l, v, rfl, ?_, hl⟩
      rintro z hz
      rcases List.mem_cons.mp hz with rfl | hz
      · exact hx
      · exact hu z hz

theorem firstBroken_append {xs ys : List (Option (List Char))} :
    FirstBroken tx (xs ++ ys) ↔
      FirstBroken tx xs ∨ ((∀ x ∈ xs, Accepted tx x) ∧ FirstBroken tx ys) := by
  induction xs with
  | nil => simp [not_firstBroken_nil]
  | cons x xs ih =>
      rw [List.cons_append, firstBroken_cons, firstBroken_cons, ih, List.forall_mem_cons, and_or_left,
        or_assoc, and_assoc]

/-- `f` parses the literal `t a` of `a`. -/
structure Parses {α β : Type} (tx : TextFns) (f : α → Except Fault β)
    (t : α → Option (List Char)) : Prop where
  panics : ∀ a, f a = .error .panic ↔ ∃ l, t a = some l ∧ Broken l
  oks : ∀ a, (∃ b, f a = .ok b) ↔ Accepted tx (t a)

section

variable {α β : Type} {f : α → Except Fault β} {t : α → Option (List Char)}

theorem Parses.mapM_oks (h : Parses tx f t) (l : List α) :
    (∃ bs, l.mapM f = .ok bs) ↔ ∀ x ∈ l.map t, Accepted tx x := by
  induction l with
  | nil => simp [pure, Except.pure]
  | cons a l ih =>
      rw [List.map_cons, List.forall_mem_cons, ← h.oks, ← ih, List.mapM_cons]
      constructor
      · rintro ⟨bs, hbs⟩
        obtain ⟨b, hb, hrest⟩ := bind_oks.mp hbs
        obtain ⟨bs', hbs', -⟩ := bind_oks.mp hrest
        exact ⟨⟨b, hb⟩, bs', hbs'⟩
      · rintro ⟨⟨b, hb⟩, bs, hbs⟩
        exact ⟨b :: bs, by rw [hb, hbs]; rfl⟩

theorem Parses.mapM_panics (h : Parses tx f t) (l : List α) :
    l.mapM f = .error .panic ↔ FirstBroken tx (l.map t) := by
  induction l with
  | nil => simp [pure, Except.pure, not_firstBroken_nil]
  | cons a l ih =>
      rw [List.map_cons, firstBroken_cons, ← h.panics, ← h.oks, ← ih, List.mapM_cons, bind_panics]
      refine or_congr_right ⟨?_, ?_⟩
      · rintro ⟨b, hb, hrest⟩
        rcases bind_panics.mp hrest with hl | ⟨bs, -, hpure⟩
        · exact ⟨⟨b, hb⟩, hl⟩
        · cases hpure
      · rintro ⟨⟨b, hb⟩, hl⟩
        exact ⟨b, hb, bind_panics.mpr (Or.inl hl)⟩

end

theorem parses_value (h : tx.Lawful) : Parses tx (parseValue tx) some where
  panics l := by
    rw [parseValue_panics_iff h]
    exact ⟨fun hl => ⟨l, rfl, hl⟩, fun ⟨l', heq, hl⟩ => Option.some.inj heq ▸ hl⟩
  oks l := by
    rw [parseValue_ok_iff h]
    exact ⟨fun hl => ⟨l, rfl, hl⟩, fun ⟨l', heq, hl⟩ => Option.some.inj heq ▸ hl⟩

/-! ## Conditions -/

/-- The literal of a condition. -/
def conditionText (tx : TextFns) (part : List Char) : Option (List Char) :=
  (tx.captures (conditionRe tx) (trim isWhite part)).bind fun m => m.group 3

/-- The literals of a WHERE clause. -/
def whereTexts (tx : TextFns) (clause : List Char) : List (Option (List Char)) :=
  (splitOnAnd clause).map (conditionText tx)

/-- A condition whose text is matched is as good as its literal. -/
theorem parseCondition_eq {part column op value : List Char}
    {m : Regex.Match Char} (hm : tx.captures (conditionRe tx) (trim isWhite part) = some m)
    (hparts : ConditionParts tx (trim isWhite part) m column op value) :
    ∃ o, operatorFromStr op = .ok o ∧ parseCondition tx part =
      parseValue tx (trim isWhite value) >>= fun v => .ok ⟨String.ofList column, o, v⟩ := by
  obtain ⟨hcolumn, hop, hvalue⟩ := hparts.group
  obtain ⟨o, ho⟩ := operatorFromStr_ok hparts.op_mem
  refine ⟨o, ho, ?_⟩
  rw [parseCondition, hm]
  dsimp only
  rw [hcolumn, hop, hvalue]
  change (operatorFromStr op >>= _) = _
  rw [ho]
  rfl

theorem broken_trim {l : List Char} : Broken (trim isWhite l) ↔ Broken l := by
  rw [Broken, Broken, trim_trim]

theorem refused_trim {l : List Char} : Refused tx (trim isWhite l) ↔ Refused tx l := by
  rw [Refused, Refused, trim_trim]

theorem parses_condition (h : tx.Lawful) : Parses tx (parseCondition tx) (conditionText tx) := by
  have hcases : ∀ part, (conditionText tx part = none ∧ ∃ e, parseCondition tx part =
      .error (.error e)) ∨ ∃ l column o, conditionText tx part = some l ∧ parseCondition tx part =
        parseValue tx (trim isWhite l) >>= fun v => .ok ⟨column, o, v⟩ := by
    intro part
    cases hm : tx.captures (conditionRe tx) (trim isWhite part) with
    | none =>
        refine Or.inl ⟨by rw [conditionText, hm]; rfl, ?_⟩
        rw [parseCondition, hm]
        exact ⟨_, rfl⟩
    | some m =>
        have hsearch := hm
        rw [h.captures_eq] at hsearch
        obtain ⟨column, op, value, hparts⟩ := conditionRe_parts hsearch
        obtain ⟨o, -, heq⟩ := parseCondition_eq hm hparts
        refine Or.inr ⟨value, _, o, ?_, heq⟩
        rw [conditionText, hm]
        exact hparts.group.2.2
  constructor
  · intro part
    rcases hcases part with ⟨hnone, e, he⟩ | ⟨l, column, o, hl, heq⟩
    · rw [hnone, he]
      simp
    · rw [hl, heq, bind_panics]
      constructor
      · rintro (hv | ⟨v, -, hv⟩)
        · exact ⟨l, rfl, broken_trim.mp ((parseValue_panics_iff h).mp hv)⟩
        · cases hv
      · rintro ⟨l', heq', hl'⟩
        obtain rfl := Option.some.inj heq'
        exact Or.inl ((parseValue_panics_iff h).mpr (broken_trim.mpr hl'))
  · intro part
    rcases hcases part with ⟨hnone, e, he⟩ | ⟨l, column, o, hl, heq⟩
    · rw [hnone, he]
      simp [Accepted]
    · rw [hl, heq]
      have hok := @parseValue_ok_iff tx h (trim isWhite l)
      rw [broken_trim, refused_trim] at hok
      constructor
      · rintro ⟨c, hc⟩
        obtain ⟨v, hv, -⟩ := bind_oks.mp hc
        exact ⟨l, rfl, hok.mp ⟨v, hv⟩⟩
      · rintro ⟨l', heq', hl'⟩
        obtain rfl := Option.some.inj heq'
        obtain ⟨v, hv⟩ := hok.mpr hl'
        exact ⟨_, by rw [hv]; rfl⟩

theorem parseWhereClause_panics (h : tx.Lawful) (clause : List Char) :
    parseWhereClause tx clause = .error .panic ↔ FirstBroken tx (whereTexts tx clause) := by
  rw [whereTexts, ← (parses_condition h).mapM_panics, parseWhereClause, bind_panics]
  refine ⟨fun hc => hc.resolve_right ?_, Or.inl⟩
  rintro ⟨conditions, -, hc⟩
  split at hc <;> cases hc

/-- The literals of the WHERE clause in group `n`. -/
def tailTexts (tx : TextFns) (m : Regex.Match Char) (n : Nat) : List (Option (List Char)) :=
  match m.group n with
  | some text => whereTexts tx text
  | none => []

theorem parseTail_panics (h : tx.Lawful) (m : Regex.Match Char) (n : Nat) :
    parseTail tx m n = .error .panic ↔ FirstBroken tx (tailTexts tx m n) := by
  rw [parseTail, tailTexts]
  cases m.group n with
  | none => simp [not_firstBroken_nil]
  | some text =>
      dsimp only
      rw [bind_panics, parseWhereClause_panics h]
      refine ⟨fun hc => hc.resolve_right ?_, Or.inl⟩
      rintro ⟨clause, -, hc⟩
      cases hc

/-! ## VALUES and SET -/

/-- The cuts of `parse_values`. -/
def valuesCut : ValuesScan → List Char → List (List Char)
  | st, [] => if trim isWhite st.current = [] then [] else [trim isWhite st.current]
  | st, ch :: rest =>
      let st' := { st with current := st.current ++ [ch] }
      if st.escaped then valuesCut { st' with escaped := false } rest
      else if ch = '\\' ∧ st.quote.isSome then valuesCut { st' with escaped := true } rest
      else if st.quote = none ∧ (ch = '\'' ∨ ch = '"') then
        valuesCut { st' with quote := some ch } rest
      else if st.quote = some ch then valuesCut { st' with quote := none } rest
      else if st.quote = none ∧ (ch = '(' ∨ ch = '[') then
        valuesCut { st' with depth := st.depth + 1 } rest
      else if st.quote = none ∧ (ch = ')' ∨ ch = ']') then
        valuesCut { st' with depth := st.depth - 1 } rest
      else if st.quote = none ∧ st.depth = 0 ∧ ch = ',' then
        trim isWhite st.current :: valuesCut { st with current := [] } rest
      else valuesCut st' rest

/-- The literals of a VALUES list. -/
def valueTexts (s : List Char) : List (List Char) := valuesCut ⟨[], none, false, 0⟩ s

/-- To parse each literal at its comma is to cut first and parse then. -/
theorem parseValues_eq (s : List Char) : parseValues tx s = (valueTexts s).mapM (parseValue tx) := by
  rw [parseValues, valueTexts]
  generalize (⟨[], none, false, 0⟩ : ValuesScan) = st
  induction s generalizing st with
  | nil =>
      rw [valuesLoop, valuesCut]
      split
      · rfl
      · rw [List.mapM_cons]
        cases parseValue tx (trim isWhite st.current) <;> rfl
  | cons ch rest ih =>
      rw [valuesLoop, valuesCut]
      repeat' split
      all_goals first
        | exact ih _
        | rw [List.mapM_cons, ih]

/-- The literal of an assignment. -/
def assignmentText (assignment : List Char) : Option (List Char) :=
  match assignment.splitOn '=' with
  | [_, value] => some value
  | _ => none

theorem assignmentText_pair {assignment column value : List Char}
    (heq : assignment.splitOn '=' = [column, value]) :
    assignmentText assignment = some value := by
  rw [assignmentText, heq]

theorem assignLoop_pair {assignment column value : List Char} (assignments : List (String × Value))
    (rest : List (List Char)) (heq : assignment.splitOn '=' = [column, value]) :
    assignLoop tx assignments (assignment :: rest) = parseValue tx (trim isWhite value) >>= fun v =>
      assignLoop tx (assign assignments (String.ofList (trim isWhite column)) v) rest := by
  rw [assignLoop, heq]

theorem assignLoop_bad {assignment : List Char} (assignments : List (String × Value))
    (rest : List (List Char)) (hnot : ∀ column value, assignment.splitOn '=' ≠ [column, value]) :
    assignmentText assignment = none ∧
      ∃ e, assignLoop tx assignments (assignment :: rest) = .error (.error e) := by
  rw [assignmentText, assignLoop]
  generalize assignment.splitOn '=' = parts at hnot
  rcases parts with _ | ⟨a, _ | ⟨b, _ | ⟨c, parts⟩⟩⟩
  · exact ⟨rfl, _, rfl⟩
  · exact ⟨rfl, _, rfl⟩
  · exact absurd rfl (hnot a b)
  · exact ⟨rfl, _, rfl⟩

/-- One assignment of the loop. -/
theorem assignLoop_step (h : tx.Lawful) (assignments : List (String × Value))
    (assignment : List Char) (rest : List (List Char)) :
    (assignmentText assignment = none ∧
      ∃ e, assignLoop tx assignments (assignment :: rest) = .error (.error e)) ∨
    ∃ l, assignmentText assignment = some l ∧
      ((Broken l ∧ assignLoop tx assignments (assignment :: rest) = .error .panic) ∨
      (¬ Broken l ∧ Refused tx l ∧
        ∃ e, assignLoop tx assignments (assignment :: rest) = .error (.error e)) ∨
      (¬ Broken l ∧ ¬ Refused tx l ∧
        ∃ acc, assignLoop tx assignments (assignment :: rest) = assignLoop tx acc rest)) := by
  by_cases hpair : ∃ column value, assignment.splitOn '=' = [column, value]
  · obtain ⟨column, value, heq⟩ := hpair
    refine Or.inr ⟨value, assignmentText_pair heq, ?_⟩
    rw [assignLoop_pair assignments rest heq]
    have hcases := parseValue_cases h (trim isWhite value)
    rw [broken_trim, refused_trim] at hcases
    rcases hcases with ⟨hb, hp⟩ | ⟨hb, hr, e, hp⟩ | ⟨hb, hr, v, hp⟩
    · exact Or.inl ⟨hb, by rw [hp]; rfl⟩
    · exact Or.inr (Or.inl ⟨hb, hr, e, by rw [hp]; rfl⟩)
    · exact Or.inr (Or.inr ⟨hb, hr, _, by rw [hp]; rfl⟩)
  · exact Or.inl (assignLoop_bad assignments rest fun column value heq =>
      hpair ⟨column, value, heq⟩)

/-- The loop over the assignments of an UPDATE by their literals. -/
theorem assignLoop_cases (h : tx.Lawful) (assignments : List (String × Value))
    (parts : List (List Char)) :
    (assignLoop tx assignments parts = .error .panic ↔
      FirstBroken tx (parts.map assignmentText)) ∧
    ((∃ acc, assignLoop tx assignments parts = .ok acc) ↔
      ∀ x ∈ parts.map assignmentText, Accepted tx x) := by
  induction parts generalizing assignments with
  | nil => simp [assignLoop, not_firstBroken_nil]
  | cons assignment rest ih =>
      rw [List.map_cons, firstBroken_cons, List.forall_mem_cons]
      rcases assignLoop_step h assignments assignment rest with ⟨hnone, e, he⟩ | ⟨l, hl, hcases⟩
      · rw [hnone, he]
        simp [Accepted]
      · rw [hl]
        rcases hcases with ⟨hb, hp⟩ | ⟨hb, hr, e, he⟩ | ⟨hb, hr, acc, hacc⟩
        · rw [hp]
          simp [Accepted, hb]
        · rw [he]
          simp [Accepted, hb, hr]
        · rw [hacc, (ih acc).1, (ih acc).2]
          simp [Accepted, hb, hr]

/-! ## INSERT, UPDATE and DELETE -/

theorem groupName_ok {m : Regex.Match Char} {n : Nat} {t : List Char} (ht : m.group n = some t) :
    groupName m n = .ok (String.ofList t) := by
  rw [groupName, ht]
  rfl

/-- The literals of an INSERT. -/
def insertTexts (tx : TextFns) (sql : List Char) : List (Option (List Char)) :=
  match (tx.captures (insertRe tx) sql).bind fun m => m.group 3 with
  | some t => (valueTexts t).map some
  | none => []

/-- The literals of the assignments in a match. -/
def setTexts (m : Regex.Match Char) : List (Option (List Char)) :=
  match m.group 2 with
  | some t => (t.splitOn ',').map assignmentText
  | none => []

/-- The literals of an UPDATE. -/
def updateTexts (tx : TextFns) (sql : List Char) : List (Option (List Char)) :=
  match tx.captures (updateRe tx) sql with
  | some m => setTexts m ++ tailTexts tx m 3
  | none => []

/-- The literals of a DELETE. -/
def deleteTexts (tx : TextFns) (sql : List Char) : List (Option (List Char)) :=
  match tx.captures (deleteRe tx) sql with
  | some m => tailTexts tx m 2
  | none => []

variable {sql : List Char}

theorem parseInsert_panics (h : tx.Lawful) :
    parseInsert tx sql = .error .panic ↔ FirstBroken tx (insertTexts tx sql) := by
  rw [parseInsert, insertTexts]
  cases hm : tx.captures (insertRe tx) sql with
  | none => simp [refuse, not_firstBroken_nil]
  | some m =>
      rw [h.captures_eq] at hm
      obtain ⟨table, htable⟩ := @Regex.search_group _ _ _ _ hm 1 (by simp)
      obtain ⟨t, ht⟩ := @Regex.search_group _ _ _ _ hm 3 (by simp)
      have hgroup : (some m).bind (fun m => m.group 3) = some t := ht
      rw [hgroup]
      dsimp only
      rw [groupName_ok htable, ht, ← (parses_value h).mapM_panics, ← parseValues_eq]
      change parseValues tx t >>= _ = _ ↔ _
      rw [bind_panics]
      refine ⟨fun hc => hc.resolve_right ?_, Or.inl⟩
      rintro ⟨values, -, hc⟩
      cases hc

theorem parseUpdate_panics (h : tx.Lawful) :
    parseUpdate tx sql = .error .panic ↔ FirstBroken tx (updateTexts tx sql) := by
  rw [parseUpdate, updateTexts]
  cases hm : tx.captures (updateRe tx) sql with
  | none => simp [refuse, not_firstBroken_nil]
  | some m =>
      rw [h.captures_eq] at hm
      obtain ⟨table, htable⟩ := @Regex.search_group _ _ _ _ hm 1 (by simp)
      obtain ⟨t, ht⟩ := @Regex.search_group _ _ _ _ hm 2 (by simp)
      dsimp only
      rw [setTexts, groupName_ok htable, ht, firstBroken_append]
      change assignLoop tx [] (t.splitOn ',') >>= _ = _ ↔ _
      obtain ⟨hpanics, hoks⟩ := assignLoop_cases h [] (t.splitOn ',')
      rw [bind_panics, hpanics, ← hoks, ← parseTail_panics h]
      refine or_congr_right ⟨?_, ?_⟩
      · rintro ⟨acc, hacc, hc⟩
        rcases bind_panics.mp hc with hc | ⟨clause, -, hc⟩
        · exact ⟨⟨acc, hacc⟩, hc⟩
        · cases hc
      · rintro ⟨⟨acc, hacc⟩, hc⟩
        exact ⟨acc, hacc, bind_panics.mpr (Or.inl hc)⟩

theorem parseDelete_panics (h : tx.Lawful) :
    parseDelete tx sql = .error .panic ↔ FirstBroken tx (deleteTexts tx sql) := by
  rw [parseDelete, deleteTexts]
  cases hm : tx.captures (deleteRe tx) sql with
  | none => simp [refuse, not_firstBroken_nil]
  | some m =>
      rw [h.captures_eq] at hm
      obtain ⟨table, htable⟩ := @Regex.search_group _ _ _ _ hm 1 (by simp)
      dsimp only
      rw [groupName_ok htable, ← parseTail_panics h]
      change parseTail tx m 2 >>= _ = _ ↔ _
      rw [bind_panics]
      refine ⟨fun hc => hc.resolve_right ?_, Or.inl⟩
      rintro ⟨clause, -, hc⟩
      cases hc

end Parser

end VelociDB
