/-
# Statements on rows as text (`parser.rs`)

The lists of an INSERT and an UPDATE are cut at their commas and read item by item.  The WHERE
clause is found behind the table of a DELETE, and behind the assignments of an UPDATE, which
the expression takes letter by letter until a WHERE follows (`NoWord.inside`).

With CREATE, DROP and ALTER TABLE: the parser reads every statement from its text
(`parse_statementText`).
-/
import VelociDB.StatementText

namespace VelociDB

open Text
open LikeRegex (dot)

namespace Parser

variable {tx : TextFns} {w rest : List Char} {b : Bool} {gs : List (Nat × List Char)}
  {rs : List (Regex Char)} {κ : Regex.Cursor Char → Option (Regex.Cursor Char)}

/-! ## Lists -/

theorem listed_cons (l m : List Char) (ls : List (List Char)) :
    listed (l :: m :: ls) = l ++ ',' :: (' ' :: listed (m :: ls)) :=
  List.intercalate_cons_cons.trans (List.append_assoc l ", ".toList _)

theorem listed_singleton (l : List Char) : listed [l] = l := List.intercalate_singleton

/-- A list is cut at its commas; the blank stays with the next item. -/
theorem splitOn_listed {l : List Char} {ls : List (List Char)} (h : ∀ x ∈ l :: ls, ',' ∉ x) :
    (listed (l :: ls)).splitOn ',' = l :: ls.map (' ' :: ·) := by
  have hcut : ∀ u : List Char, ',' ∉ u →
      (u ++ listed (l :: ls)).splitOn ',' = (u ++ l) :: ls.map (' ' :: ·) := by
    induction ls generalizing l with
    | nil =>
        intro u hu
        have hmem : ',' ∉ u ++ l := by
          rw [List.mem_append, not_or]
          exact ⟨hu, h l List.mem_cons_self⟩
        rw [listed_singleton, List.splitOn_eq_singleton hmem, List.map_nil]
    | cons m ls ih =>
        intro u hu
        have hmem : ',' ∉ u ++ l := by
          rw [List.mem_append, not_or]
          exact ⟨hu, h l List.mem_cons_self⟩
        have hrest := ih (fun x hx => h x (List.mem_cons_of_mem _ hx)) [' '] (by decide)
        rw [listed_cons, ← List.append_assoc, List.splitOn_append_cons_self_of_not_mem hmem,
          List.map_cons]
        exact congrArg ((u ++ l) :: ·) hrest
  exact hcut [] List.not_mem_nil

theorem mem_listed {ls : List (List Char)} {c : Char} (hc : c ∈ listed ls) :
    c = ',' ∨ c = ' ' ∨ ∃ l ∈ ls, c ∈ l := by
  induction ls with
  | nil => cases hc
  | cons l ls ih =>
      cases ls with
      | nil =>
          rw [listed_singleton] at hc
          exact Or.inr (Or.inr ⟨l, List.mem_cons_self, hc⟩)
      | cons m ls =>
          rw [listed_cons, List.mem_append, List.mem_cons, List.mem_cons] at hc
          rcases hc with hc | hc | hc | hc
          · exact Or.inr (Or.inr ⟨l, List.mem_cons_self, hc⟩)
          · exact Or.inl hc
          · exact Or.inr (Or.inl hc)
          · refine (ih hc).imp id (Or.imp id ?_)
            rintro ⟨x, hx, hcx⟩
            exact ⟨x, List.mem_cons_of_mem _ hx, hcx⟩

/-- Items with nothing to trim make a list with nothing to trim. -/
theorem stands_listed {ls : List (List Char)} (hne : ls ≠ []) (h : ∀ l ∈ ls, Stands l) :
    Stands (listed ls) := by
  induction ls with
  | nil => exact absurd rfl hne
  | cons l ls ih =>
      have hl := h l List.mem_cons_self
      cases ls with
      | nil =>
          rw [listed_singleton]
          exact hl
      | cons m ls =>
          have hrest := ih (List.cons_ne_nil _ _) fun x hx => h x (List.mem_cons_of_mem _ hx)
          rw [listed_cons]
          refine .of_ends (List.append_ne_nil_of_left_ne_nil hl.1 _) (fun c => hl.head_append _) ?_
          intro c hc
          rw [List.getLast?_append_of_ne_nil _ (List.cons_ne_nil _ _), List.getLast?_cons,
            List.getLast?_cons, List.getLast?_eq_some_getLast hrest.1, Option.getD_some,
            Option.getD_some] at hc
          exact hrest.last ((List.getLast?_eq_some_getLast hrest.1).trans hc)

theorem stands_listed_map {α : Type} {f : α → List Char} {xs : List α} (hne : xs ≠ [])
    (h : ∀ x ∈ xs, Stands (f x)) : Stands (listed (xs.map f)) := by
  refine stands_listed (fun hnil => hne (List.map_eq_nil_iff.mp hnil)) fun l hl => ?_
  obtain ⟨x, hx, rfl⟩ := List.mem_map.mp hl
  exact h x hx

/-- A letter that is not of the list's own, and in no item. -/
theorem not_mem_listed_map {α : Type} {f : α → List Char} {xs : List α} {c : Char}
    (hc : c ∉ [',', ' ']) (h : ∀ x ∈ xs, c ∉ f x) : c ∉ listed (xs.map f) := by
  intro hmem
  rcases mem_listed hmem with rfl | rfl | ⟨l, hl, hcl⟩
  · exact hc List.mem_cons_self
  · exact hc (List.mem_cons_of_mem _ List.mem_cons_self)
  · obtain ⟨x, hx, rfl⟩ := List.mem_map.mp hl
    exact h x hx hcl

theorem stands_print {v : Value} (hv : Printed v) : Stands (printValue v) := by
  cases v with
  | text t => exact ⟨List.cons_ne_nil _ _, trim_quoted t.toList⟩
  | null | integer _ | blob _ =>
      obtain ⟨c, l, hl, -⟩ := printValue_head hv
      refine .of_solid (hl ▸ List.cons_ne_nil c l) (printValue_solid hv ?_)
      rintro t ⟨⟩
  | float _ | real _ | vector _ => exact absurd hv id

theorem literalOf_print {v : Value} (hv : Printed v) : LiteralOf v (printValue v) := by
  cases v with
  | null => exact .null
  | integer i => exact .integer i
  | text t => exact .text t
  | blob bytes => exact .blob (hexOf_hexText bytes)
  | float _ | real _ | vector _ => exact absurd hv id

/-! ## INSERT -/

/-- Where no parenthesis follows, no column list is matched. -/
theorem exec_openNone {a : Char} (hwhite : isWhite a = false) (ha : a ≠ '(') :
    (Regex.seqs (blanks0 :: letter '(' :: rs)).exec κ ⟨b, ' ' :: a :: rest, gs⟩ = none := by
  have hone : ∀ b', (Regex.seqs (letter '(' :: rs)).exec κ ⟨b', a :: rest, gs⟩ = none := fun b' =>
    Regex.exec_one_none (p := (· == '(')) (b := b') (beq_eq_false_iff_ne.mpr ha)
  rw [Regex.exec_seqs_cons, blanks0, Regex.exec]
  dsimp only
  rw [Regex.takeMany, if_pos (show isWhite ' ' = true from rfl), if_pos rfl, Regex.takeMany, hwhite,
    if_neg Bool.false_ne_true, hone]
  rfl

/-- A blank and a parenthesis. -/
theorem exec_open {x : Regex.Cursor Char}
    (h : (Regex.seqs rs).exec κ ⟨false, rest, gs⟩ = some x) :
    (Regex.seqs (blanks0 :: letter '(' :: rs)).exec κ ⟨b, ' ' :: '(' :: rest, gs⟩ = some x := by
  refine Regex.exec_many_max (w := [' ']) rfl (fun c hc => ?_) (fun c hc => ?_) h
  · rw [List.mem_singleton.mp hc]
    rfl
  · rw [← Option.some.inj hc]
    rfl

/-- The VALUES list, up to the end. -/
theorem exec_values {values : List Char} (hne : values ≠ []) (hline : '\n' ∉ values) :
    (Regex.seqs [blanks, word "VALUES", blanks0, letter '(', line 3, letter ')', blanks0,
      Regex.opt (letter ';'), blanks0, .stop]).exec some
        ⟨b, ' ' :: ("VALUES".toList ++ ' ' :: inParens values), gs⟩ =
          some ⟨false, [], (3, values) :: gs⟩ := by
  rw [exec_blank fun _ => (stands_word rfl).head_append _, exec_wordEq (by decide)]
  refine exec_open ?_
  refine Regex.exec_group_last rfl hne (LikeRegex.dot_iff.mpr hline) rfl ?_
  -- behind the closing parenthesis there is none
  rintro u v gs hu - huv
  obtain ⟨a, u, rfl⟩ := List.exists_cons_of_ne_nil hu
  obtain ⟨-, hnil⟩ := List.cons.inj huv
  obtain ⟨-, rfl⟩ := List.append_eq_nil_iff.mp hnil.symm
  rfl

theorem kindOf_insert (r : List Char) : kindOf ("INSERT INTO".toList ++ r) = some .insert := by
  rw [kindOf, if_neg (not_prefix_append rfl r), if_neg (not_prefix_append rfl r),
    if_neg (not_prefix_append rfl r), if_pos (List.prefix_append _ _)]

theorem inParens_append (s rest : List Char) : inParens s ++ rest = '(' :: (s ++ ')' :: rest) := by
  rw [inParens, List.cons_append, List.append_assoc, List.singleton_append]

/-- The column list, if there is one, as the groups hold it. -/
def columnGroups : Option (List String) → List (Nat × List Char)
  | none => []
  | some columns => [(2, listed (columns.map String.toList))]

/-- The column list is matched if there is one, and then the VALUES list. -/
theorem exec_insertTail {columns : Option (List String)} {values : List Char}
    (hcols : ∀ cs, columns = some cs → cs ≠ [] ∧ ∀ c ∈ cs, ReadableItem c) (hne : values ≠ [])
    (hline : '\n' ∉ values) :
    (Regex.seqs [Regex.opt (Regex.seqs
        [blanks0, letter '(', .group 2 (Regex.some1 (· != ')') true), letter ')']),
      blanks, word "VALUES", blanks0, letter '(', line 3, letter ')', blanks0,
      Regex.opt (letter ';'), blanks0, .stop]).exec some
        ⟨b, ' ' :: sentence (columnListWords columns ++ ["VALUES".toList, inParens values]), gs⟩ =
          some ⟨false, [], (3, values) :: (columnGroups columns ++ gs)⟩ := by
  rw [Regex.exec_seqs_cons, Regex.opt, Regex.exec]
  cases columns with
  | none =>
      rw [columnListWords, List.nil_append, sentence_cons, sentence_singleton]
      have hopen : (Regex.seqs [blanks0, letter '(', .group 2 (Regex.some1 (· != ')') true),
          letter ')']).exec ((Regex.seqs [blanks, word "VALUES", blanks0, letter '(', line 3,
            letter ')', blanks0, Regex.opt (letter ';'), blanks0, .stop]).exec some)
              ⟨b, ' ' :: ("VALUES".toList ++ ' ' :: inParens values), gs⟩ = none :=
        exec_openNone (a := 'V') rfl (by decide)
      rw [hopen, Option.none_or]
      exact exec_values hne hline
  | some cs =>
      obtain ⟨hcs, hitems⟩ := hcols cs rfl
      have hstands : Stands (listed (cs.map String.toList)) :=
        stands_listed_map hcs fun c hc => (hitems c hc).1
      have hclose : ∀ c ∈ listed (cs.map String.toList), (c != ')') = true := by
        intro c hc
        rw [bne_iff_ne]
        rintro rfl
        exact not_mem_listed_map (by decide) (fun d hd => (hitems d hd).2.2) hc
      rw [columnListWords, List.singleton_append, sentence_cons, sentence_cons, sentence_singleton,
        inParens_append, exec_open]
      · rfl
      · refine Regex.exec_group_max rfl hstands.1 hclose (fun a ha => ?_) (exec_values hne hline)
        rw [← Option.some.inj ha]
        rfl

theorem parseValues_print (h : tx.Lawful) {values : List Value} (hv : ∀ v ∈ values, Printed v) :
    parseValues tx (listed (values.map printValue)) = .ok values := by
  have hstanding : ∀ l ∈ values.map printValue, Standing l := by
    intro l hl
    obtain ⟨v, hmem, rfl⟩ := List.mem_map.mp hl
    exact (literalOf_print (hv v hmem)).standing
  rw [parseValues_eq, listed, valueTexts_join hstanding, mapM_oks, List.forall₂_map_left_iff,
    List.forall₂_same]
  exact fun v hmem => parseValue_print h (hv v hmem)

theorem trim_blank (s : List Char) : trim isWhite (' ' :: s) = trim isWhite s := by
  have happend : trim isWhite ([' '] ++ s ++ []) = trim isWhite s := by
    refine trim_append (fun c hc => ?_) fun c hc => absurd hc List.not_mem_nil
    rw [List.mem_singleton.mp hc]
    rfl
  rwa [List.append_nil] at happend

/-- A column list is read back. -/
theorem columns_listed {cs : List String} (hne : cs ≠ []) (h : ∀ c ∈ cs, ReadableItem c) :
    ((listed (cs.map String.toList)).splitOn ',').map
      (fun column => String.ofList (trim isWhite column)) = cs := by
  obtain ⟨c, cs, rfl⟩ := List.exists_cons_of_ne_nil hne
  have hitem : ∀ d ∈ c :: cs, String.ofList (trim isWhite d.toList) = d := fun d hd => by
    rw [(h d hd).1.2, String.ofList_toList]
  rw [List.map_cons, splitOn_listed, List.map_cons, hitem c List.mem_cons_self, List.map_map,
    List.map_map]
  · refine congrArg (c :: ·) ((List.map_congr_left fun d hd => ?_).trans (List.map_id cs))
    rw [Function.comp_apply, Function.comp_apply, trim_blank]
    exact hitem d (List.mem_cons_of_mem _ hd)
  · intro l hl
    rw [← List.map_cons, List.mem_map] at hl
    obtain ⟨d, hd, rfl⟩ := hl
    exact (h d hd).2.1

theorem parse_insertText (h : tx.Lawful) {table : String} {columns : Option (List String)}
    {values : List Value} (hst : Readable tx (.insert table columns values)) :
    parse tx (statementText (.insert table columns values)) =
      .ok (.change (.insert table columns values)) := by
  obtain ⟨htable, hcols, hne, hvalues⟩ := hst
  obtain ⟨text, htext⟩ : ∃ text, statementText (.insert table columns values) = text := ⟨_, rfl⟩
  obtain ⟨lits, hlits⟩ : ∃ lits, listed (values.map printValue) = lits := ⟨_, rfl⟩
  have hstands : Stands lits := by
    rw [← hlits]
    exact stands_listed_map hne fun v hv => stands_print (hvalues v hv).1
  have hline : '\n' ∉ lits := by
    rw [← hlits]
    exact not_mem_listed_map (by decide) fun v hv => (hvalues v hv).2
  have htail : ∀ w ∈ columnListWords columns ++ ["VALUES".toList, inParens lits], Stands w := by
    intro w hw
    rcases List.mem_append.mp hw with hw | hw
    · cases columns with
      | none => cases hw
      | some cs =>
          rw [List.mem_singleton.mp hw]
          exact stands_inParens _
    · rcases List.mem_cons.mp hw with rfl | hw
      · exact stands_word rfl
      · rw [List.mem_singleton.mp hw]
        exact stands_inParens _
  have hsentence : text = "INSERT".toList ++ ' ' :: ("INTO".toList ++ ' ' :: (table.toList ++
      ' ' :: sentence (columnListWords columns ++ ["VALUES".toList, inParens lits]))) := by
    rw [← htext, statementText, statementWords, sentence_cons, sentence_cons, hlits]
    cases columns with
    | none => rw [columnListWords, List.nil_append, sentence_cons]
    | some cs => rw [columnListWords, List.singleton_append, sentence_cons]
  have hall : Stands text := by
    rw [← htext]
    refine stands_sentence (List.cons_ne_nil _ _) fun w hw => ?_
    rw [statementWords, List.mem_cons, List.mem_cons, List.mem_cons, hlits] at hw
    rcases hw with rfl | rfl | rfl | hw
    · exact stands_word rfl
    · exact stands_word rfl
    · exact stands_name h htable
    · exact htail w hw
  have hexec : (insertRe tx).exec some ⟨true, text, []⟩ =
      some ⟨false, [], (3, lits) :: (columnGroups columns ++ [(1, table.toList)])⟩ := by
    rw [hsentence, insertRe, exec_keyword (by decide) fun _ => (stands_word rfl).head_append _,
      exec_keyword (by decide) fun _ => (stands_name h htable).head_append _]
    refine exec_name rfl htable (fun a ha => ?_) (exec_insertTail hcols hstands.1 hline)
    rw [← Option.some.inj ha]
    exact not_word_blank h
  rw [htext, parse_kind h rfl kindOf_insert ⟨_, hsentence.symm⟩ hall, parseKind, parseInsert,
    h.captures_eq, Regex.search_of_start hexec]
  dsimp only
  refine bind_oks.mpr ⟨table, ?_, bind_oks.mpr ⟨lits, rfl, bind_oks.mpr ⟨values, ?_, ?_⟩⟩⟩
  · cases columns with
    | none => exact congrArg Except.ok String.ofList_toList
    | some cs => exact congrArg Except.ok String.ofList_toList
  · rw [← hlits]
    exact parseValues_print h fun v hv => (hvalues v hv).1
  · cases columns with
    | none => rfl
    | some cs =>
        obtain ⟨hcs, hitems⟩ := hcols cs rfl
        exact congrArg (fun cs => Except.ok (SqlStatement.change (.insert table (some cs) values)))
          (columns_listed hcs hitems)

/-! ## WHERE -/

theorem line_value {v : Value} (hv : Printed v) (hwhole : Whole v) : '\n' ∉ printValue v := by
  cases v with
  | text t => exact quoted_line hwhole.1
  | null | integer _ | blob _ =>
      intro hmem
      have hwhite := printValue_solid hv (by rintro t ⟨⟩) _ hmem
      cases hwhite
  | float _ | real _ | vector _ => exact absurd hv id

theorem line_name (h : tx.Lawful) (hw : Name tx w) : '\n' ∉ w := by
  intro hmem
  have hwhite := hw.not_white h _ hmem
  cases hwhite

variable {c : Condition} {cs : List Condition}

theorem stands_condition (h : tx.Lawful) (hc : Printable tx c) : Stands (printCondition c) := by
  have hvalue := stands_print hc.2
  refine .of_ends (List.append_ne_nil_of_right_ne_nil _ hvalue.1) (fun a ha => ?_) fun a ha => ?_
  · rw [printCondition, conditionHead, List.append_assoc] at ha
    exact (stands_name h hc.1).head_append _ ha
  · rw [printCondition, List.getLast?_append_of_ne_nil _ hvalue.1] at ha
    exact hvalue.last ha

theorem line_condition (h : tx.Lawful) (hc : Printable tx c) (hwhole : Whole c.value) :
    '\n' ∉ printCondition c := by
  have hoperator : '\n' ∉ printOperator c.operator := by
    intro hmem
    have hwhite := operator_solid (printOperator_mem c.operator) _ hmem
    cases hwhite
  rw [printCondition, conditionHead]
  simp only [List.mem_append, List.mem_cons, List.not_mem_nil, or_false, not_or]
  exact ⟨⟨line_name h hc.1, by decide, hoperator, by decide⟩, line_value hc.2 hwhole⟩

theorem stands_where (h : tx.Lawful) (hne : cs ≠ []) (hcs : ∀ c ∈ cs, Printable tx c) :
    Stands (printWhere cs) := by
  induction cs with
  | nil => exact absurd rfl hne
  | cons c cs ih =>
      have hc := stands_condition h (hcs c List.mem_cons_self)
      cases cs with
      | nil => exact hc
      | cons d cs =>
          have hrest := ih (List.cons_ne_nil _ _) fun x hx => hcs x (List.mem_cons_of_mem _ hx)
          rw [printWhere]
          refine .of_ends (List.append_ne_nil_of_left_ne_nil hc.1 _) (fun a => hc.head_append _) ?_
          intro a ha
          rw [List.getLast?_append_of_ne_nil _ (List.append_ne_nil_of_right_ne_nil _ hrest.1),
            List.getLast?_append_of_ne_nil _ hrest.1] at ha
          exact hrest.last ha

theorem line_where (h : tx.Lawful) (hcs : ∀ c ∈ cs, Printable tx c)
    (hwhole : ∀ c ∈ cs, Whole c.value) : '\n' ∉ printWhere cs := by
  induction cs with
  | nil => exact List.not_mem_nil
  | cons c cs ih =>
      have hc := line_condition h (hcs c List.mem_cons_self) (hwhole c List.mem_cons_self)
      cases cs with
      | nil => exact hc
      | cons d cs =>
          have hrest := ih (fun x hx => hcs x (List.mem_cons_of_mem _ hx))
            fun x hx => hwhole x (List.mem_cons_of_mem _ hx)
          rw [printWhere, List.mem_append, List.mem_append, not_or, not_or]
          exact ⟨hc, by decide, hrest⟩

/-- The text of a clause is in one line, with nothing to trim, and read back. -/
theorem ReadableTail.clause (h : tx.Lawful) {clause : WhereClause}
    (hr : ReadableTail tx (some clause)) :
    Stands (printWhere clause.conditions) ∧ '\n' ∉ printWhere clause.conditions ∧
      parseWhereClause tx (printWhere clause.conditions) = .ok clause := by
  obtain ⟨hne, hprint, hclean⟩ := hr
  refine ⟨stands_where h hne hprint, line_where h hprint ?_,
    parseWhereClause_print h hne hprint hclean⟩
  obtain ⟨c, cs, hcs⟩ := List.exists_cons_of_ne_nil hne
  rw [hcs] at hclean ⊢
  exact hclean.whole

theorem stands_whereWords (h : tx.Lawful) {clause : Option WhereClause}
    (hr : ReadableTail tx clause) : ∀ w ∈ whereWords clause, Stands w := by
  intro w hw
  cases clause with
  | none => cases hw
  | some clause =>
      simp only [whereWords, List.mem_cons, List.not_mem_nil, or_false] at hw
      rcases hw with rfl | rfl
      · exact stands_word rfl
      · exact (hr.clause h).1

/-- What stands behind the last word before the WHERE clause. -/
def whereEnd : Option WhereClause → List Char
  | none => []
  | some clause => ' ' :: ("WHERE".toList ++ ' ' :: printWhere clause.conditions)

theorem sentence_where (w : List Char) (clause : Option WhereClause) :
    sentence (w :: whereWords clause) = w ++ whereEnd clause := by
  cases clause with
  | none => rw [whereWords, whereEnd, sentence_singleton, List.append_nil]
  | some clause => rw [whereWords, whereEnd, sentence_cons, sentence_cons, sentence_singleton]

/-- The clause, as the groups hold it. -/
def whereGroups (n : Nat) : Option WhereClause → List (Nat × List Char)
  | none => []
  | some clause => [(n, printWhere clause.conditions)]

theorem ReadableTail.whereText (h : tx.Lawful) {clause : WhereClause}
    (hr : ReadableTail tx (some clause)) : WhereText (whereEnd (some clause)) [' '] "WHERE".toList
      [' '] (printWhere clause.conditions) := by
  have hblank : Blanks [' '] := by
    refine ⟨List.cons_ne_nil _ _, fun c hc => ?_⟩
    rw [List.mem_singleton.mp hc]
    rfl
  obtain ⟨hstands, -, -⟩ := hr.clause h
  exact ⟨rfl, hblank, folds_self rfl, hblank, hstands.1, fun _ => hstands.head⟩

/-- The WHERE clause at the end of a statement, whatever is asked behind it that accepts the
end of the text. -/
theorem exec_whereEnd (h : tx.Lawful) {n : Nat} {clause : Option WhereClause}
    (hr : ReadableTail tx clause) {x : Regex.Cursor Char}
    (hx : (Regex.seqs rs).exec κ ⟨clause.isNone && b, [], whereGroups n clause ++ gs⟩ = some x) :
    (Regex.seqs (whereTail n :: rs)).exec κ ⟨b, whereEnd clause, gs⟩ = some x := by
  rw [Regex.exec_seqs_cons, whereTail, Regex.opt, Regex.exec]
  cases clause with
  | none => exact hx
  | some clause =>
      obtain ⟨-, hline, -⟩ := hr.clause h
      have htake : (printWhere clause.conditions).takeWhile dot = printWhere clause.conditions :=
        List.takeWhile_eq_self_iff.mpr (LikeRegex.dot_iff.mpr hline)
      have hdrop : (printWhere clause.conditions).dropWhile dot = [] :=
        List.dropWhile_eq_nil_iff.mpr (LikeRegex.dot_iff.mpr hline)
      have htail := @exec_tail_parts [' '] "WHERE".toList [' '] (printWhere clause.conditions) n
        ((Regex.seqs rs).exec κ) ⟨b, whereEnd (some clause), gs⟩ x (hr.whereText h)
        (by rw [htake, hdrop]; exact hx)
      rw [htail]
      rfl

/-- The clause is parsed from its group. -/
theorem parseTail_groups (h : tx.Lawful) {n : Nat} {clause : Option WhereClause}
    (hr : ReadableTail tx clause) {before after : List Char} {more : List (Nat × List Char)}
    (hn : ∀ g ∈ more, g.1 ≠ n) :
    parseTail tx ⟨before, after, whereGroups n clause ++ more⟩ n = .ok clause := by
  cases clause with
  | none =>
      have hfind : more.find? (fun g => g.1 == n) = none := by
        rw [List.find?_eq_none]
        exact fun g hg => by simpa using hn g hg
      have hgroup : (⟨before, after, whereGroups n none ++ more⟩ : Regex.Match Char).group n = none := by
        rw [whereGroups, List.nil_append, Regex.Match.group, hfind, Option.map_none]
      rw [parseTail, hgroup]
  | some clause =>
      have hgroup : (⟨before, after, whereGroups n (some clause) ++ more⟩ : Regex.Match Char).group n =
          some (printWhere clause.conditions) := by
        have hfind : ((n, printWhere clause.conditions) :: more).find? (fun g => g.1 == n) =
            some (n, printWhere clause.conditions) := List.find?_cons_of_pos (beq_self_eq_true n)
        exact congrArg (Option.map Prod.snd) hfind
      rw [parseTail, hgroup]
      exact bind_oks.mpr ⟨clause, (hr.clause h).2.2, rfl⟩

/-! ## DELETE -/

theorem kindOf_delete (r : List Char) : kindOf ("DELETE FROM".toList ++ r) = some .delete := by
  rw [kindOf, if_neg (not_prefix_append rfl r), if_neg (not_prefix_append rfl r),
    if_neg (not_prefix_append rfl r), if_neg (not_prefix_append rfl r),
    if_neg (not_prefix_append rfl r), if_neg (not_prefix_append rfl r),
    if_pos (List.prefix_append _ _)]

theorem whereEnd_head (h : tx.Lawful) {clause : Option WhereClause} {a : Char}
    (ha : (whereEnd clause).head? = some a) : tx.isWord a = false := by
  cases clause with
  | none => cases ha
  | some clause =>
      rw [← Option.some.inj ha]
      exact not_word_blank h

theorem parse_deleteText (h : tx.Lawful) {table : String} {clause : Option WhereClause}
    (hst : Readable tx (.delete table clause)) :
    parse tx (statementText (.delete table clause)) = .ok (.change (.delete table clause)) := by
  obtain ⟨htable, hr⟩ := hst
  obtain ⟨text, htext⟩ : ∃ text, statementText (.delete table clause) = text := ⟨_, rfl⟩
  have hsentence : text = "DELETE".toList ++ ' ' :: ("FROM".toList ++ ' ' ::
      (table.toList ++ whereEnd clause)) := by
    rw [← htext, statementText, statementWords, sentence_cons, sentence_cons, sentence_where]
  have hall : Stands text := by
    rw [← htext]
    refine stands_sentence (List.cons_ne_nil _ _) fun w hw => ?_
    rw [statementWords, List.mem_cons, List.mem_cons, List.mem_cons] at hw
    rcases hw with rfl | rfl | rfl | hw
    · exact stands_word rfl
    · exact stands_word rfl
    · exact stands_name h htable
    · exact stands_whereWords h hr w hw
  have hexec : ∃ b, (deleteRe tx).exec some ⟨true, text, []⟩ =
      some ⟨b, [], whereGroups 2 clause ++ [(1, table.toList)]⟩ := by
    refine ⟨clause.isNone && false, ?_⟩
    rw [hsentence, deleteRe, exec_keyword (by decide) fun _ => (stands_word rfl).head_append _,
      exec_keyword (by decide) fun _ => (stands_name h htable).head_append _]
    exact exec_name rfl htable (fun _ => whereEnd_head h) (exec_whereEnd h hr rfl)
  obtain ⟨b, hexec⟩ := hexec
  rw [htext, parse_kind h rfl kindOf_delete ⟨_, hsentence.symm⟩ hall, parseKind, parseDelete,
    h.captures_eq, Regex.search_of_start hexec]
  dsimp only
  refine bind_oks.mpr ⟨table, ?_, bind_oks.mpr ⟨clause, parseTail_groups h hr ?_, rfl⟩⟩
  · cases clause with
    | none => exact congrArg Except.ok String.ofList_toList
    | some clause => exact congrArg Except.ok String.ofList_toList
  · intro g hg
    rw [List.mem_singleton.mp hg]
    exact show 1 ≠ 2 by decide

/-! ## UPDATE -/

/-- Where no WHERE starts and the text goes on, neither the clause nor the end is matched. -/
theorem exec_tailStop_none {n : Nat} (hne : rest ≠ [])
    (hno : ∀ b k b' l, rest = b ++ (k ++ (b' ++ l)) → Blanks b → Folds "WHERE" k → ¬ Blanks b') :
    (Regex.seqs [whereTail n, .stop]).exec some ⟨b, rest, gs⟩ = none := by
  rw [Regex.exec_seqs_cons, whereTail, Regex.opt, Regex.exec]
  have hstop : Regex.empty.exec ((Regex.seqs [.stop]).exec some)
      (⟨b, rest, gs⟩ : Regex.Cursor Char) = none := by
    obtain ⟨a, l, rfl⟩ := List.exists_cons_of_ne_nil hne
    rfl
  rw [hstop, Option.or_none]
  cases htail : (Regex.seqs [blanks, word "WHERE", blanks, line n]).exec
      ((Regex.seqs [.stop]).exec some) ⟨b, rest, gs⟩ with
  | none => rfl
  | some x =>
      obtain ⟨d, hd, -⟩ := Regex.exec_some htail
      obtain ⟨w, gs', hw, hrest, -⟩ := hd.eats
      obtain ⟨b₁, k, b₂, l, rfl, hb₁, hk, hb₂, -, -⟩ := eats_tail hw
      simp only [List.append_assoc] at hrest
      exact absurd hb₂ (hno b₁ k b₂ _ hrest hb₁ hk)

/-- At no place of a text without the keyword does the keyword start between two blanks:
neither inside of it, nor with its last word. -/
theorem NoWord.inside {keyword : String} {s more : List Char} (hs : NoWord keyword (s ++ [' ']))
    (hkeyword : (keyword.toList.all fun c => !isWhite c.toLower) = true) (hstands : Stands s)
    (hmore : ∀ a, more.head? = some a → a = ' ') {u v : List Char} (heq : s = u ++ v)
    (hv : v ≠ []) :
    ∀ b k b' l, v ++ more = b ++ (k ++ (b' ++ l)) → Blanks b → Folds keyword k → ¬ Blanks b' := by
  intro b k b' l hsplit hb hk hb'
  have hlast : ∀ a, v.getLast? = some a → isWhite a = false := by
    intro a ha
    refine hstands.last ?_
    rw [heq, List.getLast?_append_of_ne_nil _ hv, ha]
  -- the keyword is in the text, and what stands behind it starts with a blank
  have hinside : ∀ x, v = (b ++ k) ++ x → b' ++ l = x ++ more → False := by
    intro x hx hx'
    obtain ⟨a, y, hay, ha⟩ : ∃ a y, x ++ [' '] = a :: y ∧ isWhite a = true := by
      cases x with
      | nil => exact ⟨' ', [], rfl, rfl⟩
      | cons a x =>
          obtain ⟨d, b', rfl⟩ := List.exists_cons_of_ne_nil hb'.1
          obtain ⟨rfl, -⟩ := List.cons.inj hx'
          exact ⟨d, x ++ [' '], rfl, hb'.2 d List.mem_cons_self⟩
    refine hs u b k [a] y ?_ hb hk ⟨List.cons_ne_nil _ _, fun d hd => ?_⟩
    · rw [heq, hx, List.singleton_append, ← hay]
      simp only [List.append_assoc]
    · rwa [List.mem_singleton.mp hd]
  rw [← List.append_assoc b k] at hsplit
  rcases List.append_eq_append_iff.mp hsplit with ⟨x, hx, hx'⟩ | ⟨x, hx, hx'⟩
  · cases x with
    | nil =>
        rw [List.append_nil] at hx
        exact hinside [] (by rw [List.append_nil, hx]) hx'.symm
    | cons a x =>
        -- the blank behind the text would be of the keyword, or the text all blanks
        obtain rfl := hmore a (by rw [hx']; rfl)
        rcases List.append_eq_append_iff.mp hx with ⟨y, -, hy⟩ | ⟨y, hy, -⟩
        · have hwhite := hk.not_white hkeyword ' ' (by rw [hy]; simp)
          cases hwhite
        · obtain ⟨a, ha⟩ : ∃ a, v.getLast? = some a := ⟨_, List.getLast?_eq_some_getLast hv⟩
          have hwhite := hb.2 a (hy ▸ List.mem_append_left _ (List.mem_of_getLast? ha))
          rw [hlast a ha] at hwhite
          cases hwhite
  · exact hinside x hx hx'

/-- The assignments are matched as a whole. -/
theorem exec_updateTail (h : tx.Lawful) {sets : List Char} {clause : Option WhereClause}
    (hstands : Stands sets) (hline : '\n' ∉ sets) (hwhere : NoWord "WHERE" (sets ++ [' ']))
    (hr : ReadableTail tx clause) :
    ∃ b', (Regex.seqs [lazyLine 2, whereTail 3, .stop]).exec some ⟨b, sets ++ whereEnd clause, gs⟩ =
      some ⟨b', [], whereGroups 3 clause ++ (2, sets) :: gs⟩ := by
  refine ⟨clause.isNone && false, ?_⟩
  refine Regex.exec_group_first hstands.1 (LikeRegex.dot_iff.mpr hline) (exec_whereEnd h hr rfl) ?_
  intro u v gs' heq hv
  refine exec_tailStop_none (List.append_ne_nil_of_left_ne_nil hv _)
    (hwhere.inside rfl hstands (fun a ha => ?_) heq hv)
  cases clause with
  | none => cases ha
  | some clause => exact (Option.some.inj ha).symm

theorem setText_mem {a : String × Value} {c : Char} (hc : c ∈ setText a) :
    c ∈ a.1.toList ∨ c = ' ' ∨ c = '=' ∨ c ∈ printValue a.2 := by
  rw [setText, List.mem_append, List.mem_append] at hc
  rcases hc with (hc | hc) | hc
  · exact Or.inl hc
  · change c ∈ [' ', '=', ' '] at hc
    simp only [List.mem_cons, List.not_mem_nil, or_false] at hc
    rcases hc with hc | hc | hc
    · exact Or.inr (Or.inl hc)
    · exact Or.inr (Or.inr (Or.inl hc))
    · exact Or.inr (Or.inl hc)
  · exact Or.inr (Or.inr (Or.inr hc))

variable {a : String × Value} {as : List (String × Value)}

theorem ReadableAssignment.stands (ha : ReadableAssignment a) : Stands (setText a) := by
  have hvalue := stands_print ha.value
  refine .of_ends (List.append_ne_nil_of_right_ne_nil _ hvalue.1) (fun c hc => ?_) fun c hc => ?_
  · rw [setText, List.append_assoc] at hc
    exact ha.column.head_append _ hc
  · rw [setText, List.getLast?_append_of_ne_nil _ hvalue.1] at hc
    exact hvalue.last hc

theorem ReadableAssignment.line (ha : ReadableAssignment a) : '\n' ∉ setText a := by
  intro hmem
  obtain ⟨hcolumn, hvalue⟩ := ha.letters '\n' (by decide)
  rcases setText_mem hmem with hmem | hmem | hmem | hmem
  · exact hcolumn hmem
  · exact absurd hmem (by decide)
  · exact absurd hmem (by decide)
  · exact hvalue hmem

theorem ReadableAssignment.comma (ha : ReadableAssignment a) : ',' ∉ setText a := by
  intro hmem
  obtain ⟨hcolumn, hvalue⟩ := ha.letters ',' (by decide)
  rcases setText_mem hmem with hmem | hmem | hmem | hmem
  · exact hcolumn hmem
  · exact absurd hmem (by decide)
  · exact absurd hmem (by decide)
  · exact hvalue hmem

/-- An assignment is cut at its `=`. -/
theorem ReadableAssignment.splitOn_eq (ha : ReadableAssignment a) {blank : List Char}
    (hblank : '=' ∉ blank) : (blank ++ setText a).splitOn '=' =
      [blank ++ (a.1.toList ++ [' ']), ' ' :: printValue a.2] := by
  obtain ⟨hcolumn, hvalue⟩ := ha.letters '=' (by decide)
  have hleft : '=' ∉ blank ++ (a.1.toList ++ [' ']) := by
    rw [List.mem_append, List.mem_append, not_or, not_or]
    exact ⟨hblank, hcolumn, by decide⟩
  have hright : '=' ∉ ' ' :: printValue a.2 := by
    rw [List.mem_cons, not_or]
    exact ⟨by decide, hvalue⟩
  have htext : blank ++ setText a =
      (blank ++ (a.1.toList ++ [' '])) ++ '=' :: (' ' :: printValue a.2) := by
    have hequals : " = ".toList = [' ', '=', ' '] := rfl
    rw [setText, hequals]
    simp only [List.append_assoc, List.cons_append, List.nil_append]
  rw [htext, List.splitOn_append_cons_self_of_not_mem hleft, List.splitOn_eq_singleton hright]

/-- One round of the loop. -/
theorem assignLoop_cons (h : tx.Lawful) (ha : ReadableAssignment a) (blank : List Char)
    (hblank : ∀ c ∈ blank, c = ' ') (done : List (String × Value)) (hnew : a.1 ∉ done.map Prod.fst)
    (texts : List (List Char)) :
    assignLoop tx done ((blank ++ setText a) :: texts) = assignLoop tx (done ++ [a]) texts := by
  have hequals : '=' ∉ blank := fun hmem => absurd (hblank _ hmem) (by decide)
  have hcolumn : trim isWhite (blank ++ (a.1.toList ++ [' '])) = a.1.toList := by
    have hcut : trim isWhite (blank ++ a.1.toList ++ [' ']) = trim isWhite a.1.toList := by
      refine trim_append (fun c hc => ?_) fun c hc => ?_
      · rw [hblank c hc]
        rfl
      · rw [List.mem_singleton.mp hc]
        rfl
    rw [← List.append_assoc, hcut, ha.column.2]
  have hvalue : parseValue tx (trim isWhite (' ' :: printValue a.2)) = .ok a.2 := by
    rw [trim_blank, (stands_print ha.value).2, parseValue_print h ha.value]
  rw [assignLoop, ha.splitOn_eq hequals]
  dsimp only
  rw [hvalue, hcolumn, String.ofList_toList]
  change assignLoop tx (assign done a.1 a.2) texts = _
  rw [assign, if_neg hnew]

/-- The assignments are read in their order. -/
theorem assignLoop_texts (h : tx.Lawful) (has : ∀ a ∈ as, ReadableAssignment a)
    (hnodup : (as.map Prod.fst).Nodup) {done : List (String × Value)}
    (hdone : ∀ a ∈ as, a.1 ∉ done.map Prod.fst) :
    assignLoop tx done ((as.map setText).map (' ' :: ·)) = .ok (done ++ as) := by
  induction as generalizing done with
  | nil =>
      rw [List.append_nil]
      rfl
  | cons a as ih =>
      obtain ⟨hfirst, hrest⟩ := List.nodup_cons.mp hnodup
      have hround := assignLoop_cons h (has a List.mem_cons_self) [' ']
        (fun c hc => List.mem_singleton.mp hc) done (hdone a List.mem_cons_self)
        ((as.map setText).map (' ' :: ·))
      rw [List.map_cons, List.map_cons]
      refine hround.trans ((ih (fun x hx => has x (List.mem_cons_of_mem _ hx)) hrest
        fun x hx => ?_).trans ?_)
      · rw [List.map_append, List.mem_append, not_or]
        refine ⟨hdone x (List.mem_cons_of_mem _ hx), fun hmem => ?_⟩
        rw [List.map_singleton, List.mem_singleton] at hmem
        exact hfirst (hmem ▸ List.mem_map_of_mem hx)
      · rw [List.append_assoc]
        rfl

theorem assignLoop_listed (h : tx.Lawful) (hne : as ≠ []) (has : ∀ a ∈ as, ReadableAssignment a)
    (hnodup : (as.map Prod.fst).Nodup) :
    assignLoop tx [] ((listed (as.map setText)).splitOn ',') = .ok as := by
  obtain ⟨a, as, rfl⟩ := List.exists_cons_of_ne_nil hne
  obtain ⟨hfirst, hrest⟩ := List.nodup_cons.mp hnodup
  have hround := assignLoop_cons h (has a List.mem_cons_self) []
    (fun c hc => absurd hc List.not_mem_nil) [] List.not_mem_nil ((as.map setText).map (' ' :: ·))
  have hcomma : ∀ l ∈ setText a :: as.map setText, ',' ∉ l := by
    intro l hl
    rw [← List.map_cons, List.mem_map] at hl
    obtain ⟨x, hx, rfl⟩ := hl
    exact (has x hx).comma
  rw [List.map_cons, splitOn_listed hcomma]
  refine hround.trans (assignLoop_texts h (fun x hx => has x (List.mem_cons_of_mem _ hx)) hrest ?_)
  intro x hx hmem
  have heq : x.1 = a.1 := List.mem_singleton.mp hmem
  exact hfirst (heq ▸ List.mem_map_of_mem hx)

theorem kindOf_update (r : List Char) : kindOf ("UPDATE".toList ++ r) = some .update := by
  rw [kindOf, if_neg (not_prefix_append rfl r), if_neg (not_prefix_append rfl r),
    if_neg (not_prefix_append rfl r), if_neg (not_prefix_append rfl r),
    if_neg (not_prefix_append rfl r), if_pos (List.prefix_append _ _)]

theorem parse_updateText (h : tx.Lawful) {table : String} {assignments : List (String × Value)}
    {clause : Option WhereClause} (hst : Readable tx (.update table assignments clause)) :
    parse tx (statementText (.update table assignments clause)) =
      .ok (.change (.update table assignments clause)) := by
  obtain ⟨htable, hne, hnodup, has, hwhere, hr⟩ := hst
  obtain ⟨text, htext⟩ : ∃ text, statementText (.update table assignments clause) = text := ⟨_, rfl⟩
  have hsets : Stands (listed (assignments.map setText)) :=
    stands_listed_map hne fun a ha => (has a ha).stands
  have hline : '\n' ∉ listed (assignments.map setText) :=
    not_mem_listed_map (by decide) fun a ha => (has a ha).line
  have hsplit := assignLoop_listed h hne has hnodup
  have hsentence : text = "UPDATE".toList ++ ' ' :: (table.toList ++ ' ' :: ("SET".toList ++ ' ' ::
      (listed (assignments.map setText) ++ whereEnd clause))) := by
    rw [← htext, statementText, statementWords, sentence_cons, sentence_cons, sentence_cons,
      sentence_where]
  have hall : Stands text := by
    rw [← htext]
    refine stands_sentence (List.cons_ne_nil _ _) fun w hw => ?_
    rw [statementWords, List.mem_cons, List.mem_cons, List.mem_cons, List.mem_cons] at hw
    rcases hw with rfl | rfl | rfl | rfl | hw
    · exact stands_word rfl
    · exact stands_name h htable
    · exact stands_word rfl
    · exact hsets
    · exact stands_whereWords h hr w hw
  generalize listed (assignments.map setText) = sets at hsets hline hwhere hsplit hsentence
  obtain ⟨b, hexec⟩ : ∃ b, (updateRe tx).exec some ⟨true, text, []⟩ =
      some ⟨b, [], whereGroups 3 clause ++ [(2, sets), (1, table.toList)]⟩ := by
    obtain ⟨b, hb⟩ : ∃ b, (Regex.seqs [lazyLine 2, whereTail 3, .stop]).exec some
        ⟨false, sets ++ whereEnd clause, [(1, table.toList)]⟩ =
          some ⟨b, [], whereGroups 3 clause ++ [(2, sets), (1, table.toList)]⟩ :=
      exec_updateTail h hsets hline hwhere hr
    refine ⟨b, ?_⟩
    rw [hsentence, updateRe, exec_keyword (by decide) fun _ => (stands_name h htable).head_append _,
      exec_nameBlank h htable fun _ => (stands_word rfl).head_append _,
      exec_keyword (by decide) fun _ => hsets.head_append _]
    exact hb
  rw [htext, parse_kind h rfl kindOf_update ⟨_, hsentence.symm⟩ hall, parseKind, parseUpdate,
    h.captures_eq, Regex.search_of_start hexec]
  dsimp only
  refine bind_oks.mpr ⟨table, ?_, bind_oks.mpr ⟨sets, ?_, bind_oks.mpr ⟨assignments, hsplit,
    bind_oks.mpr ⟨clause, parseTail_groups h hr ?_, rfl⟩⟩⟩⟩
  · cases clause with
    | none => exact congrArg Except.ok String.ofList_toList
    | some clause => exact congrArg Except.ok String.ofList_toList
  · cases clause with
    | none => rfl
    | some clause => rfl
  · intro g hg
    simp only [List.mem_cons, List.not_mem_nil, or_false] at hg
    rcases hg with rfl | rfl
    · exact show 2 ≠ 3 by decide
    · exact show 1 ≠ 3 by decide

/-! ## Every statement -/

/-- A statement is read back from its text. -/
theorem parse_statementText (h : tx.Lawful) {st : Statement} (hst : Readable tx st) :
    parse tx (statementText st) = .ok (.change st) := by
  cases st with
  | createTable name columns => exact parse_createText h hst
  | dropTable name => exact parse_dropText h hst
  | alterTable table action => exact parse_alterText h hst
  | insert table columns values => exact parse_insertText h hst
  | update table assignments clause => exact parse_updateText h hst
  | delete table clause => exact parse_deleteText h hst

/-- `INSERT INTO t (a, b) VALUES (-5, 'x, (')`. -/
theorem parse_statementText_insert :
    parse .basic (statementText (.insert "t" (some ["a", "b"]) [.integer (-5), .text "x, ("])) =
      .ok (.change (.insert "t" (some ["a", "b"]) [.integer (-5), .text "x, ("])) := by
  have hitem : ∀ c ∈ ["a", "b"], ReadableItem c := by
    rintro c hc
    simp only [List.mem_cons, List.not_mem_nil, or_false] at hc
    rcases hc with rfl | rfl
    · exact ⟨⟨by decide, by decide⟩, by decide, by decide⟩
    · exact ⟨⟨by decide, by decide⟩, by decide, by decide⟩
  refine parse_statementText TextFns.basic_lawful ⟨⟨by decide, ?_⟩, ?_, by decide, ?_⟩
  · exact List.all_eq_true.mp rfl
  · rintro cs hcs
    rw [← Option.some.inj hcs]
    exact ⟨by decide, hitem⟩
  · rintro v hv
    simp only [List.mem_cons, List.not_mem_nil, or_false] at hv
    rcases hv with rfl | rfl
    · exact ⟨trivial, by decide⟩
    · exact ⟨trivial, by decide⟩

end Parser

end VelociDB
