/-
# Statements as text (`parser.rs`)

The words of a statement with a blank between them, a comma and a blank between the items of a
list:

    INSERT INTO t (a, b) VALUES (1, 'x')
    UPDATE t SET a = 1, b = 'x' WHERE c < 2 AND d LIKE 'y%'
    ALTER TABLE t RENAME COLUMN a TO b

`Readable` says which statements have such a text: the names are names, a list is not empty,
and no item holds a letter or a keyword at which its expression ends too early.

An expression for such a text leaves no choice but at `COLUMN`, so its match is rewritten word
by word.  Here for CREATE, DROP and ALTER TABLE; the statements on rows follow in
`StatementRound`.
-/
import VelociDB.Lib.RegexExact
import VelociDB.DescribeText
import VelociDB.ValuesRound
import VelociDB.WhereRound

namespace VelociDB

open Text
open LikeRegex (dot)

namespace Parser

/-! ## The text -/

/-- Words with a blank between them. -/
def sentence (words : List (List Char)) : List Char := [' '].intercalate words

/-- Items with a comma and a blank between them. -/
def listed (items : List (List Char)) : List Char := ", ".toList.intercalate items

def inParens (s : List Char) : List Char := '(' :: (s ++ [')'])

def setText (a : String × Value) : List Char := a.1.toList ++ " = ".toList ++ printValue a.2

def whereWords : Option WhereClause → List (List Char)
  | none => []
  | some clause => ["WHERE".toList, printWhere clause.conditions]

def columnListWords : Option (List String) → List (List Char)
  | none => []
  | some columns => [inParens (listed (columns.map String.toList))]

def alterWords : AlterAction → List (List Char)
  | .renameTable newName => ["RENAME".toList, "TO".toList, newName.toList]
  | .renameColumn oldName newName =>
      ["RENAME".toList, "COLUMN".toList, oldName.toList, "TO".toList, newName.toList]
  | .addColumn column => ["ADD".toList, "COLUMN".toList, columnText column]
  | .dropColumn name => ["DROP".toList, "COLUMN".toList, name.toList]

/-- The words of a statement. -/
def statementWords : Statement → List (List Char)
  | .createTable name columns =>
      ["CREATE".toList, "TABLE".toList, name.toList, inParens (columnsText columns)]
  | .dropTable name => ["DROP".toList, "TABLE".toList, name.toList]
  | .alterTable table action => "ALTER".toList :: "TABLE".toList :: table.toList :: alterWords action
  | .insert table columns values =>
      "INSERT".toList :: "INTO".toList :: table.toList :: (columnListWords columns ++
        ["VALUES".toList, inParens (listed (values.map printValue))])
  | .update table assignments clause =>
      "UPDATE".toList :: table.toList :: "SET".toList :: listed (assignments.map setText) ::
        whereWords clause
  | .delete table clause => "DELETE".toList :: "FROM".toList :: table.toList :: whereWords clause

def statementText (st : Statement) : List Char := sentence (statementWords st)

/-! ## Which statements have one -/

/-- A text with nothing to trim. -/
def Stands (w : List Char) : Prop := w ≠ [] ∧ trim isWhite w = w

/-- Conditions that are read back. -/
def ReadableTail (tx : TextFns) : Option WhereClause → Prop
  | none => True
  | some clause =>
      clause.conditions ≠ [] ∧ (∀ c ∈ clause.conditions, Printable tx c) ∧ Clean clause.conditions

/-- An action that is read back; ADD COLUMN has no PRIMARY KEY and no NOT NULL. -/
def ReadableAction (tx : TextFns) : AlterAction → Prop
  | .renameTable newName => Name tx newName.toList
  | .renameColumn oldName newName => Name tx oldName.toList ∧ Name tx newName.toList
  | .addColumn column => PlainName column.name.toList ∧ column.dataType ≠ .null ∧
      column.primaryKey = false ∧ column.notNull = false
  | .dropColumn name => Name tx name.toList

/-- An item of a column list. -/
def ReadableItem (column : String) : Prop :=
  Stands column.toList ∧ ',' ∉ column.toList ∧ ')' ∉ column.toList

/-- An assignment without a letter at which the list is cut. -/
structure ReadableAssignment (a : String × Value) : Prop where
  column : Stands a.1.toList
  value : Printed a.2
  letters : ∀ c ∈ [',', '=', '\n'], c ∉ a.1.toList ∧ c ∉ printValue a.2

/-- The keyword is nowhere between two blanks. -/
def NoWord (keyword : String) (s : List Char) : Prop :=
  ∀ u b k b' v, s = u ++ (b ++ (k ++ (b' ++ v))) → Blanks b → Folds keyword k → ¬ Blanks b'

/-- A statement that is read back from its text. -/
def Readable (tx : TextFns) : Statement → Prop
  | .createTable name columns => Name tx name.toList ∧ columns ≠ [] ∧
      ∀ c ∈ columns, PlainName c.name.toList ∧ Declared c ∧ readBack c = c
  | .dropTable name => Name tx name.toList
  | .alterTable table action => Name tx table.toList ∧ ReadableAction tx action
  | .insert table columns values => Name tx table.toList ∧
      (∀ cs, columns = some cs → cs ≠ [] ∧ ∀ c ∈ cs, ReadableItem c) ∧
      values ≠ [] ∧ ∀ v ∈ values, Printed v ∧ '\n' ∉ printValue v
  | .update table assignments clause => Name tx table.toList ∧ assignments ≠ [] ∧
      (assignments.map Prod.fst).Nodup ∧ (∀ a ∈ assignments, ReadableAssignment a) ∧
      NoWord "WHERE" (listed (assignments.map setText) ++ [' ']) ∧ ReadableTail tx clause
  | .delete table clause => Name tx table.toList ∧ ReadableTail tx clause

variable {tx : TextFns} {w rest : List Char} {b : Bool} {gs : List (Nat × List Char)}
  {rs : List (Regex Char)} {κ : Regex.Cursor Char → Option (Regex.Cursor Char)}

/-! ## Words -/

theorem sentence_cons (w v : List Char) (ws : List (List Char)) :
    sentence (w :: v :: ws) = w ++ ' ' :: sentence (v :: ws) :=
  List.intercalate_cons_cons.trans (List.append_assoc w [' '] _)

theorem sentence_singleton (w : List Char) : sentence [w] = w := List.intercalate_singleton

theorem Stands.head (h : Stands w) {c : Char} (hc : w.head? = some c) : isWhite c = false :=
  trim_head (h.2.symm ▸ hc : (trim isWhite w).head? = some c)

theorem Stands.last (h : Stands w) {c : Char} (hc : w.getLast? = some c) : isWhite c = false :=
  trim_last (h.2.symm ▸ hc : (trim isWhite w).getLast? = some c)

theorem Stands.of_solid (hne : w ≠ []) (h : ∀ c ∈ w, isWhite c = false) : Stands w :=
  ⟨hne, trim_solid h⟩

theorem Stands.of_ends (hne : w ≠ []) (hhead : ∀ c, w.head? = some c → isWhite c = false)
    (hlast : ∀ c, w.getLast? = some c → isWhite c = false) : Stands w :=
  ⟨hne, trim_of_ends hhead hlast⟩

theorem Stands.head_append (h : Stands w) (rest : List Char) {c : Char}
    (hc : (w ++ rest).head? = some c) : isWhite c = false := by
  rw [List.head?_append_of_ne_nil _ h.1] at hc
  exact h.head hc

theorem stands_name (h : tx.Lawful) (hw : Name tx w) : Stands w :=
  .of_solid hw.1 (hw.not_white h)

theorem stands_inParens (s : List Char) : Stands (inParens s) := by
  refine .of_ends (List.cons_ne_nil _ _) (fun c hc => ?_) fun c hc => ?_
  · rw [← Option.some.inj hc]
    rfl
  · rw [inParens, ← List.cons_append, List.getLast?_concat] at hc
    rw [← Option.some.inj hc]
    rfl

theorem sentence_ne_nil {ws : List (List Char)} (hw : w ≠ []) : sentence (w :: ws) ≠ [] := by
  cases ws with
  | nil =>
      rw [sentence_singleton]
      exact hw
  | cons v ws =>
      rw [sentence_cons]
      exact List.append_ne_nil_of_left_ne_nil hw _

/-- Words with nothing to trim make a sentence with nothing to trim. -/
theorem stands_sentence {ws : List (List Char)} (hne : ws ≠ []) (h : ∀ w ∈ ws, Stands w) :
    Stands (sentence ws) := by
  induction ws with
  | nil => exact absurd rfl hne
  | cons w ws ih =>
      have hw := h w List.mem_cons_self
      cases ws with
      | nil =>
          rw [sentence_singleton]
          exact hw
      | cons v ws =>
          have hrest := ih (List.cons_ne_nil _ _) fun x hx => h x (List.mem_cons_of_mem _ hx)
          rw [sentence_cons]
          refine .of_ends (List.append_ne_nil_of_left_ne_nil hw.1 _) (fun c => hw.head_append _) ?_
          intro c hc
          rw [List.getLast?_append_of_ne_nil _ (List.cons_ne_nil _ _), List.getLast?_cons,
            List.getLast?_eq_some_getLast hrest.1, Option.getD_some] at hc
          exact hrest.last ((List.getLast?_eq_some_getLast hrest.1).trans hc)

/-! ## The expressions on words -/

theorem foldsTo_self (c : Char) : foldsTo c c = true := by
  rw [foldsTo, beq_self_eq_true, Bool.true_or, Bool.true_or]

/-- A blank in front of a word. -/
theorem exec_blank (hrest : ∀ a, rest.head? = some a → isWhite a = false) :
    (Regex.seqs (blanks :: rs)).exec κ ⟨b, ' ' :: rest, gs⟩ =
      (Regex.seqs rs).exec κ ⟨false, rest, gs⟩ := by
  have hmany := @Regex.takeMany_exact Char _ isWhite [] rest false true
    (fun b rest => (Regex.seqs rs).exec κ ⟨b, rest, gs⟩) (fun _ h => absurd h List.not_mem_nil)
    hrest (fun u v heq hv => absurd (List.append_eq_nil_iff.mp heq.symm).2 hv)
  rw [Regex.exec_seqs_cons, blanks, Regex.some1, Regex.exec_seq, Regex.exec_one_cons rfl,
    Regex.exec]
  exact hmany

/-- Blanks are not matched at a word. -/
theorem exec_blanks_none {a : Char} (ha : isWhite a = false) :
    (Regex.seqs (blanks :: rs)).exec κ ⟨b, a :: rest, gs⟩ = none := by
  rw [Regex.exec_seqs_cons, blanks, Regex.some1, Regex.exec_seq, Regex.exec_one_none ha]

theorem exec_wordEq {k : String} (hne : k.toList ≠ []) :
    (Regex.seqs (word k :: rs)).exec κ ⟨b, k.toList ++ rest, gs⟩ =
      (Regex.seqs rs).exec κ ⟨false, rest, gs⟩ := by
  rw [Regex.exec_seqs_cons, word, Regex.exec_ones_eq (fun a _ => foldsTo_self a) hne]

/-- A keyword and the blank behind it. -/
theorem exec_keyword {k : String} (hne : k.toList ≠ [])
    (hrest : ∀ a, rest.head? = some a → isWhite a = false) :
    (Regex.seqs (word k :: blanks :: rs)).exec κ ⟨b, k.toList ++ ' ' :: rest, gs⟩ =
      (Regex.seqs rs).exec κ ⟨false, rest, gs⟩ := by
  rw [exec_wordEq hne]
  exact exec_blank hrest

/-- Another word is not matched. -/
theorem exec_keyword_none {k : String} {a c : Char} {l : List Char} (hk : k.toList = c :: l)
    (ha : foldsTo c a = false) :
    (Regex.seqs (word k :: rs)).exec κ ⟨b, a :: rest, gs⟩ = none := by
  rw [Regex.exec_seqs_cons, word, hk, List.map_cons, Regex.exec_seqs_cons, Regex.exec_one_none ha]

/-- A name and the blank behind it. -/
theorem exec_nameBlank (h : tx.Lawful) {n : Nat} (hw : Name tx w)
    (hrest : ∀ a, rest.head? = some a → isWhite a = false) :
    (Regex.seqs (name tx n :: blanks :: rs)).exec κ ⟨b, w ++ ' ' :: rest, gs⟩ =
      (Regex.seqs rs).exec κ ⟨false, rest, (n, w) :: gs⟩ := by
  rw [Regex.exec_seqs_cons, name, Regex.exec_group_exact hw.1 hw.2, exec_blank hrest]
  · rintro a ha
    rw [← Option.some.inj ha]
    exact not_word_blank h
  · rintro u v gs' heq hv
    obtain ⟨a, v, rfl⟩ := List.exists_cons_of_ne_nil hv
    exact exec_blanks_none (hw.not_white h a (by rw [heq]; simp))

/-- A name at the end of the text. -/
theorem exec_nameStop {n : Nat} (hw : Name tx w) :
    (Regex.seqs [name tx n, .stop]).exec some ⟨b, w, gs⟩ = some ⟨false, [], (n, w) :: gs⟩ := by
  have hgroup := @Regex.exec_group_exact Char _ tx.isWord ((Regex.seqs [.stop]).exec some) w [] gs b
    true n hw.1 hw.2 (fun _ ha => absurd ha.symm (Option.some_ne_none _)) fun u v gs' heq hv => by
      obtain ⟨a, v, rfl⟩ := List.exists_cons_of_ne_nil hv
      rfl
  rw [List.append_nil] at hgroup
  rw [Regex.exec_seqs_cons, name, hgroup]
  rfl

/-! ## The kind of a sentence -/

/-- Two texts that differ at a place have no common end. -/
theorem not_prefix_append {u v : List Char} (h : (u.isPrefixOf v || v.isPrefixOf u) = false)
    (r : List Char) : ¬ u <+: v ++ r := by
  intro hp
  rw [Bool.or_eq_false_iff] at h
  rcases List.prefix_or_prefix_of_prefix hp (List.prefix_append v r) with hp | hp
  · exact Bool.false_ne_true (h.1.symm.trans (List.isPrefixOf_iff_prefix.mpr hp))
  · exact Bool.false_ne_true (h.2.symm.trans (List.isPrefixOf_iff_prefix.mpr hp))

/-- The first words, in upper case, decide. -/
theorem parse_kind (h : tx.Lawful) {u : String} {kind : Kind}
    (hupper : (u.toList.all fun c => isAscii c && c.toUpper == c) = true)
    (hkind : ∀ r, kindOf (u.toList ++ r) = some kind) {text : List Char} (hpre : u.toList <+: text)
    (htext : Stands text) : parse tx text = parseKind tx text kind := by
  obtain ⟨r, rfl⟩ := hpre
  have hfixed : tx.upper u.toList = u.toList := by
    refine upper_fixed h fun c hc => ?_
    have hc := List.all_eq_true.mp hupper c hc
    rwa [Bool.and_eq_true, beq_iff_eq] at hc
  have hsplit : tx.upper (u.toList ++ r) = u.toList ++ tx.upper r := by
    rw [TextFns.upper, List.flatMap_append]
    exact congrArg (· ++ _) hfixed
  rw [parse, htext.2, hsplit, hkind]

/-! ## CREATE, DROP and ALTER TABLE -/

theorem stands_word {k : String}
    (hk : (!k.toList.isEmpty && k.toList.all fun c => !isWhite c) = true) : Stands k.toList := by
  rw [Bool.and_eq_true, Bool.not_eq_true', List.isEmpty_eq_false_iff, List.all_eq_true] at hk
  exact .of_solid hk.1 fun c hc => by simpa using hk.2 c hc

theorem tableText_sentence (name columns : List Char) :
    tableText name columns =
      sentence ["CREATE".toList, "TABLE".toList, name, inParens columns] := by
  rw [tableText_eq, sentence_cons, sentence_cons, sentence_cons, sentence_singleton]
  rfl

theorem parse_createText (h : tx.Lawful) {name : String} {columns : List Column}
    (hst : Readable tx (.createTable name columns)) :
    parse tx (statementText (.createTable name columns)) =
      .ok (.change (.createTable name columns)) := by
  obtain ⟨hname, hne, hcols⟩ := hst
  have hback : columns.map readBack = columns :=
    (List.map_congr_left fun c hc => (hcols c hc).2.2).trans (List.map_id _)
  have hparse := parse_describe h hname hne (fun c hc => (hcols c hc).1)
    fun c hc => (hcols c hc).2.1
  rw [hback, String.ofList_toList] at hparse
  rw [statementText, statementWords, ← tableText_sentence, hparse]

theorem kindOf_drop (r : List Char) : kindOf ("DROP TABLE".toList ++ r) = some .dropTable := by
  rw [kindOf, if_neg (not_prefix_append rfl r), if_pos (List.prefix_append _ _)]

theorem parse_dropText (h : tx.Lawful) {name : String} (hname : Name tx name.toList) :
    parse tx (statementText (.dropTable name)) = .ok (.change (.dropTable name)) := by
  have htext : statementText (.dropTable name) =
      "DROP".toList ++ ' ' :: ("TABLE".toList ++ ' ' :: name.toList) := by
    rw [statementText, statementWords, sentence_cons, sentence_cons, sentence_singleton]
  have hstands : Stands (statementText (.dropTable name)) := by
    refine stands_sentence (List.cons_ne_nil _ _) fun w hw => ?_
    simp only [statementWords, List.mem_cons, List.not_mem_nil, or_false] at hw
    rcases hw with rfl | rfl | rfl
    · exact stands_word rfl
    · exact stands_word rfl
    · exact stands_name h hname
  have hexec : (dropRe tx).exec some ⟨true, statementText (.dropTable name), []⟩ =
      some ⟨false, [], [(1, name.toList)]⟩ := by
    rw [htext, dropRe, exec_keyword (by decide) fun _ => (stands_word rfl).head_append _,
      exec_keyword (by decide) fun _ => (stands_name h hname).head]
    exact exec_name (List.append_nil _).symm hname
      (fun _ ha => absurd ha.symm (Option.some_ne_none _)) rfl
  rw [parse_kind (u := "DROP TABLE") h rfl kindOf_drop ⟨' ' :: name.toList, htext.symm⟩ hstands,
    parseKind, parseDropTable, h.captures_eq, Regex.search_of_start hexec]
  exact congrArg (fun n => Except.ok (SqlStatement.change (.dropTable n))) String.ofList_toList

/-- The head of every ALTER TABLE. -/
theorem alter_search (h : tx.Lawful) (hw : Name tx w)
    (hrest : ∀ a, rest.head? = some a → isWhite a = false) :
    (Regex.seqs (.start :: word "ALTER" :: blanks :: word "TABLE" :: blanks :: name tx 1 :: blanks ::
      rs)).search ("ALTER".toList ++ ' ' :: ("TABLE".toList ++ ' ' :: (w ++ ' ' :: rest))) =
        ((Regex.seqs rs).exec some ⟨false, rest, [(1, w)]⟩).map fun c => ⟨[], c.rest, c.groups⟩ := by
  refine (Regex.search_start _ _).trans ?_
  rw [exec_keyword (by decide) fun _ => (stands_word rfl).head_append _,
    exec_keyword (by decide) fun _ => (stands_name h hw).head_append _, exec_nameBlank h hw hrest]

/-- The COLUMN that may be left out. -/
theorem exec_columnWord {x : Regex.Cursor Char}
    (hrest : ∀ a, rest.head? = some a → isWhite a = false)
    (hx : (Regex.seqs rs).exec κ ⟨false, rest, gs⟩ = some x) :
    (Regex.seqs (columnWord :: rs)).exec κ ⟨b, "COLUMN".toList ++ ' ' :: rest, gs⟩ = some x := by
  rw [Regex.exec_seqs_cons, columnWord, Regex.opt, Regex.exec, exec_keyword (by decide) hrest]
  change Option.or ((Regex.seqs rs).exec κ ⟨false, rest, gs⟩) _ = _
  rw [hx]
  rfl

/-- A line at the end of the text. -/
theorem exec_lineStop {n : Nat} (hne : w ≠ []) (hline : '\n' ∉ w) :
    (Regex.seqs [line n, .stop]).exec some ⟨b, w, gs⟩ = some ⟨false, [], (n, w) :: gs⟩ :=
  Regex.exec_group_max (List.append_nil w).symm hne (LikeRegex.dot_iff.mpr hline)
    (fun _ ha => absurd ha.symm (Option.some_ne_none _)) rfl

/-- The column of an ADD COLUMN is read back. -/
theorem parseAddedColumn_text (h : tx.Lawful) {c : Column} (hname : PlainName c.name.toList)
    (htype : c.dataType ≠ .null) (hkey : c.primaryKey = false) (hnull : c.notNull = false) :
    parseAddedColumn tx (columnText c) = .ok c := by
  have hflags : ∀ w ∈ flagWords c.primaryKey c.notNull c.unique, PrintedWord w :=
    fun w hw => columnWords_printed (c := c) (List.mem_cons_of_mem _ hw)
  have hident : parseIdentifier (columnText c) =
      .ok (c.name.toList, spaced (columnWords c)) := by
    rw [columnText_eq]
    refine parseIdentifier_plain hname ?_ fun x hx => ?_
    · rintro x hx
      rw [← Option.some.inj hx]
      rfl
    · rw [← columnText_eq] at hx
      exact (isPrinted_facts (columnText_last c hx)).2.2.1
  have hupper : (typeText c.dataType :: flagWords c.primaryKey c.notNull c.unique).map tx.upper =
      columnWords c := by
    refine (List.map_congr_left fun w hw => ?_).trans (List.map_id _)
    exact (columnWords_printed (c := c) hw).upper h
  have htrim : trim isWhite (spaced (columnWords c)) =
      typeText c.dataType ++ spaced (flagWords c.primaryKey c.notNull c.unique) :=
    trim_spaced (typeText_printed _) hflags
  have hprimary : "PRIMARY".toList ∉ columnWords c := by
    rw [mem_columnWords htype (by decide), hkey, hnull]
    cases c.unique
    all_goals decide
  obtain ⟨-, -, hnotnull, hunique⟩ := mem_flagWords c.primaryKey c.notNull c.unique
  have hnot : ¬ ("NOT".toList ∈ columnWords c ∧ "NULL".toList ∈ columnWords c) := by
    rw [mem_columnWords htype (by decide), mem_columnWords htype (by decide), hnotnull, hnull]
    exact Bool.false_ne_true
  have hflag : decide ("UNIQUE".toList ∈ columnWords c) = c.unique := by
    rw [Bool.eq_iff_iff, decide_eq_true_iff, mem_columnWords htype (by decide), hunique, hkey,
      Bool.not_false, Bool.and_true]
  rw [parseAddedColumn, bind_oks]
  refine ⟨_, hident, ?_⟩
  dsimp only
  rw [htrim, splitSqlParts_spaced (typeText_printed _) hflags]
  dsimp only
  rw [hupper, if_neg hprimary, if_neg hnot, dataTypeFromStr_text h htype, hflag,
    String.ofList_toList]
  obtain ⟨name, type, primaryKey, notNull, unique⟩ := c
  cases hkey
  cases hnull
  rfl

/-- What stands behind the table of an ALTER TABLE has nothing to trim. -/
theorem stands_alterWords (h : tx.Lawful) {action : AlterAction} (ha : ReadableAction tx action) :
    ∀ w ∈ alterWords action, Stands w := by
  intro w hw
  cases action with
  | renameTable newName =>
      simp only [alterWords, List.mem_cons, List.not_mem_nil, or_false] at hw
      rcases hw with rfl | rfl | rfl
      · exact stands_word rfl
      · exact stands_word rfl
      · exact stands_name h ha
  | renameColumn oldName newName =>
      simp only [alterWords, List.mem_cons, List.not_mem_nil, or_false] at hw
      rcases hw with rfl | rfl | rfl | rfl | rfl
      · exact stands_word rfl
      · exact stands_word rfl
      · exact stands_name h ha.1
      · exact stands_word rfl
      · exact stands_name h ha.2
  | addColumn column =>
      simp only [alterWords, List.mem_cons, List.not_mem_nil, or_false] at hw
      rcases hw with rfl | rfl | rfl
      · exact stands_word rfl
      · exact stands_word rfl
      · exact ⟨columnText_ne_nil column, columnText_trim ha.1⟩
  | dropColumn name =>
      simp only [alterWords, List.mem_cons, List.not_mem_nil, or_false] at hw
      rcases hw with rfl | rfl | rfl
      · exact stands_word rfl
      · exact stands_word rfl
      · exact stands_name h ha

theorem sentence_last (ws : List (List Char)) (hw : w ≠ []) :
    (sentence (ws ++ [w])).getLast? = w.getLast? := by
  induction ws with
  | nil => exact congrArg List.getLast? (sentence_singleton w)
  | cons v ws ih =>
      obtain ⟨x, xs, hxs⟩ := List.exists_cons_of_ne_nil
        (List.append_ne_nil_of_right_ne_nil ws (List.cons_ne_nil w []))
      have hx : sentence (ws ++ [w]) ≠ [] := by
        intro hnil
        rw [hnil, List.getLast?_nil] at ih
        exact hw (List.getLast?_eq_none_iff.mp ih.symm)
      rw [hxs] at ih hx
      rw [List.cons_append, hxs, sentence_cons,
        List.getLast?_append_of_ne_nil _ (List.cons_ne_nil _ _), List.getLast?_cons, ih]
      cases hlast : w.getLast? with
      | none => exact absurd (List.getLast?_eq_none_iff.mp hlast) hw
      | some c => rfl

theorem not_word_semicolon (h : tx.Lawful) (hw : Name tx w) {c : Char} (hc : w.getLast? = some c) :
    (c == ';') = false := by
  rw [beq_eq_false_iff_ne]
  rintro rfl
  have hword := hw.2 _ (List.mem_of_getLast? hc)
  rw [h.word_ascii ';' rfl] at hword
  cases hword

/-- No ALTER TABLE ends with a semicolon. -/
theorem alter_semicolon (h : tx.Lawful) {table : String} {action : AlterAction}
    (ha : ReadableAction tx action) {c : Char}
    (hc : (statementText (.alterTable table action)).getLast? = some c) : (c == ';') = false := by
  rw [statementText, statementWords] at hc
  cases action with
  | renameTable newName =>
      refine not_word_semicolon h ha ((sentence_last ["ALTER".toList, "TABLE".toList, table.toList,
        "RENAME".toList, "TO".toList] ?_).symm.trans hc)
      exact (show Name tx newName.toList from ha).1
  | renameColumn oldName newName =>
      refine not_word_semicolon h ha.2 ((sentence_last ["ALTER".toList, "TABLE".toList,
        table.toList, "RENAME".toList, "COLUMN".toList,
        oldName.toList, "TO".toList] ?_).symm.trans hc)
      exact ha.2.1
  | addColumn column =>
      have hlast := (sentence_last ["ALTER".toList, "TABLE".toList, table.toList, "ADD".toList,
        "COLUMN".toList] (columnText_ne_nil column)).symm.trans hc
      have hprinted := columnText_last column hlast
      rw [beq_eq_false_iff_ne]
      rintro rfl
      cases hprinted
  | dropColumn name =>
      refine not_word_semicolon h ha ((sentence_last ["ALTER".toList, "TABLE".toList, table.toList,
        "DROP".toList, "COLUMN".toList] ?_).symm.trans hc)
      exact (show Name tx name.toList from ha).1

theorem kindOf_alter (r : List Char) : kindOf ("ALTER TABLE".toList ++ r) = some .alterTable := by
  rw [kindOf, if_neg (not_prefix_append rfl r), if_neg (not_prefix_append rfl r),
    if_pos (List.prefix_append _ _)]

/-- The table of an ALTER TABLE, and what stands behind it. -/
theorem alter_sentence (table : String) (action : AlterAction) :
    statementText (.alterTable table action) = "ALTER".toList ++ ' ' :: ("TABLE".toList ++
      ' ' :: (table.toList ++ ' ' :: sentence (alterWords action))) := by
  rw [statementText, statementWords, sentence_cons, sentence_cons]
  cases action with
  | renameTable newName => rw [alterWords, sentence_cons]
  | renameColumn oldName newName => rw [alterWords, sentence_cons]
  | addColumn column => rw [alterWords, sentence_cons]
  | dropColumn name => rw [alterWords, sentence_cons]

/-- An ALTER TABLE is one, and its expressions go on behind the table. -/
theorem parse_alter (h : tx.Lawful) {table : String} {action : AlterAction}
    (htable : Name tx table.toList) (haction : ReadableAction tx action) {text : List Char}
    (htext : statementText (.alterTable table action) = text) :
    parse tx text = parseAlterTable tx text ∧
      trim isWhite (trimEnd (· == ';') (trim isWhite text)) = text ∧
      ∀ rs, tx.captures (Regex.seqs (.start :: word "ALTER" :: blanks :: word "TABLE" :: blanks ::
        name tx 1 :: blanks :: rs)) text = ((Regex.seqs rs).exec some
          ⟨false, sentence (alterWords action), [(1, table.toList)]⟩).map fun c =>
            ⟨[], c.rest, c.groups⟩ := by
  have hwords := stands_alterWords h haction
  have hne : alterWords action ≠ [] := by
    cases action with
    | renameTable _ | renameColumn _ _ | addColumn _ | dropColumn _ => exact List.cons_ne_nil _ _
  have hrest : ∀ a, (sentence (alterWords action)).head? = some a → isWhite a = false :=
    fun _ => (stands_sentence hne hwords).head
  have hstands : Stands text := by
    rw [← htext]
    refine stands_sentence (List.cons_ne_nil _ _) fun w hw => ?_
    rw [statementWords, List.mem_cons, List.mem_cons, List.mem_cons] at hw
    rcases hw with rfl | rfl | rfl | hw
    · exact stands_word rfl
    · exact stands_word rfl
    · exact stands_name h htable
    · exact hwords w hw
  have hprefix : "ALTER TABLE".toList <+: text :=
    ⟨' ' :: (table.toList ++ ' ' :: sentence (alterWords action)),
      (alter_sentence table action).symm.trans htext⟩
  refine ⟨parse_kind h rfl kindOf_alter hprefix hstands, ?_, fun rs => ?_⟩
  · rw [hstands.2, trimEnd_of_last fun c hc => alter_semicolon h haction (htext.symm ▸ hc),
      hstands.2]
  · rw [h.captures_eq, ← htext, alter_sentence]
    exact alter_search h htable hrest

theorem parse_renameTable (h : tx.Lawful) {table newName : String} (htable : Name tx table.toList)
    (hnew : Name tx newName.toList) : parse tx (statementText (.alterTable table
      (.renameTable newName))) = .ok (.change (.alterTable table (.renameTable newName))) := by
  obtain ⟨text, htext⟩ : ∃ text, statementText (.alterTable table (.renameTable newName)) = text :=
    ⟨_, rfl⟩
  obtain ⟨hparse, hsql, hsearch⟩ := parse_alter h htable
    (show ReadableAction tx (.renameTable newName) from hnew) htext
  have hexec : (Regex.seqs [word "RENAME", blanks, word "TO", blanks, name tx 2, .stop]).exec some
      ⟨false, sentence (alterWords (.renameTable newName)), [(1, table.toList)]⟩ =
        some ⟨false, [], [(2, newName.toList), (1, table.toList)]⟩ := by
    rw [alterWords, sentence_cons, sentence_cons, sentence_singleton,
      exec_keyword (by decide) fun _ => (stands_word rfl).head_append _,
      exec_keyword (by decide) fun _ => (stands_name h hnew).head, exec_nameStop hnew]
  rw [htext, hparse, parseAlterTable, hsql, renameTableRe, hsearch, hexec, Option.map_some]
  change Except.ok (SqlStatement.change (.alterTable (String.ofList table.toList)
    (.renameTable (String.ofList newName.toList)))) = _
  rw [String.ofList_toList, String.ofList_toList]

theorem parse_renameColumn (h : tx.Lawful) {table oldName newName : String}
    (htable : Name tx table.toList) (hold : Name tx oldName.toList)
    (hnew : Name tx newName.toList) :
    parse tx (statementText (.alterTable table (.renameColumn oldName newName))) =
      .ok (.change (.alterTable table (.renameColumn oldName newName))) := by
  obtain ⟨text, htext⟩ :
      ∃ text, statementText (.alterTable table (.renameColumn oldName newName)) = text := ⟨_, rfl⟩
  obtain ⟨hparse, hsql, hsearch⟩ :=
    parse_alter h htable (show ReadableAction tx (.renameColumn oldName newName) from ⟨hold, hnew⟩) htext
  have hsentence : sentence (alterWords (.renameColumn oldName newName)) = "RENAME".toList ++ ' ' ::
      ("COLUMN".toList ++ ' ' :: (oldName.toList ++ ' ' :: ("TO".toList ++ ' ' ::
        newName.toList))) := by
    rw [alterWords, sentence_cons, sentence_cons, sentence_cons, sentence_cons, sentence_singleton]
  have htable' : (Regex.seqs [word "RENAME", blanks, word "TO", blanks, name tx 2, .stop]).exec some
      ⟨false, sentence (alterWords (.renameColumn oldName newName)), [(1, table.toList)]⟩ = none := by
    rw [hsentence, exec_keyword (by decide) fun _ => (stands_word rfl).head_append _]
    exact exec_keyword_none (a := 'C') rfl rfl
  have hexec : (Regex.seqs [word "RENAME", blanks, columnWord, name tx 2, blanks, word "TO", blanks,
      name tx 3, .stop]).exec some
      ⟨false, sentence (alterWords (.renameColumn oldName newName)), [(1, table.toList)]⟩ =
        some ⟨false, [], [(3, newName.toList), (2, oldName.toList), (1, table.toList)]⟩ := by
    rw [hsentence, exec_keyword (by decide) fun _ => (stands_word rfl).head_append _]
    refine exec_columnWord (fun _ => (stands_name h hold).head_append _) ?_
    rw [exec_nameBlank h hold fun _ => (stands_word rfl).head_append _,
      exec_keyword (by decide) fun _ => (stands_name h hnew).head, exec_nameStop hnew]
  rw [htext, hparse, parseAlterTable, hsql, renameTableRe, hsearch, htable', renameColumnRe,
    hsearch, hexec, Option.map_none, Option.map_some]
  change Except.ok (SqlStatement.change (.alterTable (String.ofList table.toList)
    (.renameColumn (String.ofList oldName.toList) (String.ofList newName.toList)))) = _
  rw [String.ofList_toList, String.ofList_toList, String.ofList_toList]

theorem parse_addColumn (h : tx.Lawful) {table : String} {column : Column}
    (htable : Name tx table.toList) (hcolumn : ReadableAction tx (.addColumn column)) :
    parse tx (statementText (.alterTable table (.addColumn column))) =
      .ok (.change (.alterTable table (.addColumn column))) := by
  obtain ⟨text, htext⟩ : ∃ text, statementText (.alterTable table (.addColumn column)) = text :=
    ⟨_, rfl⟩
  obtain ⟨hparse, hsql, hsearch⟩ := parse_alter h htable hcolumn htext
  obtain ⟨hname, htype, hkey, hnull⟩ := hcolumn
  have hstand : Stands (columnText column) := ⟨columnText_ne_nil column, columnText_trim hname⟩
  have hline : '\n' ∉ columnText column := by
    rw [← columnsText_singleton]
    exact columnsText_line fun c hc => by rwa [List.mem_singleton.mp hc]
  have hsentence : sentence (alterWords (.addColumn column)) = "ADD".toList ++ ' ' ::
      ("COLUMN".toList ++ ' ' :: columnText column) := by
    rw [alterWords, sentence_cons, sentence_cons, sentence_singleton]
  have hrename : ∀ rs, (Regex.seqs (word "RENAME" :: rs)).exec some
      ⟨false, sentence (alterWords (.addColumn column)), [(1, table.toList)]⟩ = none := by
    intro rs
    rw [hsentence]
    exact exec_keyword_none (a := 'A') rfl rfl
  have hexec : (Regex.seqs [word "ADD", blanks, columnWord, line 2, .stop]).exec some
      ⟨false, sentence (alterWords (.addColumn column)), [(1, table.toList)]⟩ =
        some ⟨false, [], [(2, columnText column), (1, table.toList)]⟩ := by
    rw [hsentence, exec_keyword (by decide) fun _ => (stands_word rfl).head_append _]
    exact exec_columnWord (fun _ => hstand.head) (exec_lineStop hstand.1 hline)
  rw [htext, hparse, parseAlterTable, hsql, renameTableRe, hsearch, hrename, renameColumnRe,
    hsearch, hrename, addColumnRe, hsearch, hexec, Option.map_none, Option.map_some]
  refine bind_oks.mpr ⟨table, congrArg Except.ok String.ofList_toList, bind_oks.mpr
    ⟨columnText column, rfl, bind_oks.mpr ⟨column, ?_, rfl⟩⟩⟩
  rw [columnText_trim hname]
  exact parseAddedColumn_text h hname htype hkey hnull

theorem parse_dropColumn (h : tx.Lawful) {table column : String} (htable : Name tx table.toList)
    (hcolumn : Name tx column.toList) : parse tx (statementText (.alterTable table
      (.dropColumn column))) = .ok (.change (.alterTable table (.dropColumn column))) := by
  obtain ⟨text, htext⟩ : ∃ text, statementText (.alterTable table (.dropColumn column)) = text :=
    ⟨_, rfl⟩
  obtain ⟨hparse, hsql, hsearch⟩ := parse_alter h htable
    (show ReadableAction tx (.dropColumn column) from hcolumn) htext
  have hsentence : sentence (alterWords (.dropColumn column)) = "DROP".toList ++ ' ' ::
      ("COLUMN".toList ++ ' ' :: column.toList) := by
    rw [alterWords, sentence_cons, sentence_cons, sentence_singleton]
  have hother : ∀ (k : String) (c : Char) (l : List Char) rs, k.toList = c :: l →
      foldsTo c 'D' = false → (Regex.seqs (word k :: rs)).exec some
        ⟨false, sentence (alterWords (.dropColumn column)), [(1, table.toList)]⟩ = none := by
    intro k c l rs hk hc
    rw [hsentence]
    exact exec_keyword_none (a := 'D') hk hc
  have hexec : (Regex.seqs [word "DROP", blanks, columnWord, name tx 2, .stop]).exec some
      ⟨false, sentence (alterWords (.dropColumn column)), [(1, table.toList)]⟩ =
        some ⟨false, [], [(2, column.toList), (1, table.toList)]⟩ := by
    rw [hsentence, exec_keyword (by decide) fun _ => (stands_word rfl).head_append _]
    exact exec_columnWord (fun _ => (stands_name h hcolumn).head) (exec_nameStop hcolumn)
  rw [htext, hparse, parseAlterTable, hsql, renameTableRe, hsearch, hother "RENAME" _ _ _ rfl rfl,
    renameColumnRe, hsearch, hother "RENAME" _ _ _ rfl rfl, addColumnRe, hsearch,
    hother "ADD" _ _ _ rfl rfl, dropColumnRe, hsearch, hexec, Option.map_none, Option.map_some]
  change Except.ok (SqlStatement.change (.alterTable (String.ofList table.toList)
    (.dropColumn (String.ofList column.toList)))) = _
  rw [String.ofList_toList, String.ofList_toList]

theorem parse_alterText (h : tx.Lawful) {table : String} {action : AlterAction}
    (hst : Readable tx (.alterTable table action)) :
    parse tx (statementText (.alterTable table action)) =
      .ok (.change (.alterTable table action)) := by
  obtain ⟨htable, haction⟩ := hst
  cases action with
  | renameTable newName => exact parse_renameTable h htable haction
  | renameColumn oldName newName => exact parse_renameColumn h htable haction.1 haction.2
  | addColumn column => exact parse_addColumn h htable haction
  | dropColumn name => exact parse_dropColumn h htable haction

end Parser

end VelociDB
