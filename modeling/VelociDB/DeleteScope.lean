/-
# What a DELETE leaves out (`parser.rs`, `main.rs`)

The expression for a DELETE ends where its WHERE clause may start, and `.` stops at a line
feed.  So a statement whose clause is misspelt deletes every row, and one whose clause goes
on in the next line loses the rest of it; in a line, the expression for a condition skips
what stands before the first name.

    Keeps rest clause    all of `rest`, which stands behind the table name, is in `clause`
    OneLine rest         nothing, or a WHERE clause in one line whose pieces are conditions
-/
import VelociDB.AndSplit
import VelociDB.ParserExec
import VelociDB.ParserPanics

namespace VelociDB

open Text
open LikeRegex (dot)

namespace Parser

variable (tx : TextFns)

/-- `(?i)DELETE\s+FROM\s+(\w+)`. -/
def deleteHead : Regex Char := Regex.seqs [word "DELETE", blanks, word "FROM", blanks, name tx 1]

/-- What stands behind the table name of a DELETE. -/
def behindTable (sql : List Char) : List Char :=
  match (deleteHead tx).search (trim isWhite sql) with
  | some m => m.after
  | none => []

/-- The whole of a piece is read as the condition. -/
def Says (part : List Char) (condition : Condition) : Prop :=
  parseCondition tx part = .ok condition ∧
    ∃ m, (conditionRe tx).search (trim isWhite part) = some m ∧ m.before = [] ∧ m.after = []

/-- Every letter of `rest` but blanks and a semicolon at its end is of a WHERE clause all of
whose conditions are there. -/
def Keeps (rest : List Char) : Option WhereClause → Prop
  | none => trim isWhite rest = [] ∨ trim isWhite rest = [';']
  | some clause => ∃ b k b' body tail, WhereText rest b k b' (body ++ tail) ∧
      (tail = [] ∨ tail = [';']) ∧ List.Forall₂ (Says tx) (pieces body) clause.conditions

/-- A text that starts with a name, an operator and a literal. -/
def StartsCondition (part : List Char) : Prop :=
  ∃ column b op b' value, part = column ++ (b ++ (op ++ (b' ++ value))) ∧ Name tx column ∧
    (∀ c ∈ b, isWhite c = true) ∧ op ∈ operatorTexts.map String.toList ∧
      (∀ c ∈ b', isWhite c = true) ∧ value ≠ []

/-- Nothing but a semicolon, or a WHERE clause in one line, each of whose pieces starts with a
name, an operator and a literal; a semicolon may stand in a line of its own. -/
def OneLine (rest : List Char) : Prop :=
  trim isWhite rest = [] ∨ trim isWhite rest = [';'] ∨
    ∃ b k b' l w tail, WhereText rest b k b' (l ++ (w ++ tail)) ∧ '\n' ∉ l ∧
      (∀ c ∈ w, isWhite c = true) ∧
      (w = [] ∧ tail = [] ∨ w.head? = some '\n' ∧ (tail = [] ∨ tail = [';'])) ∧
      ∀ p ∈ pieces (l ++ w), StartsCondition tx (trim isWhite p)

end Parser

namespace Parser

variable {tx : TextFns}

/-! ## The match of a DELETE -/

/-- The match is the one of its head, with the WHERE clause behind it. -/
theorem deleteRe_search {text : List Char} {m : Regex.Match Char}
    (hm : (deleteRe tx).search text = some m) : ∃ c d, (deleteHead tx).search text =
      some ⟨m.before, c.rest, c.groups⟩ ∧ (Regex.seqs [whereTail 2]).exec some c = some d ∧
        m = ⟨m.before, d.rest, d.groups⟩ := by
  have hseq : (deleteRe tx).search text =
      (Regex.seq (deleteHead tx) (Regex.seqs [whereTail 2])).search text := by
    refine Regex.search_congr (fun c => ?_) text
    exact Regex.exec_seqs_append [word "DELETE", blanks, word "FROM", blanks, name tx 1]
      [whereTail 2] some c
  have htotal : ∀ d, ((Regex.seqs [whereTail 2]).exec some d).isSome := by
    intro d
    exact Regex.exec_isSome.mpr ⟨d, ⟨d, Or.inr rfl, rfl⟩, rfl⟩
  rw [hseq] at hm
  rcases Regex.search_seq htotal text with ⟨hnone, -⟩ | ⟨before, c, d, hhead, hexec, hsome⟩
  · rw [hnone] at hm
    cases hm
  · obtain rfl := Option.some.inj (hm.symm.trans hsome)
    exact ⟨c, d, hhead, hexec, rfl⟩

/-- The head of a DELETE remembers the table. -/
theorem deleteHead_search {text : List Char} {m : Regex.Match Char}
    (hm : (deleteHead tx).search text = some m) :
    ∃ w table, text = m.before ++ (w ++ m.after) ∧ m.groups = [(1, table)] := by
  obtain ⟨w, hw, htext⟩ := Regex.search_eats hm
  rw [deleteHead] at hw
  simp only [Regex.eats_seqs_cons, Regex.eats_seqs_nil] at hw
  obtain ⟨u₁, w₁, g₁, g₁', h₁, ⟨u₂, w₂, g₂, g₂', h₂, ⟨u₃, w₃, g₃, g₃', h₃, ⟨u₄, w₄, g₄, g₄', h₄,
    ⟨table, w₅, g₅, g₅', h₅, ⟨rfl, rfl⟩, rfl, rfl⟩, rfl, rfl⟩, rfl, rfl⟩, rfl, rfl⟩, -,
    hgroups⟩ := hw
  obtain ⟨-, rfl⟩ := eats_word.mp h₁
  obtain ⟨-, rfl⟩ := eats_blanks.mp h₂
  obtain ⟨-, rfl⟩ := eats_word.mp h₃
  obtain ⟨-, rfl⟩ := eats_blanks.mp h₄
  obtain ⟨-, rfl⟩ := eats_name.mp h₅
  exact ⟨w, table, htext, hgroups⟩

theorem getLast?_suffix {u v : List Char} {c : Char} (h : v.getLast? = some c) :
    (u ++ v).getLast? = some c := by
  rw [List.getLast?_append, h]
  rfl

/-- What a DELETE makes of the text behind its table name. -/
theorem delete_cases (h : tx.Lawful) {sql : List Char} {table : String}
    {clause : Option WhereClause} (hp : parse tx sql = .ok (.change (.delete table clause))) :
    ((¬ ∃ b k b' text, WhereText (behindTable tx sql) b k b' text) ∧ clause = none) ∨
      ∃ b k b' text wc, WhereText (behindTable tx sql) b k b' text ∧ clause = some wc ∧
        parseWhereClause tx (text.takeWhile dot) = .ok wc := by
  obtain ⟨-, hdelete⟩ := parse_oks hp
  change parseDelete tx (trim isWhite sql) = _ at hdelete
  rw [parseDelete] at hdelete
  cases hm : tx.captures (deleteRe tx) (trim isWhite sql) with
  | none =>
      rw [hm] at hdelete
      cases hdelete
  | some m =>
      rw [hm] at hdelete
      rw [h.captures_eq] at hm
      obtain ⟨c, d, hhead, hexec, hmeq⟩ := deleteRe_search hm
      have hbehind : behindTable tx sql = c.rest := by rw [behindTable, hhead]
      obtain ⟨w, name', htext, hgroups⟩ := deleteHead_search hhead
      have hlast : ∀ a, c.rest.getLast? = some a → isWhite a = false := by
        intro a ha
        refine @trim_last isWhite sql a ?_
        rw [htext]
        exact getLast?_suffix (getLast?_suffix ha)
      obtain ⟨t, -, htail⟩ := bind_oks.mp hdelete
      obtain ⟨clause', hclause, heq⟩ := bind_oks.mp htail
      obtain rfl : clause' = clause := by
        cases heq
        rfl
      rw [hbehind]
      by_cases hwhere : ∃ b k b' text, WhereText c.rest b k b' text
      · obtain ⟨b, k, b', text, hwhere⟩ := hwhere
        refine Or.inr ⟨b, k, b', text, ?_⟩
        rw [exec_whereTail hwhere] at hexec
        obtain rfl := Option.some.inj hexec
        have hgroup : m.group 2 = some (text.takeWhile dot) := by
          rw [hmeq]
          rfl
        rw [parseTail, hgroup] at hclause
        obtain ⟨wc, hwc, heq⟩ := bind_oks.mp hclause
        exact ⟨wc, hwhere, (Except.ok.inj heq).symm, hwc⟩
      · refine Or.inl ⟨hwhere, ?_⟩
        rw [exec_whereTail_none hlast hwhere] at hexec
        obtain rfl := Option.some.inj hexec
        have hgroup : m.group 2 = none := by
          rw [hmeq, Regex.Match.group, hgroups]
          rfl
        rw [parseTail, hgroup] at hclause
        exact (Except.ok.inj hclause).symm

/-! ## Pieces that are conditions -/

theorem StartsCondition.ne_nil {p : List Char} (h : StartsCondition tx p) : p ≠ [] := by
  obtain ⟨column, b, op, b', value, rfl, hcolumn, -⟩ := h
  exact List.append_ne_nil_of_left_ne_nil hcolumn.1 _

theorem StartsCondition.append {p : List Char} (h : StartsCondition tx p) (more : List Char) :
    StartsCondition tx (p ++ more) := by
  obtain ⟨column, b, op, b', value, rfl, hcolumn, hb, hop, hb', hvalue⟩ := h
  refine ⟨column, b, op, b', value ++ more, ?_, hcolumn, hb, hop, hb',
    List.append_ne_nil_of_left_ne_nil hvalue _⟩
  simp only [List.append_assoc]

/-- A condition at the start of a line is matched there, and to its end. -/
theorem StartsCondition.search {p : List Char} (h : StartsCondition tx p) (hline : '\n' ∉ p) :
    ∃ m, (conditionRe tx).search p = some m ∧ m.before = [] ∧ m.after = [] := by
  obtain ⟨column, b, op, b', value, rfl, hcolumn, hb, hop, hb', hvalue⟩ := h
  simp only [List.mem_append, not_or] at hline
  have heats : (conditionRe tx).Eats (column ++ (b ++ (op ++ (b' ++ (value ++ [])))))
      (([] ++ [(3, value)] ++ [] ++ [(2, op)] ++ []) ++ [(1, column)]) := by
    refine ⟨_, _, _, _, eats_name.mpr ⟨hcolumn, rfl⟩, ⟨_, _, _, _, ⟨hb, rfl⟩, ⟨_, _, _, _,
      ⟨_, eats_operator.mpr ⟨hop, rfl⟩, rfl⟩, ⟨_, _, _, _, ⟨hb', rfl⟩, ⟨_, _, _, _,
        eats_dots.mpr ⟨⟨hvalue, hline.2.2.2.2⟩, rfl⟩, ⟨rfl, rfl⟩, rfl, rfl⟩, rfl, rfl⟩, rfl, rfl⟩,
          rfl, rfl⟩, rfl, rfl⟩
  rw [List.append_nil] at heats
  obtain ⟨d, hd⟩ := heats.runs rfl (c := ⟨true, column ++ (b ++ (op ++ (b' ++ value))), []⟩)
    (List.append_nil _).symm
  obtain ⟨e, he⟩ := Option.isSome_iff_exists.mp
    (Regex.exec_isSome.mpr ⟨_, hd, rfl⟩ : (Regex.exec (conditionRe tx) some _).isSome = true)
  have hsearch := Regex.search_of_start he
  refine ⟨_, hsearch, rfl, ?_⟩
  obtain ⟨w, -, htext⟩ := Regex.search_eats hsearch
  cases hafter : e.rest with
  | nil => rfl
  | cons a after =>
      obtain rfl : a = '\n' := conditionRe_after hsearch a (by rw [hafter]; rfl)
      have hmem : '\n' ∈ column ++ (b ++ (op ++ (b' ++ value))) := by
        rw [htext, hafter]
        simp
      simp only [List.mem_append] at hmem
      exact absurd hmem (by simp only [not_or]; exact hline)

theorem Says.starts {part : List Char} {c : Condition} (h : Says tx part c) :
    StartsCondition tx (trim isWhite part) := by
  obtain ⟨-, m, hm, hbefore, hafter⟩ := h
  obtain ⟨column, op, value, hparts⟩ := conditionRe_parts hm
  obtain ⟨b, b', hb, hb', htext⟩ := hparts.text
  refine ⟨column, b, op, b', value, ?_, hparts.column_name, hb, hparts.op_mem, hb',
    hparts.value_line.1⟩
  rw [htext, hbefore, hafter]
  simp only [List.append_assoc, List.append_nil, List.nil_append]

theorem Says.of_trim {part part' : List Char} {c : Condition} (h : Says tx part c)
    (heq : trim isWhite part' = trim isWhite part) : Says tx part' c := by
  rw [Says, parseCondition_trim, heq, ← parseCondition_trim]
  exact h

/-- A piece in a line that starts a condition is read as a whole. -/
theorem says_of_starts {part : List Char} {c : Condition} (hc : parseCondition tx part = .ok c)
    (h : StartsCondition tx (trim isWhite part)) (hline : '\n' ∉ part) : Says tx part c := by
  refine ⟨hc, h.search fun hmem => hline ?_⟩
  obtain ⟨u, v, heq, -⟩ := trim_decompose isWhite part
  rw [heq]
  simp [hmem]

/-! ## A condition is not read across a line -/

/-- The letters that are no white space. -/
def letters (s : List Char) : Nat := s.countP fun c => !isWhite c

theorem letters_append (u v : List Char) : letters (u ++ v) = letters u + letters v :=
  List.countP_append

theorem letters_white {s : List Char} (h : ∀ c ∈ s, isWhite c = true) : letters s = 0 :=
  List.countP_eq_zero.mpr fun c hc => by rw [h c hc]; exact Bool.false_ne_true

theorem letters_solid {s : List Char} (h : ∀ c ∈ s, isWhite c = false) :
    letters s = s.length :=
  List.countP_eq_length.mpr fun c hc => by rw [h c hc]; rfl

theorem letters_pos {s : List Char} {c : Char} (hc : c ∈ s) (hs : isWhite c = false) :
    0 < letters s := List.countP_pos_iff.mpr ⟨c, hc, by rw [hs]; rfl⟩

theorem letters_trim (s : List Char) : letters (trim isWhite s) = letters s := by
  obtain ⟨u, v, heq, hu, hv⟩ := trim_decompose isWhite s
  conv_rhs => rw [heq]
  rw [letters_append, letters_append, letters_white hu, letters_white hv, Nat.zero_add,
    Nat.add_zero]

/-- What a piece in one line says it does not say with another line behind it: the name and
the operator would be all of the first line, and nothing of it would be left for a literal. -/
theorem condition_cut (h : tx.Lawful) {p y : List Char} {c : Condition}
    (hp : parseCondition tx p = .ok c)
    (hy : ∃ a ∈ y, isWhite a = false) : ¬ Says tx (p ++ '\n' :: y) c := by
  rintro ⟨hpy, m₂, hm₂, hbefore, hafter⟩
  obtain ⟨m₁, column, op, value, hm₁, hparts, hcolumn, hop, -⟩ := parseCondition_oks h hp
  obtain ⟨m, column₂, op₂, value₂, hm, hparts₂, hcolumn₂, hop₂, -⟩ := parseCondition_oks h hpy
  obtain rfl := Option.some.inj (hm.symm.trans hm₂)
  obtain rfl : column = column₂ := String.ofList_injective (hcolumn.symm.trans hcolumn₂)
  have hlen := operator_length hparts.op_mem hparts₂.op_mem (hop.trans hop₂.symm)
  obtain ⟨b₁, b₁', -, -, htext₁⟩ := hparts.text
  obtain ⟨b₂, b₂', hb₂, hb₂', htext₂⟩ := hparts₂.text
  obtain ⟨u, v, hdecompose, hu, hv⟩ := trim_decompose isWhite (p ++ '\n' :: y)
  rw [htext₂, hbefore, hafter] at hdecompose
  simp only [List.append_nil, List.nil_append, List.append_assoc] at hdecompose
  -- the line feed is behind the name and the operator, and not in the literal
  have hfirst : letters p ≤ letters (u ++ (column ++ (b₂ ++ (op₂ ++ b₂')))) := by
    have hsplit : p ++ '\n' :: y =
        (u ++ (column ++ (b₂ ++ (op₂ ++ b₂')))) ++ (value₂ ++ v) := by
      rw [hdecompose]
      simp only [List.append_assoc]
    have hwhite : ∀ x, x ++ '\n' :: y ≠ v := by
      rintro x hx
      obtain ⟨a, ha, hnot⟩ := hy
      have hwhite := hv a (by rw [← hx]; exact List.mem_append_right _ (List.mem_cons_of_mem _ ha))
      rw [hnot] at hwhite
      cases hwhite
    rcases List.append_eq_append_iff.mp hsplit with ⟨x, hx, -⟩ | ⟨x, -, hx⟩
    · rw [hx, letters_append]
      exact Nat.le_add_right _ _
    · rcases List.append_eq_append_iff.mp hx with ⟨z, -, hz⟩ | ⟨z, hz, hz'⟩
      · exact absurd hz.symm (hwhite z)
      · cases z with
        | nil => exact absurd hz' (hwhite [])
        | cons a z =>
            obtain rfl := (List.cons.inj hz').1
            exact absurd (by rw [hz]; simp) hparts₂.value_line.2
  have hlast : 0 < letters (value ++ m₁.after) := by
    have hne : value ++ m₁.after ≠ [] := List.append_ne_nil_of_left_ne_nil hparts.value_line.1 _
    refine letters_pos (List.getLast_mem hne) (trim_last (s := p) ?_)
    rw [htext₁, List.append_assoc _ value]
    exact getLast?_suffix (getLast?_suffix (List.getLast?_eq_some_getLast hne))
  have hcount₁ : letters p = letters m₁.before + (column.length + letters b₁ + op.length +
      letters b₁' + letters (value ++ m₁.after)) := by
    rw [← letters_trim, htext₁, List.append_assoc _ value]
    simp only [letters_append]
    rw [letters_solid (hparts.column_name.not_white h), letters_solid (operator_solid hparts.op_mem)]
  simp only [letters_append, letters_white hu, letters_white hb₂, letters_white hb₂',
    letters_solid (hparts.column_name.not_white h),
    letters_solid (operator_solid hparts₂.op_mem)] at hfirst
  omega

/-! ## All of the clause -/

theorem forall₂_left {α β : Type} {R : α → β → Prop} {P : α → Prop} {l : List α} {u : List β}
    (h : List.Forall₂ R l u) (hR : ∀ a b, R a b → P a) : ∀ a ∈ l, P a := by
  induction h with
  | nil => simp
  | cons hab _ ih =>
      rw [List.forall_mem_cons]
      exact ⟨hR _ _ hab, ih⟩

theorem forall₂_concat {α β : Type} {R : α → β → Prop} {l : List α} {a : α} {u : List β}
    (h : List.Forall₂ R (l ++ [a]) u) : ∃ v b, u = v ++ [b] ∧ List.Forall₂ R l v ∧ R a b := by
  induction l generalizing u with
  | nil =>
      obtain ⟨b, v, hb, hv, rfl⟩ := List.forall₂_cons_left_iff.mp h
      obtain rfl := List.forall₂_nil_left_iff.mp hv
      exact ⟨[], b, rfl, .nil, hb⟩
  | cons x l ih =>
      obtain ⟨y, w, hxy, hw, rfl⟩ := List.forall₂_cons_left_iff.mp h
      obtain ⟨v, b, rfl, hv, hb⟩ := ih hw
      exact ⟨y :: v, b, rfl, .cons hxy hv, hb⟩

theorem takeWhile_dot {l more : List Char} (hl : '\n' ∉ l)
    (hmore : ∀ c, more.head? = some c → c = '\n') : (l ++ more).takeWhile dot = l := by
  rw [List.takeWhile_append_of_pos (LikeRegex.dot_iff.mpr hl)]
  cases more with
  | nil => rw [List.takeWhile_nil, List.append_nil]
  | cons c more =>
      obtain rfl := hmore c rfl
      rw [List.takeWhile_cons_of_neg (by simp [dot]), List.append_nil]

/-- The letters of a piece are of the text. -/
theorem mem_of_mem_pieces {s p : List Char} (hp : p ∈ pieces s) {c : Char} (hc : c ∈ p) : c ∈ s := by
  obtain ⟨q, qs, hqs⟩ := pieceLoop_cons 0 [] none s
  obtain ⟨hq, hmem⟩ := pieceLoop_mem 0 [] none s hqs
  rw [pieces, hqs] at hp
  rcases List.mem_cons.mp hp with rfl | hp
  · exact (hq c hc).resolve_left List.not_mem_nil
  · exact hmem p hp c hc

variable {b k b' text rest : List Char} {wc : WhereClause}

/-- A clause in one line is kept. -/
theorem says_line {l w : List Char} (hwc : parseWhereClause tx l = .ok wc) (hl : '\n' ∉ l)
    (hw : ∀ c ∈ w, isWhite c = true)
    (hall : ∀ p ∈ pieces (l ++ w), StartsCondition tx (trim isWhite p)) :
    List.Forall₂ (Says tx) (pieces (l ++ w)) wc.conditions := by
  obtain ⟨ps, p, hpieces, hsplit⟩ := splitOnAnd_eq l
  obtain ⟨q, qs, hmore, hone, hmem⟩ := @pieceLoop_append _ _ _ w _ _ _ (Nat.zero_le _) hpieces
  change pieces (l ++ w) = _ at hmore
  -- a piece behind an AND at the end of the line would be blank
  obtain rfl : qs = [] := by
    rcases List.eq_nil_or_concat qs with rfl | ⟨qs', r, rfl⟩
    · rfl
    · have hr := hall r (by rw [hmore]; simp)
      have hblank : trim isWhite r = [] :=
        trim_eq_nil.mpr fun c hc => hw c (hmem r (by simp) c hc)
      exact absurd hblank hr.ne_nil
  obtain rfl := hone rfl
  have htrim : trim isWhite (p ++ w) = trim isWhite p := by
    have hnil : ∀ c ∈ ([] : List Char), isWhite c = true := by simp
    exact trim_append (s := p) hnil hw
  have hp := hall (p ++ w) (by rw [hmore]; simp)
  rw [htrim] at hp
  rw [if_neg hp.ne_nil, ← hpieces] at hsplit
  obtain ⟨-, hforall⟩ := parseWhereClause_oks.mp hwc
  rw [hsplit, hpieces] at hforall
  obtain ⟨cs, c, hcs, hps, hc⟩ := forall₂_concat hforall
  have hline : ∀ r ∈ ps ++ [p], '\n' ∉ r := by
    intro r hr hnl
    exact hl (mem_of_mem_pieces (by rw [hpieces]; exact hr) hnl)
  rw [hmore, hcs]
  refine List.rel_append ?_ (.cons ?_ .nil)
  · have hstart : ∀ r ∈ ps, StartsCondition tx (trim isWhite r) ∧ '\n' ∉ r := by
      intro r hr
      exact ⟨hall r (by rw [hmore]; simp [hr]), hline r (List.mem_append_left _ hr)⟩
    exact ((List.forall₂_and_left _ _).mpr ⟨hstart, hps⟩).imp fun r c hrc =>
      says_of_starts hrc.2 hrc.1.1 hrc.1.2
  · exact (says_of_starts hc hp (hline p (by simp))).of_trim htrim

/-- A clause that is kept is in one line. -/
theorem blank_of_says (h : tx.Lawful) {l y : List Char}
    (hwc : parseWhereClause tx l = .ok wc)
    (hsaid : List.Forall₂ (Says tx) (pieces (l ++ '\n' :: y)) wc.conditions) :
    ∀ c ∈ y, isWhite c = true := by
  by_contra hnot
  have hy : ∃ a ∈ y, isWhite a = false := by simpa using hnot
  obtain ⟨-, hforall⟩ := parseWhereClause_oks.mp hwc
  obtain ⟨ps, p, hpieces, hsplit⟩ := splitOnAnd_eq l
  obtain ⟨q, qs, hmore, hone, -⟩ := @pieceLoop_append _ _ _ ('\n' :: y) _ _ _ (Nat.zero_le _) hpieces
  change pieces (l ++ '\n' :: y) = _ at hmore
  have hlen := hsaid.length_eq
  have hlen' := hforall.length_eq
  rw [hmore, List.length_append, List.length_cons] at hlen
  rw [hsplit] at hlen' hforall
  split at hlen'
  · omega
  · rename_i hblank
    rw [if_neg hblank] at hforall
    rw [List.length_append, List.length_singleton] at hlen'
    obtain rfl : qs = [] := List.length_eq_zero_iff.mp (by omega)
    rw [hmore, hone rfl] at hsaid
    obtain ⟨cs, c, hcs, -, hc⟩ := forall₂_concat hforall
    obtain ⟨cs', c', hcs', -, hc'⟩ := forall₂_concat hsaid
    obtain ⟨-, heq⟩ := List.append_inj' (hcs.symm.trans hcs') rfl
    obtain rfl := (List.cons.inj heq).1
    exact condition_cut h hc hy hc'

theorem trim_semicolon {p : List Char} (hp : StartsCondition tx (trim isWhite p)) :
    StartsCondition tx (trim isWhite (p ++ [';'])) := by
  obtain ⟨u, v, heq, hu, -⟩ := trim_decompose isWhite p
  have htrim : trim isWhite (p ++ [';']) = trim isWhite p ++ (v ++ [';']) := by
    have hsplit : p ++ [';'] = u ++ (trim isWhite p ++ (v ++ [';'])) ++ [] := by
      conv_lhs => rw [heq]
      simp only [List.append_assoc, List.append_nil]
    rw [hsplit, trim_append hu (by simp)]
    refine trim_of_ends (fun c hc => ?_) fun c hc => ?_
    · rw [List.head?_append_of_ne_nil _ hp.ne_nil] at hc
      exact trim_head hc
    · rw [getLast?_suffix (getLast?_suffix (List.getLast?_singleton))] at hc
      rw [← Option.some.inj hc]
      rfl
  rw [htrim]
  exact hp.append _

/-- A clause that is kept is in one line, apart from a semicolon. -/
theorem oneLine_of_keeps (h : tx.Lawful) (htext : WhereText rest b k b' text)
    (hwc : parseWhereClause tx (text.takeWhile dot) = .ok wc) (hkeeps : Keeps tx rest (some wc)) :
    OneLine tx rest := by
  obtain ⟨b₂, k₂, b₂', body, tail, hwhere, htail, hsaid⟩ := hkeeps
  obtain rfl := htext.unique hwhere
  have hstarts := forall₂_left hsaid fun _ _ hs => hs.starts
  refine Or.inr (Or.inr ?_)
  by_cases hnl : '\n' ∈ body
  · obtain ⟨l, y, rfl, hl⟩ := List.eq_append_cons_of_mem hnl
    have hline : (l ++ '\n' :: y ++ tail).takeWhile dot = l := by
      rw [List.append_assoc]
      exact takeWhile_dot hl fun c hc => (Option.some.inj hc).symm
    rw [hline] at hwc
    refine ⟨b₂, k₂, b₂', l, '\n' :: y, tail, by rw [← List.append_assoc]; exact hwhere, hl, ?_,
      Or.inr ⟨rfl, htail⟩, hstarts⟩
    rw [List.forall_mem_cons]
    exact ⟨rfl, blank_of_says h hwc hsaid⟩
  · rcases htail with rfl | rfl
    · exact ⟨b₂, k₂, b₂', body, [], [], hwhere, hnl, by simp, Or.inl ⟨rfl, rfl⟩,
        by rwa [List.append_nil]⟩
    · refine ⟨b₂, k₂, b₂', body ++ [';'], [], [], ?_, by simpa using hnl, by simp,
        Or.inl ⟨rfl, rfl⟩, ?_⟩
      · rw [List.append_nil, List.append_nil]
        exact hwhere
      obtain ⟨ps, p, hpieces, -⟩ := splitOnAnd_eq body
      have hsemi := pieceLoop_semicolon (Nat.zero_le _) hpieces
      change pieces (body ++ [';']) = _ at hsemi
      rw [List.append_nil, hsemi]
      rw [hpieces] at hstarts
      intro r hr
      rcases List.mem_append.mp hr with hr | hr
      · exact hstarts r (List.mem_append_left _ hr)
      · rw [List.mem_singleton.mp hr]
        exact trim_semicolon (hstarts p (by simp))

/-- A clause in one line is kept. -/
theorem keeps_of_oneLine {clause : Option WhereClause}
    (hcases : ((¬ ∃ b k b' text, WhereText rest b k b' text) ∧ clause = none) ∨
      ∃ b k b' text wc, WhereText rest b k b' text ∧ clause = some wc ∧
        parseWhereClause tx (text.takeWhile dot) = .ok wc) (hline : OneLine tx rest) :
    Keeps tx rest clause := by
  rcases hcases with ⟨hnone, rfl⟩ | ⟨b, k, b', text, wc, hwhere, rfl, hwc⟩
  · rcases hline with hnil | hsemi | ⟨b, k, b', l, w, tail, hwhere, -⟩
    · exact Or.inl hnil
    · exact Or.inr hsemi
    · exact absurd ⟨b, k, b', _, hwhere⟩ hnone
  · have hlong : 1 < letters rest := by
      rw [hwhere.rest_eq, letters_append, letters_append,
        letters_solid hwhere.where_word.where_not_white, ← hwhere.where_word.length_eq]
      have hfive : "WHERE".toList.length = 5 := rfl
      omega
    rcases hline with hnil | hsemi | ⟨b₂, k₂, b₂', l, w, tail, hwhere₂, hl, hw, htail, hall⟩
    · rw [← letters_trim, hnil] at hlong
      exact absurd hlong (by decide)
    · rw [← letters_trim, hsemi] at hlong
      exact absurd hlong (by decide)
    · obtain rfl := hwhere.unique hwhere₂
      have htake : (l ++ (w ++ tail)).takeWhile dot = l := by
        refine takeWhile_dot hl fun c hc => ?_
        rcases htail with ⟨rfl, rfl⟩ | ⟨hhead, -⟩
        · cases hc
        · rw [List.head?_append, hhead] at hc
          exact (Option.some.inj hc).symm
      rw [htake] at hwc
      refine ⟨b₂, k₂, b₂', l ++ w, tail, by rw [List.append_assoc]; exact hwhere₂, ?_,
        says_line hwc hl hw hall⟩
      exact htail.elim (fun ht => Or.inl ht.2) And.right

end Parser

/-- A DELETE keeps all that stands behind its table name exactly if that is a WHERE clause in
one line. -/
theorem delete_keeps_iff {tx : TextFns} (h : tx.Lawful) {sql : List Char} {table : String}
    {clause : Option WhereClause}
    (hp : Parser.parse tx sql = .ok (.change (.delete table clause))) :
    Parser.Keeps tx (Parser.behindTable tx sql) clause ↔
      Parser.OneLine tx (Parser.behindTable tx sql) := by
  have hcases := Parser.delete_cases h hp
  refine ⟨fun hkeeps => ?_, Parser.keeps_of_oneLine hcases⟩
  rcases hcases with ⟨-, rfl⟩ | ⟨b, k, b', text, wc, hwhere, rfl, hwc⟩
  · exact hkeeps.imp_right Or.inl
  · exact Parser.oneLine_of_keeps h hwhere hwc hkeeps

theorem delete_keeps_iff_all : Parser.Keeps .basic (Parser.behindTable .basic
      "DELETE FROM t".toList) none ↔
    Parser.OneLine .basic (Parser.behindTable .basic "DELETE FROM t".toList) :=
  @delete_keeps_iff .basic TextFns.basic_lawful _ "t" none rfl

/-- A misspelt WHERE deletes every row. -/
theorem not_delete_keeps : ¬ ∀ tx : TextFns, tx.Lawful → ∀ sql table clause,
    Parser.parse tx sql = .ok (.change (.delete table clause)) →
      Parser.Keeps tx (Parser.behindTable tx sql) clause := by
  intro h
  have hparse : Parser.parse .basic "DELETE FROM t WHRE id = 1".toList =
      .ok (.change (.delete "t" none)) := rfl
  have hkeeps := h .basic TextFns.basic_lawful _ _ _ hparse
  have htrim : trim isWhite (Parser.behindTable .basic "DELETE FROM t WHRE id = 1".toList) =
      "WHRE id = 1".toList := by with_unfolding_all decide
  rw [Parser.Keeps, htrim] at hkeeps
  exact absurd hkeeps (by decide)

end VelociDB
