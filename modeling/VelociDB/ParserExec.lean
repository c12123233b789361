/-
# Which match the parser's expressions take (`parser.rs`)

Blanks, words and names are taken whole where the next part starts with another letter, and
`(.+)` at the end of an expression takes the rest of the line.
-/
import VelociDB.ParserFaults

namespace VelociDB

namespace Parser

open Text
open LikeRegex (dot)

variable {tx : TextFns}

/-! ## Classes of letters -/

theorem toLower_of_isWhite {x : Char} (h : isWhite x = true) : x.toLower = x := by
  have hnat := of_decide_eq_true h
  rw [Char.toLower, dif_neg]
  rintro ⟨hlo, hhi⟩
  have hlo' : 65 ≤ x.toNat := hlo
  have hhi' : x.toNat ≤ 90 := hhi
  omega

/-- What a keyword letter matches is no white space. -/
theorem foldsTo_white {c x : Char} (h : foldsTo c x = true) (hc : isWhite c.toLower = false) :
    isWhite x = false := by
  rw [foldsTo, Bool.or_eq_true, Bool.or_eq_true, Bool.and_eq_true, Bool.and_eq_true] at h
  rcases h with (h | ⟨-, h⟩) | ⟨-, h⟩
  · by_contra hx
    rw [Bool.not_eq_false] at hx
    rw [beq_iff_eq, toLower_of_isWhite hx] at h
    rw [h, hc] at hx
    cases hx
  · rw [beq_iff_eq.mp h]
    rfl
  · rw [beq_iff_eq.mp h]
    rfl

theorem Folds.not_white {k : String} {w : List Char} (h : Folds k w)
    (hk : (k.toList.all fun c => !isWhite c.toLower) = true) : ∀ x ∈ w, isWhite x = false := by
  intro x hx
  obtain ⟨i, hi, rfl⟩ := List.getElem_of_mem hx
  have hlen := h.length_eq
  have hmem := List.all_eq_true.mp hk _ (List.get_mem _ ⟨i, by omega⟩)
  exact foldsTo_white (h.get (by omega) hi) (by simpa using hmem)

theorem Name.not_white (h : tx.Lawful) {w : List Char} (hw : Name tx w) :
    ∀ x ∈ w, isWhite x = false := fun x hx => h.word_white x (hw.2 x hx)

theorem not_white_head {s : List Char} (h : ∀ x ∈ s, isWhite x = false) {c : Char}
    (hc : s.head? = some c) : isWhite c = false := h c (List.mem_of_mem_head? hc)

theorem dot_of_not_white {c : Char} (h : isWhite c = false) : dot c = true := by
  rw [dot, bne_iff_ne]
  rintro rfl
  cases h

/-! ## Parts -/

section

variable {β : Type} {k : Regex.Cursor Char → Option β} {c : Regex.Cursor Char}
  {w rest : List Char} {x : β}

theorem exec_blanks (heq : c.rest = w ++ rest) (hw : Blanks w)
    (hrest : ∀ a, rest.head? = some a → isWhite a = false)
    (h : k ⟨false, rest, c.groups⟩ = some x) : blanks.exec k c = some x :=
  Regex.exec_some1_max heq hw.1 hw.2 hrest h

theorem exec_word {word' : String} (heq : c.rest = w ++ rest) (hw : Folds word' w) (hne : w ≠ [])
    (h : k ⟨false, rest, c.groups⟩ = some x) : (word word').exec k c = some x := by
  refine Regex.exec_ones hw heq ?_
  rw [List.isEmpty_eq_false_iff.mpr hne, Bool.and_false]
  exact h

theorem exec_name {n : Nat} (heq : c.rest = w ++ rest) (hw : Name tx w)
    (hrest : ∀ a, rest.head? = some a → tx.isWord a = false)
    (h : k ⟨false, rest, (n, w) :: c.groups⟩ = some x) : (name tx n).exec k c = some x :=
  Regex.exec_group_max heq hw.1 hw.2 hrest h

/-- `(.+)` takes the rest of the line. -/
theorem exec_line {n : Nat} (hne : c.rest.takeWhile dot ≠ [])
    (h : k ⟨false, c.rest.dropWhile dot, (n, c.rest.takeWhile dot) :: c.groups⟩ = some x) :
    (line n).exec k c = some x := by
  refine Regex.exec_group_max List.takeWhile_append_dropWhile.symm hne
    (fun a ha => List.mem_takeWhile_imp ha) ?_ h
  intro a ha
  have hnot := List.head?_dropWhile_not dot c.rest
  rw [ha] at hnot
  simpa using hnot

end

theorem line_some {n : Nat} {c d : Regex.Cursor Char} (h : (line n).exec some c = some d) :
    d = ⟨false, c.rest.dropWhile dot, (n, c.rest.takeWhile dot) :: c.groups⟩ := by
  obtain ⟨e, he, -⟩ := Regex.exec_some h
  obtain ⟨w, gs, hw, hrest, -⟩ := he.eats
  obtain ⟨⟨hne, hline⟩, -⟩ := eats_dots.mp hw
  have htake : c.rest.takeWhile dot ≠ [] := by
    rw [hrest, List.takeWhile_append_of_pos (LikeRegex.dot_iff.mpr hline)]
    exact List.append_ne_nil_of_left_ne_nil hne _
  exact Option.some.inj (h.symm.trans (exec_line htake rfl))

/-- The literal of a condition goes to the end of the line. -/
theorem conditionRe_after {part : List Char} {m : Regex.Match Char}
    (hm : (conditionRe tx).search part = some m) : ∀ c, m.after.head? = some c → c = '\n' := by
  obtain ⟨rest, d, -, hexec, hm'⟩ := Regex.search_exec hm
  have happend := Regex.exec_seqs_append [name tx 1, blanks0,
    .group 2 (Regex.alts (operatorTexts.map fun op => Regex.seqs (op.toList.map letter))), blanks0]
    [line 3] some ⟨m.before.isEmpty, rest, []⟩
  obtain ⟨e, -, he⟩ := Regex.exec_some (happend.symm.trans hexec)
  have hd := line_some he
  intro c hc
  rw [hm', hd] at hc
  have hnot := List.head?_dropWhile_not dot e.rest
  rw [show e.rest.dropWhile dot = _ from rfl, hc] at hnot
  simpa [dot] using hnot

/-! ## Conditions -/

/-- Texts of one operator are equally long. -/
theorem operator_length {op op' : List Char} (hop : op ∈ operatorTexts.map String.toList)
    (hop' : op' ∈ operatorTexts.map String.toList) (h : operatorFromStr op = operatorFromStr op') :
    op.length = op'.length := by
  have hall : ((operatorTexts.map String.toList).all fun op =>
      (operatorTexts.map String.toList).all fun op' =>
        decide ((operatorFromStr op).toOption = (operatorFromStr op').toOption →
          op.length = op'.length)) = true := rfl
  exact of_decide_eq_true (List.all_eq_true.mp (List.all_eq_true.mp hall op hop) op' hop')
    (congrArg Except.toOption h)

theorem operator_solid {op : List Char} (hop : op ∈ operatorTexts.map String.toList) :
    ∀ c ∈ op, isWhite c = false := by
  have hall : ((operatorTexts.map String.toList).all fun op => op.all fun c => !isWhite c) = true :=
    rfl
  intro c hc
  simpa using List.all_eq_true.mp (List.all_eq_true.mp hall op hop) c hc

/-- The parts of a condition that was parsed. -/
theorem parseCondition_oks (h : tx.Lawful) {part : List Char} {c : Condition}
    (hc : parseCondition tx part = .ok c) : ∃ m column op value,
      (conditionRe tx).search (trim isWhite part) = some m ∧
      ConditionParts tx (trim isWhite part) m column op value ∧ c.column = String.ofList column ∧
      operatorFromStr op = .ok c.operator ∧ parseValue tx (trim isWhite value) = .ok c.value := by
  cases hm : tx.captures (conditionRe tx) (trim isWhite part) with
  | none =>
      rw [parseCondition, hm] at hc
      cases hc
  | some m =>
      have hsearch := hm
      rw [h.captures_eq] at hsearch
      obtain ⟨column, op, value, hparts⟩ := conditionRe_parts hsearch
      obtain ⟨o, ho, heq⟩ := parseCondition_eq hm hparts
      rw [heq] at hc
      obtain ⟨v, hv, hcv⟩ := bind_oks.mp hc
      obtain rfl := Except.ok.inj hcv
      exact ⟨m, column, op, value, hsearch, hparts, rfl, ho, hv⟩

theorem parseCondition_trim (part : List Char) :
    parseCondition tx part = parseCondition tx (trim isWhite part) := by
  rw [parseCondition, parseCondition, trim_trim]

/-- The conditions of a clause, piece by piece. -/
theorem parseWhereClause_oks {text : List Char} {clause : WhereClause} :
    parseWhereClause tx text = .ok clause ↔ clause.conditions ≠ [] ∧
      List.Forall₂ (fun p c => parseCondition tx p = .ok c) (splitOnAnd text)
        clause.conditions := by
  rw [parseWhereClause, bind_oks]
  constructor
  · rintro ⟨conditions, hconditions, h⟩
    split at h
    · cases h
    · rename_i hne
      obtain rfl := Except.ok.inj h
      exact ⟨hne, mapM_oks.mp hconditions⟩
  · rintro ⟨hne, h⟩
    refine ⟨clause.conditions, mapM_oks.mpr h, ?_⟩
    rw [if_neg hne]
    rfl

/-! ## A WHERE clause behind a table name -/

/-- Letters of a class in front of another letter are taken whole. -/
theorem span_unique {p : Char → Bool} {u v u' v' : List Char} (heq : u ++ v = u' ++ v')
    (hu : ∀ c ∈ u, p c = true) (hu' : ∀ c ∈ u', p c = true)
    (hv : ∀ c, v.head? = some c → p c = false) (hv' : ∀ c, v'.head? = some c → p c = false) :
    u = u' ∧ v = v' := by
  have htake : ∀ u v : List Char, (∀ c ∈ u, p c = true) →
      (∀ c, v.head? = some c → p c = false) → (u ++ v).takeWhile p = u := by
    intro u v hu hv
    rw [List.takeWhile_append_of_pos hu]
    cases v with
    | nil => rw [List.takeWhile_nil, List.append_nil]
    | cons c v => rw [List.takeWhile_cons_of_neg (by simp [hv c rfl]), List.append_nil]
  obtain rfl : u = u' := by rw [← htake u v hu hv, heq, htake u' v' hu' hv']
  exact ⟨rfl, List.append_cancel_left heq⟩

/-- Blanks, a WHERE, blanks, and a text. -/
structure WhereText (rest b k b' text : List Char) : Prop where
  rest_eq : rest = b ++ (k ++ (b' ++ text))
  before_blanks : Blanks b
  where_word : Folds "WHERE" k
  behind_blanks : Blanks b'
  nonempty : text ≠ []
  head : ∀ c, text.head? = some c → isWhite c = false

variable {rest b k b' text : List Char}

theorem Folds.where_not_white {w : List Char} (h : Folds "WHERE" w) : ∀ x ∈ w, isWhite x = false :=
  h.not_white rfl

theorem Folds.ne_nil {word' : String} {w : List Char} (h : Folds word' w)
    (hne : word'.toList ≠ []) : w ≠ [] := by
  rintro rfl
  exact hne (List.length_eq_zero_iff.mp h.length_eq)

theorem WhereText.word_head (h : WhereText rest b k b' text) (t : List Char) :
    ∀ c, (k ++ t).head? = some c → isWhite c = false := by
  intro c hc
  rw [List.head?_append_of_ne_nil _ (h.where_word.ne_nil (by decide))] at hc
  exact not_white_head h.where_word.where_not_white hc

/-- There is one way to read it. -/
theorem WhereText.unique {b₂ k₂ b₂' text₂ : List Char} (h : WhereText rest b k b' text)
    (h₂ : WhereText rest b₂ k₂ b₂' text₂) : text = text₂ := by
  obtain ⟨-, hk⟩ := span_unique (h.rest_eq.symm.trans h₂.rest_eq) h.before_blanks.2
    h₂.before_blanks.2 (h.word_head _) (h₂.word_head _)
  have hlen : k.length = k₂.length := by
    rw [← h.where_word.length_eq, ← h₂.where_word.length_eq]
  obtain ⟨-, hb⟩ := List.append_inj hk hlen
  exact (span_unique hb h.behind_blanks.2 h₂.behind_blanks.2 h.head h₂.head).2

theorem exec_tail_parts {n : Nat} {κ : Regex.Cursor Char → Option (Regex.Cursor Char)}
    {c : Regex.Cursor Char} {x : Regex.Cursor Char} (h : WhereText c.rest b k b' text)
    (hκ : κ ⟨false, text.dropWhile dot, (n, text.takeWhile dot) :: c.groups⟩ = some x) :
    (Regex.seqs [blanks, word "WHERE", blanks, line n]).exec κ c = some x := by
  refine exec_blanks h.rest_eq h.before_blanks (h.word_head _) ?_
  refine exec_word rfl h.where_word (h.where_word.ne_nil (by decide)) ?_
  refine exec_blanks rfl h.behind_blanks h.head (exec_line ?_ hκ)
  obtain ⟨a, t, ht⟩ := List.exists_cons_of_ne_nil h.nonempty
  have ha : dot a = true := dot_of_not_white (h.head a (by rw [ht]; rfl))
  rw [ht, List.takeWhile_cons_of_pos ha]
  exact List.cons_ne_nil _ _

/-- A WHERE clause is matched up to the end of its line. -/
theorem exec_whereTail {n : Nat} {c : Regex.Cursor Char} (h : WhereText c.rest b k b' text) :
    (Regex.seqs [whereTail n]).exec some c =
      some ⟨false, text.dropWhile dot, (n, text.takeWhile dot) :: c.groups⟩ := by
  have htail := @exec_tail_parts b k b' text n (Regex.empty.exec some) c _ h rfl
  rw [Regex.seqs, Regex.exec_seq, whereTail, Regex.opt, Regex.exec, Regex.seqs, htail]
  rfl

/-- What `\s+WHERE\s+(.+)` matches. -/
theorem eats_tail {n : Nat} {w : List Char} {gs : List (Nat × List Char)}
    (h : (Regex.seqs [blanks, word "WHERE", blanks, line n]).Eats w gs) :
    ∃ b k b' l, w = b ++ (k ++ (b' ++ l)) ∧ Blanks b ∧ Folds "WHERE" k ∧ Blanks b' ∧ Line l ∧
      gs = [(n, l)] := by
  simp only [Regex.eats_seqs_cons, Regex.eats_seqs_nil] at h
  obtain ⟨b, w₁, g₁, g₁', hb, ⟨k, w₂, g₂, g₂', hk, ⟨b', w₃, g₃, g₃', hb', ⟨l, w₄, g₄, g₄', hl,
    ⟨rfl, rfl⟩, rfl, rfl⟩, rfl, rfl⟩, rfl, rfl⟩, rfl, rfl⟩ := h
  obtain ⟨hblanks, rfl⟩ := eats_blanks.mp hb
  obtain ⟨hfolds, rfl⟩ := eats_word.mp hk
  obtain ⟨hblanks', rfl⟩ := eats_blanks.mp hb'
  obtain ⟨hline, rfl⟩ := eats_dots.mp hl
  exact ⟨b, k, b', l, by rw [List.append_nil], hblanks, hfolds, hblanks', hline, rfl⟩

/-- The blanks behind the WHERE end where the text starts. -/
theorem whereText_of_parts {t : List Char} (heq : rest = b ++ (k ++ (b' ++ t)))
    (hb : Blanks b) (hk : Folds "WHERE" k) (hb' : Blanks b')
    (hlast : ∀ c, rest.getLast? = some c → isWhite c = false) :
    ∃ b' text, WhereText rest b k b' text := by
  have hspan : b' ++ t =
      (b' ++ t).takeWhile isWhite ++ (b' ++ t).dropWhile isWhite :=
    List.takeWhile_append_dropWhile.symm
  refine ⟨_, (b' ++ t).dropWhile isWhite, by rw [heq, ← hspan], hb, hk, ?_, ?_, ?_⟩
  · refine ⟨?_, fun c hc => List.mem_takeWhile_imp hc⟩
    rw [List.takeWhile_append_of_pos hb'.2]
    exact List.append_ne_nil_of_left_ne_nil hb'.1 _
  · rw [Ne, List.dropWhile_eq_nil_iff]
    intro hall
    have hne : b' ++ t ≠ [] := List.append_ne_nil_of_left_ne_nil hb'.1 _
    have hmem := List.getLast_mem hne
    have hlast' : rest.getLast? = some ((b' ++ t).getLast hne) := by
      rw [heq, List.getLast?_append_of_ne_nil _ (List.append_ne_nil_of_right_ne_nil _ hne),
        List.getLast?_append_of_ne_nil _ hne, List.getLast?_eq_some_getLast hne]
    have hwhite := hall _ hmem
    rw [hlast _ hlast'] at hwhite
    cases hwhite
  · intro c hc
    have hnot := List.head?_dropWhile_not isWhite (b' ++ t)
    rw [hc] at hnot
    simpa using hnot

/-- Without a WHERE clause nothing is matched. -/
theorem exec_whereTail_none {n : Nat} {c : Regex.Cursor Char}
    (hlast : ∀ a, c.rest.getLast? = some a → isWhite a = false)
    (h : ¬ ∃ b k b' text, WhereText c.rest b k b' text) :
    (Regex.seqs [whereTail n]).exec some c = some c := by
  rw [Regex.seqs, Regex.exec_seq, whereTail, Regex.opt, Regex.exec]
  cases htail : (Regex.seqs [blanks, word "WHERE", blanks, line n]).exec
      ((Regex.seqs []).exec some) c with
  | none => rfl
  | some x =>
      obtain ⟨d, hd, -⟩ := Regex.exec_some htail
      obtain ⟨w, gs, hw, hrest, -⟩ := hd.eats
      obtain ⟨b, k, b', l, rfl, hb, hk, hb', -, -⟩ := eats_tail hw
      simp only [List.append_assoc] at hrest
      exact absurd ⟨b, k, whereText_of_parts hrest hb hk hb' hlast⟩ h

/-! ## Statements -/

/-- The kind of a statement. -/
def kindOfStatement : SqlStatement → Kind
  | .change (.createTable _ _) => .createTable
  | .change (.dropTable _) => .dropTable
  | .change (.alterTable _ _) => .alterTable
  | .change (.insert _ _ _) => .insert
  | .change (.update _ _ _) => .update
  | .change (.delete _ _) => .delete
  | .select _ => .select
  | .beginTransaction => .beginTransaction
  | .commitTransaction => .commitTransaction
  | .rollbackTransaction => .rollbackTransaction

/-- Every success of `r` is a statement of kind `kind`. -/
def Makes (kind : Kind) (r : Except Fault SqlStatement) : Prop :=
  ∀ s, r = .ok s → kindOfStatement s = kind

theorem makes_refuse (kind : Kind) (msg : String) : Makes kind (refuse msg) := by
  intro s h
  cases h

theorem Makes.bind {α : Type} {kind : Kind} {r : Except Fault α}
    {f : α → Except Fault SqlStatement} (h : ∀ a, Makes kind (f a)) : Makes kind (r >>= f) := by
  intro s hs
  obtain ⟨a, -, ha⟩ := bind_oks.mp hs
  exact h a s ha

theorem makes_ok {kind : Kind} {s : SqlStatement} (h : kindOfStatement s = kind) :
    Makes kind (.ok s) := by
  intro s' hs
  cases hs
  exact h

/-- A statement is of the kind of its first words. -/
theorem makes_parseKind (sql : List Char) (kind : Kind) : Makes kind (parseKind tx sql kind) := by
  cases kind with
  | createTable =>
      rw [parseKind, parseCreateTable]
      split
      · exact makes_refuse _ _
      · exact .bind fun _ => .bind fun _ => .bind fun _ => makes_ok rfl
  | dropTable =>
      rw [parseKind, parseDropTable]
      split
      · exact makes_refuse _ _
      · exact .bind fun _ => makes_ok rfl
  | alterTable =>
      rw [parseKind, parseAlterTable]
      split
      · exact .bind fun _ => .bind fun _ => makes_ok rfl
      · split
        · exact .bind fun _ => .bind fun _ => .bind fun _ => makes_ok rfl
        · split
          · exact .bind fun _ => .bind fun _ => .bind fun _ => makes_ok rfl
          · split
            · exact .bind fun _ => .bind fun _ => makes_ok rfl
            · exact makes_refuse _ _
  | insert =>
      rw [parseKind, parseInsert]
      split
      · exact makes_refuse _ _
      · exact .bind fun _ => .bind fun _ => .bind fun _ => makes_ok rfl
  | select =>
      rw [parseKind, parseSelect]
      refine .bind fun a => .bind fun b => ?_
      change Makes _ (parseCore tx a.1 b.1 b.2)
      rw [parseCore]
      split
      · exact makes_refuse _ _
      · exact .bind fun _ => .bind fun _ => .bind fun _ => makes_ok rfl
  | update =>
      rw [parseKind, parseUpdate]
      split
      · exact makes_refuse _ _
      · exact .bind fun _ => .bind fun _ => .bind fun _ => .bind fun _ => makes_ok rfl
  | delete =>
      rw [parseKind, parseDelete]
      split
      · exact makes_refuse _ _
      · exact .bind fun _ => .bind fun _ => makes_ok rfl
  | beginTransaction => exact makes_ok rfl
  | commitTransaction => exact makes_ok rfl
  | rollbackTransaction => exact makes_ok rfl

/-- A statement comes out of the function for its kind. -/
theorem parse_oks {sql : List Char} {s : SqlStatement} (h : parse tx sql = .ok s) :
    kindOf (tx.upper (trim isWhite sql)) = some (kindOfStatement s) ∧
      parseKind tx (trim isWhite sql) (kindOfStatement s) = .ok s := by
  rw [parse] at h
  cases hkind : kindOf (tx.upper (trim isWhite sql)) with
  | none =>
      rw [hkind] at h
      cases h
  | some kind =>
      rw [hkind] at h
      obtain rfl := makes_parseKind _ _ s h
      exact ⟨rfl, h⟩

end Parser

end VelociDB
