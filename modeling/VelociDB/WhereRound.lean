/-
# WHERE clauses printed and parsed (`parser.rs`)

`split_on_and` knows no escapes: for it every quote mark opens or closes a string.  So a text
with a quote mark in it can leave the scan inside quotes behind its literal, and the next
condition is read as a part of it, or outside quotes in it, and an AND of the text cuts it.
And `(.+)` stops at a line feed.

    Whole v     no line feed in the text, and no AND where the scan is outside quotes
    Closed v    behind the literal the scan is outside quotes
    Clean cs    all literals are whole, and all but the last are closed
-/
import VelociDB.AndSplit
import VelociDB.ParserPanics
import VelociDB.Printer

namespace VelociDB

open Text
open LikeRegex (dot)

namespace Parser

variable {tx : TextFns}

/-- The text of conditions. -/
def printWhere : List Condition → List Char
  | [] => []
  | [c] => printCondition c
  | c :: d :: cs => printCondition c ++ (" AND ".toList ++ printWhere (d :: cs))

/-- A text has no line feed, and its literal no AND outside the quotes of a scan that knows no
escapes. -/
def Whole : Value → Prop
  | .text t => '\n' ∉ t.toList ∧
      ∀ u v, quoted t.toList = u ++ v → isAnd v = true → quoteAfter none u ≠ none
  | _ => True

/-- Behind the literal a scan that knows no escapes is outside quotes. -/
def Closed : Value → Prop
  | .text t => quoteAfter none (quoted t.toList) = none
  | _ => True

/-- The literals are whole, and all but the last are closed. -/
def Clean : List Condition → Prop
  | [] => True
  | [c] => Whole c.value
  | c :: d :: cs => Whole c.value ∧ Closed c.value ∧ Clean (d :: cs)

/-! ## Where no AND starts -/

theorem isAnd_letters {v : List Char} (h : isAnd v = true) : ∃ b x y z e rest,
    v = b :: x :: y :: z :: e :: rest ∧ isWhite b = true ∧ (x = 'A' ∨ x = 'a') ∧
      (y = 'N' ∨ y = 'n') ∧ (z = 'D' ∨ z = 'd') := by
  unfold isAnd at h
  split at h
  · rename_i b x y z e rest
    simp only [Bool.and_eq_true, Bool.or_eq_true, decide_eq_true_eq] at h
    exact ⟨b, x, y, z, e, rest, rfl, h.1.1.1.1, h.1.1.1.2, h.1.1.2, h.1.2⟩
  · cases h

/-- No AND outside quotes starts in `s`, with `more` behind it. -/
def Quiet (quote : Option Char) (s more : List Char) : Prop :=
  ∀ u v, s = u ++ v → v ≠ [] → isAnd (v ++ more) = true → quoteAfter quote u ≠ none

variable {quote : Option Char} {s s' more : List Char}

theorem Quiet.append (h : Quiet quote s (s' ++ more)) (h' : Quiet (quoteAfter quote s) s' more) :
    Quiet quote (s ++ s') more := by
  intro u v heq hv hand
  rcases List.append_eq_append_iff.mp heq with ⟨x, rfl, hs'⟩ | ⟨x, rfl, rfl⟩
  · rw [quoteAfter_append]
    exact h' x v hs' hv hand
  · cases x with
    | nil =>
        rw [List.append_nil] at h'
        exact h' [] s' rfl hv hand
    | cons a x =>
        rw [List.append_assoc] at hand
        exact h u (a :: x) rfl (List.cons_ne_nil _ _) hand

theorem quiet_solid (hs : ∀ c ∈ s, isWhite c = false) : Quiet quote s more := by
  rintro u v rfl hv hand
  obtain ⟨a, v, rfl⟩ := List.exists_cons_of_ne_nil hv
  obtain ⟨b, x, y, z, e, rest, heq, hb, -⟩ := isAnd_letters hand
  rw [List.cons_append] at heq
  have ha := hs a (by simp)
  rw [(List.cons.inj heq).1, hb] at ha
  cases ha

theorem quiet_blank (hmore : ∀ c, more.head? = some c → c ≠ 'A' ∧ c ≠ 'a') :
    Quiet quote [' '] more := by
  rintro u v heq hv hand
  obtain ⟨rfl, rfl⟩ : u = [] ∧ v = [' '] := by
    cases u with
    | nil => exact ⟨rfl, heq.symm⟩
    | cons a u => exact absurd (List.append_eq_nil_iff.mp (List.cons.inj heq).2.symm).2 hv
  obtain ⟨b, x, y, z, e, rest, heq, -, hx, -⟩ := isAnd_letters hand
  have htail : more = x :: y :: z :: e :: rest := (List.cons.inj heq).2
  exact absurd hx (not_or.mpr (hmore x (by rw [htail]; rfl)))

theorem quoteAfter_plain (hs : ∀ c ∈ s, c ≠ '\'' ∧ c ≠ '"') : quoteAfter none s = none := by
  induction s with
  | nil => rfl
  | cons c s ih =>
      have hc := hs c List.mem_cons_self
      rw [quoteAfter_cons, quoteStep, if_neg (not_or.mpr hc)]
      exact ih fun d hd => hs d (List.mem_cons_of_mem _ hd)

/-- Inside quotes, up to the next quote. -/
theorem quoteAfter_inside {q : Char} (hs : ∀ c ∈ s, c ≠ q) :
    quoteAfter (some q) s = some q := by
  induction s with
  | nil => rfl
  | cons c s ih =>
      rw [quoteAfter_cons, quoteStep, if_neg (hs c List.mem_cons_self)]
      exact ih fun d hd => hs d (List.mem_cons_of_mem _ hd)

theorem quiet_inside {q : Char} (hs : ∀ c ∈ s, c ≠ q) : Quiet (some q) s more := by
  rintro u v rfl - -
  rw [quoteAfter_inside fun c hc => hs c (List.mem_append_left _ hc)]
  exact Option.some_ne_none _

theorem quoteAfter_some {q : Char} (h : quoteAfter none s = some q) : q = '\'' ∨ q = '"' := by
  have hgeneral : ∀ (s : List Char) (quote : Option Char),
      (∀ q, quote = some q → q = '\'' ∨ q = '"') → ∀ q, quoteAfter quote s = some q →
        q = '\'' ∨ q = '"' := by
    intro s
    induction s with
    | nil => exact fun quote hquote => hquote
    | cons c s ih =>
        intro quote hquote
        refine ih _ fun q hq => ?_
        cases quote with
        | some p =>
            rw [quoteStep] at hq
            split at hq
            · cases hq
            · exact hquote q hq
        | none =>
            rw [quoteStep] at hq
            split at hq
            · obtain rfl := Option.some.inj hq
              assumption
            · cases hq
  exact hgeneral s none (fun q hq => by cases hq) q h

/-! ## The text of a condition -/

theorem Name.no_quote (h : tx.Lawful) {w : List Char} (hw : Name tx w) :
    ∀ c ∈ w, c ≠ '\'' ∧ c ≠ '"' := by
  intro c hc
  have hword := hw.2 c hc
  constructor
  · rintro rfl
    rw [h.word_ascii _ rfl] at hword
    cases hword
  · rintro rfl
    rw [h.word_ascii _ rfl] at hword
    cases hword

theorem quoteAfter_head (h : tx.Lawful) {column : String} (o : Operator)
    (hcolumn : Name tx column.toList) : quoteAfter none (conditionHead column o) = none := by
  refine quoteAfter_plain fun c hc => ?_
  rw [conditionHead] at hc
  simp only [List.mem_append, List.mem_cons, List.not_mem_nil, or_false] at hc
  rcases hc with hc | rfl | hc | rfl
  · exact hcolumn.no_quote h c hc
  · decide
  · have hall : (operatorTexts.map String.toList).all (fun op => op.all fun c =>
        c != '\'' && c != '"') = true := rfl
    have hop := List.all_eq_true.mp (List.all_eq_true.mp hall _ (printOperator_mem o)) c hc
    simpa using hop
  · decide

theorem quiet_head (h : tx.Lawful) {column : String} (o : Operator)
    (hcolumn : Name tx column.toList)
    (hmore : ∀ c, more.head? = some c → c ≠ 'A' ∧ c ≠ 'a') :
    Quiet none (conditionHead column o) more := by
  have hoperator : ∀ c, (printOperator o ++ [' '] ++ more).head? = some c → c ≠ 'A' ∧ c ≠ 'a' := by
    intro c hc
    cases o <;> obtain rfl := Option.some.inj hc <;> decide
  refine (quiet_solid (hcolumn.not_white h)).append (.append (s := [' ']) (quiet_blank hoperator) ?_)
  exact (quiet_solid (operator_solid (printOperator_mem o))).append (quiet_blank hmore)

/-- The first letter of a literal. -/
theorem printValue_head {v : Value} (hv : Printed v) :
    ∃ c l, printValue v = c :: l ∧ isWhite c = false ∧ c ≠ 'A' ∧ c ≠ 'a' := by
  cases v with
  | null => exact ⟨_, _, rfl, rfl, by decide, by decide⟩
  | integer i =>
      obtain ⟨c, l, hl⟩ := List.exists_cons_of_ne_nil (printInteger_ne_nil i)
      have hc := digit_or_minus (printInteger_mem i c (by rw [hl]; exact List.mem_cons_self))
      refine ⟨c, l, hl, hc.1, ?_, ?_⟩
      · rintro rfl
        exact hc.2.2.2 (by simp)
      · rintro rfl
        exact hc.2.2.2 (by simp)
  | text t => exact ⟨_, _, rfl, rfl, by decide, by decide⟩
  | blob b => exact ⟨_, _, rfl, rfl, by decide, by decide⟩
  | float _ | real _ | vector _ => exact absurd hv id

theorem mem_blob {b : Bytes} {c : Char} (hc : c ∈ printValue (.blob b)) :
    c = 'X' ∨ c = '\'' ∨ c ∈ hexText b := by
  rcases List.mem_cons.mp hc with hc | hc
  · exact Or.inl hc
  · rcases List.mem_cons.mp hc with hc | hc
    · exact Or.inr (Or.inl hc)
    · exact Or.inr ((List.mem_append.mp hc).symm.imp_left List.mem_singleton.mp)

/-- The literals that are no texts have no white space. -/
theorem printValue_solid {v : Value} (hv : Printed v) (htext : ∀ t, v ≠ .text t) :
    ∀ c ∈ printValue v, isWhite c = false := by
  cases v with
  | null =>
      have hall : ("NULL".toList.all fun c => !isWhite c) = true := rfl
      exact fun c hc => by simpa using List.all_eq_true.mp hall c hc
  | integer i => exact fun c hc => (digit_or_minus (printInteger_mem i c hc)).1
  | text t => exact absurd rfl (htext t)
  | blob b =>
      intro c hc
      rcases mem_blob hc with rfl | rfl | hc
      · rfl
      · rfl
      · exact (hexText_mem hc).2.1
  | float _ | real _ | vector _ => exact absurd hv id

theorem quoteAfter_blob (b : Bytes) : quoteAfter none (printValue (.blob b)) = none := by
  change quoteAfter (some '\'') (hexText b ++ ['\'']) = none
  rw [quoteAfter_append, quoteAfter_inside fun c hc => (hexText_mem hc).2.2.1]
  rfl

theorem Closed.quoteAfter {v : Value} (hv : Printed v) (hclosed : Closed v) :
    quoteAfter none (printValue v) = none := by
  cases v with
  | null => rfl
  | integer i =>
      refine quoteAfter_plain fun c hc => ?_
      have hmem := (digit_or_minus (printInteger_mem i c hc)).2.2.2
      constructor
      · rintro rfl
        exact hmem (by simp)
      · rintro rfl
        exact hmem (by simp)
  | text t => exact hclosed
  | blob b => exact quoteAfter_blob b
  | float _ | real _ | vector _ => exact absurd hv id

/-- In a whole literal no AND starts outside quotes, whatever stands behind it: the quote at its
end is no letter of an AND. -/
theorem Whole.quiet {v : Value} (hv : Printed v) (hwhole : Whole v) (more : List Char) :
    Quiet none (printValue v) more := by
  by_cases htext : ∃ t, v = .text t
  · obtain ⟨t, rfl⟩ := htext
    intro u w heq hw hand
    have hlast : w.getLast? = some '\'' := by
      have hquoted : (u ++ w).getLast? = some '\'' := by
        rw [← heq]
        change ('\'' :: (escape t.toList ++ ['\''])).getLast? = _
        rw [← List.cons_append, List.getLast?_concat]
      rwa [List.getLast?_append_of_ne_nil _ hw] at hquoted
    obtain ⟨b, x, y, z, e, rest, hletters, hb, hx, hy, hz⟩ := isAnd_letters hand
    have hlen : 5 ≤ w.length := by
      rcases w with _ | ⟨a₁, _ | ⟨a₂, _ | ⟨a₃, _ | ⟨a₄, _ | ⟨a₅, w⟩⟩⟩⟩⟩
      · exact absurd rfl hw
      · obtain rfl := Option.some.inj hlast
        rw [← (List.cons.inj hletters).1] at hb
        cases hb
      · obtain rfl := Option.some.inj hlast
        rw [← (List.cons.inj (List.cons.inj hletters).2).1] at hx
        rcases hx with hx | hx <;> cases hx
      · obtain rfl := Option.some.inj hlast
        rw [← (List.cons.inj (List.cons.inj (List.cons.inj hletters).2).2).1] at hy
        rcases hy with hy | hy <;> cases hy
      · obtain rfl := Option.some.inj hlast
        rw [← (List.cons.inj (List.cons.inj (List.cons.inj (List.cons.inj hletters).2).2).2).1] at hz
        rcases hz with hz | hz <;> cases hz
      · simp
    rw [isAnd_append hlen] at hand
    exact hwhole.2 u w heq hand
  · exact quiet_solid (printValue_solid hv fun t ht => htext ⟨t, ht⟩)

/-! ## Clean conditions are read back -/

/-- A column is a name, and the value has a literal. -/
def Printable (tx : TextFns) (c : Condition) : Prop := Name tx c.column.toList ∧ Printed c.value

variable {c : Condition}

/-- Through the text of a condition with a whole literal the scan goes in one piece. -/
theorem pieceLoop_condition (h : tx.Lawful) (hc : Printable tx c)
    (hquiet : Quiet none (printValue c.value) more) :
    pieceLoop 0 [] none (printCondition c ++ more) =
      pieceLoop 0 (printCondition c) (quoteAfter none (printValue c.value)) more := by
  obtain ⟨a, l, hl, -, ha⟩ := printValue_head hc.2
  have hhead : Quiet none (conditionHead c.column c.operator) (printValue c.value ++ more) := by
    refine quiet_head h c.operator hc.1 fun d hd => ?_
    rw [hl] at hd
    obtain rfl := Option.some.inj hd
    exact ha
  have hafter := quoteAfter_head h c.operator hc.1
  have hthrough := @pieceLoop_through [] _ _ _
    (hhead.append (by rw [hafter]; exact hquiet))
  rw [quoteAfter_append, hafter] at hthrough
  exact hthrough

theorem mem_escape {t : List Char} {d : Char} (hd : d ∈ escape t) : d = '\\' ∨ d ∈ t := by
  induction t with
  | nil => exact absurd hd List.not_mem_nil
  | cons x t ih =>
      have hlater : d ∈ escape t → d = '\\' ∨ d ∈ x :: t := fun hd =>
        (ih hd).imp_right (List.mem_cons_of_mem _)
      rw [escape] at hd
      split at hd
      · rcases List.mem_cons.mp hd with hd | hd
        · exact Or.inl hd
        · exact (List.mem_cons.mp hd).elim (fun hd => Or.inr (hd ▸ List.mem_cons_self)) hlater
      · exact (List.mem_cons.mp hd).elim (fun hd => Or.inr (hd ▸ List.mem_cons_self)) hlater

theorem quoted_line {t : List Char} (ht : '\n' ∉ t) : '\n' ∉ quoted t := by
  intro hmem
  rcases List.mem_cons.mp hmem with hmem | hmem
  · cases hmem
  · rcases List.mem_append.mp hmem with hmem | hmem
    · rcases mem_escape hmem with hmem | hmem
      · cases hmem
      · exact ht hmem
    · cases List.mem_singleton.mp hmem

/-- The text of a condition with a whole literal says the condition. -/
theorem parseCondition_print (h : tx.Lawful) (hc : Printable tx c) (hwhole : Whole c.value) :
    parseCondition tx (printCondition c) = .ok c := by
  obtain ⟨a, l, hl, ha, -⟩ := printValue_head hc.2
  have hends : trim isWhite (printValue c.value) = printValue c.value ∧ '\n' ∉ printValue c.value := by
    by_cases htext : ∃ t, c.value = .text t
    · obtain ⟨t, ht⟩ := htext
      rw [ht] at hwhole ⊢
      refine ⟨trim_of_ends (fun d hd => ?_) fun d hd => ?_, quoted_line hwhole.1⟩
      · obtain rfl := Option.some.inj hd
        rfl
      · change ('\'' :: (escape t.toList ++ ['\''])).getLast? = _ at hd
        rw [← List.cons_append, List.getLast?_concat] at hd
        obtain rfl := Option.some.inj hd
        rfl
    · have hsolid := printValue_solid hc.2 fun t ht => htext ⟨t, ht⟩
      exact ⟨trim_solid hsolid, fun hmem => by cases hsolid _ hmem⟩
  have hhead : ∀ d, (printValue c.value).head? = some d → isWhite d = false := by
    intro d hd
    rw [hl] at hd
    obtain rfl := Option.some.inj hd
    exact ha
  have htrimEnd : trimEnd isWhite (printValue c.value) = printValue c.value := by
    have htrim := hends.1
    rwa [trim, trimStart_of_head hhead] at htrim
  have hline : (printValue c.value).takeWhile dot = printValue c.value :=
    List.takeWhile_eq_self_iff.mpr (LikeRegex.dot_iff.mpr hends.2)
  rw [printCondition, parseCondition_head h c.operator hc.1 (by rw [hl]; exact List.cons_ne_nil _ _)
    hhead, htrimEnd, hline, hends.1, parseValue_print h hc.2]
  rfl

theorem pieceLoop_and (current more : List Char) :
    pieceLoop 0 current none (" AND ".toList ++ more) = current :: pieces more := rfl

/-- The pieces of clean conditions. -/
theorem pieces_printWhere (h : tx.Lawful) {c : Condition} {cs : List Condition}
    (hcs : ∀ d ∈ c :: cs, Printable tx d) (hclean : Clean (c :: cs)) :
    pieces (printWhere (c :: cs)) = (c :: cs).map printCondition := by
  induction cs generalizing c with
  | nil =>
      have hc := hcs c List.mem_cons_self
      have hone := @pieceLoop_condition tx [] c h hc (Whole.quiet hc.2 hclean [])
      rw [List.append_nil] at hone
      exact hone
  | cons d cs ih =>
      obtain ⟨hwhole, hclosed, hrest⟩ := hclean
      have hc := hcs c List.mem_cons_self
      rw [pieces, printWhere, pieceLoop_condition h hc (hwhole.quiet hc.2 _),
        hclosed.quoteAfter hc.2, pieceLoop_and, ih (fun e he => hcs e (List.mem_cons_of_mem _ he))
          hrest]
      rfl

theorem trim_printCondition (h : tx.Lawful) (hc : Name tx c.column.toList) (more : List Char) :
    trim isWhite (conditionHead c.column c.operator ++ more) ≠ [] := by
  obtain ⟨a, w, hw⟩ := List.exists_cons_of_ne_nil hc.1
  intro hnil
  have hwhite := trim_eq_nil.mp hnil a (by rw [conditionHead, hw]; simp)
  rw [hc.not_white h a (by rw [hw]; exact List.mem_cons_self)] at hwhite
  cases hwhite

theorem Clean.whole {c : Condition} {cs : List Condition} (hclean : Clean (c :: cs)) :
    ∀ d ∈ c :: cs, Whole d.value := by
  induction cs generalizing c with
  | nil =>
      intro d hd
      rw [List.mem_singleton.mp hd]
      exact hclean
  | cons e cs ih =>
      intro d hd
      rcases List.mem_cons.mp hd with rfl | hd
      · exact hclean.1
      · exact ih hclean.2.2 d hd

/-- Clean conditions are read back. -/
theorem parseWhereClause_print (h : tx.Lawful) {cs : List Condition} (hne : cs ≠ [])
    (hcs : ∀ d ∈ cs, Printable tx d) (hclean : Clean cs) :
    parseWhereClause tx (printWhere cs) = .ok ⟨cs⟩ := by
  obtain ⟨c, cs, rfl⟩ := List.exists_cons_of_ne_nil hne
  obtain ⟨ps, p, hpieces, hsplit⟩ := splitOnAnd_eq (printWhere (c :: cs))
  have hmap := pieces_printWhere h hcs hclean
  have hp : trim isWhite p ≠ [] := by
    obtain ⟨d, hd, rfl⟩ := List.mem_map.mp (by rw [← hmap, hpieces]; simp :
      p ∈ (c :: cs).map printCondition)
    exact trim_printCondition h (hcs d hd).1 _
  rw [if_neg hp, ← hpieces, hmap] at hsplit
  refine parseWhereClause_oks.mpr ⟨hne, ?_⟩
  rw [hsplit, List.forall₂_map_left_iff, List.forall₂_same]
  exact fun d hd => parseCondition_print h (hcs d hd) (hclean.whole d hd)

/-! ## A literal that is cut short, or goes on, is not read back -/

theorem weight_trim_le (s : List Char) : weight (trim isWhite s) ≤ weight s := by
  obtain ⟨u, v, heq, -⟩ := trim_decompose isWhite s
  conv_rhs => rw [heq]
  rw [weight_append, weight_append]
  omega

theorem weight_isAnd {v : List Char} (h : isAnd v = true) : 3 ≤ weight v := by
  obtain ⟨b, x, y, z, e, rest, rfl, -, hx, hy, hz⟩ := isAnd_letters h
  have hx' : x ≠ '\\' := by rcases hx with rfl | rfl <;> decide
  have hy' : y ≠ '\\' := by rcases hy with rfl | rfl <;> decide
  have hz' : z ≠ '\\' := by rcases hz with rfl | rfl <;> decide
  rw [weight_cons, weight_cons, weight_cons, weight_cons, if_neg hx', if_neg hy', if_neg hz']
  omega

/-- A text literal with an AND of its own cut off has too few letters. -/
theorem cut_not_read (h : tx.Lawful) {column : String} {o : Operator} {t : String}
    (hcolumn : Name tx column.toList) (ht : '\n' ∉ t.toList) {u v : List Char}
    (heq : quoted t.toList = u ++ v) (hand : isAnd v = true) :
    parseCondition tx (conditionHead column o ++ u) ≠ .ok ⟨column, o, .text t⟩ := by
  intro hp
  have hu : ∃ u', u = '\'' :: u' := by
    cases u with
    | nil =>
        obtain ⟨b, x, y, z, e, rest, hv, hb, -⟩ := isAnd_letters hand
        rw [hv] at heq
        obtain rfl := (List.cons.inj heq).1
        cases hb
    | cons a u => exact ⟨u, by rw [(List.cons.inj heq).1]⟩
  obtain ⟨u', rfl⟩ := hu
  have hline : '\n' ∉ '\'' :: u' := by
    intro hmem
    exact quoted_line ht (by rw [heq]; exact List.mem_append_left _ hmem)
  rw [parseCondition_head h o hcolumn (List.cons_ne_nil _ _) (fun c hc => by
    rw [← Option.some.inj hc]; rfl)] at hp
  obtain ⟨value, hvalue, hcond⟩ := bind_oks.mp hp
  cases hcond
  have hle := (parseValue_weight h hvalue).1
  rw [trim_trim] at hle
  have htake : weight ((trimEnd isWhite ('\'' :: u')).takeWhile dot) ≤ weight ('\'' :: u') := by
    refine le_trans (weight_prefix_le (List.takeWhile_prefix _)) ?_
    exact weight_prefix_le (List.rdropWhile_prefix _ _)
  have htotal := weight_quoted t.toList
  rw [heq, weight_append] at htotal
  have hv := weight_isAnd hand
  have htrim := weight_trim_le ((trimEnd isWhite ('\'' :: u')).takeWhile dot)
  omega

/-- A text literal with an AND behind it has too many. -/
theorem extended_not_read (h : tx.Lawful) {column : String} {o : Operator} {t : String}
    (hcolumn : Name tx column.toList) (ht : '\n' ∉ t.toList) (more : List Char) :
    parseCondition tx (conditionHead column o ++ (quoted t.toList ++ (" AND ".toList ++ more))) ≠
      .ok ⟨column, o, .text t⟩ := by
  intro hp
  have hhead : ∀ c, (quoted t.toList ++ (" AND ".toList ++ more)).head? = some c →
      isWhite c = false := by
    intro c hc
    rw [← Option.some.inj hc]
    rfl
  have hne : quoted t.toList ++ (" AND ".toList ++ more) ≠ [] := List.cons_ne_nil _ _
  rw [parseCondition_head h o hcolumn hne hhead] at hp
  obtain ⟨value, hvalue, hcond⟩ := bind_oks.mp hp
  cases hcond
  have hge := (parseValue_weight h hvalue).2
  rw [trim_trim] at hge
  -- all up to the AND is in the literal
  have hlast : ∀ c, (quoted t.toList ++ " AND".toList).getLast? = some c → isWhite c = false := by
    intro c hc
    rw [List.getLast?_append] at hc
    obtain rfl := Option.some.inj hc
    rfl
  have hpre : quoted t.toList ++ " AND".toList <+:
      trimEnd isWhite (quoted t.toList ++ (" AND ".toList ++ more)) := by
    refine prefix_trimEnd ⟨' ' :: more, ?_⟩ hlast
    rw [List.append_assoc]
    rfl
  have htake : quoted t.toList ++ " AND".toList <+:
      (trimEnd isWhite (quoted t.toList ++ (" AND ".toList ++ more))).takeWhile dot := by
    obtain ⟨x, hx⟩ := hpre
    rw [← hx, List.takeWhile_append_of_pos]
    · exact List.prefix_append _ _
    · refine LikeRegex.dot_iff.mpr fun hmem => ?_
      rcases List.mem_append.mp hmem with hmem | hmem
      · exact quoted_line ht hmem
      · exact absurd hmem (by decide)
  have htrim : quoted t.toList ++ " AND".toList <+: trim isWhite
      ((trimEnd isWhite (quoted t.toList ++ (" AND ".toList ++ more))).takeWhile dot) := by
    obtain ⟨x, hx⟩ := htake
    rw [trim, trimStart_of_head]
    · exact prefix_trimEnd ⟨x, hx⟩ hlast
    · intro c hc
      rw [← hx] at hc
      rw [← Option.some.inj hc]
      rfl
  have hle := weight_prefix_le htrim
  rw [weight_append, weight_quoted] at hle
  have hand : weight " AND".toList = 4 := rfl
  omega

/-! ## What is read back is clean -/

theorem exists_shortest {P : List Char → List Char → Prop} (hs : ∃ u v, s = u ++ v ∧ P u v) :
    ∃ u v, s = u ++ v ∧ P u v ∧ ∀ u' v', s = u' ++ v' → P u' v' → u.length ≤ u'.length := by
  classical
  have hex : ∃ n u v, s = u ++ v ∧ P u v ∧ u.length = n := by
    obtain ⟨u, v, heq, hp⟩ := hs
    exact ⟨_, u, v, heq, hp, rfl⟩
  obtain ⟨u, v, heq, hp, hlen⟩ := Nat.find_spec hex
  refine ⟨u, v, heq, hp, fun u' v' heq' hp' => ?_⟩
  rw [hlen]
  exact Nat.find_min' hex ⟨u', v', heq', hp', rfl⟩

/-- The first of the pieces that `split_on_and` returns. -/
theorem splitOnAnd_cons {p : List Char} {qs : List (List Char)} (hs : splitOnAnd s = p :: qs) :
    ∃ ps, pieces s = p :: ps ∧ ∀ s', ps = pieces s' → qs = splitOnAnd s' := by
  obtain ⟨rs, r, hpieces, hsplit⟩ := splitOnAnd_eq s
  rw [hs] at hsplit
  cases rs with
  | nil =>
      split at hsplit
      · cases hsplit
      · obtain ⟨rfl, rfl⟩ := List.cons.inj hsplit
        refine ⟨[], hpieces, fun s' hs' => ?_⟩
        obtain ⟨x, xs, hx⟩ := pieceLoop_cons 0 [] none s'
        rw [pieces, hx] at hs'
        cases hs'
  | cons x rs =>
      have hqs : p = x ∧ qs = if trim isWhite r = [] then rs else rs ++ [r] := by
        split at hsplit
        · rename_i hblank
          rw [if_pos hblank]
          exact List.cons.inj hsplit
        · rename_i hblank
          rw [if_neg hblank]
          exact List.cons.inj hsplit
      obtain ⟨rfl, rfl⟩ := hqs
      refine ⟨rs ++ [r], hpieces, fun s' hs' => ?_⟩
      obtain ⟨rs', r', hpieces', hsplit'⟩ := splitOnAnd_eq s'
      obtain ⟨rfl, heq⟩ := List.append_inj' (hs'.trans hpieces') rfl
      obtain rfl := (List.cons.inj heq).1
      exact hsplit'.symm

theorem pieceLoop_prefix {skip : Nat} {current p : List Char} {ps : List (List Char)}
    (hs : pieceLoop skip current quote s = p :: ps) : current <+: p := by
  fun_induction pieceLoop skip current quote s generalizing p ps with
  | case1 skip current quote =>
      rw [(List.cons.inj hs).1]
  | case2 skip current quote c rest ih => exact ih hs
  | case3 current q c rest ih => exact (List.prefix_append _ _).trans (ih hs)
  | case4 current c rest hquote ih => exact (List.prefix_append _ _).trans (ih hs)
  | case5 current c rest hquote hand ih =>
      rw [(List.cons.inj hs).1]
  | case6 current c rest hquote hand ih => exact (List.prefix_append _ _).trans (ih hs)

/-- What the first piece says: its literal is whole. -/
theorem whole_of_first (h : tx.Lawful) (hc : Printable tx c)
    (hline : ∀ t, c.value = .text t → '\n' ∉ t.toList) {p : List Char} {ps : List (List Char)}
    (hpieces : pieces (printCondition c ++ more) = p :: ps) (hp : parseCondition tx p = .ok c) :
    Whole c.value := by
  obtain ⟨column, o, v⟩ := c
  cases v with
  | null | integer _ | blob _ | float _ | real _ | vector _ => trivial
  | text t =>
      have ht := hline t rfl
      refine ⟨ht, fun u v heq hand hnone => ?_⟩
      obtain ⟨u, v, heq, ⟨hand, hnone⟩, hmin⟩ := exists_shortest
        (P := fun u v => isAnd v = true ∧ quoteAfter none u = none) ⟨u, v, heq, hand, hnone⟩
      have hquiet : Quiet none u (v ++ more) := by
        rintro u' w rfl hw hand' hnone'
        have hlen := length_of_isAnd hand
        rw [← List.append_assoc, isAnd_append (by rw [List.length_append]; omega)] at hand'
        have hle := hmin u' (w ++ v) (by rw [heq, List.append_assoc]) ⟨hand', hnone'⟩
        rw [List.length_append] at hle
        exact hw (List.length_eq_zero_iff.mp (by omega))
      have hhead : Quiet none (conditionHead column o) (u ++ (v ++ more)) := by
        refine quiet_head h o hc.1 fun d hd => ?_
        rw [← List.append_assoc, ← heq] at hd
        obtain rfl := Option.some.inj hd
        exact ⟨by decide, by decide⟩
      have hafter := quoteAfter_head h o hc.1
      have hthrough := @pieceLoop_through [] _ _ _
        (hhead.append (by rw [hafter]; exact hquiet))
      rw [quoteAfter_append, hafter, hnone] at hthrough
      have htext : printCondition ⟨column, o, .text t⟩ ++ more =
          conditionHead column o ++ u ++ (v ++ more) := by
        change conditionHead column o ++ quoted t.toList ++ more = _
        rw [heq]
        simp only [List.append_assoc]
      obtain ⟨b, x, y, z, e, rest, hv, hb, -⟩ := isAnd_letters hand
      have hmore : isAnd (v ++ more) = true := (isAnd_append (length_of_isAnd hand)).trans hand
      have hcut : pieceLoop 0 ([] ++ (conditionHead column o ++ u)) none (v ++ more) =
          (conditionHead column o ++ u) :: pieceLoop 4 [] none (x :: y :: z :: e :: rest ++ more) := by
        rw [hv, List.cons_append] at hmore ⊢
        rw [pieceLoop, if_neg, if_pos hmore]
        · rfl
        · rintro (rfl | rfl) <;> cases hb
      rw [pieces, htext, hthrough, hcut] at hpieces
      rw [← (List.cons.inj hpieces).1] at hp
      exact cut_not_read h hc.1 ht heq hand hp

/-- What the first of several pieces says: its literal is closed. -/
theorem closed_of_first (h : tx.Lawful) (hc : Printable tx c) (hwhole : Whole c.value)
    {p : List Char} {ps : List (List Char)}
    (hpieces : pieces (printCondition c ++ (" AND ".toList ++ more)) = p :: ps)
    (hp : parseCondition tx p = .ok c) : Closed c.value := by
  obtain ⟨column, o, v⟩ := c
  cases v with
  | null | integer _ | blob _ | float _ | real _ | vector _ => trivial
  | text t =>
      by_contra hnot
      obtain ⟨q, hq⟩ := Option.ne_none_iff_exists'.mp hnot
      rw [pieces, pieceLoop_condition h hc (hwhole.quiet hc.2 _)] at hpieces
      change pieceLoop 0 _ (quoteAfter none (quoted t.toList)) _ = _ at hpieces
      have hand : pieceLoop 0 (printCondition ⟨column, o, .text t⟩) (some q)
          (" AND ".toList ++ more) = pieceLoop 0
            (printCondition ⟨column, o, .text t⟩ ++ " AND ".toList) (some q) more := by
        have hall : (" AND ".toList.all fun c => c != '\'' && c != '"') = true := rfl
        have hinside : ∀ c ∈ " AND ".toList, c ≠ q := by
          intro c hc
          have hplain := List.all_eq_true.mp hall c hc
          rw [Bool.and_eq_true, bne_iff_ne, bne_iff_ne] at hplain
          rcases quoteAfter_some hq with rfl | rfl
          · exact hplain.1
          · exact hplain.2
        rw [pieceLoop_through (quiet_inside hinside), quoteAfter_inside hinside]
      rw [hq, hand] at hpieces
      obtain ⟨x, rfl⟩ := pieceLoop_prefix hpieces
      refine extended_not_read h (o := o) hc.1 hwhole.1 x ?_
      rw [← hp]
      change _ = parseCondition tx (conditionHead column o ++ quoted t.toList ++ " AND ".toList ++ x)
      simp only [List.append_assoc]

/-- What is parsed has no line feed in its texts. -/
theorem parseCondition_line (h : tx.Lawful) {p : List Char} (hp : parseCondition tx p = .ok c)
    (t : String) (ht : c.value = .text t) : '\n' ∉ t.toList := by
  obtain ⟨m, column, op, value, -, hparts, -, -, hvalue⟩ := parseCondition_oks h hp
  rw [ht] at hvalue
  refine parseValue_line h hvalue fun hmem => hparts.value_line.2 ?_
  obtain ⟨u, v, heq, -⟩ := trim_decompose isWhite value
  rw [heq]
  simp [hmem]

/-- Conditions that are read back are clean. -/
theorem clean_of_pieces (h : tx.Lawful) {c : Condition} {cs : List Condition}
    (hcs : ∀ d ∈ c :: cs, Printable tx d)
    (hread : List.Forall₂ (fun p d => parseCondition tx p = .ok d)
      (splitOnAnd (printWhere (c :: cs))) (c :: cs)) : Clean (c :: cs) := by
  induction cs generalizing c with
  | nil =>
      obtain ⟨p, qs, hp, -, hsplit⟩ := List.forall₂_cons_right_iff.mp hread
      obtain ⟨ps, hpieces, -⟩ := splitOnAnd_cons hsplit
      rw [printWhere, ← List.append_nil (printCondition c)] at hpieces
      exact whole_of_first h (hcs c List.mem_cons_self) (parseCondition_line h hp) hpieces hp
  | cons d cs ih =>
      have hc := hcs c List.mem_cons_self
      obtain ⟨p, qs, hp, hqs, hsplit⟩ := List.forall₂_cons_right_iff.mp hread
      obtain ⟨ps, hpieces, htail⟩ := splitOnAnd_cons hsplit
      rw [printWhere] at hpieces
      have hwhole := whole_of_first h hc (parseCondition_line h hp) hpieces hp
      have hclosed := closed_of_first h hc hwhole hpieces hp
      refine ⟨hwhole, hclosed, ih (fun e he => hcs e (List.mem_cons_of_mem _ he)) ?_⟩
      rw [pieces, pieceLoop_condition h hc (hwhole.quiet hc.2 _), hclosed.quoteAfter hc.2,
        pieceLoop_and] at hpieces
      rw [← htail _ (List.cons.inj hpieces).2.symm]
      exact hqs

end Parser

/-- Printed conditions are read back exactly if their literals are clean. -/
theorem where_round_iff {tx : TextFns} (h : tx.Lawful) {cs : List Condition} (hne : cs ≠ [])
    (hcs : ∀ c ∈ cs, Parser.Printable tx c) :
    Parser.parseWhereClause tx (Parser.printWhere cs) = .ok ⟨cs⟩ ↔ Parser.Clean cs := by
  refine ⟨fun hread => ?_, Parser.parseWhereClause_print h hne hcs⟩
  obtain ⟨c, cs, rfl⟩ := List.exists_cons_of_ne_nil hne
  exact Parser.clean_of_pieces h hcs (Parser.parseWhereClause_oks.mp hread).2

theorem where_round_iff_null : Parser.parseWhereClause .basic
      (Parser.printWhere [⟨"id", .equal, .null⟩]) = .ok ⟨[⟨"id", .equal, .null⟩]⟩ ↔
    Parser.Clean [⟨"id", .equal, .null⟩] :=
  where_round_iff TextFns.basic_lawful (List.cons_ne_nil _ _) fun c hc => by
    rw [List.mem_singleton.mp hc]
    exact ⟨⟨by decide, List.all_eq_true.mp (rfl : "id".toList.all TextFns.basic.isWord = true)⟩,
      trivial⟩

/-- A quote mark in a text keeps the AND behind it from being seen. -/
theorem not_where_round : ¬ ∀ tx : TextFns, tx.Lawful → ∀ cs : List Condition, cs ≠ [] →
    (∀ c ∈ cs, Parser.Printable tx c) →
      Parser.parseWhereClause tx (Parser.printWhere cs) = .ok ⟨cs⟩ := by
  intro h
  have hcs : ∀ c ∈ ([⟨"a", .equal, .text "it's"⟩, ⟨"b", .equal, .null⟩] : List Condition),
      Parser.Printable .basic c := by
    intro c hc
    rcases List.mem_cons.mp hc with rfl | hc
    · exact ⟨⟨by decide, List.all_eq_true.mp (rfl : "a".toList.all TextFns.basic.isWord = true)⟩,
        trivial⟩
    · rw [List.mem_singleton.mp hc]
      exact ⟨⟨by decide, List.all_eq_true.mp (rfl : "b".toList.all TextFns.basic.isWord = true)⟩,
        trivial⟩
  have hread := h .basic TextFns.basic_lawful _ (List.cons_ne_nil _ _) hcs
  have hclean := Parser.clean_of_pieces TextFns.basic_lawful hcs
    (Parser.parseWhereClause_oks.mp hread).2
  have hclosed : Parser.quoteAfter none (quoted "it's".toList) = none := hclean.2.1
  have hquote : Parser.quoteAfter none (quoted "it's".toList) = some '\'' := rfl
  rw [hclosed] at hquote
  cases hquote

end VelociDB
