/-
# A VALUES list as text (`parser.rs`)

The literals of a VALUES list stand behind each other with `, ` between them.  The scan copies
a literal whole and cuts at no letter of it (`Copied`), so the cuts are the literals, and each
of them is read back as its value.
-/
import VelociDB.ParserFaults
import VelociDB.ParserPanics
import VelociDB.Printer

namespace VelociDB

open Text

namespace Parser

variable {tx : TextFns}

/-! ## What the scan copies -/

/-- The scan of `parse_values` comes out of `l` as it went in, outside quotes and brackets. -/
def Copied (l : List Char) : Prop := ∀ current rest,
  valuesCut ⟨current, none, false, 0⟩ (l ++ rest) =
    valuesCut ⟨current ++ l, none, false, 0⟩ rest

theorem Copied.append {u v : List Char} (hu : Copied u) (hv : Copied v) : Copied (u ++ v) := by
  intro current rest
  rw [List.append_assoc, hu, hv, List.append_assoc]

/-- The letters that mean something to the scan outside quotes. -/
def scanMarks : List Char := ['\'', '"', '(', '[', ')', ']', ',']

theorem copied_of_plain {l : List Char} (h : ∀ c ∈ l, c ∉ scanMarks) : Copied l := by
  induction l with
  | nil =>
      intro current rest
      rw [List.nil_append, List.append_nil]
  | cons c l ih =>
      intro current rest
      have hc := h c List.mem_cons_self
      simp only [scanMarks, List.mem_cons, List.not_mem_nil, or_false, not_or] at hc
      obtain ⟨hsingle, hdouble, hparen, hbracket, hparen', hbracket', hcomma⟩ := hc
      rw [List.cons_append, valuesCut, if_neg Bool.false_ne_true,
        if_neg fun hq => Bool.false_ne_true hq.2, if_neg fun hq => hq.2.elim hsingle hdouble,
        if_neg fun hq => Option.some_ne_none _ hq.symm, if_neg fun hq => hq.2.elim hparen hbracket,
        if_neg fun hq => hq.2.elim hparen' hbracket', if_neg fun hq => hcomma hq.2.2,
        ih fun d hd => h d (List.mem_cons_of_mem _ hd), List.append_assoc]
      rfl

/-- Between the quotes, every letter is copied: the backslash takes its letter along. -/
theorem valuesCut_escape (t current rest : List Char) :
    valuesCut ⟨current, some '\'', false, 0⟩ (escape t ++ rest) =
      valuesCut ⟨current ++ escape t, some '\'', false, 0⟩ rest := by
  induction t generalizing current with
  | nil =>
      rw [escape, List.nil_append, List.append_nil]
  | cons c t ih =>
      rw [escape]
      split
      · rw [List.cons_append, List.cons_append, valuesCut, if_neg Bool.false_ne_true,
          if_pos ⟨rfl, rfl⟩, valuesCut, if_pos rfl, ih, List.append_assoc, List.append_assoc]
        rfl
      · rename_i hc
        obtain ⟨hback, hquote⟩ := not_or.mp hc
        rw [List.cons_append, valuesCut, if_neg Bool.false_ne_true, if_neg fun hq => hback hq.1,
          if_neg fun hq => Option.some_ne_none _ hq.1,
          if_neg fun hq => hquote (Option.some.inj hq).symm,
          if_neg fun hq => Option.some_ne_none _ hq.1, if_neg fun hq => Option.some_ne_none _ hq.1,
          if_neg fun hq => Option.some_ne_none _ hq.1, ih, List.append_assoc]
        rfl

theorem copied_quoted (t : List Char) : Copied (quoted t) := by
  intro current rest
  rw [quoted, List.cons_append, List.append_assoc, valuesCut, if_neg Bool.false_ne_true,
    if_neg fun hq => Bool.false_ne_true hq.2, if_pos ⟨rfl, Or.inl rfl⟩, valuesCut_escape,
    List.singleton_append, valuesCut, if_neg Bool.false_ne_true,
    if_neg fun hq => absurd hq.1 (by decide), if_neg fun hq => Option.some_ne_none _ hq.1,
    if_pos rfl]
  simp only [List.append_assoc, List.cons_append, List.nil_append]

/-! ## The cuts of joined literals -/

/-- A text that `parse_values` takes as one literal: copied whole and with nothing to trim. -/
structure Standing (l : List Char) : Prop where
  copied : Copied l
  ne_nil : l ≠ []
  trim_eq : trim isWhite l = l

theorem Standing.trim_blank {l : List Char} (h : Standing l) {blank : List Char}
    (hblank : ∀ c ∈ blank, isWhite c = true) : trim isWhite (blank ++ l) = l := by
  have happend : trim isWhite (blank ++ l ++ []) = trim isWhite l :=
    trim_append hblank fun c hc => absurd hc List.not_mem_nil
  rw [List.append_nil] at happend
  rw [happend, h.trim_eq]

/-- The comma cuts; the blank behind it opens the next literal. -/
theorem valuesCut_comma (current rest : List Char) :
    valuesCut ⟨current, none, false, 0⟩ (", ".toList ++ rest) =
      trim isWhite current :: valuesCut ⟨[' '], none, false, 0⟩ rest := by
  have hblank : Copied [' '] := copied_of_plain (by simp [scanMarks])
  have hopen : valuesCut ⟨[], none, false, 0⟩ (' ' :: rest) =
      valuesCut ⟨[' '], none, false, 0⟩ rest := hblank [] rest
  change valuesCut ⟨current, none, false, 0⟩ (',' :: ' ' :: rest) = _
  rw [valuesCut, if_neg Bool.false_ne_true, if_neg fun hq => Bool.false_ne_true hq.2,
    if_neg fun hq => absurd hq.2 (by decide), if_neg fun hq => Option.some_ne_none _ hq.symm,
    if_neg fun hq => absurd hq.2 (by decide), if_neg fun hq => absurd hq.2 (by decide),
    if_pos ⟨rfl, rfl, rfl⟩]
  exact congrArg _ hopen

/-- Joined texts are cut where they were joined. -/
theorem valuesCut_join {ls : List (List Char)} (h : ∀ l ∈ ls, Standing l) {blank : List Char}
    (hblank : ∀ c ∈ blank, isWhite c = true) :
    valuesCut ⟨blank, none, false, 0⟩ (", ".toList.intercalate ls) = ls := by
  induction ls generalizing blank with
  | nil =>
      have htrim : trim isWhite blank = [] := trim_eq_nil.mpr hblank
      rw [List.intercalate_nil, valuesCut, if_pos htrim]
  | cons l ls ih =>
      have hl := h l List.mem_cons_self
      have htrim := hl.trim_blank hblank
      cases ls with
      | nil =>
          have hcopied := hl.copied blank []
          have hne : trim isWhite (blank ++ l) ≠ [] := by
            rw [htrim]
            exact hl.ne_nil
          rw [List.append_nil] at hcopied
          rw [List.intercalate_singleton, hcopied, valuesCut, if_neg hne, htrim]
      | cons l' ls =>
          have hspace : ∀ c ∈ [' '], isWhite c = true := by
            intro c hc
            rw [List.mem_singleton.mp hc]
            rfl
          rw [List.intercalate_cons_cons, List.append_assoc, hl.copied, valuesCut_comma, htrim,
            ih (fun x hx => h x (List.mem_cons_of_mem _ hx)) hspace]

theorem valueTexts_join {ls : List (List Char)} (h : ∀ l ∈ ls, Standing l) :
    valueTexts (", ".toList.intercalate ls) = ls :=
  valuesCut_join h fun _ hc => absurd hc List.not_mem_nil

/-! ## Literals -/

/-- The literals of a value; the hex digits of a blob may have either case. -/
inductive LiteralOf : Value → List Char → Prop
  | null : LiteralOf .null "NULL".toList
  | integer (i : Int64) : LiteralOf (.integer i) (printInteger i)
  | text (t : String) : LiteralOf (.text t) (quoted t.toList)
  | blob {b : Bytes} {hex : List Char} : HexOf b hex →
      LiteralOf (.blob b) ('X' :: '\'' :: (hex ++ ['\'']))

theorem LiteralOf.parseValue_eq {v : Value} {l : List Char} (h : tx.Lawful) (hl : LiteralOf v l) :
    parseValue tx l = .ok v := by
  cases hl with
  | null => exact parseValue_null h
  | integer i => exact parseValue_integer h i
  | text t => rw [parseValue_quoted h, String.ofList_toList]
  | blob hhex => exact parseValue_hex h hhex

/-- Nothing in a text needs an escape. -/
theorem escape_of_plain {t : List Char} (h : ∀ c ∈ t, c ≠ '\\' ∧ c ≠ '\'') : escape t = t := by
  induction t with
  | nil => rfl
  | cons c t ih =>
      obtain ⟨hback, hquote⟩ := h c List.mem_cons_self
      rw [escape, if_neg (not_or.mpr ⟨hback, hquote⟩),
        ih fun d hd => h d (List.mem_cons_of_mem _ hd)]

theorem HexOf.quoted_eq {b : Bytes} {hex : List Char} (h : HexOf b hex) :
    '\'' :: (hex ++ ['\'']) = quoted hex := by
  rw [quoted, escape_of_plain fun c hc => ⟨(h.mem hc).2.2.2.2, (h.mem hc).2.2.1⟩]

theorem LiteralOf.copied {v : Value} {l : List Char} (hl : LiteralOf v l) : Copied l := by
  cases hl with
  | null => exact copied_of_plain (by simp [scanMarks])
  | integer i =>
      have hdigit : ∀ c ∈ scanMarks, ¬ (c.isDigit = true ∨ c = '-') := by simp [scanMarks]
      exact copied_of_plain fun c hc hmark => hdigit c hmark (printInteger_mem i c hc)
  | text t => exact copied_quoted t.toList
  | blob hhex =>
      have hx : Copied ['X'] := copied_of_plain (by simp [scanMarks])
      rw [hhex.quoted_eq]
      exact hx.append (copied_quoted _)

theorem LiteralOf.standing {v : Value} {l : List Char} (hl : LiteralOf v l) : Standing l where
  copied := hl.copied
  ne_nil := by
    cases hl with
    | null => exact List.cons_ne_nil _ _
    | integer i => exact printInteger_ne_nil i
    | text t => exact List.cons_ne_nil _ _
    | blob hhex => exact List.cons_ne_nil _ _
  trim_eq := by
    cases hl with
    | null => rfl
    | integer i => exact trim_solid fun c hc => (digit_or_minus (printInteger_mem i c hc)).1
    | text t => exact trim_quoted t.toList
    | blob hhex => exact hhex.trim_eq

/-- The literals of some values, joined by `, `, are read back as these values. -/
theorem values_round_trip (h : tx.Lawful) {vs : List Value} {ls : List (List Char)}
    (hls : List.Forall₂ LiteralOf vs ls) :
    parseValues tx (", ".toList.intercalate ls) = .ok vs := by
  have hstanding : ∀ l ∈ ls, Standing l := by
    intro l hl
    obtain ⟨v, -, hv⟩ := exists_of_forall₂ hls hl
    exact hv.standing
  rw [parseValues_eq, valueTexts_join hstanding, mapM_oks]
  exact hls.flip.imp fun l v hv => hv.parseValue_eq h

/-- `NULL, -5, 'a, (\\\'', X'0aFF'`: a comma, a parenthesis, a backslash and a quote in a text. -/
theorem values_round_trip_mixed :
    parseValues .basic "NULL, -5, 'a, (\\\\\\'', X'0aFF'".toList =
      .ok [.null, .integer (-5), .text "a, (\\'", .blob [10, 255]] := by
  have hhex : HexOf [10, 255] "0aFF".toList := rfl
  have hliterals : List.Forall₂ LiteralOf
      [.null, .integer (-5), .text "a, (\\'", .blob [10, 255]]
      ["NULL".toList, "-5".toList, "'a, (\\\\\\''".toList, "X'0aFF'".toList] :=
    .cons .null (.cons (.integer (-5)) (.cons (.text _) (.cons (.blob hhex) .nil)))
  exact values_round_trip TextFns.basic_lawful hliterals

end Parser

end VelociDB
