/-
# Conditions as text (`parser.rs`)

The text of a condition: its column, its operator and its literal with a blank between them.
The literal of a value is read back as that value (`parseValue_print`).
-/
import VelociDB.LiteralText
import VelociDB.OrderScan
import VelociDB.ParserExec

namespace VelociDB

open Text
open LikeRegex (dot)

namespace Parser

variable {tx : TextFns}

/-! ## Literals -/

/-- An integer in decimal digits. -/
def printInteger (i : Int64) : List Char :=
  if i.toInt < 0 then '-' :: Nat.toDigits 10 i.toInt.natAbs else Nat.toDigits 10 i.toInt.natAbs

/-- A byte as two hex digits. -/
def hexPair (b : UInt8) : List Char := [Nat.digitChar (b.toNat / 16), Nat.digitChar (b.toNat % 16)]

/-- The hex digits of a blob. -/
def hexText (b : Bytes) : List Char := b.flatMap hexPair

/-- The literal of a value. -/
def printValue : Value → List Char
  | .null => "NULL".toList
  | .integer i => printInteger i
  | .text t => quoted t.toList
  | .blob b => 'X' :: '\'' :: (hexText b ++ ['\''])
  | .float _ | .real _ | .vector _ => []

/-- The values with a literal. -/
def Printed : Value → Prop
  | .null | .integer _ | .text _ | .blob _ => True
  | .float _ | .real _ | .vector _ => False

/-! ## Integers -/

theorem le_ofDigitChars (s : List Char) (n : Nat) : n ≤ Nat.ofDigitChars 10 s n := by
  induction s generalizing n with
  | nil => rw [Nat.ofDigitChars_nil]
  | cons c s ih =>
      rw [Nat.ofDigitChars_cons]
      exact le_trans (by omega) (ih _)

theorem digitValue_digit {c : Char} (hc : c.isDigit = true) :
    digitValue 10 c = some (c.toNat - '0'.toNat) := by
  have hrange : 48 ≤ c.toNat ∧ c.toNat ≤ 57 := by
    rw [Char.isDigit, Bool.and_eq_true, decide_eq_true_eq, decide_eq_true_eq] at hc
    exact ⟨UInt32.le_iff_toNat_le.mp hc.1, UInt32.le_iff_toNat_le.mp hc.2⟩
  rw [digitValue, if_pos hc]
  refine Option.filter_eq_some_iff.mpr ⟨rfl, decide_eq_true ?_⟩
  have hzero : '0'.toNat = 48 := rfl
  omega

theorem parseDigits_digits {max acc : Nat} {s : List Char} (hs : ∀ c ∈ s, c.isDigit = true)
    (hmax : Nat.ofDigitChars 10 s acc ≤ max) :
    parseDigits max 10 acc s = .ok (Nat.ofDigitChars 10 s acc) := by
  induction s generalizing acc with
  | nil => rw [parseDigits, Nat.ofDigitChars_nil]
  | cons c s ih =>
      rw [Nat.ofDigitChars_cons, Nat.mul_comm 10 acc] at hmax ⊢
      rw [parseDigits, digitValue_digit (hs c List.mem_cons_self)]
      dsimp only
      rw [if_pos (le_trans (le_ofDigitChars s _) hmax)]
      exact ih (fun d hd => hs d (List.mem_cons_of_mem _ hd)) hmax

theorem parseDigits_toDigits {max n : Nat} (h : n ≤ max) :
    parseDigits max 10 0 (Nat.toDigits 10 n) = .ok n := by
  have hof : Nat.ofDigitChars 10 (Nat.toDigits 10 n) 0 = n :=
    Nat.ofDigitChars_toDigits (by decide) (by decide)
  rw [parseDigits_digits (fun c hc => Nat.isDigit_of_mem_toDigits (by decide) (by decide) hc)
    (by rw [hof]; exact h), hof]

/-- What the letters of an integer are not. -/
theorem digit_or_minus {c : Char} (h : c.isDigit = true ∨ c = '-') :
    isWhite c = false ∧ isAscii c = true ∧ c.toUpper ≠ 'N' ∧
      c ∉ ['\'', '"', '[', ')', '+', 'A', 'a', '\n'] := by
  have hrange : 45 ≤ c.toNat ∧ c.toNat ≤ 57 := by
    rcases h with h | rfl
    · rw [Char.isDigit, Bool.and_eq_true, decide_eq_true_eq, decide_eq_true_eq] at h
      exact ⟨le_trans (by decide) (UInt32.le_iff_toNat_le.mp h.1), UInt32.le_iff_toNat_le.mp h.2⟩
    · decide
  obtain ⟨n, hn, rfl⟩ : ∃ n, c.toNat = n ∧ c = Char.ofNat n := ⟨_, rfl, (Char.ofNat_toNat c).symm⟩
  rw [hn] at hrange
  obtain ⟨hlo, hhi⟩ := hrange
  clear h hn
  interval_cases n <;> decide

theorem printInteger_mem (i : Int64) : ∀ c ∈ printInteger i, c.isDigit = true ∨ c = '-' := by
  have hdigits : ∀ c ∈ Nat.toDigits 10 i.toInt.natAbs, c.isDigit = true := fun c hc =>
    Nat.isDigit_of_mem_toDigits (by decide) (by decide) hc
  intro c hc
  rw [printInteger] at hc
  split at hc
  · exact (List.mem_cons.mp hc).elim Or.inr fun hc => Or.inl (hdigits c hc)
  · exact Or.inl (hdigits c hc)

theorem printInteger_ne_nil (i : Int64) : printInteger i ≠ [] := by
  rw [printInteger]
  split
  · exact List.cons_ne_nil _ _
  · exact Nat.toDigits_ne_nil

theorem parseInt64_print (i : Int64) : parseInt64 (printInteger i) = some i := by
  have hlo := i.le_toInt
  have hhi := i.toInt_lt
  rw [printInteger]
  split
  · rename_i hneg
    rw [parseInt64, if_pos ⟨rfl, Nat.toDigits_ne_nil⟩, parseDigits_toDigits (by omega)]
    have habs : -((i.toInt.natAbs : Nat) : Int) = i.toInt := by omega
    change some (Int64.ofInt (-(i.toInt.natAbs : Int))) = some i
    rw [habs, Int64.ofInt_toInt]
  · rename_i hpos
    obtain ⟨c, s, hs⟩ := List.exists_cons_of_ne_nil
      (Nat.toDigits_ne_nil : Nat.toDigits 10 i.toInt.natAbs ≠ [])
    have hc : c.isDigit = true := by
      refine Nat.isDigit_of_mem_toDigits (by decide) (by decide)
        (?_ : c ∈ Nat.toDigits 10 i.toInt.natAbs)
      rw [hs]
      exact List.mem_cons_self
    have hminus : c ≠ '-' := by rintro rfl; cases hc
    have hplus : c ≠ '+' := by rintro rfl; cases hc
    rw [hs, parseInt64, if_neg fun h => hminus h.1, if_neg fun h => hplus h.1, ← hs,
      parseDigits_toDigits (by omega)]
    have habs : ((i.toInt.natAbs : Nat) : Int) = i.toInt := by omega
    change some (Int64.ofInt (i.toInt.natAbs : Int)) = some i
    rw [habs, Int64.ofInt_toInt]

/-- A text whose ends are no white space, without a closing parenthesis at its end, is called no
vector function. -/
theorem callText_none {s : List Char} (h : s.getLast? ≠ some ')') (names : List (List Char)) :
    callText tx s names = none := by
  induction names with
  | nil => rfl
  | cons name names ih =>
      rw [callText, if_neg fun hc => h hc.2]
      exact ih

theorem trim_solid {s : List Char} (h : ∀ c ∈ s, isWhite c = false) : trim isWhite s = s :=
  trim_of_ends (fun c hc => h c (List.mem_of_mem_head? hc)) fun c hc => h c (List.mem_of_getLast? hc)

theorem parseValue_integer (h : tx.Lawful) (i : Int64) :
    parseValue tx (printInteger i) = .ok (.integer i) := by
  have hmem : ∀ c ∈ printInteger i, _ := fun c hc => digit_or_minus (printInteger_mem i c hc)
  obtain ⟨c, s, hs⟩ := List.exists_cons_of_ne_nil (printInteger_ne_nil i)
  have hc := hmem c (by rw [hs]; exact List.mem_cons_self)
  have hnull : tx.upper (printInteger i) ≠ "NULL".toList := by
    rw [hs]
    exact upper_ne_null h hc.2.1 hc.2.2.1
  have hhead : ∀ q, (printInteger i).head? = some q → q = c := by
    intro q hq
    rw [hs] at hq
    exact (Option.some.inj hq).symm
  have hnot : ∀ q ∈ ['\'', '"', '[', ')', '+', 'A', 'a', '\n'], (printInteger i).head? ≠ some q := by
    intro q hq heq
    rw [hhead q heq] at hq
    exact hc.2.2.2 hq
  have hlast : (printInteger i).getLast? ≠ some ')' := by
    intro heq
    exact (hmem _ (List.mem_of_getLast? heq)).2.2.2 (by simp)
  have hvector : vectorText tx (printInteger i) = none := by
    rw [vectorText, if_neg (hnot '[' (by simp)), callText_none hlast]
    rfl
  rw [parseValue_eq h, trim_solid fun c hc => (hmem c hc).1, if_neg hnull,
    if_neg (not_or.mpr ⟨hnot '\'' (by simp), hnot '"' (by simp)⟩), parsePlain_scalar hvector,
    parseScalar, if_neg fun hq => hnot '\'' (by simp) hq.1,
    if_neg fun hq => hnot '"' (by simp) hq.1, parseInt64_print]

/-! ## Blobs -/

/-- What a hex digit is, whichever case it has. -/
theorem hexDigit_facts {c : Char} {d : Nat} (hd : d < 16) (h : c.toLower = Nat.digitChar d) :
    digitValue 16 c = some d ∧ c ≠ '+' ∧ isAscii c = true ∧ isWhite c = false ∧
      c ≠ '\'' ∧ c ≠ '\n' ∧ c ≠ '\\' := by
  by_cases hupper : 65 ≤ c.toNat ∧ c.toNat ≤ 90
  · obtain ⟨n, hn, rfl⟩ : ∃ n, c.toNat = n ∧ c = Char.ofNat n := ⟨_, rfl, (Char.ofNat_toNat c).symm⟩
    rw [hn] at hupper
    have hdigit : ∀ n < 91, 65 ≤ n → ∀ d < 16, (Char.ofNat n).toLower = Nat.digitChar d →
        10 ≤ d ∧ n = d + 55 := by decide
    obtain ⟨hlo, rfl⟩ := hdigit n (by omega) hupper.1 d hd h
    clear h hn hupper
    interval_cases d <;> decide
  · have hlower : c.toLower = c := by
      rw [Char.toLower, dif_neg]
      rintro ⟨hlo, hhi⟩
      exact hupper ⟨UInt32.le_iff_toNat_le.mp hlo, UInt32.le_iff_toNat_le.mp hhi⟩
    rw [hlower] at h
    subst h
    interval_cases d <;> decide

/-- Hex digits of a blob, in either case. -/
def HexOf (b : Bytes) (hex : List Char) : Prop := hex.map Char.toLower = hexText b

theorem hexOf_hexText (b : Bytes) : HexOf b (hexText b) := by
  have hlower : ∀ d < 16, (Nat.digitChar d).toLower = Nat.digitChar d := by decide
  induction b with
  | nil => rfl
  | cons x b ih =>
      have hx := x.toNat_lt
      have hcons : hexText (x :: b) = hexPair x ++ hexText b := rfl
      rw [HexOf] at ih ⊢
      rw [hcons, List.map_append, ih, hexPair, List.map_cons, List.map_singleton,
        hlower _ (by omega), hlower _ (by omega)]

/-- A byte and the two digits it starts with. -/
theorem HexOf.cons {x : UInt8} {b : Bytes} {hex : List Char} (h : HexOf (x :: b) hex) :
    ∃ c d rest, hex = c :: d :: rest ∧ c.toLower = Nat.digitChar (x.toNat / 16) ∧
      d.toLower = Nat.digitChar (x.toNat % 16) ∧ HexOf b rest := by
  have hcons : hexText (x :: b) = Nat.digitChar (x.toNat / 16) ::
      Nat.digitChar (x.toNat % 16) :: hexText b := rfl
  rw [HexOf, hcons] at h
  obtain ⟨c, tail, rfl, hc, h⟩ := List.map_eq_cons_iff.mp h
  obtain ⟨d, rest, rfl, hd, h⟩ := List.map_eq_cons_iff.mp h
  exact ⟨c, d, rest, rfl, hc, hd, h⟩

theorem HexOf.mem {b : Bytes} {hex : List Char} (h : HexOf b hex) {c : Char} (hc : c ∈ hex) :
    isAscii c = true ∧ isWhite c = false ∧ c ≠ '\'' ∧ c ≠ '\n' ∧ c ≠ '\\' := by
  induction b generalizing hex with
  | nil =>
      obtain rfl := List.map_eq_nil_iff.mp h
      exact absurd hc List.not_mem_nil
  | cons x b ih =>
      have hx := x.toNat_lt
      obtain ⟨c₁, c₂, rest, rfl, h₁, h₂, hrest⟩ := h.cons
      rcases List.mem_cons.mp hc with rfl | hc
      · exact (hexDigit_facts (by omega) h₁).2.2
      rcases List.mem_cons.mp hc with rfl | hc
      · exact (hexDigit_facts (by omega) h₂).2.2
      · exact ih hrest hc

theorem hexText_mem {b : Bytes} {c : Char} (h : c ∈ hexText b) :
    isAscii c = true ∧ isWhite c = false ∧ c ≠ '\'' ∧ c ≠ '\n' ∧ c ≠ '\\' :=
  (hexOf_hexText b).mem h

theorem HexOf.size_eq {b : Bytes} {hex : List Char} (h : HexOf b hex) :
    size hex = 2 * b.length := by
  rw [size_of_isAscii fun c hc => (h.mem hc).1]
  induction b generalizing hex with
  | nil =>
      obtain rfl := List.map_eq_nil_iff.mp h
      rfl
  | cons x b ih =>
      obtain ⟨c, d, rest, rfl, -, -, hrest⟩ := h.cons
      rw [List.length_cons, List.length_cons, ih hrest, List.length_cons]
      omega

theorem HexOf.hexBytes_eq {b : Bytes} {hex : List Char} (h : HexOf b hex) :
    hexBytes b.length hex = .ok b := by
  induction b generalizing hex with
  | nil =>
      obtain rfl := List.map_eq_nil_iff.mp h
      rfl
  | cons x b ih =>
      have hx := x.toNat_lt
      obtain ⟨c, d, rest, rfl, hc, hd, hrest⟩ := h.cons
      obtain ⟨hhi, hplus, hc', -⟩ := hexDigit_facts (by omega) hc
      obtain ⟨hlo, -, hd', -⟩ := hexDigit_facts (by omega) hd
      have hpair : parseUnsigned 255 16 [c, d] = .ok x.toNat := by
        rw [parseUnsigned, if_neg fun h => hplus h.1, parseDigits, hhi]
        dsimp only
        rw [if_pos (by omega), parseDigits, hlo]
        dsimp only
        rw [if_pos (by omega), parseDigits]
        exact congrArg Except.ok (by omega)
      have hslice : sliceTo (c :: d :: rest) 2 = some [c, d] := by
        have hsize : size [c, d] = 2 := size_of_isAscii fun e he => by
          rcases List.mem_pair.mp he with rfl | rfl
          · exact hc'
          · exact hd'
        have hto := sliceTo_size [c, d] rest
        rwa [hsize] at hto
      have hdrop : (c :: d :: rest).drop [c, d].length = rest := rfl
      rw [List.length_cons, hexBytes_pair hslice hpair, hdrop, ih hrest, UInt8.ofNat_toNat]
      rfl

theorem HexOf.trim_eq {b : Bytes} {hex : List Char} (h : HexOf b hex) :
    trim isWhite ('X' :: '\'' :: (hex ++ ['\''])) = 'X' :: '\'' :: (hex ++ ['\'']) := by
  refine trim_solid fun c hc => ?_
  rcases List.mem_cons.mp hc with rfl | hc
  · rfl
  · rcases List.mem_cons.mp hc with rfl | hc
    · rfl
    · rcases List.mem_append.mp hc with hc | hc
      · exact (h.mem hc).2.1
      · rw [List.mem_singleton.mp hc]
        rfl

theorem parseValue_hex (h : tx.Lawful) {b : Bytes} {hex : List Char} (hhex : HexOf b hex) :
    parseValue tx ('X' :: '\'' :: (hex ++ ['\''])) = .ok (.blob b) := by
  have hblob : BlobText ('X' :: '\'' :: (hex ++ ['\''])) hex := ⟨'X', Or.inl rfl, rfl⟩
  have hhead : ('X' :: '\'' :: (hex ++ ['\''])).head? = some 'X' := rfl
  rw [parseValue_eq h, hhex.trim_eq, if_neg (hblob.upper_ne h), hhead, if_neg (by decide),
    parsePlain_scalar hblob.vectorText_eq, parseScalar_blob hblob, parseBlob_eq hblob,
    hhex.size_eq, if_neg (by omega), Nat.mul_div_cancel_left _ (by decide), hhex.hexBytes_eq]
  rfl

theorem parseValue_null (h : tx.Lawful) : parseValue tx "NULL".toList = .ok .null := by
  have hupper : tx.upper (trim isWhite "NULL".toList) = "NULL".toList := by
    rw [show trim isWhite "NULL".toList = "NULL".toList from rfl,
      upper_of_ascii h (List.all_eq_true.mp (rfl : ("NULL".toList.all isAscii) = true))]
    rfl
  rw [parseValue_eq h, if_pos hupper]

/-- The literal of a value is read back. -/
theorem parseValue_print (h : tx.Lawful) {v : Value} (hv : Printed v) :
    parseValue tx (printValue v) = .ok v := by
  cases v with
  | null => exact parseValue_null h
  | integer i => exact parseValue_integer h i
  | text t =>
      rw [printValue, parseValue_quoted h, String.ofList_toList]
  | blob b => exact parseValue_hex h (hexOf_hexText b)
  | float _ | real _ | vector _ => exact absurd hv id

/-! ## Conditions -/

/-- The text of an operator. -/
def printOperator : Operator → List Char
  | .equal => "=".toList
  | .notEqual => "!=".toList
  | .greaterThan => ">".toList
  | .lessThan => "<".toList
  | .greaterThanOrEqual => ">=".toList
  | .lessThanOrEqual => "<=".toList
  | .like => "LIKE".toList

/-- What stands before the literal of a condition. -/
def conditionHead (column : String) (o : Operator) : List Char :=
  column.toList ++ (' ' :: (printOperator o ++ [' ']))

/-- The text of a condition. -/
def printCondition (c : Condition) : List Char :=
  conditionHead c.column c.operator ++ printValue c.value

theorem operatorFromStr_print (o : Operator) : operatorFromStr (printOperator o) = .ok o := by
  cases o <;> rfl

theorem printOperator_mem (o : Operator) : printOperator o ∈ operatorTexts.map String.toList := by
  cases o <;> decide

theorem printOperator_ne_nil (o : Operator) : printOperator o ≠ [] := by
  cases o <;> exact List.cons_ne_nil _ _

/-- With a blank behind it an operator is matched as such. -/
theorem exec_operator {β : Type} {k : Regex.Cursor Char → Option β} {c : Regex.Cursor Char}
    {rest : List Char} {x : β} (o : Operator) (heq : c.rest = printOperator o ++ ' ' :: rest)
    (h : k ⟨false, ' ' :: rest, (2, printOperator o) :: c.groups⟩ = some x) :
    (Regex.group 2 (Regex.alts (operatorTexts.map fun op =>
      Regex.seqs (op.toList.map letter)))).exec k c = some x := by
  obtain ⟨b, r, groups⟩ := c
  obtain rfl : r = printOperator o ++ ' ' :: rest := heq
  rw [Regex.exec]
  generalize hκ : (fun d : Regex.Cursor Char => k ⟨d.atStart, d.rest,
    (2, (printOperator o ++ ' ' :: rest).take ((printOperator o ++ ' ' :: rest).length -
      d.rest.length)) :: d.groups⟩) = κ
  have hstop : κ ⟨false, ' ' :: rest, groups⟩ = some x := by
    rw [← hκ]
    dsimp only
    rw [Regex.take_sub]
    exact h
  clear hκ h
  cases o <;> simp [operatorTexts, Regex.alts, Regex.seqs, Regex.exec, letter, printOperator, hstop]

theorem not_word_blank (h : tx.Lawful) : tx.isWord ' ' = false := by
  by_contra hword
  have hwhite := h.word_white ' ' (Bool.not_eq_false _ ▸ hword)
  cases hwhite

/-- A condition with blanks around its operator is matched as it is printed; its literal goes
to the end of the line. -/
theorem conditionRe_exec (h : tx.Lawful) {column : String} (o : Operator) {l : List Char}
    (hcolumn : Name tx column.toList) (hne : l ≠ [])
    (hl : ∀ c, l.head? = some c → isWhite c = false) :
    (conditionRe tx).exec some ⟨true, conditionHead column o ++ l, []⟩ = some ⟨false,
      l.dropWhile dot, [(3, l.takeWhile dot), (2, printOperator o), (1, column.toList)]⟩ := by
  have heq : conditionHead column o ++ l =
      column.toList ++ ([' '] ++ (printOperator o ++ ' ' :: l)) := by
    simp [conditionHead]
  have hoperator : ∀ c, (printOperator o ++ ' ' :: l).head? = some c → isWhite c = false := by
    intro c hc
    rw [List.head?_append_of_ne_nil _ (printOperator_ne_nil o)] at hc
    exact operator_solid (printOperator_mem o) c (List.mem_of_mem_head? hc)
  have hblank : ∀ c ∈ [' '], isWhite c = true := by
    intro c hc
    rw [List.mem_singleton.mp hc]
    rfl
  rw [heq, conditionRe]
  refine exec_name rfl hcolumn (fun c hc => ?_) ?_
  · obtain rfl := Option.some.inj hc
    exact not_word_blank h
  refine Regex.exec_many_max rfl hblank hoperator ?_
  refine exec_operator o rfl ?_
  refine Regex.exec_many_max (w := [' ']) rfl hblank hl ?_
  refine exec_line ?_ rfl
  obtain ⟨a, t, rfl⟩ := List.exists_cons_of_ne_nil hne
  rw [List.takeWhile_cons_of_pos (dot_of_not_white (hl a rfl))]
  exact List.cons_ne_nil _ _

/-- What a printed column and operator make of the text behind them. -/
theorem parseCondition_head (h : tx.Lawful) {column : String} (o : Operator) {l : List Char}
    (hcolumn : Name tx column.toList) (hne : l ≠ [])
    (hl : ∀ c, l.head? = some c → isWhite c = false) :
    parseCondition tx (conditionHead column o ++ l) =
      parseValue tx (trim isWhite ((trimEnd isWhite l).takeWhile dot)) >>= fun v =>
        .ok ⟨column, o, v⟩ := by
  obtain ⟨v, hv, hwhite⟩ := trimEnd_decompose isWhite l
  have hprefix : trimEnd isWhite l ≠ [] := by
    intro hnil
    rw [hnil, List.nil_append] at hv
    obtain ⟨a, t, rfl⟩ := List.exists_cons_of_ne_nil hne
    have ha := hwhite a (by rw [← hv]; exact List.mem_cons_self)
    rw [hl a rfl] at ha
    cases ha
  have hhead : ∀ c, (trimEnd isWhite l).head? = some c → isWhite c = false := by
    intro c hc
    refine hl c ?_
    rw [hv, List.head?_append_of_ne_nil _ hprefix, hc]
  have htrim : trim isWhite (conditionHead column o ++ l) =
      conditionHead column o ++ trimEnd isWhite l := by
    have hsplit : conditionHead column o ++ l =
        [] ++ (conditionHead column o ++ trimEnd isWhite l) ++ v := by
      rw [List.nil_append, List.append_assoc, ← hv]
    rw [hsplit, trim_append (by simp) hwhite]
    refine trim_of_ends (fun c hc => ?_) fun c hc => ?_
    · have hne' : conditionHead column o ≠ [] := by simp [conditionHead]
      rw [List.head?_append_of_ne_nil _ hne', conditionHead,
        List.head?_append_of_ne_nil _ hcolumn.1] at hc
      exact h.word_white c (hcolumn.2 c (List.mem_of_mem_head? hc))
    · rw [List.getLast?_append_of_ne_nil _ hprefix] at hc
      have hnot := List.rdropWhile_last_not isWhite l hprefix
      rw [List.getLast?_eq_some_getLast hprefix] at hc
      rw [← Option.some.inj hc]
      exact Bool.eq_false_iff.mpr hnot
  have hsearch := Regex.search_of_start (conditionRe_exec h o hcolumn hprefix hhead)
  rw [← htrim] at hsearch
  obtain ⟨column', op, value, hparts⟩ := conditionRe_parts hsearch
  have hgroups := hparts.groups
  simp only [List.cons.injEq, Prod.mk.injEq, true_and, and_true] at hgroups
  obtain ⟨rfl, rfl, rfl⟩ := hgroups
  obtain ⟨o', ho', heq⟩ := parseCondition_eq ((h.captures_eq _ _).trans hsearch) hparts
  obtain rfl := Except.ok.inj ((operatorFromStr_print o).symm.trans ho')
  rw [heq, String.ofList_toList]

end Parser

end VelociDB
