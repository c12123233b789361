/-
# Literals (`parser.rs`, `vector.rs`)

`parse_value` and what it is made of: numbers, vector constructors, quoted strings, blobs.
A text is a list of letters; the slices count bytes and panic where Rust's do.

The tables of Unicode, the values of floats and the regex crate come from outside
(`TextFns`); `TextFns.Lawful` is what is known of them.
-/
import VelociDB.Lib.Regex
import VelociDB.Lib.Text
import VelociDB.Select

namespace VelociDB

open Text

/-- `char::is_whitespace`, and `\s` of the regex crate. -/
def isWhite (c : Char) : Bool :=
  let n := c.toNat
  decide (9 ≤ n ∧ n ≤ 13 ∨ n = 0x20 ∨ n = 0x85 ∨ n = 0xa0 ∨ n = 0x1680 ∨
    0x2000 ≤ n ∧ n ≤ 0x200a ∨ n = 0x2028 ∨ n = 0x2029 ∨ n = 0x202f ∨ n = 0x205f ∨ n = 0x3000)

/-- A letter of one byte. -/
def isAscii (c : Char) : Bool := decide (c.toNat < 128)

/-- What the parser takes from outside the crate: the case tables (a final Σ, whose lower
case depends on its neighbours, is compared with nothing), the classes `\w` and `\d`, the
values of float texts, and the regex crate. -/
structure TextFns where
  upperChar : Char → List Char
  lowerChar : Char → List Char
  isWord : Char → Bool
  isDigit : Char → Bool
  float64 : List Char → UInt64
  float32 : List Char → UInt32
  captures : Regex Char → List Char → Option (Regex.Match Char)

namespace TextFns

variable (tx : TextFns)

/-- `str::to_uppercase`. -/
def upper (s : List Char) : List Char := s.flatMap tx.upperChar

/-- `str::to_lowercase`. -/
def lower (s : List Char) : List Char := s.flatMap tx.lowerChar

/-- The letters beyond ASCII whose upper case has an ASCII letter. -/
def upperSpecials : List (Char × List Char) :=
  [('ß', ['S', 'S']), ('ı', ['I']), ('ŉ', ['ʼ', 'N']), ('ſ', ['S']),
    ('ǰ', ['J', '\u030c']), ('ẖ', ['H', '\u0331']), ('ẗ', ['T', '\u0308']),
    ('ẘ', ['W', '\u030a']), ('ẙ', ['Y', '\u030a']), ('ẚ', ['A', 'ʾ']),
    ('ﬀ', ['F', 'F']), ('ﬁ', ['F', 'I']), ('ﬂ', ['F', 'L']), ('ﬃ', ['F', 'F', 'I']),
    ('ﬄ', ['F', 'F', 'L']), ('ﬅ', ['S', 'T']), ('ﬆ', ['S', 'T'])]

/-- The letters beyond ASCII whose lower case has an ASCII letter. -/
def lowerSpecials : List (Char × List Char) := [('İ', ['i', '\u0307']), ('\u212a', ['k'])]

/-- What is known of them. -/
structure Lawful : Prop where
  upper_ascii : ∀ c, isAscii c = true → tx.upperChar c = [c.toUpper]
  upper_special : ∀ e ∈ upperSpecials, tx.upperChar e.1 = e.2
  upper_other : ∀ c, isAscii c = false → (∀ e ∈ upperSpecials, e.1 ≠ c) →
    ∀ x ∈ tx.upperChar c, isAscii x = false
  upper_ne_nil : ∀ c, tx.upperChar c ≠ []
  lower_ascii : ∀ c, isAscii c = true → tx.lowerChar c = [c.toLower]
  lower_special : ∀ e ∈ lowerSpecials, tx.lowerChar e.1 = e.2
  lower_other : ∀ c, isAscii c = false → (∀ e ∈ lowerSpecials, e.1 ≠ c) →
    ∀ x ∈ tx.lowerChar c, isAscii x = false
  lower_ne_nil : ∀ c, tx.lowerChar c ≠ []
  word_ascii : ∀ c, isAscii c = true → tx.isWord c = (c.isAlphanum || c == '_')
  word_white : ∀ c, tx.isWord c = true → isWhite c = false
  digit_ascii : ∀ c, isAscii c = true → tx.isDigit c = c.isDigit
  captures_eq : ∀ r s, tx.captures r s = r.search s

end TextFns

/-! ## Numbers -/

/-- `char::to_digit`. -/
def digitValue (radix : Nat) (c : Char) : Option Nat :=
  let n := c.toNat
  let d := if c.isDigit then some (n - 48) else if c.isLower then some (n - 87)
    else if c.isUpper then some (n - 55) else none
  d.filter fun d => decide (d < radix)

/-- The digits of a number up to `max`. -/
def parseDigits (max radix : Nat) : Nat → List Char → Except String Nat
  | acc, [] => .ok acc
  | acc, c :: rest =>
      match digitValue radix c with
      | none => .error "invalid digit found in string"
      | some d =>
          if acc * radix + d ≤ max then parseDigits max radix (acc * radix + d) rest
          else .error "number too large to fit in target type"

/-- `from_str_radix` of an unsigned type with largest value `max`. -/
def parseUnsigned (max radix : Nat) : List Char → Except String Nat
  | [] => .error "cannot parse integer from empty string"
  | c :: rest =>
      if c = '+' ∧ rest ≠ [] then parseDigits max radix 0 rest
      else parseDigits max radix 0 (c :: rest)

/-- `s.parse::<i64>()`. -/
def parseInt64 : List Char → Option Int64
  | [] => none
  | c :: rest =>
      if c = '-' ∧ rest ≠ [] then
        (parseDigits (2 ^ 63) 10 0 rest).toOption.map fun n => Int64.ofInt (-n)
      else if c = '+' ∧ rest ≠ [] then
        (parseDigits (2 ^ 63 - 1) 10 0 rest).toOption.map fun n => Int64.ofInt n
      else (parseDigits (2 ^ 63 - 1) 10 0 (c :: rest)).toOption.map fun n => Int64.ofInt n

/-- A text without the sign before it. -/
def dropSign : List Char → List Char
  | [] => []
  | c :: rest => if c = '+' ∨ c = '-' then rest else c :: rest

/-- `e5`, `E-7`, or nothing. -/
def isExponent : List Char → Bool
  | [] => true
  | c :: rest =>
      (c = 'e' || c = 'E') && dropSign rest ≠ [] && (dropSign rest).all Char.isDigit

/-- The texts that `parse::<f64>()` and `parse::<f32>()` accept. -/
def floatSyntax (s : List Char) : Bool :=
  let s := dropSign s
  let whole := s.takeWhile Char.isDigit
  let rest := s.dropWhile Char.isDigit
  let fraction := if rest.head? = some '.' then rest.tail.takeWhile Char.isDigit else []
  let rest := if rest.head? = some '.' then rest.tail.dropWhile Char.isDigit else rest
  decide (s.map Char.toLower ∈ ["inf".toList, "infinity".toList, "nan".toList]) ||
    (decide (whole ≠ [] ∨ fraction ≠ []) && isExponent rest)

section

variable (tx : TextFns)

/-- `s.parse::<f64>()`. -/
def parseFloat64 (s : List Char) : Option UInt64 :=
  if floatSyntax s then some (tx.float64 s) else none

/-- `s.parse::<f32>()`. -/
def parseFloat32 (s : List Char) : Option UInt32 :=
  if floatSyntax s then some (tx.float32 s) else none

/-! ## Vectors -/

/-- `parse_vector_literal`. -/
def parseVectorLiteral (s : List Char) : Except VelociError (List UInt32) :=
  let s := trim isWhite s
  match unwrap '[' ']' s with
  | none => .error (.parseError
      ("Invalid vector literal '" ++ String.ofList s ++ "': expected '[x, y, ...]'"))
  | some inner =>
      let inner := trim isWhite inner
      if inner = [] then .ok []
      else (inner.splitOn ',').mapM fun part =>
        match parseFloat32 tx (trim isWhite part) with
        | some f => .ok f
        | none => .error (.parseError ("Invalid vector component '" ++
            String.ofList (trim isWhite part) ++ "' in literal '" ++ String.ofList s ++ "'"))

/-- `unwrap`, and a slice, which panics out of range or inside a letter. -/
def orPanic {α : Type} : Option α → Except Fault α
  | some a => .ok a
  | none => .error .panic

/-- The text without its quotes. -/
def unquote (s : List Char) : Option (List Char) :=
  (unwrap '\'' '\'' s).or (unwrap '"' '"' s)

/-- The argument of a call of one of some functions, given by the text up to the
parenthesis. -/
def callArgument (s : List Char) : List (List Char) → Except Fault (Option (List Char))
  | [] => .ok none
  | name :: names =>
      if name <+: tx.lower s ∧ s.getLast? = some ')' then do
        let inner ← orPanic (slice s (size name) (size s - 1))
        return some (trim isWhite inner)
      else callArgument s names

/-- `parse_vector_constructor`; a fault is a panic. -/
def parseVectorConstructor (s : List Char) :
    Except Fault (Option (Except VelociError (List UInt32))) := do
  let s := trim isWhite s
  if s.head? = some '[' then return some (parseVectorLiteral tx s)
  let unquoted := unquote s
  if (unquoted.bind fun r => (trimStart isWhite r).head?) = some '[' then
    return unquoted.map (parseVectorLiteral tx)
  let argument ← callArgument tx s ["vector32(".toList, "vector64(".toList, "vector(".toList]
  return argument.map fun inner => parseVectorLiteral tx ((unquote inner).getD inner)

/-! ## Values -/

/-- A text between two quotes `q`. -/
def quotedBy (q : Char) (s : List Char) : Prop := s.head? = some q ∧ s.getLast? = some q

instance decidableQuotedBy (q : Char) (s : List Char) : Decidable (quotedBy q s) :=
  inferInstanceAs (Decidable (_ ∧ _))

/-- What `\q` and two backslashes stand for. -/
def unescape (q : Char) (s : List Char) : List Char :=
  replacePair '\\' '\\' '\\' (replacePair '\\' q q s)

/-- The text between two quotes. -/
def parseQuoted (q : Char) (s : List Char) : Except Fault Value := do
  let content ← orPanic (slice s 1 (size s - 1))
  return .text (String.ofList (unescape q content))

/-- The bytes of `n` pairs of hex digits; `hex_part[i..i + 2]` is the first two bytes of
what the pairs before left. -/
def hexBytes : Nat → List Char → Except Fault Bytes
  | 0, _ => .ok []
  | n + 1, s => do
      let pair ← orPanic (sliceTo s 2)
      match parseUnsigned 255 16 pair with
      | .error _ =>
          throw (.error (.parseError ("Invalid hex digit in BLOB: " ++ String.ofList pair)))
      | .ok b => do
          let rest ← hexBytes n (s.drop pair.length)
          return UInt8.ofNat b :: rest

/-- `X'...'`. -/
def isBlob (s : List Char) : Prop :=
  3 ≤ size s ∧ (['X', '\''] <+: s ∨ ['x', '\''] <+: s) ∧ s.getLast? = some '\''

instance decidableIsBlob (s : List Char) : Decidable (isBlob s) :=
  inferInstanceAs (Decidable (_ ∧ _ ∧ _))

/-- The bytes of a blob literal. -/
def parseBlob (s : List Char) : Except Fault Value := do
  let hex ← orPanic (slice s 2 (size s - 1))
  if size hex % 2 ≠ 0 then
    throw (.error (.parseError "Invalid BLOB literal: odd number of hex digits"))
  let bytes ← hexBytes (size hex / 2) hex
  return .blob bytes

/-- A literal that is no vector and not NULL. -/
def parseScalar (s : List Char) : Except Fault Value :=
  if quotedBy '\'' s then parseQuoted '\'' s
  else if quotedBy '"' s then parseQuoted '"' s
  else match parseInt64 s with
    | some i => .ok (.integer i)
    | none =>
        match parseFloat64 tx s with
        | some f => .ok (.float f)
        | none => if isBlob s then parseBlob s else .ok (.text (String.ofList s))

/-- `Parser::parse_value`. -/
def parseValue (s : List Char) : Except Fault Value := do
  let s := trim isWhite s
  if tx.upper s = "NULL".toList then return .null
  match ← parseVectorConstructor tx s with
  | none => parseScalar tx s
  | some parsed =>
      if s.head? = some '\'' ∨ s.head? = some '"' then parseScalar tx s
      else
        match parsed with
        | .ok v => return .vector v
        | .error e => throw (.error e)

/-- The state of the scan of a VALUES list. -/
structure ValuesScan where
  current : List Char
  quote : Option Char
  escaped : Bool
  depth : Nat

/-- The loop of `parse_values`, which parses a literal at the comma behind it. -/
def valuesLoop : ValuesScan → List Char → Except Fault (List Value)
  | st, [] =>
      if trim isWhite st.current = [] then .ok []
      else do return [← parseValue tx (trim isWhite st.current)]
  | st, ch :: rest =>
      let st' := { st with current := st.current ++ [ch] }
      if st.escaped then valuesLoop { st' with escaped := false } rest
      else if ch = '\\' ∧ st.quote.isSome then valuesLoop { st' with escaped := true } rest
      else if st.quote = none ∧ (ch = '\'' ∨ ch = '"') then
        valuesLoop { st' with quote := some ch } rest
      else if st.quote = some ch then valuesLoop { st' with quote := none } rest
      else if st.quote = none ∧ (ch = '(' ∨ ch = '[') then
        valuesLoop { st' with depth := st.depth + 1 } rest
      else if st.quote = none ∧ (ch = ')' ∨ ch = ']') then
        valuesLoop { st' with depth := st.depth - 1 } rest
      else if st.quote = none ∧ st.depth = 0 ∧ ch = ',' then do
        let value ← parseValue tx (trim isWhite st.current)
        let values ← valuesLoop { st with current := [] } rest
        return value :: values
      else valuesLoop st' rest

/-- `Parser::parse_values`. -/
def parseValues (s : List Char) : Except Fault (List Value) :=
  valuesLoop tx ⟨[], none, false, 0⟩ s

end

end VelociDB
