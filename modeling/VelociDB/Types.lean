/-
# Core types (`types.rs`)

`Value`, `Row`, `Column`, `DataType` and the error enum.  A float is its bit
pattern: the storage layer only moves the bits (`to_le_bytes` / `from_le_bytes`),
and `Value::Float` and `Value::Real` stay two constructors because the row codec
writes both with one tag.

A computation that can go wrong ends in a `Fault`: an error value the caller can
inspect, or a panic, which no caller in this crate catches.
-/
import VelociDB.Lib.Bytes

namespace VelociDB

/-- `TransactionId = u64`. -/
abbrev TransactionId := Nat

/-- `u64` arithmetic wraps at this bound. -/
abbrev u64Size : Nat := 2 ^ 64

/-- `VelociError`.  `io` is `Io(std::io::Error)`; the other constructors carry
the message the source formats. -/
inductive VelociError where
  | io (kind : String)
  | ioError (msg : String)
  | corruption (msg : String)
  | busy
  | notFound (msg : String)
  | constraintViolation (msg : String)
  | parseError (msg : String)
  | transactionError (msg : String)
  | typeMismatch (expected actual : String)
  | storageError (msg : String)
  | notImplemented (msg : String)
  deriving DecidableEq, Repr

/-- How a call ends without a result: an `Err`, or a panic (an index or a slice out of
range). -/
inductive Fault where
  | error (e : VelociError)
  | panic
  deriving DecidableEq, Repr

/-- A result that is no panic. -/
def Safe {α : Type} (r : Except Fault α) : Prop := r ≠ .error .panic

theorem Safe.bind {α β : Type} {r : Except Fault α} {f : α → Except Fault β} (h : Safe r)
    (hf : ∀ a, r = .ok a → Safe (f a)) : Safe (r >>= f) := by
  cases r with
  | error e =>
      rintro heq
      obtain rfl := Except.error.inj heq
      exact h rfl
  | ok a => exact hf a rfl

theorem safe_ok {α : Type} (a : α) : Safe (.ok a : Except Fault α) := by simp [Safe]

theorem safe_error {α : Type} (e : VelociError) : Safe (.error (.error e) : Except Fault α) := by
  simp [Safe]

/-- The order of `i64`. -/
instance instLinearOrderInt64 : LinearOrder Int64 where
  le_refl := Int64.le_refl
  le_trans _ _ _ := Int64.le_trans
  le_antisymm _ _ := Int64.le_antisymm
  le_total := Int64.le_total
  lt_iff_le_not_ge a b := by grind
  toDecidableLE := inferInstance
  toDecidableEq := inferInstance

/-- `Value`. -/
inductive Value where
  | null
  | integer (i : Int64)
  | float (bits : UInt64)
  | real (bits : UInt64)
  | text (s : String)
  | blob (b : Bytes)
  | vector (components : List UInt32)
  deriving DecidableEq

/-- `DataType`. -/
inductive DataType where
  | integer
  | real
  | text
  | blob
  | null
  | vector (dim : UInt32)
  deriving DecidableEq

/-- `Column`. -/
structure Column where
  name : String
  dataType : DataType
  primaryKey : Bool
  notNull : Bool
  unique : Bool
  deriving DecidableEq

/-- `Row`. -/
@[ext] structure Row where
  values : List Value
  deriving DecidableEq

/-- `TableSchema`; nothing reads its `root_page`. -/
structure TableSchema where
  name : String
  columns : List Column
  deriving DecidableEq

/-! ## Floats -/

/-- `i64 as f64`: round to nearest, ties to even. -/
def intToFloat (i : Int64) : UInt64 :=
  let a := i.toInt.natAbs
  let sign := if i < 0 then 2 ^ 63 else 0
  let magnitude :=
    if a = 0 then 0
    else
      let e := a.log2
      let mantissa :=
        if e ≤ 52 then a * 2 ^ (52 - e)
        else
          let unit := 2 ^ (e - 52)
          let q := a / unit
          let r := a % unit
          if unit < 2 * r ∨ (2 * r = unit ∧ q % 2 = 1) then q + 1 else q
      (e + 1023) * 2 ^ 52 + (mantissa - 2 ^ 52)
  UInt64.ofNat (sign + magnitude)

/-- The exponent of infinities and NaNs. -/
def floatInfinity : Nat := 0x7ff * 2 ^ 52

/-- `f64::partial_cmp`. -/
def floatPartialCmp (a b : UInt64) : Option Ordering :=
  let magnitude (x : UInt64) : Nat := x.toNat % 2 ^ 63
  let signed (x : UInt64) : Int := if x.toNat < 2 ^ 63 then magnitude x else - magnitude x
  if floatInfinity < magnitude a ∨ floatInfinity < magnitude b then none
  else some (compare (signed a) (signed b))

example : intToFloat 3 = 0x4008000000000000 ∧ floatPartialCmp (intToFloat (-1)) 0 = some .lt := by
  decide

/-! ## Values -/

/-- What the model takes from outside the crate: the text the standard library prints for
a float (`{:?}` and `{}` of `f64` and `f32`) and for a quoted string, and the regex
crate. -/
structure Externals where
  debugFloat : UInt64 → String
  displayFloat : UInt64 → String
  debugComponent : UInt32 → String
  displayComponent : UInt32 → String
  quote : String → String
  regexIsMatch : String → String → Except VelociError Bool

namespace Externals

variable (ext : Externals)

/-- A value under `{:?}`: its variant, then its content in parentheses. -/
def debug : Value → String
  | .null => "Null"
  | .integer i => "Integer(" ++ toString i ++ ")"
  | .float f => "Float(" ++ ext.debugFloat f ++ ")"
  | .real f => "Real(" ++ ext.debugFloat f ++ ")"
  | .text s => "Text(" ++ ext.quote s ++ ")"
  | .blob b => "Blob([" ++ ", ".intercalate (b.map toString) ++ "])"
  | .vector v => "Vector([" ++ ", ".intercalate (v.map ext.debugComponent) ++ "])"

/-- A value under `{}`. -/
def display : Value → String
  | .null => "NULL"
  | .integer i => toString i
  | .float f => ext.displayFloat f
  | .real f => ext.displayFloat f
  | .text s => s
  | .blob b => "<blob " ++ toString b.length ++ " bytes>"
  | .vector v => "[" ++ ",".intercalate (v.map ext.displayComponent) ++ "]"

end Externals

section

variable (ext : Externals)

/-- `Value::as_integer`. -/
def Value.asInteger : Value → Except VelociError Int64
  | .integer i => .ok i
  | v => .error (.typeMismatch "Integer" (ext.debug v))

/-- `Value::as_float`. -/
def Value.asFloat : Value → Except VelociError UInt64
  | .float f => .ok f
  | .real f => .ok f
  | .integer i => .ok (intToFloat i)
  | v => .error (.typeMismatch "Float" (ext.debug v))

end

/-- A value as it comes back from storage: `Real` is read as `Float`. -/
def Value.stored : Value → Value
  | .real f => .float f
  | v => v

/-- A row as it comes back from storage. -/
def Row.stored (row : Row) : Row := ⟨row.values.map Value.stored⟩

@[simp] theorem Value.stored_integer (i : Int64) : (Value.integer i).stored = .integer i := rfl

end VelociDB
