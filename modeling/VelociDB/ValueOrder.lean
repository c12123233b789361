/-
# The order of values (`compare_values`)

`compare_values` compares integers exactly, an integer and a float as floats, and values
of different kinds by the text `{:?}` prints.  It is not a total order: NaN equals every
number, and two integers may round to one float.  What holds, and what the UNIQUE check
relies on, is that "less" is transitive: the kinds stand one after the other (blobs,
numbers, texts, vectors), and rounding is monotone.
-/
import VelociDB.Query

namespace VelociDB

/-! ## Rounding is monotone -/

/-- The rounded mantissa of `a`, whose leading bit is bit `e`. -/
def mantissaOf (a e : Nat) : Nat :=
  if e ≤ 52 then a * 2 ^ (52 - e)
  else
    let unit := 2 ^ (e - 52)
    let q := a / unit
    let r := a % unit
    if unit < 2 * r ∨ (2 * r = unit ∧ q % 2 = 1) then q + 1 else q

/-- Exponent and mantissa of the float nearest to `a`. -/
def magnitudeOf (a : Nat) : Nat :=
  if a = 0 then 0 else (a.log2 + 1023) * 2 ^ 52 + (mantissaOf a a.log2 - 2 ^ 52)

theorem intToFloat_eq (i : Int64) :
    intToFloat i = UInt64.ofNat ((if i < 0 then 2 ^ 63 else 0) + magnitudeOf i.toInt.natAbs) := rfl

theorem mantissaOf_bounds {a : Nat} (ha : a ≠ 0) :
    2 ^ 52 ≤ mantissaOf a a.log2 ∧ mantissaOf a a.log2 ≤ 2 ^ 53 := by
  have hlo : 2 ^ a.log2 ≤ a := Nat.log2_self_le ha
  have hhi : a < 2 ^ (a.log2 + 1) := Nat.lt_log2_self
  unfold mantissaOf
  split
  · rename_i he
    have hpow : 2 ^ a.log2 * 2 ^ (52 - a.log2) = 2 ^ 52 := by
      rw [← pow_add, Nat.add_sub_cancel' he]
    constructor
    · calc 2 ^ 52 = 2 ^ a.log2 * 2 ^ (52 - a.log2) := hpow.symm
        _ ≤ a * 2 ^ (52 - a.log2) := Nat.mul_le_mul_right _ hlo
    · calc a * 2 ^ (52 - a.log2) ≤ 2 ^ (a.log2 + 1) * 2 ^ (52 - a.log2) :=
            Nat.mul_le_mul_right _ hhi.le
        _ = 2 * (2 ^ a.log2 * 2 ^ (52 - a.log2)) := by rw [pow_succ]; ring
        _ = 2 ^ 53 := by rw [hpow]; norm_num
  · rename_i he
    have hlo' : 2 ^ 52 ≤ a / 2 ^ (a.log2 - 52) := by
      rw [Nat.le_div_iff_mul_le (by positivity), ← pow_add, Nat.add_sub_cancel' (by omega)]
      exact hlo
    have hhi' : a / 2 ^ (a.log2 - 52) < 2 ^ 53 := by
      rw [Nat.div_lt_iff_lt_mul (by positivity), ← pow_add]
      have hexp : 53 + (a.log2 - 52) = a.log2 + 1 := by omega
      rw [hexp]
      exact hhi
    dsimp only
    split <;> omega

/-- Rounding to a multiple of a fixed unit is monotone. -/
theorem mantissaOf_mono {a b e : Nat} (h : a ≤ b) : mantissaOf a e ≤ mantissaOf b e := by
  unfold mantissaOf
  split
  · exact Nat.mul_le_mul_right _ h
  · dsimp only
    set unit := 2 ^ (e - 52) with hunit
    have hpos : 0 < unit := by positivity
    have hq : a / unit ≤ b / unit := Nat.div_le_div_right h
    rcases Nat.lt_or_eq_of_le hq with hlt | heq
    · split <;> split <;> omega
    · have ha := Nat.div_add_mod a unit
      have hb := Nat.div_add_mod b unit
      rw [heq] at ha
      have hr : a % unit ≤ b % unit := by omega
      split <;> split <;> omega

theorem magnitudeOf_mono {a b : Nat} (h : a ≤ b) : magnitudeOf a ≤ magnitudeOf b := by
  unfold magnitudeOf
  split
  · exact Nat.zero_le _
  · rename_i ha
    rw [if_neg (by omega : b ≠ 0)]
    have hba := mantissaOf_bounds ha
    have hbb := mantissaOf_bounds (by omega : b ≠ 0)
    have hlog : a.log2 ≤ b.log2 := by
      rw [Nat.le_log2 (by omega)]
      exact (Nat.log2_self_le ha).trans h
    rcases Nat.lt_or_eq_of_le hlog with hlt | heq
    · omega
    · have hm : mantissaOf a b.log2 ≤ mantissaOf b b.log2 := mantissaOf_mono h
      rw [← heq] at hm ⊢
      omega

/-- No integer rounds to infinity. -/
theorem magnitudeOf_lt {a : Nat} (h : a ≤ 2 ^ 63) : magnitudeOf a < floatInfinity := by
  refine (magnitudeOf_mono h).trans_lt ?_
  have hlog : (2 ^ 63 : Nat).log2 = 63 := Nat.log2_two_pow
  simp only [magnitudeOf, mantissaOf, hlog, floatInfinity]
  norm_num

/-! ## Floats -/

/-- Not a number. -/
def isNaN (x : UInt64) : Prop := floatInfinity < x.toNat % 2 ^ 63

instance (x : UInt64) : Decidable (isNaN x) := inferInstanceAs (Decidable (_ < _))

/-- Floats that are not NaN, in order. -/
def floatKey (x : UInt64) : Int :=
  if x.toNat < 2 ^ 63 then (x.toNat % 2 ^ 63 : Nat) else -(x.toNat % 2 ^ 63 : Nat)

theorem floatPartialCmp_eq (a b : UInt64) :
    floatPartialCmp a b =
      if isNaN a ∨ isNaN b then none else some (compare (floatKey a) (floatKey b)) := rfl

theorem floatPartialCmp_swap (a b : UInt64) :
    floatPartialCmp b a = (floatPartialCmp a b).map Ordering.swap := by
  simp only [floatPartialCmp_eq, or_comm (a := isNaN b)]
  split
  · rfl
  · rw [Option.map_some, ← Std.OrientedOrd.eq_swap]

theorem intToFloat_toNat (i : Int64) : (intToFloat i).toNat =
    (if i < 0 then 2 ^ 63 else 0) + magnitudeOf i.toInt.natAbs ∧
      magnitudeOf i.toInt.natAbs < floatInfinity := by
  have habs : i.toInt.natAbs ≤ 2 ^ 63 := by
    have hlo := i.le_toInt
    have hhi := i.toInt_lt
    omega
  have hlt := magnitudeOf_lt habs
  refine ⟨?_, hlt⟩
  rw [intToFloat_eq, UInt64.toNat_ofNat']
  refine Nat.mod_eq_of_lt ?_
  rw [floatInfinity] at hlt
  split <;> omega

theorem not_isNaN_intToFloat (i : Int64) : ¬ isNaN (intToFloat i) := by
  obtain ⟨hnat, hlt⟩ := intToFloat_toNat i
  rw [isNaN, hnat, floatInfinity] at *
  split <;> omega

theorem floatKey_intToFloat (i : Int64) : floatKey (intToFloat i) =
    if i < 0 then -(magnitudeOf i.toInt.natAbs : Int) else magnitudeOf i.toInt.natAbs := by
  obtain ⟨hnat, hlt⟩ := intToFloat_toNat i
  rw [floatKey, hnat]
  rw [floatInfinity] at hlt
  split <;> split <;> omega

theorem floatKey_intToFloat_mono {i j : Int64} (h : i ≤ j) :
    floatKey (intToFloat i) ≤ floatKey (intToFloat j) := by
  have hle := Int64.le_iff_toInt_le.mp h
  simp only [floatKey_intToFloat, Int64.lt_iff_toInt_lt, Int64.toInt_zero]
  split
  · split
    · have := magnitudeOf_mono (a := j.toInt.natAbs) (b := i.toInt.natAbs) (by omega)
      omega
    · omega
  · rw [if_neg (by omega)]
    have := magnitudeOf_mono (a := i.toInt.natAbs) (b := j.toInt.natAbs) (by omega)
    omega

/-! ## Kinds of values -/

/-- Values of one kind are comparable; the kinds stand in this order. -/
def Value.kind : Value → Nat
  | .blob _ => 0
  | .float _ | .real _ | .integer _ => 1
  | .text _ => 2
  | .vector _ => 3
  | .null => 4

/-- The first letter of what `{:?}` prints. -/
def Value.initial : Value → Char
  | .blob _ => 'B'
  | .float _ => 'F'
  | .integer _ => 'I'
  | .null => 'N'
  | .real _ => 'R'
  | .text _ => 'T'
  | .vector _ => 'V'

variable {ext : Externals} {a b c : Value}

theorem debug_initial (ext : Externals) (a : Value) :
    ∃ rest, (ext.debug a).toList = a.initial :: rest := by
  cases a <;> simp [Externals.debug, Value.initial]

theorem compare_debug (h : a.initial < b.initial) : compare (ext.debug a) (ext.debug b) = .lt := by
  obtain ⟨s, hs⟩ := debug_initial ext a
  obtain ⟨t, ht⟩ := debug_initial ext b
  refine compareOfLessAndEq_eq_lt.mpr ?_
  rw [String.lt_iff, hs, ht]
  exact List.Lex.rel h

/-- Turning the arguments round turns the result round. -/
theorem compareValues_swap (a b : Value) :
    compareValues ext b a = (compareValues ext a b).swap := by
  have hfloat : ∀ x y, (floatPartialCmp y x).getD .eq = ((floatPartialCmp x y).getD .eq).swap := by
    intro x y
    rw [floatPartialCmp_swap x y]
    cases floatPartialCmp x y <;> rfl
  cases a <;> cases b <;>
    first
    | exact hfloat _ _
    | exact Std.OrientedOrd.eq_swap
    | rfl

theorem initial_lt_of_kind_lt (h : a.kind < b.kind) (hb : b ≠ .null) : a.initial < b.initial := by
  cases a <;> cases b <;> simp [Value.kind, Value.initial] at h hb ⊢

/-- Values of different kinds are told apart by what `{:?}` prints. -/
theorem compareValues_of_kind_ne (h : a.kind ≠ b.kind) (ha : a ≠ .null) (hb : b ≠ .null) :
    compareValues ext a b = compare (ext.debug a) (ext.debug b) := by
  cases a <;> cases b <;> first | exact absurd rfl h | exact absurd rfl ha | exact absurd rfl hb | rfl

theorem compareValues_of_kind_lt (h : a.kind < b.kind) : compareValues ext a b = .lt := by
  have ha : a ≠ .null := by
    rintro rfl
    cases b <;> simp [Value.kind] at h
  by_cases hb : b = .null
  · subst hb
    cases a <;> first | rfl | exact absurd rfl ha
  · rw [compareValues_of_kind_ne h.ne ha hb]
    exact compare_debug (initial_lt_of_kind_lt h hb)

theorem compareValues_of_kind_gt (h : b.kind < a.kind) : compareValues ext a b = .gt := by
  rw [compareValues_swap b a, compareValues_of_kind_lt h]
  rfl

theorem kind_eq_of_compareValues (h : compareValues ext a b = .eq) : a.kind = b.kind := by
  rcases Nat.lt_trichotomy a.kind b.kind with hlt | heq | hgt
  · rw [compareValues_of_kind_lt hlt] at h
    cases h
  · exact heq
  · rw [compareValues_of_kind_gt hgt] at h
    cases h

theorem kind_le_of_compareValues (h : compareValues ext a b = .lt) : a.kind ≤ b.kind := by
  by_contra hlt
  rw [compareValues_of_kind_gt (by omega)] at h
  cases h

/-- A stored value equals what the value equals. -/
theorem compareValues_stored_eq :
    compareValues ext a b.stored = .eq ↔ compareValues ext a b = .eq := by
  cases b with
  | real f =>
      by_cases hk : a.kind = 1
      · cases a with
        | integer | float | real => rfl
        | null | text | blob | vector => cases hk
      · have hne : ∀ v : Value, v.kind = 1 → compareValues ext a v ≠ .eq :=
          fun v hv h => hk ((kind_eq_of_compareValues h).trans hv)
        exact iff_of_false (hne _ rfl) (hne _ rfl)
  | null | integer | float | text | blob | vector => exact Iff.rfl

/-! ## Numbers -/

/-- A number as a float. -/
def Value.number : Value → UInt64
  | .float f => f
  | .real f => f
  | .integer i => intToFloat i
  | _ => 0

/-- Two integers are compared as such, other numbers as floats. -/
theorem compareValues_number (ha : a.kind = 1) (hb : b.kind = 1) :
    (∃ i j, a = .integer i ∧ b = .integer j) ∨
      compareValues ext a b = (floatPartialCmp a.number b.number).getD .eq := by
  cases a with
  | null | text | blob | vector => cases ha
  | float | real =>
      cases b with
      | null | text | blob | vector => cases hb
      | float | real | integer => exact Or.inr rfl
  | integer i =>
      cases b with
      | null | text | blob | vector => cases hb
      | float | real => exact Or.inr rfl
      | integer j => exact Or.inl ⟨i, j, rfl, rfl⟩

theorem floatPartialCmp_lt {x y : UInt64} : (floatPartialCmp x y).getD .eq = .lt ↔
    ¬ isNaN x ∧ ¬ isNaN y ∧ floatKey x < floatKey y := by
  rw [floatPartialCmp_eq]
  split
  · rename_i hn
    simp only [Option.getD_none, reduceCtorEq, false_iff]
    rintro ⟨hx, hy, -⟩
    exact hn.elim hx hy
  · rename_i hn
    rw [not_or] at hn
    simp only [Option.getD_some, hn.1, hn.2, not_false_eq_true, true_and]
    exact compare_lt_iff_lt

theorem number_lt (ha : a.kind = 1) (hb : b.kind = 1) (h : compareValues ext a b = .lt) :
    ¬ isNaN a.number ∧ ¬ isNaN b.number ∧ floatKey a.number ≤ floatKey b.number ∧
      (floatKey a.number < floatKey b.number ∨
        ∃ i j, a = .integer i ∧ b = .integer j ∧ i < j) := by
  rcases compareValues_number ha hb with ⟨i, j, rfl, rfl⟩ | heq
  · have hij : i < j := compare_lt_iff_lt.mp h
    exact ⟨not_isNaN_intToFloat i, not_isNaN_intToFloat j, floatKey_intToFloat_mono hij.le,
      Or.inr ⟨i, j, rfl, rfl, hij⟩⟩
  · rw [heq, floatPartialCmp_lt] at h
    exact ⟨h.1, h.2.1, h.2.2.le, Or.inl h.2.2⟩

theorem compareValues_of_floatKey_lt (ha : a.kind = 1) (hb : b.kind = 1) (hna : ¬ isNaN a.number)
    (hnb : ¬ isNaN b.number) (h : floatKey a.number < floatKey b.number) :
    compareValues ext a b = .lt := by
  rcases compareValues_number ha hb with ⟨i, j, rfl, rfl⟩ | heq
  · refine compare_lt_iff_lt.mpr (lt_of_not_ge fun hji => ?_)
    exact absurd (floatKey_intToFloat_mono hji) (not_le.mpr h)
  · rw [heq, floatPartialCmp_lt]
    exact ⟨hna, hnb, h⟩

theorem number_lt_trans (ha : a.kind = 1) (hb : b.kind = 1) (hc : c.kind = 1)
    (hab : compareValues ext a b = .lt) (hbc : compareValues ext b c = .lt) :
    compareValues ext a c = .lt := by
  obtain ⟨hna, -, hle, hab⟩ := number_lt ha hb hab
  obtain ⟨-, hnc, hle', hbc⟩ := number_lt hb hc hbc
  rcases hab with hlt | ⟨i, j, rfl, rfl, hij⟩
  · exact compareValues_of_floatKey_lt ha hc hna hnc (hlt.trans_le hle')
  · rcases hbc with hlt | ⟨j', k, hj, rfl, hjk⟩
    · exact compareValues_of_floatKey_lt ha hc hna hnc (hle.trans_lt hlt)
    · obtain rfl := Value.integer.inj hj
      exact compare_lt_iff_lt.mpr (hij.trans hjk)

theorem compare_lt_trans {α : Type} [Ord α] [Std.TransOrd α] {x y z : α} (hxy : compare x y = .lt)
    (hyz : compare y z = .lt) : compare x z = .lt := Std.TransCmp.lt_trans hxy hyz

/-- "Less" is transitive. -/
theorem compareValues_lt_trans (hab : compareValues ext a b = .lt)
    (hbc : compareValues ext b c = .lt) : compareValues ext a c = .lt := by
  have hkab := kind_le_of_compareValues hab
  have hkbc := kind_le_of_compareValues hbc
  rcases Nat.lt_or_eq_of_le (hkab.trans hkbc) with hlt | heq
  · exact compareValues_of_kind_lt hlt
  have hab' : a.kind = b.kind := by omega
  have hbc' : b.kind = c.kind := by omega
  by_cases hnum : a.kind = 1
  · exact number_lt_trans hnum (hab' ▸ hnum) (hbc' ▸ hab' ▸ hnum) hab hbc
  cases a with
  | null =>
      cases b with
      | null => cases hab
      | integer | float | real | text | blob | vector => cases hab'
  | integer | float | real => exact absurd rfl hnum
  | text x =>
      cases b <;> cases hab'
      cases c <;> cases hbc'
      exact compare_lt_trans hab hbc
  | blob x =>
      cases b <;> cases hab'
      cases c <;> cases hbc'
      exact compare_lt_trans hab hbc
  | vector x =>
      cases b <;> cases hab'
      cases c <;> cases hbc'
      exact compare_lt_trans hab hbc

end VelociDB
