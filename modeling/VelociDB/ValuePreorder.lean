/-
# ORDER BY and the laws of a preorder

`sort_by` asks its comparison for a total preorder.  `compare_values` is one but for a
float between two numbers it makes equal: NaN equals every number, and a float equals
every integer that rounds to it, while the two numbers on its sides differ.
-/
import VelociDB.ExecutorLogic
import VelociDB.ValueOrder

namespace VelociDB

variable {ext : Externals} {a b c : Value}

/-- What `sort_by` asks of its comparison, on three values. -/
structure OrderedTriple (ext : Externals) (a b c : Value) : Prop where
  swap : compareValues ext b a = (compareValues ext a b).swap
  le_trans : compareValues ext a b ≠ .gt → compareValues ext b c ≠ .gt →
    compareValues ext a c ≠ .gt
  eq_trans : compareValues ext a b = .eq → compareValues ext b c = .eq →
    compareValues ext a c = .eq

/-- Two numbers that differ: integers as such, others as floats, and NaN from none. -/
def Value.Differ : Value → Value → Prop
  | .integer i, .integer j => i ≠ j
  | a, c => ¬ isNaN a.number ∧ ¬ isNaN c.number ∧ floatKey a.number ≠ floatKey c.number

/-- The float `b` equals the numbers `a` and `c`, which differ: it is NaN, or two integers
round to it. -/
def Value.Bridges (a b c : Value) : Prop :=
  a.kind = 1 ∧ c.kind = 1 ∧ a.Differ c ∧ ∃ f, (b = .float f ∨ b = .real f) ∧
    (isNaN f ∨ ∃ i j, a = .integer i ∧ c = .integer j ∧ floatKey (intToFloat i) = floatKey f ∧
      floatKey (intToFloat j) = floatKey f)

/-! ## Equal numbers -/

theorem floatPartialCmp_eq_eq {x y : UInt64} : (floatPartialCmp x y).getD .eq = .eq ↔
    isNaN x ∨ isNaN y ∨ floatKey x = floatKey y := by
  rw [floatPartialCmp_eq]
  split
  · rename_i hn
    simp only [Option.getD_none, true_iff]
    exact hn.elim Or.inl fun hy => Or.inr (Or.inl hy)
  · rename_i hn
    rw [not_or] at hn
    simp only [Option.getD_some, hn.1, hn.2, false_or]
    exact Std.compare_eq_iff_eq

/-- A float against a number. -/
theorem compareValues_float {f : UInt64} (ha : a.kind = 1) (hb : b = .float f ∨ b = .real f) :
    compareValues ext a b = (floatPartialCmp a.number f).getD .eq := by
  rcases hb with rfl | rfl <;> cases a <;> first | rfl | cases ha

theorem float_compareValues {f : UInt64} (ha : a.kind = 1) (hb : b = .float f ∨ b = .real f) :
    compareValues ext b a = (floatPartialCmp f a.number).getD .eq := by
  rcases hb with rfl | rfl <;> cases a <;> first | rfl | cases ha

theorem differ_of_not_integers (h : ¬ ∃ i j, a = .integer i ∧ c = .integer j) : a.Differ c ↔
    ¬ isNaN a.number ∧ ¬ isNaN c.number ∧ floatKey a.number ≠ floatKey c.number := by
  cases a with
  | null | float | real | text | blob | vector => rfl
  | integer i =>
      cases c with
      | null | float | real | text | blob | vector => rfl
      | integer j => exact absurd ⟨i, j, rfl, rfl⟩ h

/-- Numbers that differ are those that do not compare equal. -/
theorem differ_iff (ha : a.kind = 1) (hc : c.kind = 1) :
    a.Differ c ↔ compareValues ext a c ≠ .eq := by
  by_cases hint : ∃ i j, a = .integer i ∧ c = .integer j
  · obtain ⟨i, j, rfl, rfl⟩ := hint
    exact (not_congr Std.compare_eq_iff_eq).symm
  · have hcmp : compareValues ext a c = (floatPartialCmp a.number c.number).getD .eq :=
      (compareValues_number ha hc).resolve_left hint
    rw [differ_of_not_integers hint, hcmp, Ne, Ne, floatPartialCmp_eq_eq, not_or, not_or]

/-- A float that two differing numbers equal bridges them. -/
theorem number_bridges (hb : b.kind = 1) (ha : a.kind = 1) (hc : c.kind = 1)
    (hab : compareValues ext a b = .eq) (hbc : compareValues ext b c = .eq)
    (hac : compareValues ext a c ≠ .eq) : a.Bridges b c := by
  have hdiff : a.Differ c := (differ_iff ha hc).mpr hac
  refine ⟨ha, hc, hdiff, ?_⟩
  have hfloat : ∀ f, (b = .float f ∨ b = .real f) → isNaN f ∨ ∃ i j, a = .integer i ∧
      c = .integer j ∧ floatKey (intToFloat i) = floatKey f ∧
        floatKey (intToFloat j) = floatKey f := by
    intro f hf
    rw [compareValues_float ha hf, floatPartialCmp_eq_eq] at hab
    rw [float_compareValues hc hf, floatPartialCmp_eq_eq] at hbc
    by_cases hint : ∃ i j, a = .integer i ∧ c = .integer j
    · obtain ⟨i, j, rfl, rfl⟩ := hint
      rcases hab with h | h | hi
      · exact absurd h (not_isNaN_intToFloat i)
      · exact Or.inl h
      rcases hbc with h | h | hj
      · exact Or.inl h
      · exact absurd h (not_isNaN_intToFloat j)
      · exact Or.inr ⟨i, j, rfl, rfl, hi, hj.symm⟩
    · obtain ⟨hna, hnc, hne⟩ := (differ_of_not_integers hint).mp hdiff
      rcases hab with h | h | hi
      · exact absurd h hna
      · exact Or.inl h
      rcases hbc with h | h | hj
      · exact Or.inl h
      · exact absurd h hnc
      · exact absurd (hi.trans hj) hne
  cases b with
  | null | text | blob | vector => cases hb
  | float f => exact ⟨f, Or.inl rfl, hfloat f (Or.inl rfl)⟩
  | real f => exact ⟨f, Or.inr rfl, hfloat f (Or.inr rfl)⟩
  | integer j =>
      -- an integer equals only itself among the integers, and one float
      exfalso
      cases a with
      | null | text | blob | vector => cases ha
      | integer i =>
          obtain rfl : i = j := Std.compare_eq_iff_eq.mp hab
          exact hac hbc
      | float f | real f =>
          cases c with
          | null | text | blob | vector => cases hc
          | integer k =>
              obtain rfl : j = k := Std.compare_eq_iff_eq.mp hbc
              exact hac hab
          | float g | real g =>
              obtain ⟨hna, hnc, hne⟩ := hdiff
              have hi := (floatPartialCmp_eq_eq.mp hab).resolve_left hna
              have hj := (floatPartialCmp_eq_eq.mp hbc).resolve_left (not_isNaN_intToFloat j)
              exact hne ((hi.resolve_left (not_isNaN_intToFloat j)).trans (hj.resolve_left hnc))

/-! ## Equal values -/

theorem compare_eq_trans {α : Type} [Ord α] [Std.LawfulEqOrd α] {x y z : α}
    (hxy : compare x y = .eq) (hyz : compare y z = .eq) : compare x z = .eq := by
  rw [Std.compare_eq_iff_eq.mp hxy]
  exact hyz

/-- "Equal" is transitive but for a bridge. -/
theorem compareValues_eq_trans (hno : ¬ a.Bridges b c) (hab : compareValues ext a b = .eq)
    (hbc : compareValues ext b c = .eq) : compareValues ext a c = .eq := by
  have hkab := kind_eq_of_compareValues hab
  have hkbc := kind_eq_of_compareValues hbc
  by_cases hnum : b.kind = 1
  · by_contra hac
    exact hno (number_bridges hnum (hkab.trans hnum) (hkbc.symm.trans hnum) hab hbc hac)
  cases b with
  | integer | float | real => exact absurd rfl hnum
  | null =>
      cases a <;> cases hkab
      exact hbc
  | text y =>
      cases a <;> cases hkab
      cases c <;> cases hkbc
      exact compare_eq_trans hab hbc
  | blob y =>
      cases a <;> cases hkab
      cases c <;> cases hkbc
      exact compare_eq_trans hab hbc
  | vector y =>
      cases a <;> cases hkab
      cases c <;> cases hkbc
      exact compare_eq_trans hab hbc

/-- "Less or equal" is transitive where "equal" is. -/
theorem compareValues_le_trans (heq : compareValues ext a b = .eq → compareValues ext b c = .eq →
      compareValues ext a c = .eq)
    (hab : compareValues ext a b ≠ .gt) (hbc : compareValues ext b c ≠ .gt) :
    compareValues ext a c ≠ .gt := by
  intro hgt
  have hca : compareValues ext c a = .lt := by
    rw [compareValues_swap a c, hgt]
    rfl
  cases h₁ : compareValues ext a b with
  | gt => exact hab h₁
  | lt =>
      have hcb : compareValues ext c b = .lt := compareValues_lt_trans hca h₁
      rw [compareValues_swap c b, hcb] at hbc
      exact hbc rfl
  | eq =>
      cases h₂ : compareValues ext b c with
      | gt => exact hbc h₂
      | eq =>
          rw [heq h₁ h₂] at hgt
          cases hgt
      | lt =>
          have hba : compareValues ext b a = .lt := compareValues_lt_trans h₂ hca
          rw [compareValues_swap b a, hba] at h₁
          cases h₁

/-- Three values are ordered as `sort_by` asks if and only if the middle one does not
bridge the others. -/
theorem orderedTriple_iff : OrderedTriple ext a b c ↔ ¬ a.Bridges b c := by
  constructor
  · rintro h ⟨ha, hc, hdiff, f, hf, hbridge⟩
    refine (differ_iff ha hc).mp hdiff (h.eq_trans ?_ ?_)
    · rw [compareValues_float ha hf, floatPartialCmp_eq_eq]
      rcases hbridge with hnan | ⟨i, j, rfl, -, hi, -⟩
      · exact Or.inr (Or.inl hnan)
      · exact Or.inr (Or.inr hi)
    · rw [float_compareValues hc hf, floatPartialCmp_eq_eq]
      rcases hbridge with hnan | ⟨i, j, -, rfl, -, hj⟩
      · exact Or.inl hnan
      · exact Or.inr (Or.inr hj.symm)
  · intro hno
    exact ⟨compareValues_swap a b, compareValues_le_trans (compareValues_eq_trans hno),
      compareValues_eq_trans hno⟩

/-- `2^53`, the float `2^53` and `2^53 + 1`: the float equals both integers. -/
theorem not_orderedTriple : ¬ ∀ a b c : Value, OrderedTriple mute a b c := by
  intro h
  have hbad := (h (.integer 9007199254740993) (.float 0x4340000000000000)
    (.integer 9007199254740992)).le_trans (by decide) (by decide)
  exact hbad (by decide)

end VelociDB
