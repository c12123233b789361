/-
# Loops over blocks of fixed width

`for i in (0..len).step_by(w)`, with a body that may leave the loop early.  The rule for it
has an invariant for the index the loop stands at, and three obligations: the body keeps the
invariant or leaves with what the loop promises, and behind the last index the invariant
gives what the loop promises.
-/
import Mathlib

namespace StepBy

variable {σ ρ : Type*}

/-- The indices `0, w, 2 * w, ...` below `len`. -/
def starts (len w : ℕ) : List ℕ := List.range' 0 ((len + w - 1) / w) w

/-- The loop.  The body answers `none` when it touches memory that is not its own, `error`
when it leaves the loop. -/
def forStep (body : ℕ → σ → Option (Except ρ σ)) : List ℕ → σ → Option (Except ρ σ)
  | [], s => some (.ok s)
  | i :: is, s =>
      match body i s with
      | none => none
      | some (.error r) => some (.error r)
      | some (.ok s') => forStep body is s'

/-- What a function answers that returns `r` from within the loop and `done s` behind it. -/
def outcome (done : σ → ρ) : Except ρ σ → ρ
  | .error r => r
  | .ok s => done s

variable {body : ℕ → σ → Option (Except ρ σ)} {len w : ℕ} {I : ℕ → σ → Prop}
  {Post : Except ρ σ → Prop}

/-- The number of rounds left falls by one when the index moves by one block. -/
theorem rounds_succ {i : ℕ} (hw : 0 < w) (hi : i < len) :
    (len - i + w - 1) / w = (len - (i + w) + w - 1) / w + 1 := by
  rcases le_total (i + w) len with hle | hle
  · rw [← Nat.add_div_right _ hw]
    congr 1
    omega
  · have hlast : (len - i + w - 1) / w = 1 := Nat.div_eq_of_lt_le (by omega) (by omega)
    have hnone : (len - (i + w) + w - 1) / w = 0 := Nat.div_eq_of_lt (by omega)
    rw [hlast, hnone]

/-- The rule for such a loop, from any index on. -/
theorem forStep_rule_from (hw : 0 < w)
    (hbody : ∀ i s, i < len → I i s → ∃ out, body i s = some out ∧
      ((∃ r, out = .error r ∧ Post (.error r)) ∨ ∃ s', out = .ok s' ∧ I (i + w) s'))
    (hdone : ∀ i s, len ≤ i → I i s → Post (.ok s)) :
    ∀ (n i : ℕ) (s : σ), n = (len - i + w - 1) / w → I i s →
      ∃ out, forStep body (List.range' i n w) s = some out ∧ Post out := by
  intro n
  induction n with
  | zero =>
      intro i s hn hinv
      have hle : len ≤ i := by
        by_contra hlt
        rw [rounds_succ hw (not_le.mp hlt)] at hn
        exact Nat.succ_ne_zero _ hn.symm
      exact ⟨.ok s, rfl, hdone i s hle hinv⟩
  | succ n ih =>
      intro i s hn hinv
      have hi : i < len := by
        by_contra hge
        rw [Nat.sub_eq_zero_of_le (not_lt.mp hge), Nat.zero_add,
          Nat.div_eq_of_lt (by omega)] at hn
        exact Nat.succ_ne_zero _ hn
      rw [rounds_succ hw hi] at hn
      rw [List.range'_succ, forStep]
      obtain ⟨out, hout, ⟨r, rfl, hpost⟩ | ⟨s', rfl, hinv'⟩⟩ := hbody i s hi hinv
      · rw [hout]
        exact ⟨.error r, rfl, hpost⟩
      · rw [hout]
        exact ih (i + w) s' (Nat.succ_injective hn) hinv'

/-- The rule for the whole loop. -/
theorem forStep_rule (hw : 0 < w) {s : σ}
    (hbody : ∀ i s, i < len → I i s → ∃ out, body i s = some out ∧
      ((∃ r, out = .error r ∧ Post (.error r)) ∨ ∃ s', out = .ok s' ∧ I (i + w) s'))
    (hdone : ∀ i s, len ≤ i → I i s → Post (.ok s)) (hinit : I 0 s) :
    ∃ out, forStep body (starts len w) s = some out ∧ Post out :=
  forStep_rule_from hw hbody hdone _ 0 s rfl hinit

end StepBy
