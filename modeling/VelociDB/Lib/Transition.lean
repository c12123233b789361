/-
# Labelled transition systems

A system is a step relation `σ → α → σ → Prop`.  `Reaches step ok s₀ s` says that a
finite run from `s₀` ends in `s`, every step of it meeting the side condition `ok`.
With `ok` the trivial condition this is plain reachability, so one rule serves both
the unconditional results and those about restricted runs.  A deterministic system
is given by a function `σ → α → Option σ` (`none` for an action that is not
enabled); `Via` is its relation.
-/
import Mathlib

namespace Transition

variable {σ α : Type*}

/-- Every step is allowed. -/
def Any (_ : σ) (_ : α) : Prop := True

/-- The step relation of a partial step function. -/
def Via (step : σ → α → Option σ) (s : σ) (a : α) (s' : σ) : Prop := step s a = some s'

/-- `s` ends a run from `s₀` whose steps all meet `ok`. -/
inductive Reaches (step : σ → α → σ → Prop) (ok : σ → α → Prop) (s₀ : σ) : σ → Prop
  | refl : Reaches step ok s₀ s₀
  | tail {s s' : σ} {a : α} :
      Reaches step ok s₀ s → ok s a → step s a s' → Reaches step ok s₀ s'

/-- The invariant rule: what holds at the start and is kept by every step that
meets the condition holds in every state reached. -/
theorem Reaches.invariant {step : σ → α → σ → Prop} {ok : σ → α → Prop} {s₀ : σ}
    {I : σ → Prop} (h₀ : I s₀)
    (hstep : ∀ s a s', I s → ok s a → step s a s' → I s') :
    ∀ {s : σ}, Reaches step ok s₀ s → I s := by
  intro s h
  induction h with
  | refl => exact h₀
  | tail _ hok hs ih => exact hstep _ _ _ ih hok hs

/-- A run stays a run under a weaker condition. -/
theorem Reaches.mono {step : σ → α → σ → Prop} {ok ok' : σ → α → Prop} {s₀ : σ}
    (hok : ∀ s a, ok s a → ok' s a) : ∀ {s : σ}, Reaches step ok s₀ s → Reaches step ok' s₀ s := by
  intro s h
  induction h with
  | refl => exact .refl
  | tail _ hs hstep ih => exact ih.tail (hok _ _ hs) hstep

/-- A run stays a run under a step relation that allows more. -/
theorem Reaches.mono_step {step step' : σ → α → σ → Prop} {ok : σ → α → Prop} {s₀ : σ}
    (hstep : ∀ s a s', step s a s' → step' s a s') :
    ∀ {s : σ}, Reaches step ok s₀ s → Reaches step' ok s₀ s := by
  intro s h
  induction h with
  | refl => exact .refl
  | tail _ hok hs ih => exact ih.tail hok (hstep _ _ _ hs)

instance (s : σ) (a : α) : Decidable (Any s a) := isTrue trivial

/-- A list of actions, run from left to right; `none` when an action is not
enabled or misses the condition. -/
def runActions (step : σ → α → Option σ) (ok : σ → α → Prop) [∀ s a, Decidable (ok s a)] :
    σ → List α → Option σ
  | s, [] => some s
  | s, a :: as => if ok s a then (step s a).bind fun s' => runActions step ok s' as else none

/-- A list of actions that runs to its end witnesses reachability. -/
theorem reaches_of_runActions {step : σ → α → Option σ} {ok : σ → α → Prop}
    [∀ s a, Decidable (ok s a)] {s₀ : σ} :
    ∀ (as : List α) {s s' : σ}, Reaches (Via step) ok s₀ s →
      runActions step ok s as = some s' → Reaches (Via step) ok s₀ s'
  | [], _, _, hr, h => by
      simp only [runActions, Option.some.injEq] at h
      exact h ▸ hr
  | a :: as, s, _, hr, h => by
      simp only [runActions] at h
      split at h
      · rename_i hok
        obtain ⟨t, ht, hrest⟩ := Option.bind_eq_some_iff.mp h
        exact reaches_of_runActions as (hr.tail hok ht) hrest
      · cases h

end Transition
