/-
# Stateful computations with fuel

`Fuelled σ ε α` runs from a state to an outcome and a state, or runs out of fuel (`none`).
The state survives a failure.  A recursive procedure takes its fuel as its first argument
and spends one unit for each call of itself:

    Le x y       wherever `x` ends, `y` ends in the same way
    Growing f    more fuel only adds outcomes: `Le (f n) (f (n + 1))`
    Returns f s  the outcome `f` has with enough fuel

Sequencing is monotone in both of its parts, so a procedure grows as soon as its body,
unfolded once, is built by sequencing from calls that do.
-/
import Mathlib

/-- A computation over the state `σ` with errors `ε`; `none` is out of fuel. -/
def Fuelled (σ ε α : Type) : Type := σ → Option (Except ε α × σ)

namespace Fuelled

variable {σ ε α β : Type}

/-- Sequencing; a failure skips the rest and keeps its state. -/
def bind (x : Fuelled σ ε α) (f : α → Fuelled σ ε β) : Fuelled σ ε β := fun s =>
  match x s with
  | none => none
  | some (.error e, s') => some (.error e, s')
  | some (.ok a, s') => f a s'

instance : Monad (Fuelled σ ε) where
  pure a := fun s => some (.ok a, s)
  bind := bind

/-- Out of fuel. -/
def exhausted : Fuelled σ ε α := fun _ => none

/-- A failure. -/
def fail (e : ε) : Fuelled σ ε α := fun s => some (.error e, s)

/-- Look at the state. -/
def look (f : σ → α) : Fuelled σ ε α := fun s => some (.ok (f s), s)

/-- Change the state. -/
def change (f : σ → σ) : Fuelled σ ε Unit := fun s => some (.ok (), f s)

@[simp] theorem pure_run (a : α) (s : σ) : (pure a : Fuelled σ ε α) s = some (.ok a, s) := rfl

@[simp] theorem exhausted_run (s : σ) : (exhausted : Fuelled σ ε α) s = none := rfl

@[simp] theorem fail_run (e : ε) (s : σ) :
    (fail e : Fuelled σ ε α) s = some (.error e, s) := rfl

@[simp] theorem look_run (f : σ → α) (s : σ) :
    (look f : Fuelled σ ε α) s = some (.ok (f s), s) := rfl

@[simp] theorem change_run (f : σ → σ) (s : σ) :
    (change f : Fuelled σ ε Unit) s = some (.ok (), f s) := rfl

theorem bind_run (x : Fuelled σ ε α) (f : α → Fuelled σ ε β) (s : σ) :
    (x >>= f) s = match x s with
      | none => none
      | some (.error e, s') => some (.error e, s')
      | some (.ok a, s') => f a s' := rfl

variable {x y : Fuelled σ ε α} {f g : α → Fuelled σ ε β} {s s' : σ} {a : α} {e : ε}

/-- Go on after a step that succeeded. -/
theorem bind_ok (h : x s = some (.ok a, s')) : (x >>= f) s = f a s' := by
  rw [bind_run, h]

/-- Stop after a step that failed. -/
theorem bind_error (h : x s = some (.error e, s')) :
    (x >>= f) s = some (.error e, s') := by
  rw [bind_run, h]

/-- A sequence that succeeds is made of two steps that do. -/
theorem bind_eq_ok {b : β} :
    (x >>= f) s = some (.ok b, s') ↔
      ∃ a s₁, x s = some (.ok a, s₁) ∧ f a s₁ = some (.ok b, s') := by
  rw [bind_run]
  rcases x s with _ | ⟨_ | a, s₁⟩ <;> simp

/-! ## Approximation -/

/-- Wherever `x` ends, `y` ends in the same way. -/
def Le (x y : Fuelled σ ε α) : Prop := ∀ s r, x s = some r → y s = some r

theorem Le.refl (x : Fuelled σ ε α) : Le x x := fun _ _ h => h

theorem Le.trans {z : Fuelled σ ε α} (h₁ : Le x y) (h₂ : Le y z) : Le x z :=
  fun s r h => h₂ s r (h₁ s r h)

theorem exhausted_le (x : Fuelled σ ε α) : Le exhausted x := fun _ _ h => nomatch h

theorem Le.bind (hx : Le x y) (hf : ∀ a, Le (f a) (g a)) : Le (x >>= f) (y >>= g) := by
  intro s r h
  rw [bind_run] at h
  rcases hs : x s with _ | ⟨_ | a, s₁⟩ <;> rw [hs] at h
  · cases h
  · rw [bind_run, hx s _ hs]
    exact h
  · rw [bind_run, hx s _ hs]
    exact hf a s₁ r h

theorem Le.bind_right (hf : ∀ a, Le (f a) (g a)) : Le (x >>= f) (x >>= g) :=
  (Le.refl x).bind hf

theorem Le.ite {c : Prop} [Decidable c] {x' y' : Fuelled σ ε α} (h : Le x y) (h' : Le x' y') :
    Le (if c then x else x') (if c then y else y') := by
  split
  · exact h
  · exact h'

/-! ## Procedures -/

/-- More fuel only adds outcomes. -/
def Growing (p : Nat → Fuelled σ ε α) : Prop := ∀ n, Le (p n) (p (n + 1))

/-- The outcome a procedure has with enough fuel. -/
def Returns (p : Nat → Fuelled σ ε α) (s : σ) (r : Except ε α × σ) : Prop :=
  ∃ fuel, p fuel s = some r

variable {p : Nat → Fuelled σ ε α} {r r' : Except ε α × σ}

theorem Growing.le (hp : Growing p) {m n : Nat} (h : m ≤ n) : Le (p m) (p n) := by
  induction n, h using Nat.le_induction with
  | base => exact .refl _
  | succ n _ ih => exact ih.trans (hp n)

/-- An outcome stays what it is under more fuel. -/
theorem Growing.run_eq (hp : Growing p) {m n : Nat} (h : m ≤ n) (hr : p m s = some r) :
    p n s = some r := hp.le h s r hr

/-- There is at most one outcome. -/
theorem Growing.unique (hp : Growing p) (h : Returns p s r) (h' : Returns p s r') : r = r' := by
  obtain ⟨m, hm⟩ := h
  obtain ⟨n, hn⟩ := h'
  have h₁ := hp.run_eq (Nat.le_max_left m n) hm
  have h₂ := hp.run_eq (Nat.le_max_right m n) hn
  exact Option.some.inj (h₁.symm.trans h₂)

/-- Two outcomes are reached with one amount of fuel. -/
theorem Growing.both {τ δ γ : Type} {q : Nat → Fuelled τ δ γ} {t : τ} {u : Except δ γ × τ}
    (hp : Growing p) (hq : Growing q) (h : Returns p s r) (h' : Returns q t u) :
    ∃ fuel, p fuel s = some r ∧ q fuel t = some u := by
  obtain ⟨m, hm⟩ := h
  obtain ⟨n, hn⟩ := h'
  exact ⟨max m n, hp.run_eq (Nat.le_max_left m n) hm, hq.run_eq (Nat.le_max_right m n) hn⟩

/-! ## What no step gives up -/

/-- Every outcome is related to the state the computation starts from. -/
def Keeps (R : σ → σ → Prop) (x : Fuelled σ ε α) : Prop := ∀ s r s', x s = some (r, s') → R s s'

section Keeps

variable {R : σ → σ → Prop}

theorem Keeps.change {f : σ → σ} (h : ∀ s, R s (f s)) :
    Keeps R (change f : Fuelled σ ε Unit) := by
  rintro s r s' ⟨⟩
  exact h s

theorem Keeps.pure [Std.Refl R] (a : α) : Keeps R (pure a : Fuelled σ ε α) := by
  rintro s r s' ⟨⟩
  exact refl_of R s

theorem Keeps.fail [Std.Refl R] (e : ε) : Keeps R (fail e : Fuelled σ ε α) := by
  rintro s r s' ⟨⟩
  exact refl_of R s

theorem Keeps.look [Std.Refl R] (f : σ → α) : Keeps R (look f : Fuelled σ ε α) := by
  rintro s r s' ⟨⟩
  exact refl_of R s

theorem Keeps.bind [IsTrans σ R] (hx : Keeps R x) (hf : ∀ a, Keeps R (f a)) : Keeps R (x >>= f) := by
  intro s r s' h
  rw [bind_run] at h
  rcases hs : x s with _ | ⟨_ | a, s₁⟩
  · rw [hs] at h
    cases h
  · rw [hs] at h
    cases h
    exact hx s _ _ hs
  · rw [hs] at h
    exact trans_of R (hx s _ _ hs) (hf a s₁ r s' h)

theorem Keeps.exhausted : Keeps R (exhausted : Fuelled σ ε α) := by
  rintro s r s' ⟨⟩

theorem Keeps.ite {c : Prop} [Decidable c] (hx : Keeps R x) (hy : Keeps R y) :
    Keeps R (if c then x else y) := by
  split
  · exact hx
  · exact hy

end Keeps

end Fuelled
