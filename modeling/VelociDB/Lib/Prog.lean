/-
# Programs over a signature of fallible operations

`Prog Op Ans ε α` is a tree: a finished program (`ret` or `fail`), or a call of an
operation whose continuation receives the operation's answer, `Ok` or `Err`.  Code
that only touches its environment through a few operations is written once as such
a tree and then read in several ways:

    run      a deterministic handler for the operations
    Exec     every outcome a nondeterministic handler allows
    wp       what holds at the end of every outcome, and, at every point between
             two operations, what holds if the run stops there for good
    Always   what every result satisfies, whatever the operations answer
    Only     what every operation called satisfies, whatever the operations answer

The third reading is a Hoare logic with a crash condition.  `J` is that condition:
`wp H J p s Q` demands `J` before the first operation, after every operation, and
at the end.  A handler whose states already describe everything an interruption
may leave (see `Lib.Disk`) needs no other notion of a crash inside an operation.
-/
import Mathlib

/-- A program over operations `Op` with answers `Ans`, errors `ε` and result `α`. -/
inductive Prog (Op : Type) (Ans : Op → Type) (ε α : Type) where
  | ret (a : α)
  | fail (e : ε)
  | call (op : Op) (k : Except ε (Ans op) → Prog Op Ans ε α)

namespace Prog

variable {Op : Type} {Ans : Op → Type} {ε α β σ τ : Type}

/-- Sequencing; a failure skips the rest. -/
def bind : Prog Op Ans ε α → (α → Prog Op Ans ε β) → Prog Op Ans ε β
  | .ret a, f => f a
  | .fail e, _ => .fail e
  | .call op k, f => .call op fun r => (k r).bind f

instance : Monad (Prog Op Ans ε) where
  pure := .ret
  bind := bind

/-- One operation; its error becomes the program's. -/
def lift (op : Op) : Prog Op Ans ε (Ans op) :=
  .call op fun
    | .ok a => .ret a
    | .error e => .fail e

/-- Run a program and hand its outcome on as a value. -/
def attempt : Prog Op Ans ε α → Prog Op Ans ε (Except ε α)
  | .ret a => .ret (.ok a)
  | .fail e => .ret (.error e)
  | .call op k => .call op fun r => (k r).attempt

instance : MonadExcept ε (Prog Op Ans ε) where
  throw := .fail
  tryCatch := fun x h => x.attempt.bind fun
    | .ok a => .ret a
    | .error e => h e

/-- A pure outcome as a program. -/
def ofExcept : Except ε α → Prog Op Ans ε α
  | .ok a => .ret a
  | .error e => .fail e

@[simp] theorem pure_eq (a : α) : (pure a : Prog Op Ans ε α) = .ret a := rfl

@[simp] theorem bind_eq (x : Prog Op Ans ε α) (f : α → Prog Op Ans ε β) :
    (x >>= f) = x.bind f := rfl

@[simp] theorem throw_eq (e : ε) : (throw e : Prog Op Ans ε α) = .fail e := rfl

@[simp] theorem ret_bind (a : α) (f : α → Prog Op Ans ε β) :
    (Prog.ret a : Prog Op Ans ε α).bind f = f a := rfl

@[simp] theorem fail_bind (e : ε) (f : α → Prog Op Ans ε β) :
    (Prog.fail e : Prog Op Ans ε α).bind f = .fail e := rfl

theorem bind_assoc {γ : Type} (x : Prog Op Ans ε α) (f : α → Prog Op Ans ε β)
    (g : β → Prog Op Ans ε γ) : (x.bind f).bind g = x.bind fun a => (f a).bind g := by
  induction x with
  | ret a => rfl
  | fail e => rfl
  | call op k ih => exact congrArg (Prog.call op) (funext ih)

/-! ## Deterministic runs -/

/-- Run against a handler; the state survives a failure. -/
def run (h : (op : Op) → σ → Except ε (Ans op) × σ) : Prog Op Ans ε α → σ → Except ε α × σ
  | .ret a, s => (.ok a, s)
  | .fail e, s => (.error e, s)
  | .call op k, s => (k (h op s).1).run h (h op s).2

section Run

variable (h : (op : Op) → σ → Except ε (Ans op) × σ)

@[simp] theorem run_ret (a : α) (s : σ) : (Prog.ret a : Prog Op Ans ε α).run h s = (.ok a, s) :=
  rfl

@[simp] theorem run_fail (e : ε) (s : σ) :
    (Prog.fail e : Prog Op Ans ε α).run h s = (.error e, s) := rfl

theorem run_call (op : Op) (k : Except ε (Ans op) → Prog Op Ans ε α) (s : σ) :
    (Prog.call op k).run h s = (k (h op s).1).run h (h op s).2 := rfl

theorem run_bind (x : Prog Op Ans ε α) (f : α → Prog Op Ans ε β) (s : σ) :
    (x.bind f).run h s =
      match x.run h s with
      | (.ok a, s') => (f a).run h s'
      | (.error e, s') => (.error e, s') := by
  induction x generalizing s with
  | ret a => rfl
  | fail e => rfl
  | call op k ih =>
      simp only [bind, run_call]
      exact ih _ _

variable {h} in
theorem run_bind_ok {x : Prog Op Ans ε α} {f : α → Prog Op Ans ε β} {s s' : σ} {a : α}
    (hx : x.run h s = (.ok a, s')) : (x.bind f).run h s = (f a).run h s' := by
  rw [run_bind, hx]

theorem run_lift (op : Op) (s : σ) :
    (lift op : Prog Op Ans ε (Ans op)).run h s = h op s := by
  simp only [lift, run_call]
  rcases hx : h op s with ⟨r, s'⟩
  cases r <;> rfl

theorem run_attempt (x : Prog Op Ans ε α) (s : σ) :
    x.attempt.run h s = (.ok (x.run h s).1, (x.run h s).2) := by
  induction x generalizing s with
  | ret a => rfl
  | fail e => rfl
  | call op k ih => exact ih _ _

end Run

/-! ## Nondeterministic outcomes -/

section Outcomes

variable (H : (op : Op) → σ → Except ε (Ans op) → σ → Prop)

/-- The program ends with the given outcome. -/
inductive Exec : Prog Op Ans ε α → σ → Except ε α → σ → Prop
  | ret (a : α) (s : σ) : Exec (.ret a) s (.ok a) s
  | fail (e : ε) (s : σ) : Exec (.fail e) s (.error e) s
  | call {op : Op} {k : Except ε (Ans op) → Prog Op Ans ε α} {s s₁ s' : σ}
      {r : Except ε (Ans op)} {o : Except ε α} :
      H op s r s₁ → Exec (k r) s₁ o s' → Exec (.call op k) s o s'

/-- The program is stopped for good, between two operations, in state `s'`. -/
inductive Stops : Prog Op Ans ε α → σ → σ → Prop
  | here (p : Prog Op Ans ε α) (s : σ) : Stops p s s
  | call {op : Op} {k : Except ε (Ans op) → Prog Op Ans ε α} {s s₁ s' : σ}
      {r : Except ε (Ans op)} :
      H op s r s₁ → Stops (k r) s₁ s' → Stops (.call op k) s s'

/-- Weakest precondition with a crash condition `J`. -/
def wp (J : σ → Prop) :
    Prog Op Ans ε α → σ → (Except ε α → σ → Prop) → Prop
  | .ret a, s, Q => J s ∧ Q (.ok a) s
  | .fail e, s, Q => J s ∧ Q (.error e) s
  | .call op k, s, Q => J s ∧ ∀ r s', H op s r s' → (k r).wp J s' Q

variable {H} {J : σ → Prop}

theorem wp_here {p : Prog Op Ans ε α} {s : σ} {Q : Except ε α → σ → Prop}
    (h : wp H J p s Q) : J s := by
  cases p with
  | ret a => exact h.1
  | fail e => exact h.1
  | call op k => exact h.1

/-- The postcondition holds at every end. -/
theorem wp_exec {p : Prog Op Ans ε α} {s s' : σ} {o : Except ε α}
    {Q : Except ε α → σ → Prop} (hx : Exec H p s o s') (h : wp H J p s Q) : Q o s' := by
  induction hx with
  | ret a s => exact h.2
  | fail e s => exact h.2
  | call hH _ ih => exact ih (h.2 _ _ hH)

/-- The crash condition holds wherever the run is stopped. -/
theorem wp_stops {p : Prog Op Ans ε α} {s s' : σ} {Q : Except ε α → σ → Prop}
    (hx : Stops H p s s') (h : wp H J p s Q) : J s' := by
  induction hx with
  | here p s => exact wp_here h
  | call hH _ ih => exact ih (h.2 _ _ hH)

theorem wp_mono {p : Prog Op Ans ε α} {s : σ} {Q Q' : Except ε α → σ → Prop}
    (h : wp H J p s Q) (hQ : ∀ o s', J s' → Q o s' → Q' o s') : wp H J p s Q' := by
  induction p generalizing s with
  | ret a => exact ⟨h.1, hQ _ _ h.1 h.2⟩
  | fail e => exact ⟨h.1, hQ _ _ h.1 h.2⟩
  | call op k ih => exact ⟨h.1, fun r s' hH => ih r (h.2 r s' hH)⟩

theorem wp_bind {x : Prog Op Ans ε α} {f : α → Prog Op Ans ε β} {s : σ}
    {Q : Except ε β → σ → Prop}
    (h : wp H J x s fun o s' => match o with
      | .ok a => wp H J (f a) s' Q
      | .error e => Q (.error e) s') : wp H J (x.bind f) s Q := by
  induction x generalizing s with
  | ret a => exact h.2
  | fail e => exact h
  | call op k ih => exact ⟨h.1, fun r s' hH => ih r (h.2 r s' hH)⟩

theorem wp_attempt {x : Prog Op Ans ε α} {s : σ}
    {Q : Except ε (Except ε α) → σ → Prop}
    (h : wp H J x s fun o s' => Q (.ok o) s') : wp H J x.attempt s Q := by
  induction x generalizing s with
  | ret a => exact h
  | fail e => exact h
  | call op k ih => exact ⟨h.1, fun r s' hH => ih r (h.2 r s' hH)⟩

/-- One operation: the crash condition before and after it, and the postcondition
for each of its outcomes. -/
theorem wp_lift {op : Op} {s : σ} {Q : Except ε (Ans op) → σ → Prop} (hJ : J s)
    (h : ∀ r s', H op s r s' → J s' ∧ Q r s') : wp H J (lift op) s Q := by
  refine ⟨hJ, fun r s' hH => ?_⟩
  cases r with
  | ok a => exact h _ _ hH
  | error e => exact h _ _ hH

end Outcomes

/-- More outcomes of the operations, more outcomes of the program. -/
theorem Exec.mono {H H' : (op : Op) → σ → Except ε (Ans op) → σ → Prop}
    (hH : ∀ op s r s', H op s r s' → H' op s r s') {p : Prog Op Ans ε α} {s s' : σ}
    {o : Except ε α} (h : Exec H p s o s') : Exec H' p s o s' := by
  induction h with
  | ret a s => exact .ret a s
  | fail e s => exact .fail e s
  | call hop _ ih => exact .call (hH _ _ _ _ hop) ih

/-! ## The operations called -/

/-- Every operation the program may call satisfies `P`. -/
def Only (P : Op → Prop) : Prog Op Ans ε α → Prop
  | .ret _ => True
  | .fail _ => True
  | .call op k => P op ∧ ∀ r, (k r).Only P

section Calls

variable {P : Op → Prop}

theorem only_lift {op : Op} (h : P op) : (lift op : Prog Op Ans ε (Ans op)).Only P := by
  refine ⟨h, fun r => ?_⟩
  cases r <;> exact trivial

theorem only_bind {x : Prog Op Ans ε α} {f : α → Prog Op Ans ε β} (hx : x.Only P)
    (hf : ∀ a, (f a).Only P) : (x.bind f).Only P := by
  induction x with
  | ret a => exact hf a
  | fail e => exact trivial
  | call op k ih => exact ⟨hx.1, fun r => ih r (hx.2 r)⟩

theorem only_attempt {x : Prog Op Ans ε α} (hx : x.Only P) : x.attempt.Only P := by
  induction x with
  | ret a => exact trivial
  | fail e => exact trivial
  | call op k ih => exact ⟨hx.1, fun r => ih r (hx.2 r)⟩

/-- What the operations of the program keep holds at its end. -/
theorem wp_of_only {H : (op : Op) → σ → Except ε (Ans op) → σ → Prop} {I : σ → Prop}
    (hI : ∀ op s r s', P op → H op s r s' → I s → I s') {x : Prog Op Ans ε α} (hx : x.Only P)
    {s : σ} (hs : I s) : wp H (fun _ => True) x s fun _ s' => I s' := by
  induction x generalizing s with
  | ret a => exact ⟨trivial, hs⟩
  | fail e => exact ⟨trivial, hs⟩
  | call op k ih => exact ⟨trivial, fun r s' h => ih r (hx.2 r) (hI op s r s' hx.1 h hs)⟩

end Calls

/-- A deterministic run is one of the outcomes. -/
theorem exec_run (h : (op : Op) → σ → Except ε (Ans op) × σ) (p : Prog Op Ans ε α) (s : σ) :
    Exec (fun op s r s' => (r, s') = h op s) p s (p.run h s).1 (p.run h s).2 := by
  induction p generalizing s with
  | ret a => exact .ret a s
  | fail e => exact .fail e s
  | call op k ih => exact .call rfl (ih _ _)

/-- Against a deterministic handler there is one outcome. -/
theorem wp_run {h : (op : Op) → σ → Except ε (Ans op) × σ} {p : Prog Op Ans ε α} {s : σ}
    {Q : Except ε α → σ → Prop} :
    wp (fun op s r s' => (r, s') = h op s) (fun _ => True) p s Q ↔
      Q (p.run h s).1 (p.run h s).2 := by
  constructor
  · exact wp_exec (exec_run h p s)
  · intro hQ
    induction p generalizing s with
    | ret a => exact ⟨trivial, hQ⟩
    | fail e => exact ⟨trivial, hQ⟩
    | call op k ih =>
        refine ⟨trivial, fun r s' hH => ?_⟩
        obtain ⟨rfl, rfl⟩ := Prod.mk.inj hH
        exact ih _ hQ

/-! ## Results -/

/-- Every result satisfies `Q`, whatever the operations answer. -/
def Always (Q : α → Prop) : Prog Op Ans ε α → Prop
  | .ret a => Q a
  | .fail _ => True
  | .call _ k => ∀ r, (k r).Always Q

theorem always_mono {p : Prog Op Ans ε α} {Q Q' : α → Prop} (h : p.Always Q)
    (hQ : ∀ a, Q a → Q' a) : p.Always Q' := by
  induction p with
  | ret a => exact hQ a h
  | fail e => exact trivial
  | call op k ih => exact fun r => ih r (h r)

theorem always_true (p : Prog Op Ans ε α) : p.Always fun _ => True := by
  induction p with
  | ret a => exact trivial
  | fail e => exact trivial
  | call op k ih => exact ih

theorem always_bind {x : Prog Op Ans ε α} {f : α → Prog Op Ans ε β} {P : α → Prop} {Q : β → Prop}
    (hx : x.Always P) (hf : ∀ a, P a → (f a).Always Q) : (x.bind f).Always Q := by
  induction x with
  | ret a => exact hf a hx
  | fail e => exact trivial
  | call op k ih => exact fun r => ih r (hx r)

theorem always_attempt {x : Prog Op Ans ε α} {P : α → Prop} (hx : x.Always P) :
    x.attempt.Always fun o => ∀ a, o = .ok a → P a := by
  induction x with
  | ret a =>
      rintro _ ⟨⟩
      exact hx
  | fail e =>
      rintro _ ⟨⟩
  | call op k ih => exact fun r => ih r (hx r)

theorem wp_of_always {H : (op : Op) → σ → Except ε (Ans op) → σ → Prop} {p : Prog Op Ans ε α}
    {s : σ} {P : α → Prop} {Q : Except ε α → σ → Prop} (h : p.Always P)
    (hok : ∀ a s', P a → Q (.ok a) s') (herr : ∀ e s', Q (.error e) s') :
    wp H (fun _ => True) p s Q := by
  induction p generalizing s with
  | ret a => exact ⟨trivial, hok a s h⟩
  | fail e => exact ⟨trivial, herr e s⟩
  | call op k ih => exact ⟨trivial, fun r s' _ => ih r (h r)⟩

end Prog
