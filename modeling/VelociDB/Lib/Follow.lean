/-
# One procedure in the steps of another

`Follows abs seen ok x y t`: from the state `t`, the procedure `y` does what `x` does from
the abstract state `abs t`.  Where `x` ends, `y` ends: it returns the same, or fails as `x`
fails, and leaves a state that is the same to `abs`.  Two things are left open:

    seen   translates the failures of `x`; where it does not, `x` has left what it is a
           model of, and `y` is free
    ok     the states up to which `x` is a model; a run of `x` that ends elsewhere says
           nothing about `y`

A step that follows with no condition (`Free`) is put before any other by `bind`; one with a
condition needs that the rest does not lead back into it (`bind_ok`).

For a program over operations (`Lib.Prog`) it is enough that each operation is answered the
same on both sides (`Prog.Exec.follows`).
-/
import VelociDB.Lib.Fuel
import VelociDB.Lib.Prog

namespace Fuelled

variable {σ τ ε δ α β : Type} {abs : τ → σ} {seen : ε → Option δ} {ok : σ → Prop}

/-- From `t`, the procedure `y` does what `x` does from `abs t`. -/
def Follows (abs : τ → σ) (seen : ε → Option δ) (ok : σ → Prop) (x : Fuelled σ ε α)
    (y : Fuelled τ δ α) (t : τ) : Prop :=
  ∀ r s, x (abs t) = some (r, s) → ok s → match r with
    | .ok a => ∃ t', y t = some (.ok a, t') ∧ abs t' = s
    | .error e => ∀ e', seen e = some e' → ∃ t', y t = some (.error e', t') ∧ abs t' = s

/-- `Follows` with every end state allowed. -/
abbrev Free (abs : τ → σ) (seen : ε → Option δ) (x : Fuelled σ ε α) (y : Fuelled τ δ α) (t : τ) :
    Prop :=
  Follows abs seen (fun _ => True) x y t

variable {x : Fuelled σ ε α} {y : Fuelled τ δ α} {f : α → Fuelled σ ε β} {g : α → Fuelled τ δ β}
  {t t' : τ} {s : σ} {a : α} {b : β} {e : ε} {e' : δ}

theorem Follows.of_free (h : Free abs seen x y t) : Follows abs seen ok x y t :=
  fun r s hx _ => h r s hx trivial

/-- Both return. -/
theorem Follows.both_return (hx : x (abs t) = some (.ok a, abs t')) (hy : y t = some (.ok a, t')) :
    Follows abs seen ok x y t := by
  intro r s hr _
  obtain ⟨rfl, rfl⟩ : .ok a = r ∧ abs t' = s := by simpa [hx] using hr
  exact ⟨t', hy, rfl⟩

/-- Both fail. -/
theorem Follows.both_fail (hx : x (abs t) = some (.error e, abs t')) (he : seen e = some e')
    (hy : y t = some (.error e', t')) : Follows abs seen ok x y t := by
  intro r s hr _
  obtain ⟨rfl, rfl⟩ : .error e = r ∧ abs t' = s := by simpa [hx] using hr
  intro e'' h
  obtain rfl : e' = e'' := by simpa [he] using h
  exact ⟨t', hy, rfl⟩

/-- A failure without a translation leaves `y` free. -/
theorem Follows.unseen (hx : x (abs t) = some (.error e, s)) (he : seen e = none) :
    Follows abs seen ok x y t := by
  intro r s' hr _
  obtain ⟨rfl, rfl⟩ : .error e = r ∧ s = s' := by simpa [hx] using hr
  intro e' h
  rw [he] at h
  cases h

/-- Out of fuel. -/
theorem follows_exhausted (y : Fuelled τ δ α) (t : τ) :
    Follows abs seen ok (exhausted : Fuelled σ ε α) y t := fun _ _ h => nomatch h

theorem follows_pure (a : α) (t : τ) : Follows abs seen ok (pure a) (pure a) t :=
  .both_return rfl rfl

/-- A step with a condition, before a rest that does not lead back into it. -/
theorem Follows.bind_ok (hx : Follows abs seen ok x y t)
    (hback : ∀ a, Keeps (fun s s' => ok s' → ok s) (f a))
    (hf : ∀ a t', x (abs t) = some (.ok a, abs t') → Follows abs seen ok (f a) (g a) t') :
    Follows abs seen ok (x >>= f) (y >>= g) t := by
  intro r s hr hs
  rw [bind_run] at hr
  rcases hrun : x (abs t) with _ | ⟨_ | a, s₁⟩ <;> rw [hrun] at hr
  · cases hr
  · obtain ⟨rfl, rfl⟩ := Prod.mk.inj (Option.some.inj hr)
    intro e' he
    obtain ⟨t', ht, habs⟩ := hx _ _ hrun hs e' he
    exact ⟨t', bind_error ht, habs⟩
  · obtain ⟨t', ht, rfl⟩ := hx _ _ hrun (hback a _ _ _ hr hs)
    rw [Fuelled.bind_ok ht]
    exact hf a t' hrun r s hr hs

/-- A step of both. -/
theorem Follows.bind (hx : Free abs seen x y t)
    (hf : ∀ a t', x (abs t) = some (.ok a, abs t') → Follows abs seen ok (f a) (g a) t') :
    Follows abs seen ok (x >>= f) (y >>= g) t := by
  intro r s hr hs
  rw [bind_run] at hr
  rcases hrun : x (abs t) with _ | ⟨_ | a, s₁⟩ <;> rw [hrun] at hr
  · cases hr
  · obtain ⟨rfl, rfl⟩ := Prod.mk.inj (Option.some.inj hr)
    intro e' he
    obtain ⟨t', ht, habs⟩ := hx _ _ hrun trivial e' he
    exact ⟨t', bind_error ht, habs⟩
  · obtain ⟨t', ht, rfl⟩ := hx _ _ hrun trivial
    rw [Fuelled.bind_ok ht]
    exact hf a t' hrun r s hr hs

/-- A step of `y` alone that changes nothing. -/
theorem Follows.skip {z : Fuelled τ δ β} {k : β → Fuelled τ δ α} (hz : z t = some (.ok b, t))
    (h : Follows abs seen ok x (k b) t) : Follows abs seen ok x (z >>= k) t := by
  intro r s hr hs
  rw [Fuelled.bind_ok hz]
  exact h r s hr hs

/-- A step of `x` alone that changes nothing. -/
theorem Follows.drop {y : Fuelled τ δ β} (hx : x (abs t) = some (.ok a, abs t))
    (h : Follows abs seen ok (f a) y t) : Follows abs seen ok (x >>= f) y t := by
  intro r s hr hs
  rw [Fuelled.bind_ok hx] at hr
  exact h r s hr hs

/-- A step of both that returns. -/
theorem Follows.step {γ : Type} {z : Fuelled τ δ γ} {k : γ → Fuelled τ δ β} {c : γ}
    (hx : x (abs t) = some (.ok a, abs t')) (hy : z t = some (.ok c, t'))
    (h : Follows abs seen ok (f a) (k c) t') : Follows abs seen ok (x >>= f) (z >>= k) t := by
  intro r s hr hs
  rw [Fuelled.bind_ok hx] at hr
  rw [Fuelled.bind_ok hy]
  exact h r s hr hs

theorem Follows.unseen_bind {y : Fuelled τ δ β} (hx : x (abs t) = some (.error e, s))
    (he : seen e = none) : Follows abs seen ok (x >>= f) y t :=
  unseen (bind_error hx) he

/-- A branch on conditions that say the same. -/
theorem Follows.ite_iff {c c' : Prop} [Decidable c] [Decidable c'] {x' : Fuelled σ ε α}
    {y' : Fuelled τ δ α} (hc : c ↔ c') (h : c → Follows abs seen ok x y t)
    (h' : ¬ c → Follows abs seen ok x' y' t) :
    Follows abs seen ok (if c then x else x') (if c' then y else y') t := by
  by_cases hif : c
  · rw [if_pos hif, if_pos (hc.mp hif)]
    exact h hif
  · rw [if_neg hif, if_neg fun hif' => hif (hc.mpr hif')]
    exact h' hif

theorem Follows.ite {c : Prop} [Decidable c] {x' : Fuelled σ ε α} {y' : Fuelled τ δ α}
    (h : c → Follows abs seen ok x y t) (h' : ¬ c → Follows abs seen ok x' y' t) :
    Follows abs seen ok (if c then x else x') (if c then y else y') t :=
  .ite_iff Iff.rfl h h'

/-- Where every end of `x` is ruled out, nothing is asked of `y`. -/
theorem Follows.never (h : ∀ r s, x (abs t) = some (r, s) → ¬ ok s) : Follows abs seen ok x y t :=
  fun r s hr hs => absurd hs (h r s hr)

/-! ## With enough fuel -/

variable {p : Nat → Fuelled σ ε α} {q : Nat → Fuelled τ δ α}

theorem Follows.returns_ok (h : ∀ n, Follows abs seen ok (p n) (q n) t)
    (hp : Returns p (abs t) (.ok a, s)) (hs : ok s) : ∃ t', Returns q t (.ok a, t') ∧ abs t' = s := by
  obtain ⟨n, hn⟩ := hp
  obtain ⟨t', ht, habs⟩ := h n _ _ hn hs
  exact ⟨t', ⟨n, ht⟩, habs⟩

theorem Follows.returns_error (h : ∀ n, Follows abs seen ok (p n) (q n) t)
    (hp : Returns p (abs t) (.error e, s)) (hs : ok s) (he : seen e = some e') :
    ∃ t', Returns q t (.error e', t') ∧ abs t' = s := by
  obtain ⟨n, hn⟩ := hp
  obtain ⟨t', ht, habs⟩ := h n _ _ hn hs e' he
  exact ⟨t', ⟨n, ht⟩, habs⟩

end Fuelled

/-! ## Programs over operations -/

/-- Where every operation can be answered the same on the other side, a program ends there as
it does here. -/
theorem Prog.Exec.follows {Op : Type} {Ans : Op → Type} {σ τ ε α : Type} {R : σ → τ → Prop}
    {H : (op : Op) → σ → Except ε (Ans op) → σ → Prop}
    {H' : (op : Op) → τ → Except ε (Ans op) → τ → Prop}
    (hstep : ∀ op s r s' t, R s t → H op s r s' → ∃ t', H' op t r t' ∧ R s' t')
    {p : Prog Op Ans ε α} {s s' : σ} {t : τ} {o : Except ε α} (h : Prog.Exec H p s o s')
    (hR : R s t) : ∃ t', Prog.Exec H' p t o t' ∧ R s' t' := by
  induction h generalizing t with
  | ret a s => exact ⟨t, .ret a t, hR⟩
  | fail e s => exact ⟨t, .fail e t, hR⟩
  | call hH _ ih =>
      obtain ⟨t₁, hH', hR₁⟩ := hstep _ _ _ _ _ hR hH
      obtain ⟨t', hx, hR'⟩ := ih hR₁
      exact ⟨t', .call hH' hx, hR'⟩
