/-
# Files written in blocks

A file is updated in place, one block of `b` bytes at a time.  `writeBlocks b f ws`
is the file after the writes `ws`, a list of block numbers with their contents; the
last write to a block wins.  The two questions a recovery argument asks of it:

    byteAt_writeBlocks   which byte stands at an offset
    writeBlocks_torn     redoing `ws` over a file in which one block write was torn
                         gives the same file, if `ws` rewrites that block or the torn
                         write was going to put there what `ws` leaves there
-/
import VelociDB.Lib.Disk

open Bytes

namespace Blocks

variable (b : Nat)

/-- Block `p` of a file, `0` past the end. -/
def block (f : Bytes) (p : Nat) : Bytes := window f (p * b) b

/-- The file after a list of block writes. -/
def writeBlocks (f : Bytes) : List (Nat × Bytes) → Bytes
  | [] => f
  | w :: ws => writeBlocks (overwrite f (w.1 * b) w.2) ws

/-- What a list of writes leaves in block `p`. -/
def lastWrite (p : Nat) : List (Nat × Bytes) → Option Bytes
  | [] => none
  | w :: ws => (lastWrite p ws).or (if w.1 = p then some w.2 else none)

/-- Where the furthest write ends. -/
def endOf : List (Nat × Bytes) → Nat
  | [] => 0
  | w :: ws => max ((w.1 + 1) * b) (endOf ws)

/-- Every write is one whole block. -/
def Whole (ws : List (Nat × Bytes)) : Prop := ∀ w ∈ ws, w.2.length = b

variable {b}

theorem Whole.head {w : Nat × Bytes} {ws : List (Nat × Bytes)} (h : Whole b (w :: ws)) :
    w.2.length = b := h w List.mem_cons_self

theorem Whole.tail {w : Nat × Bytes} {ws : List (Nat × Bytes)} (h : Whole b (w :: ws)) :
    Whole b ws := fun x hx => h x (List.mem_cons_of_mem _ hx)

theorem Whole.append {ws vs : List (Nat × Bytes)} (h : Whole b ws) (h' : Whole b vs) :
    Whole b (ws ++ vs) := by
  intro w hw
  rcases List.mem_append.mp hw with hw | hw
  · exact h w hw
  · exact h' w hw

theorem writeBlocks_append (f : Bytes) (ws vs : List (Nat × Bytes)) :
    writeBlocks b f (ws ++ vs) = writeBlocks b (writeBlocks b f ws) vs := by
  induction ws generalizing f with
  | nil => rfl
  | cons w ws ih => exact ih _

theorem endOf_append (ws vs : List (Nat × Bytes)) :
    endOf b (ws ++ vs) = max (endOf b ws) (endOf b vs) := by
  induction ws with
  | nil => simp [endOf]
  | cons w ws ih => simp only [List.cons_append, endOf, ih, max_assoc]

theorem le_endOf {w : Nat × Bytes} : ∀ {ws : List (Nat × Bytes)}, w ∈ ws →
    (w.1 + 1) * b ≤ endOf b ws
  | v :: _, h => by
      rcases List.mem_cons.mp h with rfl | h
      · exact le_max_left _ _
      · exact le_trans (le_endOf h) (le_max_right _ _)

theorem endOf_le {n : Nat} : ∀ {ws : List (Nat × Bytes)}, (∀ w ∈ ws, (w.1 + 1) * b ≤ n) →
    endOf b ws ≤ n
  | [], _ => Nat.zero_le n
  | w :: _, h =>
      max_le (h w List.mem_cons_self) (endOf_le fun x hx => h x (List.mem_cons_of_mem _ hx))

theorem lastWrite_append (p : Nat) (ws vs : List (Nat × Bytes)) :
    lastWrite p (ws ++ vs) = (lastWrite p vs).or (lastWrite p ws) := by
  induction ws with
  | nil => simp [lastWrite]
  | cons w ws ih => rw [List.cons_append, lastWrite, ih, lastWrite, Option.or_assoc]

theorem lastWrite_mem {p : Nat} {bs : Bytes} : ∀ {ws : List (Nat × Bytes)},
    lastWrite p ws = some bs → (p, bs) ∈ ws
  | w :: ws, h => by
      rw [lastWrite, Option.or_eq_some_iff] at h
      rcases h with h | ⟨-, h⟩
      · exact List.mem_cons_of_mem _ (lastWrite_mem h)
      · split at h
        · rename_i hp
          obtain rfl := Option.some.inj h
          exact hp ▸ List.mem_cons_self
        · cases h

theorem lastWrite_isSome {p : Nat} : ∀ {ws : List (Nat × Bytes)},
    (∃ w ∈ ws, w.1 = p) → ∃ bs, lastWrite p ws = some bs
  | w :: ws, ⟨v, hv, hp⟩ => by
      rw [lastWrite]
      rcases List.mem_cons.mp hv with rfl | hv
      · rw [if_pos hp]
        cases lastWrite p ws <;> simp
      · obtain ⟨bs, hbs⟩ := lastWrite_isSome ⟨v, hv, hp⟩
        exact ⟨bs, by simp [hbs]⟩

theorem lastWrite_eq_none {p : Nat} {ws : List (Nat × Bytes)} :
    lastWrite p ws = none ↔ ∀ w ∈ ws, w.1 ≠ p := by
  constructor
  · intro h w hw hp
    obtain ⟨bs, hbs⟩ := lastWrite_isSome ⟨w, hw, hp⟩
    rw [h] at hbs
    cases hbs
  · intro h
    cases hl : lastWrite p ws with
    | none => rfl
    | some bs => exact absurd rfl (h _ (lastWrite_mem hl))

/-- When no block is written twice, the order of the writes does not matter. -/
theorem lastWrite_of_mem {p : Nat} {bs : Bytes} {ws : List (Nat × Bytes)}
    (hnd : (ws.map Prod.fst).Nodup) (h : (p, bs) ∈ ws) : lastWrite p ws = some bs := by
  obtain ⟨cs, hcs⟩ := lastWrite_isSome ⟨_, h, rfl⟩
  have hmem := lastWrite_mem hcs
  have hinj := List.inj_on_of_nodup_map hnd hmem h rfl
  rw [hcs, (Prod.mk.inj hinj).2]

theorem length_writeBlocks (hb : 0 < b) : ∀ (f : Bytes) {ws : List (Nat × Bytes)},
    Whole b ws → (writeBlocks b f ws).length = max f.length (endOf b ws)
  | f, [], _ => by simp [writeBlocks, endOf]
  | f, w :: ws, h => by
      have hne : w.2 ≠ [] := by
        intro hnil
        have := h.head
        rw [hnil] at this
        simp at this
        omega
      rw [writeBlocks, length_writeBlocks hb _ h.tail, length_overwrite _ _ hne, h.head, endOf,
        max_assoc, Nat.succ_mul]

theorem byteAt_writeBlocks (hb : 0 < b) (i : Nat) : ∀ (f : Bytes) {ws : List (Nat × Bytes)},
    Whole b ws → byteAt (writeBlocks b f ws) i =
      match lastWrite (i / b) ws with
      | some bs => byteAt bs (i % b)
      | none => byteAt f i
  | f, [], _ => rfl
  | f, w :: ws, h => by
      rw [writeBlocks, byteAt_writeBlocks hb i _ h.tail, lastWrite]
      cases hl : lastWrite (i / b) ws with
      | some bs => rfl
      | none =>
          simp only [Option.none_or]
          rw [byteAt_overwrite, h.head]
          have hdiv := Nat.div_add_mod i b
          have hmod := Nat.mod_lt i hb
          by_cases hp : w.1 = i / b
          · rw [if_pos hp, hp, if_pos]
            · congr 1
              rw [mul_comm]
              omega
            · rw [mul_comm]
              omega
          · rw [if_neg hp, if_neg]
            intro ⟨h1, h2⟩
            refine hp (le_antisymm ((Nat.le_div_iff_mul_le hb).mpr h1) ?_)
            have h3 : i < (w.1 + 1) * b := by
              rw [Nat.succ_mul]
              exact h2
            exact Nat.lt_succ_iff.mp ((Nat.div_lt_iff_lt_mul hb).mpr h3)

theorem byteAt_block (f : Bytes) (p i : Nat) :
    byteAt (block b f p) i = if i < b then byteAt f (p * b + i) else 0 :=
  byteAt_window f (p * b) b i

@[simp] theorem length_block (f : Bytes) (p : Nat) : (block b f p).length = b :=
  length_window f _ b

theorem block_writeBlocks (hb : 0 < b) (f : Bytes) {ws : List (Nat × Bytes)}
    (h : Whole b ws) (p : Nat) :
    block b (writeBlocks b f ws) p = (lastWrite p ws).getD (block b f p) := by
  have key : ∀ i, i < b → (p * b + i) / b = p ∧ (p * b + i) % b = i := by
    intro i hi
    constructor
    · rw [mul_comm, Nat.mul_add_div hb, Nat.div_eq_of_lt hi, Nat.add_zero]
    · rw [mul_comm, Nat.mul_add_mod, Nat.mod_eq_of_lt hi]
  have hlen : ((lastWrite p ws).getD (block b f p)).length = b := by
    cases hl : lastWrite p ws with
    | none => simp
    | some bs => exact h _ (lastWrite_mem hl)
  refine ext_byteAt (by rw [hlen, length_block]) fun i => ?_
  rw [byteAt_block]
  by_cases hi : i < b
  · rw [if_pos hi, byteAt_writeBlocks hb _ f h, (key i hi).1, (key i hi).2]
    cases lastWrite p ws with
    | none => simp [byteAt_block, hi]
    | some bs => rfl
  · rw [if_neg hi, byteAt_of_length_le (by omega)]

/-- Redoing the writes over a torn block. -/
theorem writeBlocks_torn (hb : 0 < b) {f g s bs : Bytes} {ws : List (Nat × Bytes)} {p n : Nat}
    (hws : Whole b ws) (h : writeBlocks b f ws = s) (hlen : (p + 1) * b ≤ s.length)
    (hbs : bs.length = b) (hp : (∃ w ∈ ws, w.1 = p) ∨ block b s p = bs)
    (ht : DiskFile.Torn (p * b) (bs.take n) f g) : writeBlocks b g ws = s := by
  subst h
  obtain ⟨hle, hge, hbyte⟩ := ht
  have hmul : (p + 1) * b = p * b + b := Nat.succ_mul p b
  have htake : (bs.take n).length ≤ b := by
    rw [List.length_take]
    omega
  refine ext_byteAt ?_ fun i => ?_
  · clear hp
    rw [length_writeBlocks hb _ hws, length_writeBlocks hb _ hws]
    rw [length_writeBlocks hb _ hws] at hlen
    omega
  · rw [byteAt_writeBlocks hb i g hws, byteAt_writeBlocks hb i f hws]
    cases hl : lastWrite (i / b) ws with
    | some cs => rfl
    | none =>
        rcases hbyte i with hi | ⟨h1, h2, hi⟩
        · exact hi
        · have hdiv : i / b = p := by
            refine Nat.div_eq_of_lt_le h1 ?_
            omega
          rcases hp with hp | hp
          · obtain ⟨cs, hcs⟩ := lastWrite_isSome hp
            rw [hdiv, hcs] at hl
            cases hl
          · have hfb : block b f p = bs := by
              rw [← hp, block_writeBlocks hb f hws, ← hdiv, hl]
              rfl
            have hshort : i - p * b < (bs.take n).length := by omega
            have hin : byteAt (bs.take n) (i - p * b) = byteAt bs (i - p * b) := by
              rw [List.length_take] at hshort
              simp [byteAt, show i - p * b < n by omega]
            show byteAt g i = byteAt f i
            rw [hi, hin, ← hfb, byteAt_block, if_pos (by omega)]
            congr 1
            omega

/-- Writing back what is there already changes nothing. -/
theorem writeBlocks_self (hb : 0 < b) {f : Bytes} {ws : List (Nat × Bytes)} (hws : Whole b ws)
    (h : ∀ w ∈ ws, block b f w.1 = w.2 ∧ (w.1 + 1) * b ≤ f.length) :
    writeBlocks b f ws = f := by
  refine ext_byteAt ?_ fun i => ?_
  · rw [length_writeBlocks hb f hws]
    exact max_eq_left (endOf_le fun w hw => (h w hw).2)
  · rw [byteAt_writeBlocks hb i f hws]
    cases hl : lastWrite (i / b) ws with
    | none => rfl
    | some bs =>
        have hbs : block b f (i / b) = bs := (h _ (lastWrite_mem hl)).1
        show byteAt bs (i % b) = byteAt f i
        rw [← hbs, byteAt_block, if_pos (Nat.mod_lt i hb)]
        congr 1
        rw [mul_comm]
        exact Nat.div_add_mod i b

end Blocks
