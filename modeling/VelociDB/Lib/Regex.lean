/-
# Regular expressions

Leftmost-first matching with groups, for expressions whose repetitions are of one class of
letters:

    empty           nothing
    start, stop     the two ends of the text
    one p           a letter of the class `p`
    many p greedy   letters of `p`, as many or as few as possible first
    seq, alt        one after the other; the left one first
    group n r       remember what `r` consumed

`exec` tries the ways to match in their order and stops at the first the rest of the
expression accepts; `search` tries the places of the text from the left.  `Runs` forgets the
order: there is a match exactly if there is a run (`exec_isSome`).
-/
import Mathlib

inductive Regex (α : Type) where
  | empty
  | start
  | stop
  | one (p : α → Bool)
  | many (p : α → Bool) (greedy : Bool)
  | seq (r s : Regex α)
  | alt (r s : Regex α)
  | group (n : Nat) (r : Regex α)

namespace Regex

variable {α β : Type}

/-- A place in the text: whether it is the first, what is behind it, and the groups so
far, the last one first. -/
structure Cursor (α : Type) where
  atStart : Bool
  rest : List α
  groups : List (Nat × List α)

/-- The ways to take letters of `p`. -/
def takeMany (p : α → Bool) (greedy : Bool) (k : Bool → List α → Option β) :
    Bool → List α → Option β
  | b, [] => k b []
  | b, a :: rest =>
      if p a then
        if greedy then (takeMany p greedy k false rest).or (k b (a :: rest))
        else (k b (a :: rest)).or (takeMany p greedy k false rest)
      else k b (a :: rest)

/-- The first way to match that `k` accepts. -/
def exec : Regex α → (Cursor α → Option β) → Cursor α → Option β
  | empty, k, c => k c
  | start, k, c => if c.atStart then k c else none
  | stop, k, c => if c.rest.isEmpty then k c else none
  | one p, k, c =>
      match c.rest with
      | a :: rest => if p a then k ⟨false, rest, c.groups⟩ else none
      | [] => none
  | many p greedy, k, c => takeMany p greedy (fun b rest => k ⟨b, rest, c.groups⟩) c.atStart c.rest
  | seq r s, k, c => r.exec (s.exec k) c
  | alt r s, k, c => (r.exec k c).or (s.exec k c)
  | group n r, k, c =>
      r.exec (fun d => k ⟨d.atStart, d.rest,
        (n, c.rest.take (c.rest.length - d.rest.length)) :: d.groups⟩) c

/-- A match: the text before it, the text behind it, and the groups. -/
structure Match (α : Type) where
  before : List α
  after : List α
  groups : List (Nat × List α)

/-- What group `n` consumed. -/
def Match.group (m : Match α) (n : Nat) : Option (List α) :=
  (m.groups.find? fun g => g.1 == n).map Prod.snd

/-- The first match that starts at or behind a place. -/
def searchFrom (r : Regex α) : Bool → List α → List α → Option (Match α)
  | b, before, [] => (r.exec some ⟨b, [], []⟩).map fun c => ⟨before, c.rest, c.groups⟩
  | b, before, a :: rest =>
      match r.exec some ⟨b, a :: rest, []⟩ with
      | some c => some ⟨before, c.rest, c.groups⟩
      | none => searchFrom r false (before ++ [a]) rest

/-- The leftmost match in a text. -/
def search (r : Regex α) (text : List α) : Option (Match α) := searchFrom r true [] text

theorem searchFrom_start (r : Regex α) (before text : List α) :
    searchFrom (seq start r) false before text = none := by
  induction text generalizing before with
  | nil => rfl
  | cons a rest ih => exact ih _

/-- An anchored expression is tried at the start of the text only. -/
theorem search_start (r : Regex α) (text : List α) : (seq start r).search text =
    (r.exec some ⟨true, text, []⟩).map fun c => ⟨[], c.rest, c.groups⟩ := by
  cases text with
  | nil => rfl
  | cons a rest =>
      rw [search, searchFrom, exec]
      cases h : exec start (exec r some) ⟨true, a :: rest, []⟩ with
      | none =>
          rw [show exec r some ⟨true, a :: rest, []⟩ = none from h]
          exact searchFrom_start r _ _
      | some c =>
          rw [show exec r some ⟨true, a :: rest, []⟩ = some c from h]
          rfl

/-! ## Expressions made of these -/

/-- `r?`. -/
def opt (r : Regex α) : Regex α := alt r empty

/-- Letters of `p`, at least one. -/
def some1 (p : α → Bool) (greedy : Bool) : Regex α := seq (one p) (many p greedy)

/-- One after the other. -/
def seqs : List (Regex α) → Regex α
  | [] => empty
  | r :: rs => seq r (seqs rs)

/-- One of several, the first that matches. -/
def alts : List (Regex α) → Regex α
  | [] => one fun _ => false
  | [r] => r
  | r :: rs => alt r (alts rs)

/-! ## Runs -/

/-- `d` is where a match of the expression from `c` can end. -/
def Runs : Regex α → Cursor α → Cursor α → Prop
  | empty, c, d => d = c
  | start, c, d => c.atStart = true ∧ d = c
  | stop, c, d => c.rest = [] ∧ d = c
  | one p, c, d => ∃ a, p a = true ∧ c.rest = a :: d.rest ∧ d = ⟨false, d.rest, c.groups⟩
  | many p _, c, d => ∃ w, (∀ a ∈ w, p a = true) ∧ c.rest = w ++ d.rest ∧
      d = ⟨c.atStart && w.isEmpty, d.rest, c.groups⟩
  | seq r s, c, d => ∃ e, r.Runs c e ∧ s.Runs e d
  | alt r s, c, d => r.Runs c d ∨ s.Runs c d
  | group n r, c, d => ∃ e, r.Runs c e ∧
      d = ⟨e.atStart, e.rest, (n, c.rest.take (c.rest.length - e.rest.length)) :: e.groups⟩

theorem takeMany_isSome {p : α → Bool} {greedy : Bool} {k : Bool → List α → Option β} {b : Bool}
    {rest : List α} : (takeMany p greedy k b rest).isSome ↔
      ∃ w rest', (∀ a ∈ w, p a = true) ∧ rest = w ++ rest' ∧ (k (b && w.isEmpty) rest').isSome := by
  induction rest generalizing b with
  | nil =>
      constructor
      · intro h
        exact ⟨[], [], by simp, rfl, by simpa [takeMany] using h⟩
      · rintro ⟨w, rest', -, hnil, h⟩
        obtain ⟨rfl, rfl⟩ := List.append_eq_nil_iff.mp hnil.symm
        simpa [takeMany] using h
  | cons a rest ih =>
      have hhere : (k b (a :: rest)).isSome → ∃ w rest', (∀ a ∈ w, p a = true) ∧
          a :: rest = w ++ rest' ∧ (k (b && w.isEmpty) rest').isSome := by
        intro h
        exact ⟨[], a :: rest, by simp, rfl, by simpa using h⟩
      have hlater : p a = true → (takeMany p greedy k false rest).isSome → ∃ w rest',
          (∀ a ∈ w, p a = true) ∧ a :: rest = w ++ rest' ∧ (k (b && w.isEmpty) rest').isSome := by
        intro ha h
        obtain ⟨w, rest', hw, rfl, hk⟩ := ih.mp h
        refine ⟨a :: w, rest', ?_, rfl, by simpa using hk⟩
        rintro x hx
        rcases List.mem_cons.mp hx with rfl | hx
        · exact ha
        · exact hw x hx
      have hback : (∃ w rest', (∀ a ∈ w, p a = true) ∧ a :: rest = w ++ rest' ∧
          (k (b && w.isEmpty) rest').isSome) → (k b (a :: rest)).isSome ∨
            (p a = true ∧ (takeMany p greedy k false rest).isSome) := by
        rintro ⟨w, rest', hw, heq, hk⟩
        cases w with
        | nil =>
            obtain rfl : a :: rest = rest' := heq
            exact Or.inl (by simpa using hk)
        | cons x w =>
            obtain ⟨rfl, rfl⟩ := List.cons.inj heq
            refine Or.inr ⟨hw a List.mem_cons_self, ih.mpr ⟨w, rest', ?_, rfl, by simpa using hk⟩⟩
            exact fun y hy => hw y (List.mem_cons_of_mem _ hy)
      rw [takeMany]
      split
      · rename_i ha
        have hor : (∃ w rest', (∀ a ∈ w, p a = true) ∧ a :: rest = w ++ rest' ∧
            (k (b && w.isEmpty) rest').isSome) ↔ (k b (a :: rest)).isSome ∨
              (takeMany p greedy k false rest).isSome :=
          ⟨fun h => (hback h).imp id And.right, fun h => h.elim hhere (hlater ha)⟩
        rw [hor]
        split
        · rw [Option.isSome_or, Bool.or_eq_true, or_comm]
        · rw [Option.isSome_or, Bool.or_eq_true]
      · rename_i ha
        exact ⟨hhere, fun h => (hback h).resolve_right fun h => ha h.1⟩

theorem takeMany_some {p : α → Bool} {greedy : Bool} {k : Bool → List α → Option β} {b : Bool}
    {rest : List α} {x : β} (h : takeMany p greedy k b rest = some x) :
    ∃ w rest', (∀ a ∈ w, p a = true) ∧ rest = w ++ rest' ∧ k (b && w.isEmpty) rest' = some x := by
  induction rest generalizing b with
  | nil => exact ⟨[], [], by simp, rfl, by simpa [takeMany] using h⟩
  | cons a rest ih =>
      have hhere : k b (a :: rest) = some x → ∃ w rest', (∀ a ∈ w, p a = true) ∧
          a :: rest = w ++ rest' ∧ k (b && w.isEmpty) rest' = some x := by
        intro h
        exact ⟨[], a :: rest, by simp, rfl, by simpa using h⟩
      rw [takeMany] at h
      split at h
      · rename_i ha
        have hlater : takeMany p greedy k false rest = some x → ∃ w rest',
            (∀ a ∈ w, p a = true) ∧ a :: rest = w ++ rest' ∧
              k (b && w.isEmpty) rest' = some x := by
          intro h
          obtain ⟨w, rest', hw, rfl, hk⟩ := ih h
          refine ⟨a :: w, rest', ?_, rfl, by simpa using hk⟩
          rintro y hy
          rcases List.mem_cons.mp hy with rfl | hy
          · exact ha
          · exact hw y hy
        split at h
        · rcases Option.or_eq_some_iff.mp h with h | ⟨-, h⟩
          · exact hlater h
          · exact hhere h
        · rcases Option.or_eq_some_iff.mp h with h | ⟨-, h⟩
          · exact hhere h
          · exact hlater h
      · exact hhere h

/-- A match ends a run. -/
theorem exec_some {r : Regex α} {k : Cursor α → Option β} {c : Cursor α} {x : β}
    (h : r.exec k c = some x) : ∃ d, r.Runs c d ∧ k d = some x := by
  induction r generalizing k c with
  | empty => exact ⟨c, rfl, h⟩
  | start =>
      rw [exec] at h
      split at h
      · rename_i hstart
        exact ⟨c, ⟨hstart, rfl⟩, h⟩
      · cases h
  | stop =>
      rw [exec] at h
      split at h
      · rename_i hstop
        exact ⟨c, ⟨List.isEmpty_iff.mp hstop, rfl⟩, h⟩
      · cases h
  | one p =>
      rw [exec] at h
      split at h
      · rename_i a rest hrest
        split at h
        · rename_i ha
          exact ⟨_, ⟨a, ha, hrest, rfl⟩, h⟩
        · cases h
      · cases h
  | many p greedy =>
      obtain ⟨w, rest, hw, heq, h⟩ := takeMany_some h
      exact ⟨_, ⟨w, hw, heq, rfl⟩, h⟩
  | seq r s ihr ihs =>
      obtain ⟨e, he, h⟩ := ihr h
      obtain ⟨d, hd, h⟩ := ihs h
      exact ⟨d, ⟨e, he, hd⟩, h⟩
  | alt r s ihr ihs =>
      rw [exec] at h
      rcases Option.or_eq_some_iff.mp h with h | ⟨-, h⟩
      · obtain ⟨d, hd, h⟩ := ihr h
        exact ⟨d, Or.inl hd, h⟩
      · obtain ⟨d, hd, h⟩ := ihs h
        exact ⟨d, Or.inr hd, h⟩
  | group n r ih =>
      obtain ⟨e, he, h⟩ := ih h
      exact ⟨_, ⟨e, he, rfl⟩, h⟩

/-- There is a match exactly if there is a run to a place that `k` accepts. -/
theorem exec_isSome {r : Regex α} {k : Cursor α → Option β} {c : Cursor α} :
    (r.exec k c).isSome ↔ ∃ d, r.Runs c d ∧ (k d).isSome := by
  induction r generalizing k c with
  | empty => simp [exec, Runs]
  | start =>
      rw [exec]
      split
      · simp [Runs, *]
      · simp [Runs, *]
  | stop =>
      rw [exec]
      split
      · rename_i h
        simp [Runs, List.isEmpty_iff.mp h]
      · rename_i h
        simp only [List.isEmpty_iff] at h
        simp [Runs, h]
  | one p =>
      rw [exec]
      split
      · rename_i a rest hrest
        split
        · rename_i ha
          constructor
          · exact fun h => ⟨_, ⟨a, ha, hrest, rfl⟩, h⟩
          · rintro ⟨d, ⟨x, -, hx, hd⟩, h⟩
            obtain ⟨rfl, hrest'⟩ := List.cons.inj (hrest.symm.trans hx)
            rw [hd, ← hrest'] at h
            exact h
        · rename_i ha
          simp only [Option.isSome_none, Bool.false_eq_true, false_iff]
          rintro ⟨d, ⟨x, hp, hx, -⟩, -⟩
          obtain ⟨rfl, -⟩ := List.cons.inj (hrest.symm.trans hx)
          exact ha hp
      · rename_i hrest
        simp only [Option.isSome_none, Bool.false_eq_true, false_iff]
        rintro ⟨d, ⟨x, -, hx, -⟩, -⟩
        rw [hrest] at hx
        cases hx
  | many p greedy =>
      rw [exec, takeMany_isSome]
      constructor
      · rintro ⟨w, rest, hw, heq, h⟩
        exact ⟨_, ⟨w, hw, heq, rfl⟩, h⟩
      · rintro ⟨d, ⟨w, hw, heq, hd⟩, h⟩
        rw [hd] at h
        exact ⟨w, d.rest, hw, heq, h⟩
  | seq r s ihr ihs =>
      rw [exec, ihr]
      constructor
      · rintro ⟨e, he, h⟩
        obtain ⟨d, hd, h⟩ := ihs.mp h
        exact ⟨d, ⟨e, he, hd⟩, h⟩
      · rintro ⟨d, ⟨e, he, hd⟩, h⟩
        exact ⟨e, he, ihs.mpr ⟨d, hd, h⟩⟩
  | alt r s ihr ihs =>
      rw [exec, Option.isSome_or, Bool.or_eq_true, ihr, ihs]
      constructor
      · rintro (⟨d, hd, h⟩ | ⟨d, hd, h⟩)
        · exact ⟨d, Or.inl hd, h⟩
        · exact ⟨d, Or.inr hd, h⟩
      · rintro ⟨d, hd | hd, h⟩
        · exact Or.inl ⟨d, hd, h⟩
        · exact Or.inr ⟨d, hd, h⟩
  | group n r ih =>
      rw [exec, ih]
      constructor
      · rintro ⟨e, he, h⟩
        exact ⟨_, ⟨e, he, rfl⟩, h⟩
      · rintro ⟨d, ⟨e, he, rfl⟩, h⟩
        exact ⟨e, he, h⟩

/-! ## Which run a match takes -/

theorem exec_seq (r s : Regex α) (k : Cursor α → Option β) (c : Cursor α) :
    (seq r s).exec k c = r.exec (s.exec k) c := rfl

/-- As many letters as there are, if `k` accepts that. -/
theorem takeMany_max {p : α → Bool} {k : Bool → List α → Option β} {b : Bool} {w rest : List α}
    {x : β} (hw : ∀ a ∈ w, p a = true) (hrest : ∀ a, rest.head? = some a → p a = false)
    (h : k (b && w.isEmpty) rest = some x) : takeMany p true k b (w ++ rest) = some x := by
  induction w generalizing b with
  | nil =>
      rw [List.isEmpty_nil, Bool.and_true] at h
      cases rest with
      | nil => exact h
      | cons a rest =>
          rw [List.nil_append, takeMany, hrest a rfl]
          exact h
  | cons a w ih =>
      rw [List.isEmpty_cons, Bool.and_false] at h
      rw [List.cons_append, takeMany, if_pos (hw a List.mem_cons_self), if_pos rfl,
        ih (b := false) (fun c hc => hw c (List.mem_cons_of_mem _ hc)) h]
      rfl

/-- The last stop that `k` accepts. -/
theorem takeMany_last {p : α → Bool} {k : Bool → List α → Option β} {b : Bool} {w rest : List α}
    {x : β} (hw : ∀ a ∈ w, p a = true)
    (h : k (b && w.isEmpty) rest = some x)
    (hno : ∀ u v, u ≠ [] → (∀ a ∈ u, p a = true) → rest = u ++ v → k false v = none) :
    takeMany p true k b (w ++ rest) = some x := by
  induction w generalizing b with
  | nil =>
      rw [List.isEmpty_nil, Bool.and_true] at h
      cases rest with
      | nil => exact h
      | cons a rest =>
          rw [List.nil_append, takeMany]
          split
          · rename_i ha
            have hnone : takeMany p true k false rest = none := by
              rw [← Option.not_isSome_iff_eq_none, takeMany_isSome]
              rintro ⟨u, v, hu, rfl, hk⟩
              have hall : ∀ d ∈ a :: u, p d = true := by
                rintro d hd
                rcases List.mem_cons.mp hd with rfl | hd
                · exact ha
                · exact hu d hd
              rw [Bool.false_and, hno (a :: u) v (List.cons_ne_nil _ _) hall rfl] at hk
              cases hk
            rw [if_pos rfl, hnone]
            exact h
          · exact h
  | cons a w ih =>
      rw [List.isEmpty_cons, Bool.and_false] at h
      rw [List.cons_append, takeMany, if_pos (hw a List.mem_cons_self), if_pos rfl,
        ih (b := false) (fun c hc => hw c (List.mem_cons_of_mem _ hc)) h]
      rfl

/-- The only stop that `k` accepts. -/
theorem takeMany_only {p : α → Bool} {greedy : Bool} {k : Bool → List α → Option β} {b : Bool}
    {w rest : List α} {x : β} (hw : ∀ a ∈ w, p a = true) (h : k (b && w.isEmpty) rest = some x)
    (honly : ∀ u v, (∀ a ∈ u, p a = true) → w ++ rest = u ++ v → (k (b && u.isEmpty) v).isSome →
      u = w) : takeMany p greedy k b (w ++ rest) = some x := by
  have hsome : (takeMany p greedy k b (w ++ rest)).isSome :=
    takeMany_isSome.mpr ⟨w, rest, hw, rfl, by rw [h]; rfl⟩
  obtain ⟨y, hy⟩ := Option.isSome_iff_exists.mp hsome
  obtain ⟨u, v, hu, heq, hk⟩ := takeMany_some hy
  obtain rfl := honly u v hu heq (by rw [hk]; rfl)
  rw [List.append_cancel_left heq, hk] at h
  rw [hy, h]

/-- As few letters as `k` accepts. -/
theorem takeMany_min {p : α → Bool} {k : Bool → List α → Option β} {b : Bool} {rest : List α}
    {x : β} (h : takeMany p false k b rest = some x) :
    ∃ w rest', (∀ a ∈ w, p a = true) ∧ rest = w ++ rest' ∧ k (b && w.isEmpty) rest' = some x ∧
      ∀ u v, rest = u ++ v → u.length < w.length → k (b && u.isEmpty) v = none := by
  induction rest generalizing b with
  | nil => exact ⟨[], [], by simp, rfl, by simpa [takeMany] using h, by simp⟩
  | cons a rest ih =>
      have hhere : k b (a :: rest) = some x → ∃ w rest', (∀ a ∈ w, p a = true) ∧
          a :: rest = w ++ rest' ∧ k (b && w.isEmpty) rest' = some x ∧
            ∀ u v, a :: rest = u ++ v → u.length < w.length → k (b && u.isEmpty) v = none := by
        intro h
        exact ⟨[], a :: rest, by simp, rfl, by simpa using h, by simp⟩
      rw [takeMany] at h
      split at h
      · rename_i ha
        rw [if_neg Bool.false_ne_true] at h
        rcases Option.or_eq_some_iff.mp h with h | ⟨hnone, h⟩
        · exact hhere h
        · obtain ⟨w, rest', hw, rfl, hk, hless⟩ := ih h
          refine ⟨a :: w, rest', ?_, rfl, by simpa using hk, ?_⟩
          · rintro c hc
            rcases List.mem_cons.mp hc with rfl | hc
            · exact ha
            · exact hw c hc
          · rintro u v heq hlt
            cases u with
            | nil =>
                obtain rfl : a :: (w ++ rest') = v := heq
                simpa using hnone
            | cons c u =>
                obtain ⟨rfl, hrest⟩ := List.cons.inj heq
                simpa using hless u v hrest (Nat.lt_of_succ_lt_succ hlt)
      · exact hhere h

section

variable {p : α → Bool} {k : Cursor α → Option β} {c : Cursor α} {w rest : List α} {x : β}

theorem exec_many_max (heq : c.rest = w ++ rest) (hw : ∀ a ∈ w, p a = true)
    (hrest : ∀ a, rest.head? = some a → p a = false)
    (h : k ⟨c.atStart && w.isEmpty, rest, c.groups⟩ = some x) :
    (many p true).exec k c = some x := by
  rw [exec, heq]
  exact takeMany_max hw hrest h

theorem exec_some1_max (heq : c.rest = w ++ rest) (hne : w ≠ []) (hw : ∀ a ∈ w, p a = true)
    (hrest : ∀ a, rest.head? = some a → p a = false)
    (h : k ⟨false, rest, c.groups⟩ = some x) : (some1 p true).exec k c = some x := by
  obtain ⟨a, w, rfl⟩ := List.exists_cons_of_ne_nil hne
  rw [some1, exec, exec, heq]
  refine (if_pos (hw a List.mem_cons_self)).trans ?_
  exact exec_many_max rfl (fun d hd => hw d (List.mem_cons_of_mem _ hd)) hrest h

/-- What a group remembers. -/
theorem take_sub (w rest : List α) :
    (w ++ rest).take ((w ++ rest).length - rest.length) = w := by
  rw [List.length_append, Nat.add_sub_cancel, List.take_left]

theorem exec_group_max {n : Nat} (heq : c.rest = w ++ rest) (hne : w ≠ [])
    (hw : ∀ a ∈ w, p a = true) (hrest : ∀ a, rest.head? = some a → p a = false)
    (h : k ⟨false, rest, (n, w) :: c.groups⟩ = some x) :
    (group n (some1 p true)).exec k c = some x := by
  rw [exec]
  refine exec_some1_max heq hne hw hrest ?_
  rw [heq, take_sub]
  exact h

theorem exec_group_last {n : Nat}
    (heq : c.rest = w ++ rest) (hne : w ≠ []) (hw : ∀ a ∈ w, p a = true)
    (h : k ⟨false, rest, (n, w) :: c.groups⟩ = some x)
    (hno : ∀ u v gs, u ≠ [] → (∀ a ∈ u, p a = true) → rest = u ++ v → k ⟨false, v, gs⟩ = none) :
    (group n (some1 p true)).exec k c = some x := by
  obtain ⟨a, w, rfl⟩ := List.exists_cons_of_ne_nil hne
  rw [exec, some1, exec, exec, heq]
  refine (if_pos (hw a List.mem_cons_self)).trans ?_
  rw [exec]
  refine takeMany_last (fun d hd => hw d (List.mem_cons_of_mem _ hd)) ?_ ?_
  · dsimp only
    rw [take_sub]
    exact h
  · exact fun u v hu hall hv => hno u v _ hu hall hv

/-- One letter of each class. -/
theorem exec_ones {γ : Type} {f : γ → α → Bool} {cs : List γ}
    (hw : List.Forall₂ (fun c a => f c a = true) cs w) (heq : c.rest = w ++ rest)
    (h : k ⟨c.atStart && w.isEmpty, rest, c.groups⟩ = some x) :
    (seqs (cs.map fun c => one (f c))).exec k c = some x := by
  induction hw generalizing c with
  | nil =>
      rw [List.isEmpty_nil, Bool.and_true] at h
      rw [← show c.rest = rest from heq] at h
      exact h
  | @cons d a cs w ha hw ih =>
      rw [List.map_cons, seqs, exec, exec, heq]
      refine (if_pos ha).trans (ih rfl ?_)
      rw [List.isEmpty_cons, Bool.and_false] at h
      exact h

end

theorem exec_seqs_append (rs ss : List (Regex α)) (k : Cursor α → Option β) (c : Cursor α) :
    (seqs (rs ++ ss)).exec k c = (seqs rs).exec ((seqs ss).exec k) c := by
  induction rs generalizing c with
  | nil => rfl
  | cons r rs ih =>
      rw [List.cons_append, seqs, seqs, exec, exec]
      exact congrArg (fun k' => r.exec k' c) (funext ih)

/-- What is done with the result does not change the choice. -/
theorem exec_map {γ : Type} (f : β → γ) (r : Regex α) (k : Cursor α → Option β) (c : Cursor α) :
    r.exec (fun d => (k d).map f) c = (r.exec k c).map f := by
  have hmany : ∀ (p : α → Bool) (greedy : Bool) (k : Bool → List α → Option β) (rest : List α)
      (b : Bool), takeMany p greedy (fun b rest => (k b rest).map f) b rest =
        (takeMany p greedy k b rest).map f := by
    intro p greedy k rest
    induction rest with
    | nil => exact fun b => rfl
    | cons a rest ih =>
        intro b
        rw [takeMany, takeMany, ih]
        split
        · split
          · rw [Option.map_or]
          · rw [Option.map_or]
        · rfl
  induction r generalizing k c with
  | empty => rfl
  | start | stop =>
      rw [exec, exec]
      split <;> rfl
  | one p =>
      rw [exec, exec]
      split
      · split <;> rfl
      · rfl
  | many p greedy => exact hmany p greedy _ _ _
  | seq r s ihr ihs =>
      rw [exec_seq, exec_seq, ← ihr]
      exact congrArg (fun k' => r.exec k' c) (funext fun d => ihs k d)
  | alt r s ihr ihs => rw [exec, exec, ihr, ihs, Option.map_or]
  | group n r ih => exact ih _ c

/-- An expression is searched for by its matches. -/
theorem search_congr {r s : Regex α} (h : ∀ c, r.exec some c = s.exec some c) (text : List α) :
    r.search text = s.search text := by
  rw [search, search]
  generalize true = b
  generalize ([] : List α) = before
  induction text generalizing b before with
  | nil => rw [searchFrom, searchFrom, h]
  | cons a rest ih => rw [searchFrom, searchFrom, h, ih]

/-- Behind an expression, one that matches everywhere: the match of the first is the same as
without it. -/
theorem search_seq {r s : Regex α} (hs : ∀ d, (s.exec some d).isSome) (text : List α) :
    (seq r s).search text = none ∧ r.search text = none ∨
      ∃ before c d, r.search text = some ⟨before, c.rest, c.groups⟩ ∧ s.exec some c = some d ∧
        (seq r s).search text = some ⟨before, d.rest, d.groups⟩ := by
  have hexec : ∀ c, (seq r s).exec some c = (r.exec some c).map fun d => (s.exec some d).get (hs d) := by
    intro c
    rw [exec_seq, ← exec_map]
    exact congrArg (fun k' => r.exec k' c) (funext fun d => by rw [Option.map_some, Option.some_get])
  rw [search, search]
  generalize true = b
  generalize ([] : List α) = before
  induction text generalizing b before with
  | nil =>
      rw [searchFrom, searchFrom, hexec]
      cases r.exec some ⟨b, [], []⟩ with
      | none => exact Or.inl ⟨rfl, rfl⟩
      | some c => exact Or.inr ⟨before, c, _, rfl, (Option.some_get _).symm, rfl⟩
  | cons a rest ih =>
      rw [searchFrom, searchFrom, hexec]
      cases r.exec some ⟨b, a :: rest, []⟩ with
      | none => exact ih _ _
      | some c => exact Or.inr ⟨before, c, _, rfl, (Option.some_get _).symm, rfl⟩

/-- A match of a text: one from a place of it. -/
theorem search_exec {r : Regex α} {text : List α} {m : Match α} (h : r.search text = some m) :
    ∃ rest d, text = m.before ++ rest ∧ r.exec some ⟨m.before.isEmpty, rest, []⟩ = some d ∧
      m = ⟨m.before, d.rest, d.groups⟩ := by
  have hfrom : ∀ (rest before : List α) (b : Bool), b = before.isEmpty →
      searchFrom r b before rest = some m → ∃ rest' d, before ++ rest = m.before ++ rest' ∧
        r.exec some ⟨m.before.isEmpty, rest', []⟩ = some d ∧
          m = ⟨m.before, d.rest, d.groups⟩ := by
    intro rest
    induction rest with
    | nil =>
        rintro before b rfl h
        obtain ⟨c, hc, rfl⟩ := Option.map_eq_some_iff.mp h
        exact ⟨[], c, rfl, hc, rfl⟩
    | cons a rest ih =>
        rintro before b rfl h
        rw [searchFrom] at h
        split at h
        · rename_i c hc
          obtain rfl := Option.some.inj h
          exact ⟨a :: rest, c, rfl, hc, rfl⟩
        · obtain ⟨rest', d, heq, hrest⟩ := ih (before ++ [a]) false (by simp) h
          exact ⟨rest', d, by rw [← heq, List.append_assoc]; rfl, hrest⟩
  exact hfrom text [] true rfl h

/-- A match of a text: a run from a place of it. -/
theorem search_some {r : Regex α} {text : List α} {m : Match α} (h : r.search text = some m) :
    ∃ rest d, text = m.before ++ rest ∧ r.Runs ⟨m.before.isEmpty, rest, []⟩ d ∧
      m = ⟨m.before, d.rest, d.groups⟩ := by
  obtain ⟨rest, d, htext, hexec, hm⟩ := search_exec h
  obtain ⟨d', hd', hsome⟩ := exec_some hexec
  obtain rfl := Option.some.inj hsome
  exact ⟨rest, d', htext, hd', hm⟩

/-- A match at the start of a text is the first. -/
theorem search_of_start {r : Regex α} {text : List α} {d : Cursor α}
    (h : r.exec some ⟨true, text, []⟩ = some d) : r.search text = some ⟨[], d.rest, d.groups⟩ := by
  cases text with
  | nil =>
      rw [search, searchFrom, h]
      rfl
  | cons a rest => rw [search, searchFrom, h]

/-! ## What a run consumes -/

/-- `r` can consume `w`, and then remembers `gs`. -/
def Eats : Regex α → List α → List (Nat × List α) → Prop
  | empty, w, gs => w = [] ∧ gs = []
  | start, w, gs => w = [] ∧ gs = []
  | stop, w, gs => w = [] ∧ gs = []
  | one p, w, gs => ∃ a, p a = true ∧ w = [a] ∧ gs = []
  | many p _, w, gs => (∀ a ∈ w, p a = true) ∧ gs = []
  | seq r s, w, gs => ∃ u v gu gv, r.Eats u gu ∧ s.Eats v gv ∧ w = u ++ v ∧ gs = gv ++ gu
  | alt r s, w, gs => r.Eats w gs ∨ s.Eats w gs
  | group n r, w, gs => ∃ g, r.Eats w g ∧ gs = (n, w) :: g

theorem Runs.eats {r : Regex α} {c d : Cursor α} (h : r.Runs c d) :
    ∃ w gs, r.Eats w gs ∧ c.rest = w ++ d.rest ∧ d.groups = gs ++ c.groups := by
  induction r generalizing c d with
  | empty =>
      obtain rfl := h
      exact ⟨[], [], ⟨rfl, rfl⟩, rfl, rfl⟩
  | start =>
      obtain ⟨-, rfl⟩ := h
      exact ⟨[], [], ⟨rfl, rfl⟩, rfl, rfl⟩
  | stop =>
      obtain ⟨-, rfl⟩ := h
      exact ⟨[], [], ⟨rfl, rfl⟩, rfl, rfl⟩
  | one p =>
      obtain ⟨a, ha, hrest, hd⟩ := h
      exact ⟨[a], [], ⟨a, ha, rfl, rfl⟩, hrest, by rw [hd]; rfl⟩
  | many p greedy =>
      obtain ⟨w, hw, hrest, hd⟩ := h
      exact ⟨w, [], ⟨hw, rfl⟩, hrest, by rw [hd]; rfl⟩
  | seq r s ihr ihs =>
      obtain ⟨e, hr, hs⟩ := h
      obtain ⟨u, gu, hu, hurest, hgu⟩ := ihr hr
      obtain ⟨v, gv, hv, hvrest, hgv⟩ := ihs hs
      refine ⟨u ++ v, gv ++ gu, ⟨u, v, gu, gv, hu, hv, rfl, rfl⟩, ?_, ?_⟩
      · rw [hurest, hvrest, List.append_assoc]
      · rw [hgv, hgu, List.append_assoc]
  | alt r s ihr ihs =>
      rcases h with h | h
      · obtain ⟨w, gs, hw, hrest⟩ := ihr h
        exact ⟨w, gs, Or.inl hw, hrest⟩
      · obtain ⟨w, gs, hw, hrest⟩ := ihs h
        exact ⟨w, gs, Or.inr hw, hrest⟩
  | group n r ih =>
      obtain ⟨e, he, rfl⟩ := h
      obtain ⟨w, gs, hw, hrest, hgs⟩ := ih he
      refine ⟨w, (n, w) :: gs, ⟨gs, hw, rfl⟩, hrest, ?_⟩
      have htake : c.rest.take (c.rest.length - e.rest.length) = w := by
        rw [hrest, List.length_append, Nat.add_sub_cancel, List.take_left]
      rw [htake, hgs]
      rfl

theorem eats_some1 {p : α → Bool} {greedy : Bool} {w : List α} {gs : List (Nat × List α)} :
    (some1 p greedy).Eats w gs ↔ w ≠ [] ∧ (∀ a ∈ w, p a = true) ∧ gs = [] := by
  constructor
  · rintro ⟨u, v, gu, gv, ⟨a, ha, rfl, rfl⟩, ⟨hv, rfl⟩, rfl, rfl⟩
    refine ⟨List.cons_ne_nil _ _, ?_, rfl⟩
    rintro x hx
    rcases List.mem_cons.mp hx with rfl | hx
    · exact ha
    · exact hv x hx
  · rintro ⟨hne, hw, rfl⟩
    obtain ⟨a, v, rfl⟩ := List.exists_cons_of_ne_nil hne
    exact ⟨[a], v, [], [], ⟨a, hw a List.mem_cons_self, rfl, rfl⟩,
      ⟨fun x hx => hw x (List.mem_cons_of_mem _ hx), rfl⟩, rfl, rfl⟩

theorem eats_group {n : Nat} {r : Regex α} {w : List α} {gs : List (Nat × List α)} :
    (group n r).Eats w gs ↔ ∃ g, r.Eats w g ∧ gs = (n, w) :: g := Iff.rfl

theorem eats_seqs_nil {w : List α} {gs : List (Nat × List α)} :
    (seqs []).Eats w gs ↔ w = [] ∧ gs = [] := Iff.rfl

theorem eats_seqs_cons {r : Regex α} {rs : List (Regex α)} {w : List α}
    {gs : List (Nat × List α)} : (seqs (r :: rs)).Eats w gs ↔
      ∃ u v gu gv, r.Eats u gu ∧ (seqs rs).Eats v gv ∧ w = u ++ v ∧ gs = gv ++ gu := Iff.rfl

theorem eats_seqs_append {rs rs' : List (Regex α)} {w : List α} {gs : List (Nat × List α)} :
    (seqs (rs ++ rs')).Eats w gs ↔
      ∃ u v gu gv, (seqs rs).Eats u gu ∧ (seqs rs').Eats v gv ∧ w = u ++ v ∧ gs = gv ++ gu := by
  induction rs generalizing w gs with
  | nil =>
      constructor
      · intro h
        exact ⟨[], w, [], gs, ⟨rfl, rfl⟩, h, rfl, (List.append_nil gs).symm⟩
      · rintro ⟨u, v, gu, gv, ⟨rfl, rfl⟩, h, rfl, rfl⟩
        rw [List.append_nil]
        exact h
  | cons r rs ih =>
      rw [List.cons_append, eats_seqs_cons]
      constructor
      · rintro ⟨u, v, gu, gv, hu, hv, rfl, rfl⟩
        obtain ⟨v₁, v₂, g₁, g₂, h₁, h₂, rfl, rfl⟩ := ih.mp hv
        exact ⟨u ++ v₁, v₂, g₁ ++ gu, g₂, eats_seqs_cons.mpr ⟨u, v₁, gu, g₁, hu, h₁, rfl, rfl⟩, h₂,
          (List.append_assoc _ _ _).symm, List.append_assoc _ _ _⟩
      · rintro ⟨u, v, gu, gv, hu, hv, rfl, rfl⟩
        obtain ⟨u₁, u₂, g₁, g₂, h₁, h₂, rfl, rfl⟩ := eats_seqs_cons.mp hu
        exact ⟨u₁, u₂ ++ v, g₁, gv ++ g₂, h₁, ih.mpr ⟨u₂, v, g₂, gv, h₂, hv, rfl, rfl⟩,
          List.append_assoc _ _ _, (List.append_assoc _ _ _).symm⟩

/-- Letters as such, one after the other. -/
theorem eats_letters [DecidableEq α] {u w : List α} {gs : List (Nat × List α)} :
    (seqs (u.map fun a => one (· == a))).Eats w gs ↔ w = u ∧ gs = [] := by
  induction u generalizing w gs with
  | nil => exact Iff.rfl
  | cons a u ih =>
      rw [List.map_cons, eats_seqs_cons]
      constructor
      · rintro ⟨x, y, gx, gy, ⟨b, hb, rfl, rfl⟩, hy, rfl, rfl⟩
        obtain ⟨rfl, rfl⟩ := ih.mp hy
        rw [beq_iff_eq] at hb
        exact ⟨by rw [hb]; rfl, rfl⟩
      · rintro ⟨rfl, rfl⟩
        exact ⟨[a], u, [], [], ⟨a, beq_self_eq_true a, rfl, rfl⟩, ih.mpr ⟨rfl, rfl⟩, rfl, rfl⟩

/-- One of several. -/
theorem eats_alts {rs : List (Regex α)} {w : List α} {gs : List (Nat × List α)} :
    (alts rs).Eats w gs ↔ ∃ r ∈ rs, r.Eats w gs := by
  induction rs with
  | nil =>
      constructor
      · rintro ⟨a, ha, -⟩
        cases ha
      · rintro ⟨r, hr, -⟩
        cases hr
  | cons r rs ih =>
      cases rs with
      | nil => simp [alts]
      | cons s rs =>
          rw [List.exists_mem_cons_iff, ← ih]
          exact Iff.rfl

/-- Whether an expression matches alike everywhere. -/
def isFree : Regex α → Bool
  | empty | one _ | many _ _ => true
  | start | stop => false
  | seq r s | alt r s => r.isFree && s.isFree
  | group _ r => r.isFree

/-- What such an expression can consume it can consume wherever it stands. -/
theorem Eats.runs {r : Regex α} (hfree : r.isFree = true) {w : List α} {gs : List (Nat × List α)}
    (h : r.Eats w gs) {c : Cursor α} {rest : List α} (hc : c.rest = w ++ rest) :
    ∃ b, r.Runs c ⟨b, rest, gs ++ c.groups⟩ := by
  induction r generalizing w gs c rest with
  | empty =>
      obtain ⟨rfl, rfl⟩ := h
      exact ⟨c.atStart, by rw [Runs, ← show c.rest = rest from hc]; rfl⟩
  | start | stop => cases hfree
  | one p =>
      obtain ⟨a, ha, rfl, rfl⟩ := h
      exact ⟨false, a, ha, hc, rfl⟩
  | many p greedy =>
      obtain ⟨hw, rfl⟩ := h
      exact ⟨c.atStart && w.isEmpty, w, hw, hc, rfl⟩
  | seq r s ihr ihs =>
      obtain ⟨hr, hs⟩ := Bool.and_eq_true_iff.mp hfree
      obtain ⟨u, v, gu, gv, hu, hv, rfl, rfl⟩ := h
      obtain ⟨b, hb⟩ := ihr hr hu (hc.trans (List.append_assoc u v rest))
      obtain ⟨b', hb'⟩ := ihs hs hv (c := ⟨b, v ++ rest, gu ++ c.groups⟩) rfl
      exact ⟨b', _, hb, by rw [List.append_assoc]; exact hb'⟩
  | alt r s ihr ihs =>
      obtain ⟨hr, hs⟩ := Bool.and_eq_true_iff.mp hfree
      rcases h with h | h
      · obtain ⟨b, hb⟩ := ihr hr h hc
        exact ⟨b, Or.inl hb⟩
      · obtain ⟨b, hb⟩ := ihs hs h hc
        exact ⟨b, Or.inr hb⟩
  | group n r ih =>
      obtain ⟨g, hg, rfl⟩ := h
      obtain ⟨b, hb⟩ := ih hfree hg hc
      refine ⟨b, _, hb, ?_⟩
      rw [hc, take_sub]
      rfl

/-- The groups that every match of an expression has. -/
def binds : Regex α → List Nat
  | empty | start | stop | one _ | many _ _ => []
  | seq r s => r.binds ++ s.binds
  | alt r s => r.binds.filter (· ∈ s.binds)
  | group n r => n :: r.binds

theorem Eats.binds {r : Regex α} {w : List α} {gs : List (Nat × List α)} (h : r.Eats w gs)
    {n : Nat} (hn : n ∈ r.binds) : n ∈ gs.map Prod.fst := by
  induction r generalizing w gs with
  | empty | start | stop | one | many => cases hn
  | seq r s ihr ihs =>
      obtain ⟨u, v, gu, gv, hu, hv, -, rfl⟩ := h
      rw [List.map_append, List.mem_append]
      exact (List.mem_append.mp hn).elim (fun hn => Or.inr (ihr hu hn)) fun hn => Or.inl (ihs hv hn)
  | alt r s ihr ihs =>
      obtain ⟨hr, hs⟩ := List.mem_filter.mp hn
      exact h.elim (fun h => ihr h hr) fun h => ihs h (of_decide_eq_true hs)
  | group m r ih =>
      obtain ⟨g, hg, rfl⟩ := h
      rcases List.mem_cons.mp hn with rfl | hn
      · exact List.mem_cons_self
      · exact List.mem_cons_of_mem _ (ih hg hn)

/-- What a match consumes. -/
theorem search_eats {r : Regex α} {text : List α} {m : Match α} (h : r.search text = some m) :
    ∃ w, r.Eats w m.groups ∧ text = m.before ++ (w ++ m.after) := by
  obtain ⟨rest, d, htext, hruns, hm⟩ := search_some h
  obtain ⟨w, gs, hw, hrest, hgs⟩ := hruns.eats
  have hgroups : m.groups = gs := by rw [hm, hgs, List.append_nil]
  have hafter : m.after = d.rest := congrArg Match.after hm
  exact ⟨w, hgroups ▸ hw, by rw [htext, hafter, ← hrest]⟩

theorem search_group {r : Regex α} {text : List α} {m : Match α} (h : r.search text = some m)
    {n : Nat} (hn : n ∈ r.binds) : ∃ t, m.group n = some t := by
  obtain ⟨w, hw, -⟩ := search_eats h
  obtain ⟨g, hg, rfl⟩ := List.mem_map.mp (hw.binds hn)
  obtain ⟨t, ht⟩ := Option.isSome_iff_exists.mp
    (List.find?_isSome.mpr ⟨g, hg, beq_self_eq_true g.1⟩ :
      (m.groups.find? fun e => e.1 == g.1).isSome = true)
  exact ⟨t.2, by rw [Match.group, ht]; rfl⟩

end Regex
