/-
# Text by letters and by bytes

A text is a list of letters; an offset counts the bytes of their UTF-8 encodings.

    size s              the bytes of `s`
    sliceFrom s i       `s[i..]`, none if `i` is past the end or inside a letter
    sliceTo s i         `s[..i]`
    slice s i j         `s[i..j]`
    trim ws s           `s` without the letters of `ws` at its two ends
    unwrap a b s        `s` without an `a` at its start and a `b` at its end
    replacePair x y z   each `x` with a `y` behind it becomes `z`, from the left
-/
import Mathlib

namespace Text

/-- A text among others. -/
instance decidableMemTexts (s : List Char) (texts : List (List Char)) : Decidable (s ∈ texts) :=
  inferInstance

/-- The bytes of a text. -/
def size : List Char → Nat
  | [] => 0
  | c :: s => c.utf8Size + size s

/-- `s[i..]`. -/
def sliceFrom : List Char → Nat → Option (List Char)
  | s, 0 => some s
  | [], _ + 1 => none
  | c :: s, i + 1 => if c.utf8Size ≤ i + 1 then sliceFrom s (i + 1 - c.utf8Size) else none

/-- `s[..i]`. -/
def sliceTo : List Char → Nat → Option (List Char)
  | _, 0 => some []
  | [], _ + 1 => none
  | c :: s, i + 1 =>
      if c.utf8Size ≤ i + 1 then (sliceTo s (i + 1 - c.utf8Size)).map (c :: ·) else none

/-- `s[i..j]`. -/
def slice (s : List Char) (i j : Nat) : Option (List Char) :=
  if i ≤ j then (sliceTo s j).bind (sliceFrom · i) else none

section

variable {s u v : List Char} {i : Nat}

@[simp] theorem size_nil : size [] = 0 := rfl

@[simp] theorem size_cons (c : Char) (s : List Char) : size (c :: s) = c.utf8Size + size s := rfl

@[simp] theorem size_append (u v : List Char) : size (u ++ v) = size u + size v := by
  induction u with
  | nil => simp
  | cons c u ih => rw [List.cons_append, size_cons, size_cons, ih, Nat.add_assoc]

/-- A letter has one byte at least. -/
theorem length_le_size (s : List Char) : s.length ≤ size s := by
  induction s with
  | nil => exact le_rfl
  | cons c s ih =>
      have hpos := c.utf8Size_pos
      rw [List.length_cons, size_cons]
      omega

theorem size_eq_zero : size s = 0 ↔ s = [] := by
  constructor
  · intro h
    have hlen := length_le_size s
    exact List.length_eq_zero_iff.mp (by omega)
  · rintro rfl
    rfl

theorem sliceFrom_size (u v : List Char) : sliceFrom (u ++ v) (size u) = some v := by
  induction u with
  | nil => cases v <;> rfl
  | cons c u ih =>
      obtain ⟨n, hn⟩ : ∃ n, size (c :: u) = n + 1 :=
        Nat.exists_eq_succ_of_ne_zero fun h => List.cons_ne_nil _ _ (size_eq_zero.mp h)
      rw [hn, List.cons_append, sliceFrom, ← hn, size_cons, if_pos (Nat.le_add_right _ _),
        Nat.add_sub_cancel_left, ih]

theorem sliceTo_size (u v : List Char) : sliceTo (u ++ v) (size u) = some u := by
  induction u with
  | nil => cases v <;> rfl
  | cons c u ih =>
      obtain ⟨n, hn⟩ : ∃ n, size (c :: u) = n + 1 :=
        Nat.exists_eq_succ_of_ne_zero fun h => List.cons_ne_nil _ _ (size_eq_zero.mp h)
      rw [hn, List.cons_append, sliceTo, ← hn, size_cons, if_pos (Nat.le_add_right _ _),
        Nat.add_sub_cancel_left, ih]
      rfl

/-- The middle of a text. -/
theorem slice_size (u v w : List Char) :
    slice (u ++ (v ++ w)) (size u) (size u + size v) = some v := by
  rw [slice, if_pos (Nat.le_add_right _ _), ← size_append, ← List.append_assoc, sliceTo_size]
  exact sliceFrom_size u v

/-- A slice cuts between two letters. -/
theorem sliceTo_eq_some : sliceTo s i = some u ↔ ∃ v, s = u ++ v ∧ size u = i := by
  constructor
  · intro h
    induction s generalizing i u with
    | nil =>
        cases i with
        | zero =>
            obtain rfl := Option.some.inj h
            exact ⟨[], rfl, rfl⟩
        | succ i => cases h
    | cons c s ih =>
        cases i with
        | zero =>
            obtain rfl := Option.some.inj h
            exact ⟨c :: s, rfl, rfl⟩
        | succ i =>
            rw [sliceTo] at h
            split at h
            · rename_i hle
              obtain ⟨u', hu', rfl⟩ := Option.map_eq_some_iff.mp h
              obtain ⟨v, rfl, hsize⟩ := ih hu'
              exact ⟨v, rfl, by rw [size_cons, hsize]; omega⟩
            · cases h
  · rintro ⟨v, rfl, rfl⟩
    exact sliceTo_size u v

end

/-! ## The ends of a text -/

variable (ws : Char → Bool)

/-- `s.trim_start()`. -/
def trimStart (s : List Char) : List Char := s.dropWhile ws

/-- `s.trim_end()`. -/
def trimEnd (s : List Char) : List Char := s.rdropWhile ws

/-- `s.trim()`. -/
def trim (s : List Char) : List Char := trimEnd ws (trimStart ws s)

/-- `s.strip_prefix(a).and_then(|r| r.strip_suffix(b))`. -/
def unwrap (a b : Char) : List Char → Option (List Char)
  | c :: r => if c = a ∧ r.getLast? = some b then some r.dropLast else none
  | [] => none

/-- `s.replace(xy, z)`. -/
def replacePair (x y z : Char) : List Char → List Char
  | [] => []
  | [c] => [c]
  | c :: d :: s => if c = x ∧ d = y then z :: replacePair x y z s else c :: replacePair x y z (d :: s)

section

variable {ws : Char → Bool} {s u v : List Char}

theorem trimStart_append (hu : ∀ c ∈ u, ws c = true) : trimStart ws (u ++ s) = trimStart ws s :=
  List.dropWhile_append_of_pos hu

theorem trimEnd_append (hv : ∀ c ∈ v, ws c = true) : trimEnd ws (s ++ v) = trimEnd ws s := by
  rw [trimEnd, trimEnd, List.rdropWhile, List.rdropWhile, List.reverse_append]
  rw [List.dropWhile_append_of_pos fun c hc => hv c (List.mem_reverse.mp hc)]

theorem trimStart_of_head (h : ∀ c, s.head? = some c → ws c = false) : trimStart ws s = s := by
  cases s with
  | nil => rfl
  | cons c s => exact List.dropWhile_cons_of_neg (by simp [h c rfl])

theorem trimEnd_of_last (h : ∀ c, s.getLast? = some c → ws c = false) : trimEnd ws s = s := by
  refine List.rdropWhile_eq_self_iff.mpr fun hne => ?_
  rw [h _ (List.getLast?_eq_some_getLast hne)]
  exact Bool.false_ne_true

/-- A text whose ends are no white space. -/
theorem trim_of_ends (hhead : ∀ c, s.head? = some c → ws c = false)
    (hlast : ∀ c, s.getLast? = some c → ws c = false) : trim ws s = s := by
  rw [trim, trimStart_of_head hhead, trimEnd_of_last hlast]

/-- What trimming takes away. -/
theorem trim_decompose (ws : Char → Bool) (s : List Char) : ∃ u v, s = u ++ trim ws s ++ v ∧
    (∀ c ∈ u, ws c = true) ∧ ∀ c ∈ v, ws c = true := by
  refine ⟨s.takeWhile ws, (trimStart ws s).rtakeWhile ws, ?_, ?_, ?_⟩
  · rw [List.append_assoc, trim, trimEnd, List.rdropWhile_append_rtakeWhile]
    exact (List.takeWhile_append_dropWhile).symm
  · exact fun c hc => List.mem_takeWhile_imp hc
  · exact fun c hc => List.mem_rtakeWhile_imp hc

theorem trim_head {c : Char} (h : (trim ws s).head? = some c) : ws c = false := by
  have hpre : trim ws s <+: trimStart ws s := List.rdropWhile_prefix _ _
  have hne : trim ws s ≠ [] := by
    rintro hnil
    rw [hnil] at h
    cases h
  obtain ⟨t, ht⟩ := hpre
  have hhead : (trimStart ws s).head? = some c := by
    rw [← ht, List.head?_append_of_ne_nil _ hne, h]
  have hnot := List.head?_dropWhile_not ws s
  rw [show s.dropWhile ws = trimStart ws s from rfl, hhead] at hnot
  simpa using hnot

theorem trim_last {c : Char} (h : (trim ws s).getLast? = some c) : ws c = false := by
  have hne : trim ws s ≠ [] := by
    rintro hnil
    rw [hnil] at h
    cases h
  have hnot := List.rdropWhile_last_not ws (trimStart ws s) hne
  rw [List.getLast?_eq_some_getLast hne] at h
  obtain rfl := Option.some.inj h
  exact Bool.eq_false_iff.mpr hnot

@[simp] theorem trim_trim (ws : Char → Bool) (s : List Char) : trim ws (trim ws s) = trim ws s :=
  trim_of_ends (fun _ => trim_head) fun _ => trim_last

theorem trim_append (hu : ∀ c ∈ u, ws c = true) (hv : ∀ c ∈ v, ws c = true) :
    trim ws (u ++ s ++ v) = trim ws s := by
  rw [List.append_assoc, trim, trimStart_append hu]
  by_cases hs : ∀ c ∈ s, ws c = true
  · have hall : ∀ c ∈ s ++ v, ws c = true := by
      intro c hc
      exact (List.mem_append.mp hc).elim (hs c) (hv c)
    rw [trimStart, trim, trimStart, List.dropWhile_eq_nil_iff.mpr hall,
      List.dropWhile_eq_nil_iff.mpr hs]
  · rw [trimStart, List.dropWhile_append, if_neg, trimEnd_append hv]
    · rfl
    · rw [List.isEmpty_iff, List.dropWhile_eq_nil_iff]
      exact hs

theorem trimEnd_append_eq (ws : Char → Bool) (u v : List Char) : trimEnd ws (u ++ v) =
    if trimEnd ws v = [] then trimEnd ws u else u ++ trimEnd ws v := by
  rw [trimEnd, trimEnd, trimEnd, List.rdropWhile, List.rdropWhile, List.rdropWhile,
    List.reverse_append, List.dropWhile_append]
  simp only [List.isEmpty_iff, List.reverse_eq_nil_iff]
  split
  · rfl
  · rw [List.reverse_append, List.reverse_reverse]

/-- A start of a text that ends in a letter is not trimmed. -/
theorem prefix_trimEnd {p : List Char} (hp : p <+: s)
    (hlast : ∀ c, p.getLast? = some c → ws c = false) : p <+: trimEnd ws s := by
  obtain ⟨v, rfl⟩ := hp
  rw [trimEnd_append_eq]
  split
  · rw [trimEnd_of_last hlast]
  · exact List.prefix_append _ _

theorem trimEnd_decompose (ws : Char → Bool) (s : List Char) :
    ∃ v, s = trimEnd ws s ++ v ∧ ∀ c ∈ v, ws c = true :=
  ⟨s.rtakeWhile ws, List.rdropWhile_append_rtakeWhile.symm, fun _ hc => List.mem_rtakeWhile_imp hc⟩

theorem trim_eq_nil : trim ws s = [] ↔ ∀ c ∈ s, ws c = true := by
  constructor
  · intro h
    obtain ⟨u, v, hs, hu, hv⟩ := trim_decompose ws s
    rw [hs, h, List.append_nil]
    intro c hc
    exact (List.mem_append.mp hc).elim (hu c) (hv c)
  · intro h
    rw [trim, trimStart, List.dropWhile_eq_nil_iff.mpr h]
    rfl

theorem unwrap_eq_some {a b : Char} {r : List Char} :
    unwrap a b s = some r ↔ s = a :: (r ++ [b]) := by
  cases s with
  | nil => simp [unwrap]
  | cons c t =>
      rw [unwrap]
      constructor
      · intro h
        split at h
        · rename_i hc
          obtain rfl := Option.some.inj h
          have hne : t ≠ [] := by
            rintro rfl
            cases hc.2
          have hlast : t.getLast hne = b :=
            Option.some.inj ((List.getLast?_eq_some_getLast hne).symm.trans hc.2)
          rw [hc.1, ← hlast, List.dropLast_append_getLast]
        · cases h
      · rintro heq
        obtain ⟨rfl, rfl⟩ := List.cons.inj heq
        rw [if_pos ⟨rfl, List.getLast?_append_cons ..⟩, List.dropLast_concat]

end

end Text
