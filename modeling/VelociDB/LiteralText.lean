/-
# What a literal says of its text (`parser.rs`)

A text value is what stands between the quotes without its escapes, or the literal itself.
To take an escape away is to take a backslash away, so the letters that are no backslash are
those of the literal but for its two quotes (`weight`).
-/
import VelociDB.LiteralFaults

namespace VelociDB

open Text

variable {tx : TextFns}

/-! ## Escapes -/

/-- A text with a backslash before each backslash and each single quote. -/
def escape : List Char → List Char
  | [] => []
  | c :: s => if c = '\\' ∨ c = '\'' then '\\' :: c :: escape s else c :: escape s

/-- A text as a literal. -/
def quoted (t : List Char) : List Char := '\'' :: (escape t ++ ['\''])

/-- The letters that are no backslash. -/
def weight (s : List Char) : Nat := s.countP fun c => c != '\\'

theorem weight_append (u v : List Char) : weight (u ++ v) = weight u + weight v :=
  List.countP_append

theorem weight_cons (c : Char) (s : List Char) :
    weight (c :: s) = weight s + if c = '\\' then 0 else 1 := by
  rw [weight, weight, List.countP_cons]
  split <;> simp_all

theorem weight_prefix_le {u v : List Char} (h : u <+: v) : weight u ≤ weight v := h.sublist.countP_le

theorem weight_escape (t : List Char) : weight (escape t) = weight t := by
  induction t with
  | nil => rfl
  | cons c t ih =>
      rw [escape]
      split
      · rw [weight_cons, weight_cons, weight_cons, ih]
        rfl
      · rw [weight_cons, weight_cons, ih]

theorem weight_quoted (t : List Char) : weight (quoted t) = weight t + 2 := by
  rw [quoted, weight_cons, weight_append, weight_escape, weight_cons]
  rfl

/-- To replace a backslash and a letter by the letter keeps the weight. -/
theorem weight_replacePair (y : Char) (s : List Char) :
    weight (replacePair '\\' y y s) = weight s := by
  fun_induction replacePair '\\' y y s with
  | case1 => rfl
  | case2 c => rfl
  | case3 c d s h ih =>
      obtain ⟨rfl, rfl⟩ := h
      rw [weight_cons, weight_cons, weight_cons, ih]
      rfl
  | case4 c d s h ih => rw [weight_cons, weight_cons c, ih]

theorem weight_unescape (q : Char) (s : List Char) : weight (unescape q s) = weight s := by
  rw [unescape, weight_replacePair, weight_replacePair]

/-- The letters of a text without its escapes. -/
theorem mem_replacePair {x y z c : Char} {s : List Char} (h : c ∈ replacePair x y z s) :
    c = z ∨ c ∈ s := by
  fun_induction replacePair x y z s with
  | case1 => exact absurd h List.not_mem_nil
  | case2 d => exact Or.inr h
  | case3 d e s hpair ih =>
      rcases List.mem_cons.mp h with rfl | h
      · exact Or.inl rfl
      · exact (ih h).imp_right fun hc => List.mem_cons_of_mem _ (List.mem_cons_of_mem _ hc)
  | case4 d e s hpair ih =>
      rcases List.mem_cons.mp h with rfl | h
      · exact Or.inr List.mem_cons_self
      · exact (ih h).imp_right (List.mem_cons_of_mem _)

theorem mem_unescape {q c : Char} {s : List Char} (h : c ∈ unescape q s) :
    c = '\\' ∨ c = q ∨ c ∈ s :=
  (mem_replacePair h).imp_right mem_replacePair

/-! ## An escaped text is read back -/

/-- No escaped text starts with a quote. -/
theorem escape_head (t : List Char) : (escape t).head? ≠ some '\'' := by
  cases t with
  | nil => simp [escape]
  | cons c t =>
      rw [escape]
      split
      · rw [List.head?_cons]
        decide
      · rename_i hc
        rw [List.head?_cons]
        exact fun h => hc (Or.inr (Option.some.inj h))

theorem replacePair_skip {x y z c : Char} {s : List Char} (h : c ≠ x ∨ s.head? ≠ some y) :
    replacePair x y z (c :: s) = c :: replacePair x y z s := by
  cases s with
  | nil => rfl
  | cons d s =>
      rw [replacePair, if_neg]
      rintro ⟨rfl, rfl⟩
      exact h.elim (fun h => h rfl) fun h => h rfl

/-- A text with its backslashes doubled. -/
def double (t : List Char) : List Char := t.flatMap fun c => if c = '\\' then ['\\', '\\'] else [c]

theorem double_cons (c : Char) (t : List Char) :
    double (c :: t) = (if c = '\\' then ['\\', '\\'] else [c]) ++ double t := List.flatMap_cons

theorem replacePair_escape (t : List Char) :
    replacePair '\\' '\'' '\'' (escape t) = double t := by
  induction t with
  | nil => rfl
  | cons c t ih =>
      rw [escape, double_cons]
      by_cases hback : c = '\\'
      · rw [if_pos (Or.inl hback), if_pos hback, hback,
          replacePair_skip (Or.inr (by rw [List.head?_cons]; decide)),
          replacePair_skip (Or.inr (escape_head t)), ih]
        rfl
      · rw [if_neg hback]
        by_cases hquote : c = '\''
        · rw [if_pos (Or.inr hquote), hquote, replacePair, if_pos ⟨rfl, rfl⟩, ih]
          rfl
        · rw [if_neg (not_or.mpr ⟨hback, hquote⟩), replacePair_skip (Or.inl hback), ih]
          rfl

theorem replacePair_double (t : List Char) : replacePair '\\' '\\' '\\' (double t) = t := by
  induction t with
  | nil => rfl
  | cons c t ih =>
      rw [double_cons]
      by_cases hback : c = '\\'
      · rw [if_pos hback, hback, List.cons_append, List.cons_append, List.nil_append, replacePair,
          if_pos ⟨rfl, rfl⟩, ih]
      · rw [if_neg hback, List.singleton_append, replacePair_skip (Or.inl hback), ih]

theorem unescape_escape (t : List Char) : unescape '\'' (escape t) = t := by
  rw [unescape, replacePair_escape, replacePair_double]

/-! ## Text values -/

/-- A text value is what stands between two quotes, or the whole literal. -/
theorem parseScalar_text {s : List Char} {t : String} (h : parseScalar tx s = .ok (.text t)) :
    (∃ q inner, (q = '\'' ∨ q = '"') ∧ s = q :: (inner ++ [q]) ∧
      t = String.ofList (unescape q inner)) ∨ t = String.ofList s := by
  have hquoted : ∀ q, isAscii q = true → (q = '\'' ∨ q = '"') → quotedBy q s →
      parseQuoted q s = .ok (.text t) → ∃ q inner, (q = '\'' ∨ q = '"') ∧
        s = q :: (inner ++ [q]) ∧ t = String.ofList (unescape q inner) := by
    intro q hascii hq hs ht
    rcases quotedBy_iff.mp hs with rfl | ⟨inner, rfl⟩
    · rw [parseQuoted_lone hascii] at ht
      cases ht
    · rw [parseQuoted_between hascii] at ht
      cases ht
      exact ⟨q, inner, hq, rfl, rfl⟩
  rw [parseScalar] at h
  split at h
  · exact Or.inl (hquoted _ rfl (Or.inl rfl) ‹_› h)
  · split at h
    · exact Or.inl (hquoted _ rfl (Or.inr rfl) ‹_› h)
    · split at h
      · cases h
      · split at h
        · cases h
        · split at h
          · obtain ⟨hex, hs⟩ := isBlob_iff.mp ‹_›
            rw [parseBlob_eq hs] at h
            split at h
            · cases h
            · cases hbytes : hexBytes (size hex / 2) hex with
              | error e =>
                  rw [hbytes] at h
                  cases h
              | ok b =>
                  rw [hbytes] at h
                  cases h
          · cases h
            exact Or.inr rfl

theorem parseValue_text (h : tx.Lawful) {l : List Char} {t : String}
    (ht : parseValue tx l = .ok (.text t)) :
    (∃ q inner, (q = '\'' ∨ q = '"') ∧ trim isWhite l = q :: (inner ++ [q]) ∧
      t = String.ofList (unescape q inner)) ∨ t = String.ofList (trim isWhite l) := by
  rw [parseValue_eq h] at ht
  split at ht
  · cases ht
  · split at ht
    · exact parseScalar_text ht
    · rw [parsePlain] at ht
      split at ht
      · rename_i inner hinner
        cases hparsed : parseVectorLiteral tx inner with
        | error e =>
            rw [hparsed] at ht
            cases ht
        | ok v =>
            rw [hparsed] at ht
            cases ht
      · exact parseScalar_text ht

/-- The weight of a text value: that of the literal, or less its two quotes. -/
theorem parseValue_weight (h : tx.Lawful) {l : List Char} {t : String}
    (ht : parseValue tx l = .ok (.text t)) : weight t.toList ≤ weight (trim isWhite l) ∧
      weight (trim isWhite l) ≤ weight t.toList + 2 := by
  rcases parseValue_text h ht with ⟨q, inner, hq, heq, rfl⟩ | rfl
  · rw [String.toList_ofList, weight_unescape, heq, weight_cons, weight_append, weight_cons]
    rcases hq with rfl | rfl
    · exact ⟨by omega, le_rfl⟩
    · exact ⟨by omega, le_rfl⟩
  · rw [String.toList_ofList]
    exact ⟨le_rfl, Nat.le_add_right _ _⟩

/-- A text value has no line feed that its literal does not have. -/
theorem parseValue_line (h : tx.Lawful) {l : List Char} {t : String}
    (ht : parseValue tx l = .ok (.text t)) (hl : '\n' ∉ l) : '\n' ∉ t.toList := by
  have htrim : '\n' ∉ trim isWhite l := by
    intro hmem
    obtain ⟨u, v, heq, -⟩ := trim_decompose isWhite l
    exact hl (by rw [heq]; simp [hmem])
  rcases parseValue_text h ht with ⟨q, inner, hq, heq, rfl⟩ | rfl
  · rw [String.toList_ofList]
    intro hmem
    rw [heq] at htrim
    rcases mem_unescape hmem with hback | rfl | hinner
    · cases hback
    · rcases hq with hq | hq <;> cases hq
    · exact htrim (by simp [hinner])
  · rw [String.toList_ofList]
    exact htrim

theorem trim_quoted (t : List Char) : trim isWhite (quoted t) = quoted t := by
  refine trim_of_ends (fun c hc => ?_) fun c hc => ?_
  · obtain rfl := Option.some.inj hc
    rfl
  · rw [quoted, ← List.cons_append, List.getLast?_concat] at hc
    obtain rfl := Option.some.inj hc
    rfl

/-- A text between single quotes, escaped, is read back. -/
theorem parseValue_quoted (h : tx.Lawful) (t : List Char) :
    parseValue tx (quoted t) = .ok (.text (String.ofList t)) := by
  have hnull : tx.upper (quoted t) ≠ "NULL".toList := upper_ne_null h rfl (by decide)
  have hhead : (quoted t).head? = some '\'' := rfl
  have hquoted : quotedBy '\'' (quoted t) := quotedBy_iff.mpr (Or.inr ⟨escape t, rfl⟩)
  rw [parseValue_eq h, trim_quoted, if_neg hnull, if_pos (Or.inl hhead), parseScalar,
    if_pos hquoted, quoted, parseQuoted_between rfl, unescape_escape]

end VelociDB
