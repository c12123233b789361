/-
# Upper case, lower case and byte offsets

The parser looks at the upper or lower case of a text and then cuts the text itself.  An
ASCII word at the start or the end of the cased text is the case of as many letters of the
text, but for the letters beyond ASCII whose case has an ASCII letter.
-/
import VelociDB.Literals

namespace VelociDB

/-! ## Letter by letter -/

section

variable {f : Char → List Char} {g : Char → Char} {p s t : List Char} {x : Char}

/-- The letter behind the first letter of a cased text. -/
theorem flatMap_eq_cons (hne : ∀ c, f c ≠ []) (h : s.flatMap f = x :: t) :
    ∃ c s' w, s = c :: s' ∧ f c = x :: w ∧ w ++ s'.flatMap f = t := by
  cases s with
  | nil => cases h
  | cons c s' =>
      obtain ⟨y, w, hw⟩ := List.exists_cons_of_ne_nil (hne c)
      rw [List.flatMap_cons, hw, List.cons_append] at h
      obtain ⟨rfl, rfl⟩ := List.cons.inj h
      exact ⟨c, s', w, rfl, hw, rfl⟩

/-- The letter behind the last letter of a cased text. -/
theorem flatMap_eq_concat (hne : ∀ c, f c ≠ []) (h : s.flatMap f = t ++ [x]) :
    ∃ c s' w, s = s' ++ [c] ∧ f c = w ++ [x] ∧ s'.flatMap f ++ w = t := by
  rcases List.eq_nil_or_concat s with rfl | ⟨s', c, rfl⟩
  · exact absurd h.symm (List.append_ne_nil_of_right_ne_nil _ (List.cons_ne_nil _ _))
  · have hw : f c = (f c).dropLast ++ [(f c).getLast (hne c)] :=
      (List.dropLast_append_getLast (hne c)).symm
    rw [List.concat_eq_append, List.flatMap_append, List.flatMap_cons, List.flatMap_nil,
      List.append_nil, hw, ← List.append_assoc] at h
    obtain ⟨ht, hx⟩ := List.append_inj' h rfl
    rw [(List.cons.inj hx).1] at hw
    exact ⟨c, s', _, List.concat_eq_append, hw, ht⟩

/-- A word at the start of a cased text, none of whose letters starts the case of a letter
beyond ASCII. -/
theorem flatMap_starts (hne : ∀ c, f c ≠ []) (hascii : ∀ c, isAscii c = true → f c = [g c])
    (hother : ∀ c, isAscii c = false → ∀ x, (f c).head? = some x → x ∉ p)
    (h : p <+: s.flatMap f) :
    ∃ u v, s = u ++ v ∧ u.map g = p ∧ ∀ c ∈ u, isAscii c = true := by
  induction p generalizing s with
  | nil => exact ⟨[], s, rfl, rfl, by simp⟩
  | cons x p ih =>
      obtain ⟨t, ht⟩ := h
      obtain ⟨c, s', w, rfl, hc, hrest⟩ := flatMap_eq_cons hne ht.symm
      have hcascii : isAscii c = true := by
        by_contra hn
        refine hother c (Bool.eq_false_iff.mpr hn) x ?_ List.mem_cons_self
        rw [hc, List.head?_cons]
      rw [hascii c hcascii] at hc
      obtain ⟨rfl, rfl⟩ := List.cons.inj hc
      obtain ⟨u, v, rfl, rfl, hu⟩ := ih
        (fun c hc x hx hmem => hother c hc x hx (List.mem_cons_of_mem _ hmem)) ⟨t, hrest.symm⟩
      refine ⟨c :: u, v, rfl, rfl, ?_⟩
      rintro d hd
      rcases List.mem_cons.mp hd with rfl | hd
      · exact hcascii
      · exact hu d hd

end

/-! ## The tables -/

/-- An ASCII word none of whose letters starts the case of a special letter. -/
def isPlain (specials : List (Char × List Char)) (p : List Char) : Bool :=
  p.all fun x => isAscii x && specials.all fun e => e.2.head? != some x

theorem isPlain_mem {specials : List (Char × List Char)} {p : List Char} {x : Char}
    (hp : isPlain specials p = true) (hx : x ∈ p) :
    isAscii x = true ∧ ∀ e ∈ specials, e.2.head? ≠ some x := by
  have h := List.all_eq_true.mp hp x hx
  rw [Bool.and_eq_true, List.all_eq_true] at h
  exact ⟨h.1, fun e he => bne_iff_ne.mp (h.2 e he)⟩

namespace TextFns.Lawful

variable {tx : TextFns} {c x : Char} {s p : List Char}

/-- A letter beyond ASCII with an ASCII letter in its upper case. -/
theorem upper_mem (h : tx.Lawful) (hc : isAscii c = false) (hx : x ∈ tx.upperChar c)
    (hxa : isAscii x = true) : (c, tx.upperChar c) ∈ upperSpecials := by
  by_contra hn
  have hnot : isAscii x = false := by
    refine h.upper_other c hc ?_ x hx
    rintro e he rfl
    rw [h.upper_special e he] at hn
    exact hn he
  rw [hnot] at hxa
  cases hxa

/-- A letter beyond ASCII with an ASCII letter in its lower case. -/
theorem lower_mem (h : tx.Lawful) (hc : isAscii c = false) (hx : x ∈ tx.lowerChar c)
    (hxa : isAscii x = true) : (c, tx.lowerChar c) ∈ lowerSpecials := by
  by_contra hn
  have hnot : isAscii x = false := by
    refine h.lower_other c hc ?_ x hx
    rintro e he rfl
    rw [h.lower_special e he] at hn
    exact hn he
  rw [hnot] at hxa
  cases hxa

/-- A plain word at the start of an upper case text. -/
theorem upper_starts (h : tx.Lawful) (hp : isPlain upperSpecials p = true)
    (hpre : p <+: tx.upper s) :
    ∃ u v, s = u ++ v ∧ u.map Char.toUpper = p ∧ ∀ c ∈ u, isAscii c = true := by
  refine flatMap_starts h.upper_ne_nil h.upper_ascii ?_ hpre
  rintro c hc x hx hmem
  obtain ⟨hascii, hspecial⟩ := isPlain_mem hp hmem
  exact hspecial _ (h.upper_mem hc (List.mem_of_mem_head? hx) hascii) hx

/-- A plain word at the start of a lower case text. -/
theorem lower_starts (h : tx.Lawful) (hp : isPlain lowerSpecials p = true)
    (hpre : p <+: tx.lower s) :
    ∃ u v, s = u ++ v ∧ u.map Char.toLower = p ∧ ∀ c ∈ u, isAscii c = true := by
  refine flatMap_starts h.lower_ne_nil h.lower_ascii ?_ hpre
  rintro c hc x hx hmem
  obtain ⟨hascii, hspecial⟩ := isPlain_mem hp hmem
  exact hspecial _ (h.lower_mem hc (List.mem_of_mem_head? hx) hascii) hx

/-- The last letter of an upper case text, if it is ASCII: of an ASCII letter, or of a
special one. -/
theorem upper_ends (h : tx.Lawful) {t : List Char} (hx : isAscii x = true)
    (hs : tx.upper s = t ++ [x]) : ∃ s' c, s = s' ++ [c] ∧
      ((isAscii c = true ∧ c.toUpper = x ∧ tx.upper s' = t) ∨
        ∃ w, (c, w ++ [x]) ∈ upperSpecials ∧ tx.upper s' ++ w = t) := by
  obtain ⟨c, s', w, rfl, hc, hrest⟩ := flatMap_eq_concat h.upper_ne_nil hs
  refine ⟨s', c, rfl, ?_⟩
  cases hascii : isAscii c with
  | true =>
      rw [h.upper_ascii c hascii] at hc
      obtain ⟨hw, hxc⟩ := @List.append_inj' Char [] _ _ _ hc rfl
      rw [← hw, List.append_nil] at hrest
      exact Or.inl ⟨rfl, (List.cons.inj hxc).1, hrest⟩
  | false =>
      have hmem := h.upper_mem hascii (hc ▸ List.mem_append_right w (List.mem_singleton_self x)) hx
      rw [hc] at hmem
      exact Or.inr ⟨w, hmem, hrest⟩

end TextFns.Lawful

/-- An ASCII letter has one byte. -/
theorem utf8Size_of_isAscii {c : Char} (h : isAscii c = true) : c.utf8Size = 1 := by
  have hlt : c.toNat < 128 := of_decide_eq_true h
  rw [Char.utf8Size_eq_one_iff]
  exact UInt32.le_iff_toNat_le.mpr (Nat.le_of_lt_succ hlt)

theorem size_of_isAscii {s : List Char} (h : ∀ c ∈ s, isAscii c = true) :
    Text.size s = s.length := by
  induction s with
  | nil => rfl
  | cons c s ih =>
      rw [Text.size_cons, utf8Size_of_isAscii (h c List.mem_cons_self),
        ih fun d hd => h d (List.mem_cons_of_mem _ hd), List.length_cons, Nat.add_comm]

end VelociDB
