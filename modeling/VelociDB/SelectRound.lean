/-
# SELECT as text (`parser.rs`)

    SELECT a, b FROM t WHERE c < 2 ORDER BY a DESC LIMIT 10

`parse_select` works from the end of the text:

    LIMIT       an expression searched for in the whole text, which stops at its end only
    ORDER BY    a scan from the left that knows quotes and no escapes
    the rest    an expression that takes the SELECT list letter by letter until a FROM follows

So a text without LIMIT must not end like one with it, which no readable query does
(`takeLimit_core`), and the scan must meet no ORDER BY before the one of the query, and be
outside quotes there (`Unordered`).  Then the parser reads the query from its text
(`parse_queryText`).
-/
import VelociDB.StatementRound
import VelociDB.OrderScan

namespace VelociDB

open Text
open LikeRegex (dot)

namespace Parser

/-! ## The text -/

/-- An item of a SELECT list: its quotes and brackets are closed, and a comma stands in brackets
or quotes only. -/
inductive Item : Bool → List Char → Prop
  | nil {inner : Bool} : Item inner []
  | letter {inner : Bool} {c : Char} {l : List Char} : c ∉ ['\'', '"', '(', '[', ')', ']'] →
      (c = ',' → inner = true) → Item inner l → Item inner (c :: l)
  | quotes {inner : Bool} {q : Char} {t l : List Char} : q = '\'' ∨ q = '"' → q ∉ t →
      Item inner l → Item inner (q :: (t ++ q :: l))
  | brackets {inner : Bool} {o c : Char} {t l : List Char} : o = '(' ∨ o = '[' → c = ')' ∨ c = ']' →
      Item true t → Item inner l → Item inner (o :: (t ++ c :: l))

variable {tx : TextFns} {w rest : List Char} {b : Bool} {gs : List (Nat × List Char)}

/-! ## The SELECT list -/

/-- The scan copies a text up to the quote that closes it. -/
theorem commasLoop_quoted {q : Char} {t : List Char} (ht : q ∉ t) (current : List Char)
    (depth : Nat) (rest : List Char) : commasLoop current (some q) depth (t ++ q :: rest) =
      commasLoop (current ++ (t ++ [q])) none depth rest := by
  induction t generalizing current with
  | nil => rw [List.nil_append, commasLoop, if_pos rfl, List.nil_append]
  | cons c t ih =>
      obtain ⟨hc, ht⟩ := not_or.mp (mt List.mem_cons.mpr ht)
      rw [List.cons_append, commasLoop, if_neg (Ne.symm hc), ih ht, List.append_assoc]
      rfl

/-- The scan for commas copies an item. -/
theorem Item.copied {inner : Bool} {l : List Char} (h : Item inner l) : ∀ (depth : Nat)
    (current rest : List Char), (inner = true → 0 < depth) →
      commasLoop current none depth (l ++ rest) = commasLoop (current ++ l) none depth rest := by
  induction h with
  | nil =>
      intro depth current rest hdepth
      rw [List.nil_append, List.append_nil]
  | @letter inner c l hc hcomma hl ih =>
      intro depth current rest hdepth
      simp only [List.mem_cons, List.not_mem_nil, or_false, not_or] at hc
      obtain ⟨h₁, h₂, h₃, h₄, h₅, h₆⟩ := hc
      have hcut : ¬ (c = ',' ∧ depth = 0) := by
        rintro ⟨hc, rfl⟩
        exact absurd (hdepth (hcomma hc)) (Nat.lt_irrefl 0)
      rw [List.cons_append, commasLoop, if_neg (not_or.mpr ⟨h₁, h₂⟩), if_neg (not_or.mpr ⟨h₃, h₄⟩),
        if_neg (not_or.mpr ⟨h₅, h₆⟩), if_neg hcut, ih depth _ _ hdepth, List.append_assoc]
      rfl
  | @quotes inner q t l hq ht hl ih =>
      intro depth current rest hdepth
      rw [List.cons_append, commasLoop, if_pos hq, List.append_assoc, List.cons_append,
        commasLoop_quoted ht, ih depth _ _ hdepth]
      simp only [List.append_assoc, List.cons_append, List.nil_append]
  | @brackets inner o c t l ho hc ht hl iht ihl =>
      intro depth current rest hdepth
      have ho' : ¬ (o = '\'' ∨ o = '"') := by rcases ho with rfl | rfl <;> decide
      have hc' : ¬ (c = '\'' ∨ c = '"') ∧ ¬ (c = '(' ∨ c = '[') := by
        rcases hc with rfl | rfl <;> decide
      rw [List.cons_append, commasLoop, if_neg ho', if_pos ho, List.append_assoc, List.cons_append,
        iht (depth + 1) _ _ fun _ => Nat.succ_pos _, commasLoop, if_neg hc'.1, if_neg hc'.2,
        if_pos hc, Nat.add_sub_cancel, ihl depth _ _ hdepth]
      simp only [List.append_assoc, List.cons_append, List.nil_append]

theorem Item.whole {l : List Char} (h : Item false l) (current rest : List Char) :
    commasLoop current none 0 (l ++ rest) = commasLoop (current ++ l) none 0 rest :=
  h.copied 0 current rest fun hinner => absurd hinner Bool.false_ne_true

/-- A run of the expression for LIMIT ends at the end of the text. -/
structure LimitParts (tx : TextFns) (text : List Char) (m : Regex.Match Char) (d : List Char) :
    Prop where
  parts : ∃ b k b' w s w', text = m.before ++ (b ++ (k ++ (b' ++ (d ++ (w ++ (s ++ w')))))) ∧
    Blanks b ∧ Folds "LIMIT" k ∧ Blanks b' ∧ (∀ c ∈ w, isWhite c = true) ∧ (s = [] ∨ s = [';']) ∧
    ∀ c ∈ w', isWhite c = true
  ne_nil : d ≠ []
  digits : ∀ c ∈ d, tx.isDigit c = true
  groups : m.groups = [(1, d)]
  after : m.after = []

/-- White space at the end of a text whose last letter is none. -/
theorem white_end {u v : List Char} {c : Char} (hlast : (u ++ v).getLast? = some c)
    (hc : isWhite c = false) (hv : ∀ c ∈ v, isWhite c = true) : v = [] := by
  by_contra hne
  rw [List.getLast?_append_of_ne_nil _ hne] at hlast
  have hwhite := hv c (List.mem_of_getLast? hlast)
  rw [hc] at hwhite
  cases hwhite

/-- A text whose last letter is no blank and no semicolon ends with the digits. -/
theorem LimitParts.ends {text : List Char} {m : Regex.Match Char} {d : List Char}
    (hm : LimitParts tx text m d) {c : Char} (hlast : text.getLast? = some c)
    (hwhite : isWhite c = false) (hsemi : c ≠ ';') : tx.isDigit c = true ∧
      ∃ b k b', text = (m.before ++ (b ++ k)) ++ (b' ++ d) ∧ Blanks b ∧ Folds "LIMIT" k ∧
        Blanks b' := by
  obtain ⟨b, k, b', w, s, w', htext, hb, hk, hb', hw, hs, hw'⟩ := hm.parts
  have hassoc : text = (m.before ++ (b ++ k)) ++ (b' ++ d) ++ w ++ s ++ w' := by
    rw [htext]
    simp only [List.append_assoc]
  rw [hassoc] at hlast
  obtain rfl := white_end hlast hwhite hw'
  rw [List.append_nil] at hlast hassoc
  rcases hs with rfl | rfl
  · rw [List.append_nil] at hlast hassoc
    obtain rfl := white_end hlast hwhite hw
    rw [List.append_nil] at hlast hassoc
    rw [List.getLast?_append_of_ne_nil _ (List.append_ne_nil_of_right_ne_nil _ hm.ne_nil),
      List.getLast?_append_of_ne_nil _ hm.ne_nil] at hlast
    exact ⟨hm.digits c (List.mem_of_getLast? hlast), b, k, b', hassoc, hb, hk, hb'⟩
  · rw [List.getLast?_concat] at hlast
    exact absurd (Option.some.inj hlast).symm hsemi

/-- The last word of a text, read as what stands behind blanks. -/
theorem word_end {u l u' b' d : List Char} (heq : u ++ ' ' :: l = u' ++ (b' ++ d))
    (hl : ∀ c ∈ l, isWhite c = false) (hb' : Blanks b') (hd : ' ' ∉ d) :
    l = d ∧ u' ++ b' = u ++ [' '] := by
  have heq' : (u ++ [' ']) ++ l = (u' ++ b') ++ d := by
    rw [List.append_assoc, List.append_assoc, List.singleton_append, heq]
  rcases List.append_eq_append_iff.mp heq' with ⟨x, hx, hx'⟩ | ⟨x, hx, hx'⟩
  · rcases List.eq_nil_or_concat x with rfl | ⟨x, c, rfl⟩
    · rw [List.append_nil] at hx
      exact ⟨hx', hx⟩
    · -- a letter of the word would be the last of the blanks
      have hlast : (u' ++ b').getLast? = some c := by
        rw [hx, List.concat_eq_append, ← List.append_assoc, List.getLast?_concat]
      rw [List.getLast?_append_of_ne_nil _ hb'.1] at hlast
      have hwhite := hb'.2 c (List.mem_of_getLast? hlast)
      rw [hl c (by rw [hx']; simp)] at hwhite
      cases hwhite
  · rcases List.eq_nil_or_concat x with rfl | ⟨x, c, rfl⟩
    · rw [List.append_nil] at hx
      exact ⟨hx'.symm, hx.symm⟩
    · -- the blank would be in what stands behind the blanks
      have hlast : (u ++ [' ']).getLast? = some c := by
        rw [hx, List.concat_eq_append, ← List.append_assoc, List.getLast?_concat]
      rw [List.getLast?_concat] at hlast
      obtain rfl := Option.some.inj hlast
      exact absurd (by rw [hx']; simp) hd

/-- Blanks at the end of a text with one blank there. -/
theorem blank_end {u v b' : List Char} (heq : v ++ b' = u ++ [' ']) (hb' : Blanks b')
    (hu : ∀ c, u.getLast? = some c → isWhite c = false) : v = u := by
  rcases List.append_eq_append_iff.mp heq with ⟨x, hx, hx'⟩ | ⟨x, hx, hx'⟩
  · rcases List.eq_nil_or_concat x with rfl | ⟨x, c, rfl⟩
    · rw [hx, List.append_nil]
    · have hlast : u.getLast? = some c := by
        rw [hx, List.concat_eq_append, ← List.append_assoc, List.getLast?_concat]
      have hwhite := hb'.2 c (by rw [hx']; simp)
      rw [hu c hlast] at hwhite
      cases hwhite
  · have hlen := congrArg List.length hx'
    rw [List.length_singleton, List.length_append] at hlen
    have hpos := List.length_pos_iff.mpr hb'.1
    obtain rfl : x = [] := List.length_eq_zero_iff.mp (by omega)
    rw [hx, List.append_nil]

theorem not_digit_blank (h : tx.Lawful) {d : List Char} (hd : ∀ c ∈ d, tx.isDigit c = true) :
    ' ' ∉ d := by
  intro hmem
  have hdigit := hd ' ' hmem
  rw [h.digit_ascii ' ' rfl] at hdigit
  cases hdigit

/-- What the expression makes of the last two words. -/
theorem LimitParts.words (h : tx.Lawful) {text : List Char} {m : Regex.Match Char} {d : List Char}
    (hm : LimitParts tx text m d) {head l n : List Char}
    (htext : text = head ++ ' ' :: (l ++ ' ' :: n))
    (hl : Stands l ∧ ∀ c ∈ l, isWhite c = false) (hn : n ≠ [] ∧ ∀ c ∈ n, isWhite c = false)
    (hsemi : n.getLast? ≠ some ';') :
    Folds "LIMIT" l ∧ d = n ∧
      ((∀ c, head.getLast? = some c → isWhite c = false) → m.before = head) := by
  obtain ⟨c, hc⟩ : ∃ c, n.getLast? = some c := ⟨_, List.getLast?_eq_some_getLast hn.1⟩
  have hlast : text.getLast? = some c := by
    rw [htext, ← List.cons_append, ← List.append_assoc,
      List.getLast?_append_of_ne_nil _ (List.cons_ne_nil _ _), List.getLast?_cons, hc]
    rfl
  obtain ⟨-, b, k, b', heq, hb, hk, hb'⟩ := hm.ends hlast (hn.2 c (List.mem_of_getLast? hc)) (by
    rintro rfl
    exact hsemi hc)
  have htwo : (head ++ ' ' :: l) ++ ' ' :: n = (m.before ++ (b ++ k)) ++ (b' ++ d) := by
    rw [← heq, htext, List.append_assoc]
    rfl
  obtain ⟨hnd, hfront⟩ := word_end htwo hn.2 hb' (not_digit_blank h hm.digits)
  have hlastl : ∀ c, (head ++ ' ' :: l).getLast? = some c → isWhite c = false := by
    intro c hc
    rw [List.getLast?_append_of_ne_nil _ (List.cons_ne_nil _ _), List.getLast?_cons,
      List.getLast?_eq_some_getLast hl.1.1, Option.getD_some] at hc
    exact hl.1.last ((List.getLast?_eq_some_getLast hl.1.1).trans hc)
  have hone := blank_end hfront hb' hlastl
  have hkblank : ' ' ∉ k := fun hmem => by
    have hsolid := hk.not_white rfl ' ' hmem
    cases hsolid
  obtain ⟨hlk, hbefore⟩ := word_end hone.symm hl.2 hb hkblank
  exact ⟨hlk ▸ hk, hnd.symm, fun hhead => blank_end hbefore hb hhead⟩

theorem trimStart_behind {u : List Char} (hne : trimStart isWhite u ≠ []) (v : List Char) :
    trimStart isWhite (u ++ v) = trimStart isWhite u ++ v := by
  rw [trimStart] at hne ⊢
  rw [List.dropWhile_append, if_neg fun hnil => hne (List.isEmpty_iff.mp hnil)]
  rfl

theorem OrderWord.append {v after : List Char} (hv : OrderWord v after) (hne : after ≠ [])
    (t : List Char) : OrderWord (v ++ t) (after ++ t) := by
  obtain ⟨u, x, rest, rfl, hu, hx, rfl⟩ := hv
  exact ⟨u, x, rest ++ t, by rw [List.append_assoc, List.cons_append], hu, hx,
    (trimStart_behind hne t).symm⟩

/-- An ORDER in front of a blank and a letter is followed by the letter, or by what stands
between it and the blank. -/
theorem OrderWord.blank {v more after : List Char} {a : Char} (ha : isWhite a = false)
    (hv : OrderWord (v ++ ' ' :: a :: more) after) : after = a :: more ∨
      ∃ t, t ≠ [] ∧ after = t ++ ' ' :: a :: more ∧ OrderWord (v ++ [' ']) (t ++ [' ']) := by
  obtain ⟨u, x, rest, heq, hu, hx, rfl⟩ := hv
  have hstop : trimStart isWhite (a :: more) = a :: more :=
    trimStart_of_head fun c hc => Option.some.inj hc ▸ ha
  have hletters : ' ' ∉ u := by
    intro hmem
    have hupper : Char.toUpper ' ' ∈ "ORDER".toList := hu ▸ List.mem_map_of_mem hmem
    exact absurd hupper (by decide)
  have hsplit : (v ++ [' ']) ++ a :: more = (u ++ [x]) ++ rest := by
    rw [List.append_assoc, List.append_assoc]
    exact heq
  rcases List.append_eq_append_iff.mp hsplit with ⟨z, hz, hz'⟩ | ⟨z, hz, hz'⟩
  · rcases List.eq_nil_or_concat z with rfl | ⟨z, c, rfl⟩
    · rw [List.nil_append] at hz'
      rw [← hz', hstop]
      exact Or.inl rfl
    · -- the blank would be of the keyword
      rw [List.concat_eq_append, ← List.append_assoc] at hz
      have hword := (List.append_inj' hz rfl).1
      exact absurd (by rw [hword]; simp) hletters
  · rcases List.eq_nil_or_concat z with rfl | ⟨z, c, rfl⟩
    · rw [hz', List.nil_append, hstop]
      exact Or.inl rfl
    · rw [List.concat_eq_append, ← List.append_assoc] at hz
      obtain ⟨hfront, hc⟩ := List.append_inj' hz rfl
      obtain rfl : ' ' = c := (List.cons.inj hc).1
      have hrest : rest = z ++ ' ' :: a :: more := by
        rw [hz', List.concat_eq_append, List.append_assoc]
        rfl
      rw [hrest]
      by_cases hwhite : trimStart isWhite z = []
      · have hnone : trimStart isWhite (' ' :: a :: more) = a :: more := hstop
        rw [trimStart_append (List.dropWhile_eq_nil_iff.mp hwhite), hnone]
        exact Or.inl rfl
      · refine Or.inr ⟨_, hwhite, trimStart_behind hwhite _, u, x, z ++ [' '], ?_, hu, hx,
          (trimStart_behind hwhite _).symm⟩
        rw [hfront, List.append_assoc, List.append_assoc]
        rfl

variable {core : List Char}

end Parser

end VelociDB
