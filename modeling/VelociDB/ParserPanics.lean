/-
# When the parser panics (`parser.rs`)

For a SELECT the slices around LIMIT and ORDER BY are in range: a text whose upper case
ends in ` DESC` or ` ASC` is as long as that, in bytes.  So a SELECT panics in the scan for
ORDER BY or, as every statement, at the first literal that is not accepted, if it is broken.
-/
import VelociDB.OrderScan

namespace VelociDB

open Text

namespace Parser

variable {tx : TextFns}

/-! ## LIMIT and ORDER BY -/

theorem safe_takeLimit (h : tx.Lawful) (s : List Char) : Safe (takeLimit tx s) := by
  rw [takeLimit]
  split
  · exact safe_ok _
  · rename_i m hm
    refine (safe_group h hm (by simp)).bind fun t _ => ?_
    split
    · exact safe_refuse _
    · exact safe_ok _

/-- No upper case of a special letter ends in `x`. -/
def EndsPlain (x : Char) : Prop :=
  isAscii x = true ∧ TextFns.upperSpecials.all (fun e => e.2.getLast? != some x) = true

theorem upper_ends_plain (h : tx.Lawful) {x : Char} {s t : List Char} (hx : EndsPlain x)
    (hs : tx.upper s = t ++ [x]) :
    ∃ s' c, s = s' ++ [c] ∧ isAscii c = true ∧ tx.upper s' = t := by
  obtain ⟨s', c, rfl, hplain | ⟨w, hmem, -⟩⟩ := h.upper_ends hx.1 hs
  · exact ⟨s', c, rfl, hplain.1, hplain.2.2⟩
  · have hlast := List.all_eq_true.mp hx.2 _ hmem
    rw [List.getLast?_concat, bne_self_eq_false] at hlast
    cases hlast

theorem specials_ending_s : (TextFns.upperSpecials.all fun e => e.2.getLast? != some 'S' ||
    (e == ('ß', ['S', 'S']) || e == ('ſ', ['S']))) = true := rfl

/-- An S at the end of an upper case text, behind another letter: of an `s`, or of `ſ`. -/
theorem upper_ends_s (h : tx.Lawful) {y : Char} {s t : List Char} (hy : y ≠ 'S')
    (hs : tx.upper s = (t ++ [y]) ++ ['S']) :
    ∃ s' c, s = s' ++ [c] ∧ 1 ≤ c.utf8Size ∧ c.utf8Size ≤ 2 ∧ tx.upper s' = t ++ [y] := by
  obtain ⟨s', c, rfl, hplain | ⟨w, hmem, hrest⟩⟩ := h.upper_ends rfl hs
  · have hone := utf8Size_of_isAscii hplain.1
    exact ⟨s', c, rfl, by omega, by omega, hplain.2.2⟩
  · have hcases : (c = 'ß' ∧ w = ['S']) ∨ (c = 'ſ' ∧ w = []) := by
      have hlast := List.all_eq_true.mp specials_ending_s _ hmem
      rw [List.getLast?_concat, bne_self_eq_false, Bool.false_or, Bool.or_eq_true, beq_iff_eq,
        beq_iff_eq] at hlast
      refine hlast.imp (fun he => ?_) fun he => ?_
      · exact ⟨(Prod.mk.inj he).1, (@List.append_inj' Char _ _ ['S'] _ (Prod.mk.inj he).2 rfl).1⟩
      · exact ⟨(Prod.mk.inj he).1, (@List.append_inj' Char _ _ [] _ (Prod.mk.inj he).2 rfl).1⟩
    rcases hcases with ⟨rfl, rfl⟩ | ⟨rfl, rfl⟩
    · exact absurd (List.cons.inj (List.append_inj' hrest rfl).2).1.symm hy
    · rw [List.append_nil] at hrest
      exact ⟨s', _, rfl, by decide, by decide, hrest⟩

theorem truncateBy_behind (u v : List Char) : truncateBy (u ++ v) (size v) = .ok u := by
  rw [truncateBy, size_append, if_neg (by omega), Nat.add_sub_cancel, sliceTo_size]
  rfl

/-- ` DESC` is five bytes, or six with `ſ`, and then five bytes end behind the blank. -/
theorem truncate_desc (h : tx.Lawful) {s : List Char} (hs : " DESC".toList <:+ tx.upper s) :
    ∃ r, truncateBy s 5 = .ok r := by
  obtain ⟨t, ht⟩ := hs
  obtain ⟨s₁, c, rfl, hc, h₁⟩ := @upper_ends_plain tx h 'C' _ (t ++ " DES".toList) ⟨rfl, rfl⟩
    (by rw [← ht, List.append_assoc]; rfl)
  obtain ⟨s₂, x, rfl, hx, hx', h₂⟩ := @upper_ends_s tx h 'E' _ (t ++ " D".toList) (by decide)
    (by rw [h₁, List.append_assoc, List.append_assoc]; rfl)
  obtain ⟨s₃, e, rfl, he, h₃⟩ := upper_ends_plain h (x := 'E') ⟨rfl, rfl⟩ h₂
  obtain ⟨s₄, d, rfl, hd, h₄⟩ := @upper_ends_plain tx h 'D' _ (t ++ [' ']) ⟨rfl, rfl⟩
    (by rw [h₃, List.append_assoc]; rfl)
  obtain ⟨s₅, b, rfl, hb, -⟩ := upper_ends_plain h (x := ' ') ⟨rfl, rfl⟩ h₄
  have hsize : size [d, e, x, c] = 3 + x.utf8Size := by
    simp only [size_cons, size_nil, utf8Size_of_isAscii hd, utf8Size_of_isAscii he,
      utf8Size_of_isAscii hc]
    omega
  rcases Nat.lt_or_ge x.utf8Size 2 with hone | htwo
  · have hfive : size [b, d, e, x, c] = 5 := by
      rw [size_cons, hsize, utf8Size_of_isAscii hb]
      omega
    rw [← hfive, show s₅ ++ [b] ++ [d] ++ [e] ++ [x] ++ [c] = s₅ ++ [b, d, e, x, c] by simp]
    exact ⟨_, truncateBy_behind s₅ [b, d, e, x, c]⟩
  · have hfive : size [d, e, x, c] = 5 := by omega
    rw [← hfive, show s₅ ++ [b] ++ [d] ++ [e] ++ [x] ++ [c] = (s₅ ++ [b]) ++ [d, e, x, c] by simp]
    exact ⟨_, truncateBy_behind (s₅ ++ [b]) [d, e, x, c]⟩

/-- ` ASC` is four bytes, or five with `ſ`. -/
theorem truncate_asc (h : tx.Lawful) {s : List Char} (hs : " ASC".toList <:+ tx.upper s) :
    ∃ r, truncateBy s 4 = .ok r := by
  obtain ⟨t, ht⟩ := hs
  obtain ⟨s₁, c, rfl, hc, h₁⟩ := @upper_ends_plain tx h 'C' _ (t ++ " AS".toList) ⟨rfl, rfl⟩
    (by rw [← ht, List.append_assoc]; rfl)
  obtain ⟨s₂, x, rfl, hx, hx', h₂⟩ := @upper_ends_s tx h 'A' _ (t ++ " ".toList) (by decide)
    (by rw [h₁, List.append_assoc, List.append_assoc]; rfl)
  obtain ⟨s₃, a, rfl, ha, h₃⟩ := upper_ends_plain h (x := 'A') ⟨rfl, rfl⟩ h₂
  obtain ⟨s₄, b, rfl, hb, -⟩ := upper_ends_plain h (x := ' ') ⟨rfl, rfl⟩ h₃
  have hsize : size [a, x, c] = 2 + x.utf8Size := by
    simp only [size_cons, size_nil, utf8Size_of_isAscii ha, utf8Size_of_isAscii hc]
    omega
  rcases Nat.lt_or_ge x.utf8Size 2 with hone | htwo
  · have hfour : size [b, a, x, c] = 4 := by
      rw [size_cons, hsize, utf8Size_of_isAscii hb]
      omega
    rw [← hfour, show s₄ ++ [b] ++ [a] ++ [x] ++ [c] = s₄ ++ [b, a, x, c] by simp]
    exact ⟨_, truncateBy_behind s₄ [b, a, x, c]⟩
  · have hfour : size [a, x, c] = 4 := by omega
    rw [← hfour, show s₄ ++ [b] ++ [a] ++ [x] ++ [c] = (s₄ ++ [b]) ++ [a, x, c] by simp]
    exact ⟨_, truncateBy_behind (s₄ ++ [b]) [a, x, c]⟩

theorem safe_takeDirection (h : tx.Lawful) (expr : List Char) : Safe (takeDirection tx expr) := by
  rw [takeDirection]
  split
  · rename_i hdesc
    obtain ⟨r, hr⟩ := truncate_desc h hdesc
    rw [hr]
    exact safe_ok _
  · split
    · rename_i hasc
      obtain ⟨r, hr⟩ := truncate_asc h hasc
      rw [hr]
      exact safe_ok _
    · exact safe_ok _

/-- The slices around ORDER BY start and end between letters. -/
theorem safe_takeOrderAt (h : tx.Lawful) (u v : List Char) :
    Safe (takeOrderAt tx (u ++ v) (size u)) := by
  rw [takeOrderAt, sliceFrom_size, sliceTo_size]
  refine (safe_some v).bind fun t ht => ?_
  obtain rfl : v = t := Except.ok.inj ht
  dsimp only
  split
  · exact safe_refuse _
  · rename_i m hm
    rw [h.captures_eq] at hm
    obtain ⟨w, -, hw⟩ := Regex.search_eats hm
    have hslice : sliceFrom (trim isWhite v) (size (trim isWhite v) - size m.after) =
        some m.after := by
      rw [hw, ← List.append_assoc, size_append (m.before ++ w), Nat.add_sub_cancel]
      exact sliceFrom_size _ _
    rw [hslice]
    refine Safe.bind (safe_some _) fun expr _ => ?_
    refine (safe_takeDirection h _).bind fun e _ => ?_
    split
    · exact safe_refuse _
    · exact safe_ok _

/-- Only the scan for ORDER BY panics. -/
theorem takeOrder_panics (h : tx.Lawful) (s : List Char) :
    takeOrder tx s = .error .panic ↔ MeetsRing OrderState.start s := by
  rw [takeOrder, bind_panics, findOrderBy_panics h]
  refine ⟨fun hc => hc.resolve_right ?_, Or.inl⟩
  rintro ⟨found, hfound, hc⟩
  cases found with
  | none => cases hc
  | some j =>
      obtain ⟨u, v, rfl, rfl, -⟩ := findOrderBy_some h hfound
      exact ((safe_takeOrderAt h u v).bind fun _ _ => safe_ok _) hc

/-! ## SELECT -/

/-- The literals of a SELECT without its LIMIT and ORDER BY. -/
def selectTexts (tx : TextFns) (remaining : List Char) : List (Option (List Char)) :=
  match tx.captures (selectRe tx) (selectCore remaining) with
  | some m => tailTexts tx m 3
  | none => []

/-- A SELECT that panics: behind its LIMIT is taken away, ORDER BY with a ring is met, or,
behind its ORDER BY is taken away as well, a broken literal. -/
def SelectBreaks (tx : TextFns) (sql : List Char) : Prop :=
  ∃ limit rest, takeLimit tx (trim isWhite sql) = .ok (limit, rest) ∧
    (MeetsRing OrderState.start rest ∨
      ∃ order rest', takeOrder tx rest = .ok (order, rest') ∧
        FirstBroken tx (selectTexts tx rest'))

theorem parseCore_panics (h : tx.Lawful) (limit : Option Nat) (order : Option OrderBy)
    (remaining : List Char) : parseCore tx limit order remaining = .error .panic ↔
      FirstBroken tx (selectTexts tx remaining) := by
  rw [parseCore, selectTexts]
  cases hm : tx.captures (selectRe tx) (selectCore remaining) with
  | none => simp [refuse, not_firstBroken_nil]
  | some m =>
      rw [h.captures_eq] at hm
      obtain ⟨list, hlist⟩ := @Regex.search_group _ _ _ _ hm 1 (by simp)
      obtain ⟨table, htable⟩ := @Regex.search_group _ _ _ _ hm 2 (by simp)
      dsimp only
      rw [hlist, groupName_ok htable, ← parseTail_panics h]
      change parseTail tx m 3 >>= _ = _ ↔ _
      rw [bind_panics]
      refine ⟨fun hc => hc.resolve_right ?_, Or.inl⟩
      rintro ⟨clause, -, hc⟩
      cases hc

theorem parseSelect_panics (h : tx.Lawful) (sql : List Char) :
    parseSelect tx sql = .error .panic ↔ SelectBreaks tx sql := by
  rw [parseSelect, bind_panics]
  constructor
  · rintro (hc | ⟨⟨limit, rest⟩, hlimit, hc⟩)
    · exact absurd hc (safe_takeLimit h _)
    · refine ⟨limit, rest, hlimit, ?_⟩
      rcases bind_panics.mp hc with hc | ⟨⟨order, rest'⟩, horder, hc⟩
      · exact Or.inl ((takeOrder_panics h rest).mp hc)
      · exact Or.inr ⟨order, rest', horder, (parseCore_panics h limit order rest').mp hc⟩
  · rintro ⟨limit, rest, hlimit, hc⟩
    refine Or.inr ⟨(limit, rest), hlimit, bind_panics.mpr ?_⟩
    rcases hc with hc | ⟨order, rest', horder, hc⟩
    · exact Or.inl ((takeOrder_panics h rest).mpr hc)
    · exact Or.inr ⟨(order, rest'), horder, (parseCore_panics h limit order rest').mpr hc⟩

/-! ## Distance expressions -/

theorem commaLoop_some (s : List Char) : ∀ (i depth j : Nat) (quote : Option Char),
    commaLoop i quote depth s = some j → ∃ u v, s = u ++ ',' :: v ∧ j = i + size u := by
  induction s with
  | nil =>
      intro i depth j quote hj
      cases quote <;> cases hj
  | cons c s ih =>
      intro i depth j quote hj
      have hnext : ∀ depth' quote', commaLoop (i + c.utf8Size) quote' depth' s = some j →
          ∃ u v, c :: s = u ++ ',' :: v ∧ j = i + size u := by
        intro depth' quote' hj
        obtain ⟨u, v, rfl, rfl⟩ := ih _ _ _ _ hj
        exact ⟨c :: u, v, rfl, by rw [size_cons, Nat.add_assoc]⟩
      cases quote with
      | some q => exact hnext _ _ hj
      | none =>
          rw [commaLoop] at hj
          split at hj
          · exact hnext _ _ hj
          · split at hj
            · exact hnext _ _ hj
            · split at hj
              · exact hnext _ _ hj
              · split at hj
                · rename_i hcomma
                  exact ⟨[], s, by rw [hcomma.1]; rfl, (Option.some.inj hj).symm⟩
                · exact hnext _ _ hj

theorem safe_parseDistanceArgs (h : tx.Lawful) (metric : DistanceMetric) (s args : List Char) :
    Safe (parseDistanceArgs tx metric s args) := by
  rw [parseDistanceArgs]
  split
  · exact safe_ok _
  · rename_i j hj
    obtain ⟨u, v, rfl, rfl⟩ := commaLoop_some args 0 0 j none hj
    have hbehind : size u + 1 = size (u ++ [',']) := by
      rw [size_append]
      rfl
    have htail : sliceFrom (u ++ ',' :: v) (size u + 1) = some v := by
      rw [hbehind, show u ++ ',' :: v = (u ++ [',']) ++ v by simp]
      exact sliceFrom_size _ _
    rw [Nat.zero_add, sliceTo_size, htail]
    refine Safe.bind (safe_some _) fun column _ => Safe.bind (safe_some _) fun arg _ => ?_
    dsimp only
    obtain ⟨r, hr⟩ := parseVectorConstructor_ok h (trim isWhite arg)
    rw [hr]
    cases r with
    | none => exact safe_ok _
    | some parsed => cases parsed <;> exact safe_ok _

/-- `parse_distance_expr` never panics. -/
theorem safe_parseDistanceExpr (h : tx.Lawful) (s : List Char) :
    Safe (parseDistanceExpr tx s) := by
  rw [parseDistanceExpr]
  generalize trim isWhite s = s
  split
  · exact safe_ok _
  · rename_i hfunc
    have hsplit := (List.takeWhile_append_dropWhile (p := (· != '(')) (l := s)).symm
    have hto : sliceTo s (size (s.takeWhile (· != '('))) = some (s.takeWhile (· != '(')) := by
      nth_rewrite 1 [hsplit]
      exact sliceTo_size _ _
    rw [hto]
    refine Safe.bind (safe_some _) fun name _ => ?_
    split
    · exact safe_ok _
    · split
      · rename_i hlast
        obtain ⟨args, hargs⟩ : ∃ args, s = s.takeWhile (· != '(') ++ ('(' :: args ++ [')']) := by
          cases hdrop : s.dropWhile (· != '(') with
          | nil =>
              rw [hdrop, List.append_nil] at hsplit
              exact absurd hsplit.symm hfunc
          | cons c r =>
              have hc : c = '(' := by
                have hnot := List.head?_dropWhile_not (· != '(') s
                rw [hdrop] at hnot
                simpa using hnot
              rw [hdrop, hc] at hsplit
              rcases List.eq_nil_or_concat r with rfl | ⟨args, d, rfl⟩
              · rw [hsplit, List.getLast?_concat] at hlast
                cases hlast
              · rw [hsplit, List.concat_eq_append, ← List.cons_append, ← List.append_assoc,
                  List.getLast?_concat] at hlast
                refine ⟨args, ?_⟩
                nth_rewrite 1 [hsplit]
                rw [List.concat_eq_append, Option.some.inj hlast]
                rfl
        generalize s.takeWhile (· != '(') = func at hargs
        have hopen : size func + 1 = size (func ++ ['(']) := by
          rw [size_append]
          rfl
        have hclose : size s - 1 = size (func ++ ['(']) + size args := by
          rw [hargs]
          simp only [size_append, size_cons, size_nil]
          have h1 : ('(' : Char).utf8Size = 1 := rfl
          have h2 : (')' : Char).utf8Size = 1 := rfl
          omega
        have hslice : slice s (size func + 1) (size s - 1) = some args := by
          rw [hclose, hopen]
          nth_rewrite 1 [hargs]
          rw [show func ++ ('(' :: args ++ [')']) = (func ++ ['(']) ++ (args ++ [')']) by simp]
          exact slice_size _ _ _
        rw [hslice]
        refine Safe.bind (safe_some _) fun args _ => ?_
        exact (safe_parseDistanceArgs h _ _ _).bind fun _ _ => safe_ok _
      · exact safe_ok _

/-! ## The whole parser -/

/-- The statements that panic. -/
def Breaks (tx : TextFns) (sql : List Char) : Prop :=
  match kindOf (tx.upper (trim isWhite sql)) with
  | some .insert => FirstBroken tx (insertTexts tx (trim isWhite sql))
  | some .select => SelectBreaks tx (trim isWhite sql)
  | some .update => FirstBroken tx (updateTexts tx (trim isWhite sql))
  | some .delete => FirstBroken tx (deleteTexts tx (trim isWhite sql))
  | _ => False

theorem parse_panics_iff (h : tx.Lawful) (sql : List Char) :
    parse tx sql = .error .panic ↔ Breaks tx sql := by
  rw [parse, Breaks]
  cases kindOf (tx.upper (trim isWhite sql)) with
  | none => exact iff_of_false (safe_refuse _) id
  | some kind =>
      cases kind with
      | createTable => exact iff_of_false (safe_parseCreateTable h _) id
      | dropTable => exact iff_of_false (safe_parseDropTable h _) id
      | alterTable => exact iff_of_false (safe_parseAlterTable h _) id
      | insert => exact parseInsert_panics h
      | select => exact parseSelect_panics h _
      | update => exact parseUpdate_panics h
      | delete => exact parseDelete_panics h
      | beginTransaction | commitTransaction | rollbackTransaction =>
          exact iff_of_false (safe_ok _) id

end Parser

/-- The parser returns, with a result or an error. -/
def ParserReturns (tx : TextFns) (sql : String) : Prop :=
  Safe (Parser.parse tx sql.toList) ∧ Safe (Parser.parseDistanceExpr tx sql.toList)

/-- The parser returns exactly if the statement is none of those that break it. -/
theorem parser_returns_iff {tx : TextFns} (h : tx.Lawful) (sql : String) :
    ParserReturns tx sql ↔ ¬ Parser.Breaks tx sql.toList := by
  rw [← Parser.parse_panics_iff h]
  exact ⟨And.left, fun hsafe => ⟨hsafe, Parser.safe_parseDistanceExpr h _⟩⟩

/-! ## Unicode as far as ASCII -/

/-- The tables for ASCII and the special letters; a letter beyond them is neither a word
character nor has case. -/
def TextFns.basic : TextFns where
  upperChar c := if isAscii c then [c.toUpper] else (upperSpecials.lookup c).getD [c]
  lowerChar c := if isAscii c then [c.toLower] else (lowerSpecials.lookup c).getD [c]
  isWord c := c.isAlphanum || c == '_'
  isDigit c := c.isDigit
  float64 _ := 0
  float32 _ := 0
  captures r s := r.search s

theorem mem_of_lookup {β : Type} {c : Char} {b : β} {l : List (Char × β)}
    (h : l.lookup c = some b) : (c, b) ∈ l := by
  obtain ⟨u, v, rfl, -⟩ := List.lookup_eq_some_iff.mp h
  exact List.mem_append_right u List.mem_cons_self

/-- ASCII letters, digits and the underscore are no white space. -/
theorem isWhite_of_alphanum {c : Char} (h : (c.isAlphanum || c == '_') = true) :
    isWhite c = false := by
  have hrange : 48 ≤ c.toNat ∧ c.toNat ≤ 122 := by
    rw [Bool.or_eq_true, beq_iff_eq, Char.isAlphanum, Char.isAlpha, Char.isUpper, Char.isLower,
      Char.isDigit] at h
    simp only [Bool.or_eq_true, Bool.and_eq_true, decide_eq_true_eq, UInt32.le_iff_toNat_le] at h
    rcases h with ((h | h) | h) | rfl
    · exact ⟨le_trans (by decide) h.1, le_trans h.2 (by decide)⟩
    · exact ⟨le_trans (by decide) h.1, le_trans h.2 (by decide)⟩
    · exact ⟨h.1, le_trans h.2 (by decide)⟩
    · decide
  exact decide_eq_false (by omega)

theorem TextFns.basic_lawful : TextFns.basic.Lawful where
  upper_ascii c hc := if_pos hc
  upper_special := by
    have hall : (upperSpecials.all fun e => basic.upperChar e.1 == e.2) = true := by
      with_unfolding_all decide
    exact fun e he => beq_iff_eq.mp (List.all_eq_true.mp hall e he)
  upper_other c hc hne x hx := by
    change x ∈ (if isAscii c then [c.toUpper] else (upperSpecials.lookup c).getD [c]) at hx
    rw [hc, List.lookup_eq_none_iff.mpr fun e he => bne_iff_ne.mpr (hne e he).symm] at hx
    rw [List.mem_singleton.mp hx]
    exact hc
  upper_ne_nil c := by
    change (if isAscii c then [c.toUpper] else (upperSpecials.lookup c).getD [c]) ≠ []
    split
    · exact List.cons_ne_nil _ _
    · have hall : (upperSpecials.all fun e => e.2 != []) = true := rfl
      cases hl : upperSpecials.lookup c with
      | none => exact List.cons_ne_nil _ _
      | some s => exact bne_iff_ne.mp (List.all_eq_true.mp hall (c, s) (mem_of_lookup hl))
  lower_ascii c hc := if_pos hc
  lower_special := by
    have hall : (lowerSpecials.all fun e => basic.lowerChar e.1 == e.2) = true := by
      with_unfolding_all decide
    exact fun e he => beq_iff_eq.mp (List.all_eq_true.mp hall e he)
  lower_other c hc hne x hx := by
    change x ∈ (if isAscii c then [c.toLower] else (lowerSpecials.lookup c).getD [c]) at hx
    rw [hc, List.lookup_eq_none_iff.mpr fun e he => bne_iff_ne.mpr (hne e he).symm] at hx
    rw [List.mem_singleton.mp hx]
    exact hc
  lower_ne_nil c := by
    change (if isAscii c then [c.toLower] else (lowerSpecials.lookup c).getD [c]) ≠ []
    split
    · exact List.cons_ne_nil _ _
    · have hall : (lowerSpecials.all fun e => e.2 != []) = true := rfl
      cases hl : lowerSpecials.lookup c with
      | none => exact List.cons_ne_nil _ _
      | some s => exact bne_iff_ne.mp (List.all_eq_true.mp hall (c, s) (mem_of_lookup hl))
  word_ascii c hc := rfl
  word_white c hc := isWhite_of_alphanum hc
  digit_ascii c hc := rfl
  captures_eq r s := rfl

theorem parser_returns_iff_commit : ParserReturns .basic "COMMIT" ↔
    ¬ Parser.Breaks .basic "COMMIT".toList :=
  parser_returns_iff TextFns.basic_lawful "COMMIT"

/-- A lone quote mark as a value. -/
theorem not_parser_returns : ¬ ∀ tx : TextFns, tx.Lawful → ∀ sql, ParserReturns tx sql := by
  intro h
  refine (h .basic TextFns.basic_lawful "INSERT INTO t VALUES (')").1 ?_
  have hkind : Parser.kindOf (TextFns.basic.upper (Text.trim isWhite
      "INSERT INTO t VALUES (')".toList)) = some .insert := by with_unfolding_all decide
  have htexts : Parser.insertTexts .basic (Text.trim isWhite
      "INSERT INTO t VALUES (')".toList) = [some ['\'']] := by with_unfolding_all decide
  rw [Parser.parse_panics_iff TextFns.basic_lawful, Parser.Breaks, hkind]
  change Parser.FirstBroken _ _
  rw [htexts]
  exact ⟨[], ['\''], [], rfl, by simp, Or.inl rfl⟩

end VelociDB
