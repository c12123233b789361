/-
# What becomes of a literal (`parser.rs`, `vector.rs`)

`parse_value` ends in a value, in an error or in a panic, by the text alone:

    broken     a single quote mark, or a blob with a pair of bytes that cuts a letter
    refused    a vector or a blob that is not well formed
    accepted   everything else

The slices of `parse_vector_constructor` are always in range: no letter beyond ASCII has a
lower case that continues `vector(`.
-/
import VelociDB.LetterCase

namespace VelociDB

open Text

variable {tx : TextFns}

/-! ## Panics through `>>=` and `mapM` -/

theorem bind_panics {α β : Type} {r : Except Fault α} {f : α → Except Fault β} :
    r >>= f = .error .panic ↔ r = .error .panic ∨ ∃ a, r = .ok a ∧ f a = .error .panic := by
  cases r with
  | ok a => simp [bind, Except.bind]
  | error e => simp [bind, Except.bind]

theorem bind_oks {α β : Type} {r : Except Fault α} {f : α → Except Fault β} {b : β} :
    r >>= f = .ok b ↔ ∃ a, r = .ok a ∧ f a = .ok b := by
  cases r with
  | ok a => simp [bind, Except.bind]
  | error e => simp [bind, Except.bind]

/-- A list panics at the first element that is no success, if that one panics. -/
theorem mapM_panics {α β : Type} {f : α → Except Fault β} {l : List α} :
    l.mapM f = .error .panic ↔ ∃ u x v, l = u ++ x :: v ∧ (∀ y ∈ u, ∃ b, f y = .ok b) ∧
      f x = .error .panic := by
  induction l with
  | nil => simp [pure, Except.pure]
  | cons a l ih =>
      rw [List.mapM_cons, bind_panics]
      constructor
      · rintro (ha | ⟨b, hb, hrest⟩)
        · exact ⟨[], a, l, rfl, by simp, ha⟩
        · rcases bind_panics.mp hrest with hl | ⟨bs, -, hpure⟩
          · obtain ⟨u, x, v, rfl, hu, hx⟩ := ih.mp hl
            refine ⟨a :: u, x, v, rfl, ?_, hx⟩
            rintro y hy
            rcases List.mem_cons.mp hy with rfl | hy
            · exact ⟨b, hb⟩
            · exact hu y hy
          · cases hpure
      · rintro ⟨u, x, v, heq, hu, hx⟩
        cases u with
        | nil =>
            obtain ⟨rfl, -⟩ := List.cons.inj heq
            exact Or.inl hx
        | cons y u =>
            obtain ⟨rfl, rfl⟩ := List.cons.inj heq
            obtain ⟨b, hb⟩ := hu a List.mem_cons_self
            refine Or.inr ⟨b, hb, bind_panics.mpr (Or.inl (ih.mpr ⟨u, x, v, rfl, ?_, hx⟩))⟩
            exact fun y hy => hu y (List.mem_cons_of_mem _ hy)

/-- A list succeeds element by element. -/
theorem mapM_oks {α β : Type} {f : α → Except Fault β} {l : List α} {bs : List β} :
    l.mapM f = .ok bs ↔ List.Forall₂ (fun a b => f a = .ok b) l bs := by
  induction l generalizing bs with
  | nil => simp [pure, Except.pure, eq_comm]
  | cons a l ih =>
      rw [List.mapM_cons, bind_oks, List.forall₂_cons_left_iff]
      constructor
      · rintro ⟨b, hb, hrest⟩
        obtain ⟨bs', hbs', hpure⟩ := bind_oks.mp hrest
        exact ⟨b, bs', hb, ih.mp hbs', (Except.ok.inj hpure).symm⟩
      · rintro ⟨b, bs', hb, hbs', rfl⟩
        exact ⟨b, hb, bind_oks.mpr ⟨bs', ih.mpr hbs', rfl⟩⟩

/-! ## Vectors -/

/-- The text of the vector that a literal without quotes constructs. -/
def callText (tx : TextFns) (s : List Char) : List (List Char) → Option (List Char)
  | [] => none
  | name :: names =>
      if name <+: tx.lower s ∧ s.getLast? = some ')' then
        some (trim isWhite (s.drop name.length).dropLast)
      else callText tx s names

/-- The functions that make a vector. -/
def vectorNames : List (List Char) := ["vector32(".toList, "vector64(".toList, "vector(".toList]

/-- The text of the vector that a literal without quotes constructs. -/
def vectorText (tx : TextFns) (s : List Char) : Option (List Char) :=
  if s.head? = some '[' then some s
  else (callText tx s vectorNames).map fun inner => (unquote inner).getD inner

/-- What a function name needs so that the text can be cut behind it. -/
def CutsBehind (name : List Char) : Prop :=
  isPlain TextFns.lowerSpecials name = true ∧ ')' ∉ name

theorem vectorNames_cut : ∀ name ∈ vectorNames, CutsBehind name := by
  intro name hname
  simp only [vectorNames, List.mem_cons, List.not_mem_nil, or_false] at hname
  rcases hname with rfl | rfl | rfl
  · exact ⟨rfl, by decide⟩
  · exact ⟨rfl, by decide⟩
  · exact ⟨rfl, by decide⟩

theorem slice_behind_name (h : tx.Lawful) {name s : List Char} (hname : CutsBehind name)
    (hpre : name <+: tx.lower s) (hlast : s.getLast? = some ')') :
    slice s (size name) (size s - 1) = some (s.drop name.length).dropLast := by
  obtain ⟨u, v, rfl, hu, hascii⟩ := h.lower_starts hname.1 hpre
  have hlen : u.length = name.length := by rw [← hu, List.length_map]
  have hsize : size name = size u := by
    rw [size_of_isAscii fun x hx => (isPlain_mem hname.1 hx).1, size_of_isAscii hascii, hlen]
  rcases List.eq_nil_or_concat v with rfl | ⟨w, c, rfl⟩
  · have hmem : ')' ∈ u := by
      rw [List.append_nil] at hlast
      exact List.mem_of_getLast? hlast
    have hlow : ')' ∈ name := by
      rw [← hu]
      exact List.mem_map.mpr ⟨')', hmem, rfl⟩
    exact absurd hlow hname.2
  · rw [List.concat_eq_append] at hlast ⊢
    rw [← List.append_assoc, List.getLast?_concat] at hlast
    obtain rfl := Option.some.inj hlast
    have hend : size (u ++ (w ++ [')'])) - 1 = size u + size w := by
      have hone : (')' : Char).utf8Size = 1 := by decide
      rw [size_append, size_append, size_cons, size_nil, hone]
      omega
    rw [hend, hsize, slice_size, ← hlen, List.drop_left, List.dropLast_concat]

theorem callArgument_eq (h : tx.Lawful) {s : List Char} {names : List (List Char)}
    (hnames : ∀ name ∈ names, CutsBehind name) :
    callArgument tx s names = .ok (callText tx s names) := by
  induction names with
  | nil => rfl
  | cons name names ih =>
      rw [callArgument, callText]
      split
      · rename_i hc
        rw [slice_behind_name h (hnames name List.mem_cons_self) hc.1 hc.2]
        rfl
      · exact ih fun name hname => hnames name (List.mem_cons_of_mem _ hname)

/-- `parse_vector_constructor` never panics. -/
theorem parseVectorConstructor_ok (h : tx.Lawful) (s : List Char) :
    ∃ r, parseVectorConstructor tx s = .ok r := by
  rw [parseVectorConstructor]
  dsimp only
  split
  · exact ⟨_, rfl⟩
  · split
    · exact ⟨_, rfl⟩
    · rw [show (["vector32(".toList, "vector64(".toList, "vector(".toList] :
        List (List Char)) = vectorNames from rfl, callArgument_eq h vectorNames_cut]
      exact ⟨_, rfl⟩

/-- Without quotes it constructs the vector of `vectorText`. -/
theorem parseVectorConstructor_plain (h : tx.Lawful) {s : List Char} (htrim : trim isWhite s = s)
    (hsingle : s.head? ≠ some '\'') (hdouble : s.head? ≠ some '"') :
    parseVectorConstructor tx s = .ok ((vectorText tx s).map (parseVectorLiteral tx)) := by
  have hunquote : unquote s = none := by
    rw [unquote]
    cases s with
    | nil => rfl
    | cons c r =>
        have hc : c ≠ '\'' ∧ c ≠ '"' :=
          ⟨fun hc => hsingle (congrArg some hc), fun hc => hdouble (congrArg some hc)⟩
        rw [unwrap, unwrap, if_neg fun hq => hc.1 hq.1, if_neg fun hq => hc.2 hq.1]
        rfl
  rw [parseVectorConstructor, htrim, vectorText]
  dsimp only
  split
  · rfl
  · rw [hunquote, if_neg (by simp), show (["vector32(".toList, "vector64(".toList,
      "vector(".toList] : List (List Char)) = vectorNames from rfl,
      callArgument_eq h vectorNames_cut]
    cases callText tx s vectorNames <;> rfl

/-! ## `parse_value` by cases -/

/-- A result without a panic as one that may fault. -/
def faulty {α : Type} : Except VelociError α → Except Fault α
  | .ok a => .ok a
  | .error e => .error (.error e)

theorem faulty_ne_panic {α : Type} (r : Except VelociError α) : faulty r ≠ .error .panic := by
  cases r with
  | ok a => exact fun h => by cases h
  | error e => exact fun h => by cases h

/-- `parse_value` on a trimmed text without quotes. -/
def parsePlain (tx : TextFns) (s : List Char) : Except Fault Value :=
  match vectorText tx s with
  | some inner => faulty ((parseVectorLiteral tx inner).map .vector)
  | none => parseScalar tx s

theorem parsePlain_scalar {s : List Char} (h : vectorText tx s = none) :
    parsePlain tx s = parseScalar tx s := by
  rw [parsePlain, h]

theorem parsePlain_vector {s inner : List Char} (h : vectorText tx s = some inner) :
    parsePlain tx s = faulty ((parseVectorLiteral tx inner).map .vector) := by
  rw [parsePlain, h]

/-- `parse_value` on a trimmed text. -/
theorem parseValue_eq (h : tx.Lawful) (l : List Char) : parseValue tx l =
    if tx.upper (trim isWhite l) = "NULL".toList then .ok .null
    else if (trim isWhite l).head? = some '\'' ∨ (trim isWhite l).head? = some '"' then
      parseScalar tx (trim isWhite l)
    else parsePlain tx (trim isWhite l) := by
  rw [parseValue]
  split
  · rfl
  · obtain ⟨r, hr⟩ := parseVectorConstructor_ok h (trim isWhite l)
    rw [hr]
    split
    · cases r with
      | none => rfl
      | some parsed => rfl
    · rename_i hquote
      rw [not_or] at hquote
      have hplain := parseVectorConstructor_plain h (trim_trim isWhite l) hquote.1 hquote.2
      rw [hr] at hplain
      rw [Except.ok.inj hplain]
      cases hinner : vectorText tx (trim isWhite l) with
      | none =>
          rw [parsePlain_scalar hinner]
          rfl
      | some inner =>
          rw [parsePlain_vector hinner, Option.map_some]
          generalize parseVectorLiteral tx inner = parsed
          cases parsed <;> rfl

/-! ## Quoted strings -/

/-- A text between two quotes, or one quote mark that is both. -/
theorem quotedBy_iff {q : Char} {s : List Char} :
    quotedBy q s ↔ s = [q] ∨ ∃ content, s = q :: (content ++ [q]) := by
  constructor
  · rintro ⟨hhead, hlast⟩
    obtain ⟨r, rfl⟩ : ∃ r, s = q :: r := by
      cases s with
      | nil => cases hhead
      | cons c r => exact ⟨r, by rw [Option.some.inj hhead]⟩
    rcases List.eq_nil_or_concat r with rfl | ⟨content, c, rfl⟩
    · exact Or.inl rfl
    · rw [List.concat_eq_append, ← List.cons_append, List.getLast?_concat] at hlast
      exact Or.inr ⟨content, by rw [List.concat_eq_append, Option.some.inj hlast]⟩
  · rintro (rfl | ⟨content, rfl⟩)
    · exact ⟨rfl, rfl⟩
    · exact ⟨rfl, by rw [← List.cons_append, List.getLast?_concat]⟩

theorem parseQuoted_lone {q : Char} (hq : isAscii q = true) :
    parseQuoted q [q] = .error .panic := by
  rw [parseQuoted, size_cons, size_nil, utf8Size_of_isAscii hq]
  rfl

theorem parseQuoted_between {q : Char} (hq : isAscii q = true) (content : List Char) :
    parseQuoted q (q :: (content ++ [q])) = .ok (.text (String.ofList (unescape q content))) := by
  have hone : size [q] = 1 := by rw [size_cons, size_nil, utf8Size_of_isAscii hq]
  have hend : size (q :: (content ++ [q])) - 1 = size [q] + size content := by
    rw [size_cons, size_append, hone, utf8Size_of_isAscii hq]
    omega
  have hslice := slice_size [q] content [q]
  rw [hone] at hslice hend
  rw [parseQuoted, hend, show q :: (content ++ [q]) = [q] ++ (content ++ [q]) from rfl, hslice]
  rfl

/-! ## Blobs -/

/-- Pairs of hex digits, as `u8::from_str_radix` reads them. -/
inductive HexPairs : List Char → Prop
  | nil : HexPairs []
  | pair {a b : Char} {n : Nat} {s : List Char} : parseUnsigned 255 16 [a, b] = .ok n →
      HexPairs s → HexPairs (a :: b :: s)

/-- Pairs of hex digits up to two bytes that end inside a letter. -/
inductive CutHex : List Char → Prop
  | wide {c : Char} {s : List Char} : 3 ≤ c.utf8Size → CutHex (c :: s)
  | split {c d : Char} {s : List Char} : c.utf8Size = 1 → 2 ≤ d.utf8Size → CutHex (c :: d :: s)
  | pair {a b : Char} {n : Nat} {s : List Char} : parseUnsigned 255 16 [a, b] = .ok n →
      CutHex s → CutHex (a :: b :: s)

theorem digitValue_ascii {radix d : Nat} {c : Char} (h : digitValue radix c = some d) :
    isAscii c = true := by
  rw [digitValue] at h
  simp only [Option.filter_eq_some_iff] at h
  have hsome := h.1
  refine decide_eq_true ?_
  split at hsome
  · rename_i hc
    simp only [Char.isDigit, Bool.and_eq_true, decide_eq_true_eq] at hc
    exact lt_of_le_of_lt (UInt32.le_iff_toNat_le.mp hc.2) (by decide)
  · split at hsome
    · rename_i hc
      simp only [Char.isLower, Bool.and_eq_true, decide_eq_true_eq] at hc
      exact lt_of_le_of_lt (UInt32.le_iff_toNat_le.mp hc.2) (by decide)
    · split at hsome
      · rename_i hc
        simp only [Char.isUpper, decide_eq_true_eq] at hc
        exact lt_of_le_of_lt (UInt32.le_iff_toNat_le.mp hc.2) (by decide)
      · cases hsome

theorem parseDigits_ascii {max radix acc n : Nat} {s : List Char}
    (h : parseDigits max radix acc s = .ok n) : ∀ c ∈ s, isAscii c = true := by
  induction s generalizing acc with
  | nil => simp
  | cons c s ih =>
      rw [parseDigits] at h
      split at h
      · cases h
      · rename_i d hd
        split at h
        · rintro x hx
          rcases List.mem_cons.mp hx with rfl | hx
          · exact digitValue_ascii hd
          · exact ih h x hx
        · cases h

theorem parseUnsigned_ascii {max radix n : Nat} {s : List Char}
    (h : parseUnsigned max radix s = .ok n) : ∀ c ∈ s, isAscii c = true := by
  cases s with
  | nil => simp
  | cons c s =>
      rw [parseUnsigned] at h
      split at h
      · rename_i hplus
        rintro x hx
        rcases List.mem_cons.mp hx with rfl | hx
        · rw [hplus.1]
          rfl
        · exact parseDigits_ascii h x hx
      · exact parseDigits_ascii h

/-- The first two bytes of a text. -/
theorem sliceTo_two {c : Char} {s : List Char} :
    (c.utf8Size = 2 ∧ sliceTo (c :: s) 2 = some [c]) ∨
    (∃ d t, s = d :: t ∧ c.utf8Size = 1 ∧ d.utf8Size = 1 ∧ sliceTo (c :: s) 2 = some [c, d]) ∨
    (s = [] ∧ c.utf8Size = 1) ∨
    ((3 ≤ c.utf8Size ∨ ∃ d t, s = d :: t ∧ c.utf8Size = 1 ∧ 2 ≤ d.utf8Size) ∧
      sliceTo (c :: s) 2 = none) := by
  have hpos := c.utf8Size_pos
  rcases Nat.lt_or_ge c.utf8Size 2 with hone | htwo
  · have hc : c.utf8Size = 1 := by omega
    cases s with
    | nil => exact Or.inr (Or.inr (Or.inl ⟨rfl, hc⟩))
    | cons d t =>
        have hdpos := d.utf8Size_pos
        rcases Nat.lt_or_ge d.utf8Size 2 with hd | hd
        · refine Or.inr (Or.inl ⟨d, t, rfl, hc, by omega, ?_⟩)
          have hsize : size [c, d] = 2 := by
            rw [size_cons, size_cons, size_nil]
            omega
          rw [← hsize]
          exact sliceTo_size [c, d] t
        · refine Or.inr (Or.inr (Or.inr ⟨Or.inr ⟨d, t, rfl, hc, hd⟩, ?_⟩))
          rw [sliceTo, if_pos (by omega), hc, sliceTo, if_neg (by omega)]
          rfl
  · rcases Nat.lt_or_ge c.utf8Size 3 with hlt | hge
    · refine Or.inl ⟨by omega, ?_⟩
      have hsize : size [c] = 2 := by
        rw [size_cons, size_nil]
        omega
      rw [← hsize]
      exact sliceTo_size [c] s
    · refine Or.inr (Or.inr (Or.inr ⟨Or.inl hge, ?_⟩))
      rw [sliceTo, if_neg (by omega)]

theorem parseUnsigned_wide {max radix : Nat} {c : Char} (hc : 2 ≤ c.utf8Size) :
    ∃ e, parseUnsigned max radix [c] = .error e := by
  cases h : parseUnsigned max radix [c] with
  | error e => exact ⟨e, rfl⟩
  | ok n =>
      have hascii := parseUnsigned_ascii h c (List.mem_singleton_self c)
      rw [utf8Size_of_isAscii hascii] at hc
      omega

theorem hexBytes_cut {n : Nat} {s : List Char} (hslice : sliceTo s 2 = none) :
    hexBytes (n + 1) s = .error .panic := by
  rw [hexBytes, hslice]
  rfl

theorem hexBytes_bad {n : Nat} {s pair : List Char} {e : String}
    (hslice : sliceTo s 2 = some pair) (hpair : parseUnsigned 255 16 pair = .error e) :
    ∃ e, hexBytes (n + 1) s = .error (.error e) := by
  refine ⟨.parseError ("Invalid hex digit in BLOB: " ++ String.ofList pair), ?_⟩
  simp only [hexBytes, hslice, orPanic, bind, Except.bind, hpair]
  rfl

theorem hexBytes_pair {n b : Nat} {s pair : List Char} (hslice : sliceTo s 2 = some pair)
    (hpair : parseUnsigned 255 16 pair = .ok b) :
    hexBytes (n + 1) s = hexBytes n (s.drop pair.length) >>= fun rest =>
      .ok (UInt8.ofNat b :: rest) := by
  simp only [hexBytes, hslice, orPanic, bind, Except.bind, hpair]
  rfl

/-- Letters that are no pair of digits. -/
theorem not_hexPairs {c : Char} {s : List Char}
    (h : ∀ d t b, s = d :: t → parseUnsigned 255 16 [c, d] ≠ .ok b) : ¬ HexPairs (c :: s) := by
  intro hpairs
  cases hpairs with
  | pair hpair hrest => exact h _ _ _ rfl hpair

theorem not_cutHex {c : Char} {s : List Char}
    (h : ∀ d t b, s = d :: t → parseUnsigned 255 16 [c, d] ≠ .ok b) (hwide : c.utf8Size < 3)
    (hsplit : ∀ d t, s = d :: t → c.utf8Size = 1 → d.utf8Size < 2) : ¬ CutHex (c :: s) := by
  intro hcut
  cases hcut with
  | wide hw => omega
  | split hc hd => exact absurd (hsplit _ _ rfl hc) (by omega)
  | pair hpair hrest => exact h _ _ _ rfl hpair

theorem pair_utf8Size {c d : Char} {b : Nat} (h : parseUnsigned 255 16 [c, d] = .ok b) :
    c.utf8Size = 1 ∧ d.utf8Size = 1 := by
  have hascii := parseUnsigned_ascii h
  exact ⟨utf8Size_of_isAscii (hascii c (by simp)), utf8Size_of_isAscii (hascii d (by simp))⟩

/-- The bytes of `n` pairs: a letter is cut, or they are read, or they are refused. -/
theorem hexBytes_cases (n : Nat) (s : List Char) (hsize : size s = 2 * n) :
    (CutHex s ∧ ¬ HexPairs s ∧ hexBytes n s = .error .panic) ∨
    (HexPairs s ∧ ¬ CutHex s ∧ ∃ b, hexBytes n s = .ok b) ∨
    (¬ CutHex s ∧ ¬ HexPairs s ∧ ∃ e, hexBytes n s = .error (.error e)) := by
  induction n generalizing s with
  | zero =>
      obtain rfl := size_eq_zero.mp hsize
      exact Or.inr (Or.inl ⟨.nil, (fun h => by cases h), [], rfl⟩)
  | succ n ih =>
      cases s with
      | nil => cases hsize
      | cons c s =>
          rcases @sliceTo_two c s with ⟨hc, hslice⟩ | ⟨d, t, rfl, hc, hd, hslice⟩ | ⟨rfl, hc⟩ |
            ⟨hcut, hslice⟩
          · obtain ⟨e, he⟩ := @parseUnsigned_wide 255 16 c (by omega)
            have hno : ∀ d t b, s = d :: t → parseUnsigned 255 16 [c, d] ≠ .ok b := by
              rintro d t b - hok
              have hone := (pair_utf8Size hok).1
              omega
            exact Or.inr (Or.inr ⟨not_cutHex hno (by omega) (by omega), not_hexPairs hno,
              hexBytes_bad hslice he⟩)
          · cases hpair : parseUnsigned 255 16 [c, d] with
            | error e =>
                have hno : ∀ d' t' b, d :: t = d' :: t' →
                    parseUnsigned 255 16 [c, d'] ≠ .ok b := by
                  rintro d' t' b heq hok
                  obtain ⟨rfl, rfl⟩ := List.cons.inj heq
                  rw [hpair] at hok
                  cases hok
                refine Or.inr (Or.inr ⟨not_cutHex hno (by omega) ?_, not_hexPairs hno,
                  hexBytes_bad hslice hpair⟩)
                rintro d' t' heq -
                obtain ⟨rfl, rfl⟩ := List.cons.inj heq
                omega
            | ok b =>
                rw [size_cons, size_cons] at hsize
                rw [hexBytes_pair hslice hpair, show (c :: d :: t).drop [c, d].length = t from rfl]
                rcases ih t (by omega) with ⟨hcut, hno, hbytes⟩ | ⟨hpairs, hno, bytes, hbytes⟩ |
                  ⟨hnocut, hno, e, hbytes⟩
                · refine Or.inl ⟨.pair hpair hcut, ?_, by rw [hbytes]; rfl⟩
                  intro h
                  cases h with
                  | pair _ hrest => exact hno hrest
                · refine Or.inr (Or.inl ⟨.pair hpair hpairs, ?_, _, by rw [hbytes]; rfl⟩)
                  intro h
                  cases h with
                  | wide hw => omega
                  | split _ hw => omega
                  | pair _ hrest => exact hno hrest
                · refine Or.inr (Or.inr ⟨?_, ?_, e, by rw [hbytes]; rfl⟩)
                  · intro h
                    cases h with
                    | wide hw => omega
                    | split _ hw => omega
                    | pair _ hrest => exact hnocut hrest
                  · intro h
                    cases h with
                    | pair _ hrest => exact hno hrest
          · rw [size_cons, size_nil] at hsize
            omega
          · have hno : ∀ d t b, s = d :: t → parseUnsigned 255 16 [c, d] ≠ .ok b := by
              rintro d t b rfl hok
              obtain ⟨hc, hd⟩ := pair_utf8Size hok
              rcases hcut with hw | ⟨d', t', heq, -, hw⟩
              · omega
              · obtain ⟨rfl, rfl⟩ := List.cons.inj heq
                omega
            refine Or.inl ⟨?_, not_hexPairs hno, hexBytes_cut hslice⟩
            rcases hcut with hw | ⟨d, t, rfl, hc, hd⟩
            · exact .wide hw
            · exact .split hc hd

/-- `X'...'`. -/
def BlobText (s hex : List Char) : Prop :=
  ∃ x, (x = 'X' ∨ x = 'x') ∧ s = x :: '\'' :: (hex ++ ['\''])

theorem BlobText.head {s hex : List Char} (h : BlobText s hex) :
    ∃ x r, s = x :: r ∧ (x = 'X' ∨ x = 'x') ∧ r.getLast? = some '\'' := by
  obtain ⟨x, hx, rfl⟩ := h
  exact ⟨x, _, rfl, hx, by rw [← List.cons_append, List.getLast?_concat]⟩

theorem isBlob_iff {s : List Char} : isBlob s ↔ ∃ hex, BlobText s hex := by
  constructor
  · rintro ⟨hsize, hpre, hlast⟩
    obtain ⟨x, hx, r, rfl⟩ : ∃ x, (x = 'X' ∨ x = 'x') ∧ ∃ r, s = x :: '\'' :: r := by
      rcases hpre with ⟨r, rfl⟩ | ⟨r, rfl⟩
      · exact ⟨'X', Or.inl rfl, r, rfl⟩
      · exact ⟨'x', Or.inr rfl, r, rfl⟩
    rcases List.eq_nil_or_concat r with rfl | ⟨hex, c, rfl⟩
    · have hone : x.utf8Size = 1 := by rcases hx with rfl | rfl <;> rfl
      have hquote : ('\'' : Char).utf8Size = 1 := rfl
      rw [size_cons, size_cons, size_nil, hone, hquote] at hsize
      omega
    · rw [List.concat_eq_append, ← List.cons_append, ← List.cons_append,
        List.getLast?_concat] at hlast
      exact ⟨hex, x, hx, by rw [List.concat_eq_append, Option.some.inj hlast]⟩
  · rintro ⟨hex, x, hx, rfl⟩
    have hone : x.utf8Size = 1 := by rcases hx with rfl | rfl <;> rfl
    have hquote : ('\'' : Char).utf8Size = 1 := rfl
    refine ⟨?_, ?_, ?_⟩
    · rw [size_cons, size_cons, size_append, size_cons, size_nil, hone, hquote]
      omega
    · rcases hx with rfl | rfl
      · exact Or.inl ⟨_, rfl⟩
      · exact Or.inr ⟨_, rfl⟩
    · rw [← List.cons_append, ← List.cons_append, List.getLast?_concat]

theorem parseBlob_eq {s hex : List Char} (h : BlobText s hex) : parseBlob s =
    if size hex % 2 ≠ 0 then
      .error (.error (.parseError "Invalid BLOB literal: odd number of hex digits"))
    else (hexBytes (size hex / 2) hex).map .blob := by
  obtain ⟨x, hx, rfl⟩ := h
  have hone : x.utf8Size = 1 := by rcases hx with rfl | rfl <;> rfl
  have hquote : ('\'' : Char).utf8Size = 1 := rfl
  have htwo : size [x, '\''] = 2 := by rw [size_cons, size_cons, size_nil, hone, hquote]
  have hend : size (x :: '\'' :: (hex ++ ['\''])) - 1 = 2 + size hex := by
    rw [size_cons, size_cons, size_append, size_cons, size_nil, hone, hquote]
    omega
  have hslice := slice_size [x, '\''] hex ['\'']
  rw [htwo] at hslice
  rw [parseBlob, hend, show x :: '\'' :: (hex ++ ['\'']) = [x, '\''] ++ (hex ++ ['\'']) from rfl,
    hslice]
  change (if size hex % 2 ≠ 0 then _ else _) = _
  split
  · rfl
  · cases hexBytes (size hex / 2) hex <;> rfl

/-! ## The three ends of a literal -/

/-- A trimmed literal on which `parse_value` panics. -/
def BrokenText (s : List Char) : Prop :=
  s = ['\''] ∨ s = ['"'] ∨ ∃ hex, BlobText s hex ∧ size hex % 2 = 0 ∧ CutHex hex

/-- A trimmed literal that constructs a vector and is refused. -/
def BadVector (tx : TextFns) (s : List Char) : Prop :=
  tx.upper s ≠ "NULL".toList ∧ s.head? ≠ some '\'' ∧ s.head? ≠ some '"' ∧
    ∃ inner e, vectorText tx s = some inner ∧ parseVectorLiteral tx inner = .error e

/-- A trimmed blob that is refused. -/
def BadBlob (s : List Char) : Prop :=
  ∃ hex, BlobText s hex ∧ (size hex % 2 ≠ 0 ∨ ¬ HexPairs hex ∧ ¬ CutHex hex)

/-- A literal on which `parse_value` panics: a lone quote mark, or a blob with two bytes
that end inside a letter. -/
def Broken (l : List Char) : Prop := BrokenText (trim isWhite l)

/-- A literal that `parse_value` refuses: a vector without quotes or a blob that is not
well formed. -/
def Refused (tx : TextFns) (l : List Char) : Prop :=
  BadVector tx (trim isWhite l) ∨ BadBlob (trim isWhite l)

theorem BlobText.inj {s hex hex' : List Char} (h : BlobText s hex) (h' : BlobText s hex') :
    hex = hex' := by
  obtain ⟨x, -, rfl⟩ := h
  obtain ⟨y, -, heq⟩ := h'
  exact (List.append_inj' (List.cons.inj (List.cons.inj heq).2).2 rfl).1

theorem BlobText.broken_iff {s hex : List Char} (hs : BlobText s hex) :
    BrokenText s ↔ size hex % 2 = 0 ∧ CutHex hex := by
  constructor
  · rintro (rfl | rfl | ⟨hex', hs', hc⟩)
    · obtain ⟨x, -, heq⟩ := hs
      cases heq
    · obtain ⟨x, -, heq⟩ := hs
      cases heq
    · obtain rfl := hs.inj hs'
      exact hc
  · exact fun hc => Or.inr (Or.inr ⟨hex, hs, hc⟩)

theorem BlobText.bad_iff {s hex : List Char} (hs : BlobText s hex) :
    BadBlob s ↔ size hex % 2 ≠ 0 ∨ ¬ HexPairs hex ∧ ¬ CutHex hex := by
  constructor
  · rintro ⟨hex', hs', hc⟩
    obtain rfl := hs.inj hs'
    exact hc
  · exact fun hc => ⟨hex, hs, hc⟩

/-- The three ends of a blob. -/
theorem parseBlob_cases {s hex : List Char} (hs : BlobText s hex) :
    (BrokenText s ∧ parseBlob s = .error .panic) ∨
    (¬ BrokenText s ∧ BadBlob s ∧ ∃ e, parseBlob s = .error (.error e)) ∨
    (¬ BrokenText s ∧ ¬ BadBlob s ∧ ∃ v, parseBlob s = .ok v) := by
  rw [hs.broken_iff, hs.bad_iff, parseBlob_eq hs]
  by_cases hodd : size hex % 2 ≠ 0
  · exact Or.inr (Or.inl ⟨fun hc => hodd hc.1, Or.inl hodd, _, if_pos hodd⟩)
  · have heven : size hex % 2 = 0 := not_not.mp hodd
    rw [if_neg hodd]
    rcases hexBytes_cases (size hex / 2) hex (by omega) with ⟨hcut, hpairs, hbytes⟩ |
      ⟨hpairs, hcut, bytes, hbytes⟩ | ⟨hcut, hpairs, e, hbytes⟩
    · exact Or.inl ⟨⟨heven, hcut⟩, by rw [hbytes]; rfl⟩
    · refine Or.inr (Or.inr ⟨fun hc => hcut hc.2, ?_, _, by rw [hbytes]; rfl⟩)
      rintro (hc | hc)
      · exact hodd hc
      · exact hc.1 hpairs
    · exact Or.inr (Or.inl ⟨fun hc => hcut hc.2, Or.inr ⟨hpairs, hcut⟩, e, by rw [hbytes]; rfl⟩)

theorem TextFns.Lawful.upper_cons (h : tx.Lawful) {c : Char} (hc : isAscii c = true)
    (s : List Char) : tx.upper (c :: s) = c.toUpper :: tx.upper s := by
  rw [TextFns.upper, List.flatMap_cons, h.upper_ascii c hc]
  rfl

/-- Neither a quote mark nor a blob is NULL. -/
theorem upper_ne_null (h : tx.Lawful) {c : Char} {s : List Char} (hc : isAscii c = true)
    (hn : c.toUpper ≠ 'N') : tx.upper (c :: s) ≠ "NULL".toList := by
  rw [h.upper_cons hc]
  exact fun heq => hn (List.cons.inj heq).1

theorem BlobText.upper_ne (h : tx.Lawful) {s hex : List Char} (hs : BlobText s hex) :
    tx.upper s ≠ "NULL".toList := by
  obtain ⟨x, hx, rfl⟩ := hs
  rcases hx with rfl | rfl <;> exact upper_ne_null h rfl (by decide)

theorem parseScalar_plain {s : List Char} (hsingle : ¬ quotedBy '\'' s)
    (hdouble : ¬ quotedBy '"' s) (hblob : ¬ isBlob s) : ∃ v, parseScalar tx s = .ok v := by
  rw [parseScalar, if_neg hsingle, if_neg hdouble]
  cases parseInt64 s with
  | some i => exact ⟨_, rfl⟩
  | none =>
      cases parseFloat64 tx s with
      | some f => exact ⟨_, rfl⟩
      | none => exact ⟨_, if_neg hblob⟩

/-- A blob is no number. -/
theorem parseScalar_blob {s hex : List Char} (hs : BlobText s hex) :
    parseScalar tx s = parseBlob s := by
  have hblob : isBlob s := isBlob_iff.mpr ⟨hex, hs⟩
  obtain ⟨x, r, rfl, hx, -⟩ := hs.head
  have hquote : x ≠ '\'' ∧ x ≠ '"' ∧ x ≠ '+' ∧ x ≠ '-' := by rcases hx with rfl | rfl <;> decide
  have hdigit : x.isDigit = false ∧ x ≠ '.' := by rcases hx with rfl | rfl <;> decide
  have hint : parseInt64 (x :: r) = none := by
    have hvalue : digitValue 10 x = none := by rcases hx with rfl | rfl <;> rfl
    rw [parseInt64, if_neg (fun hc => hquote.2.2.2 hc.1), if_neg (fun hc => hquote.2.2.1 hc.1),
      parseDigits, hvalue]
    rfl
  have hfloat : floatSyntax (x :: r) = false := by
    have hsign : dropSign (x :: r) = x :: r :=
      if_neg (not_or.mpr ⟨hquote.2.2.1, hquote.2.2.2⟩)
    have hword : (x :: r).map Char.toLower ∉
        ["inf".toList, "infinity".toList, "nan".toList] := by
      have hlow : x.toLower = 'x' := by rcases hx with rfl | rfl <;> rfl
      rw [List.map_cons, hlow]
      simp
    rw [floatSyntax, hsign, List.takeWhile_cons_of_neg (by simp [hdigit.1]),
      List.dropWhile_cons_of_neg (by simp [hdigit.1]), decide_eq_false hword]
    simp [hdigit.2]
  rw [parseScalar, if_neg fun hq => hquote.1 (Option.some.inj hq.1),
    if_neg fun hq => hquote.2.1 (Option.some.inj hq.1), hint, parseFloat64, hfloat]
  exact if_pos hblob

/-- A blob is no vector. -/
theorem BlobText.vectorText_eq {s hex : List Char} (hs : BlobText s hex) :
    vectorText tx s = none := by
  obtain ⟨x, r, rfl, hx, hlast⟩ := hs.head
  have hbracket : x ≠ '[' := by rcases hx with rfl | rfl <;> decide
  have hend : (x :: r).getLast? ≠ some ')' := by
    rw [List.getLast?_cons, hlast]
    exact fun heq => (show ('\'' : Char) ≠ ')' by decide) (Option.some.inj heq)
  have hcall : ∀ names, callText tx (x :: r) names = none := by
    intro names
    induction names with
    | nil => rfl
    | cons name names ih =>
        rw [callText, if_neg fun hc => hend hc.2]
        exact ih
  have hhead : (x :: r).head? ≠ some '[' := fun hc => hbracket (Option.some.inj hc)
  rw [vectorText, if_neg hhead, hcall]
  rfl

/-- A scalar: a quote mark, a string, a blob, or anything else. -/
theorem parseScalar_cases (s : List Char) :
    ((s = ['\''] ∨ s = ['"']) ∧ parseScalar tx s = .error .panic) ∨
    (∃ hex, BlobText s hex ∧ parseScalar tx s = parseBlob s) ∨
    (s ≠ ['\''] ∧ s ≠ ['"'] ∧ ¬ (∃ hex, BlobText s hex) ∧ ∃ v, parseScalar tx s = .ok v) := by
  have hquoted : ∀ q, isAscii q = true → q ≠ 'X' → q ≠ 'x' → ∀ content,
      ¬ ∃ hex, BlobText (q :: content) hex := by
    rintro q - hX hx content ⟨hex, y, hy, heq⟩
    rcases hy with rfl | rfl
    · exact hX (List.cons.inj heq).1
    · exact hx (List.cons.inj heq).1
  by_cases hsingle : quotedBy '\'' s
  · rw [parseScalar, if_pos hsingle]
    rcases quotedBy_iff.mp hsingle with rfl | ⟨content, rfl⟩
    · exact Or.inl ⟨Or.inl rfl, parseQuoted_lone rfl⟩
    · exact Or.inr (Or.inr ⟨by simp, by simp, hquoted _ rfl (by decide) (by decide) _, _,
        parseQuoted_between rfl content⟩)
  · by_cases hdouble : quotedBy '"' s
    · rw [parseScalar, if_neg hsingle, if_pos hdouble]
      rcases quotedBy_iff.mp hdouble with rfl | ⟨content, rfl⟩
      · exact Or.inl ⟨Or.inr rfl, parseQuoted_lone rfl⟩
      · exact Or.inr (Or.inr ⟨by simp, by simp, hquoted _ rfl (by decide) (by decide) _, _,
          parseQuoted_between rfl content⟩)
    · by_cases hblob : isBlob s
      · obtain ⟨hex, hs⟩ := isBlob_iff.mp hblob
        exact Or.inr (Or.inl ⟨hex, hs, parseScalar_blob hs⟩)
      · refine Or.inr (Or.inr ⟨?_, ?_, fun hb => hblob (isBlob_iff.mpr hb),
          parseScalar_plain hsingle hdouble hblob⟩)
        · rintro rfl
          exact hsingle ⟨rfl, rfl⟩
        · rintro rfl
          exact hdouble ⟨rfl, rfl⟩

/-- What becomes of a literal. -/
theorem parseValue_cases (h : tx.Lawful) (l : List Char) :
    (Broken l ∧ parseValue tx l = .error .panic) ∨
    (¬ Broken l ∧ Refused tx l ∧ ∃ e, parseValue tx l = .error (.error e)) ∨
    (¬ Broken l ∧ ¬ Refused tx l ∧ ∃ v, parseValue tx l = .ok v) := by
  rw [parseValue_eq h, Broken, Refused]
  generalize trim isWhite l = s
  by_cases hnull : tx.upper s = "NULL".toList
  · have hblob : ∀ hex, ¬ BlobText s hex := fun hex hs => hs.upper_ne h hnull
    refine Or.inr (Or.inr ⟨?_, ?_, _, if_pos hnull⟩)
    · rintro (rfl | rfl | ⟨hex, hs, -⟩)
      · exact upper_ne_null h rfl (by decide) hnull
      · exact upper_ne_null h rfl (by decide) hnull
      · exact hblob hex hs
    · rintro (⟨hne, -⟩ | ⟨hex, hs, -⟩)
      · exact hne hnull
      · exact hblob hex hs
  · rw [if_neg hnull]
    by_cases hvector : (s.head? ≠ some '\'' ∧ s.head? ≠ some '"') ∧
        ∃ inner, vectorText tx s = some inner
    · obtain ⟨⟨hsingle, hdouble⟩, inner, hinner⟩ := hvector
      have hblob : ∀ hex, ¬ BlobText s hex := by
        intro hex hs
        rw [hs.vectorText_eq] at hinner
        cases hinner
      have hnot : ¬ BrokenText s := by
        rintro (rfl | rfl | ⟨hex, hs, -⟩)
        · exact hsingle rfl
        · exact hdouble rfl
        · exact hblob hex hs
      rw [if_neg (not_or.mpr ⟨hsingle, hdouble⟩), parsePlain_vector hinner]
      cases hparsed : parseVectorLiteral tx inner with
      | error e =>
          refine Or.inr (Or.inl ⟨hnot, Or.inl ⟨hnull, hsingle, hdouble, inner, e, hinner,
            hparsed⟩, e, rfl⟩)
      | ok v =>
          refine Or.inr (Or.inr ⟨hnot, ?_, .vector v, rfl⟩)
          rintro (⟨-, -, -, inner', e, hinner', he⟩ | ⟨hex, hs, -⟩)
          · obtain rfl := Option.some.inj (hinner.symm.trans hinner')
            rw [hparsed] at he
            cases he
          · exact hblob hex hs
    · have hscalar : (if s.head? = some '\'' ∨ s.head? = some '"' then parseScalar tx s
          else parsePlain tx s) = parseScalar tx s := by
        split
        · rfl
        · rename_i hquote
          cases hinner : vectorText tx s with
          | none => exact parsePlain_scalar hinner
          | some inner => exact absurd ⟨not_or.mp hquote, inner, hinner⟩ hvector
      have hnovector : ¬ BadVector tx s := by
        rintro ⟨-, hsingle, hdouble, inner, e, hinner, -⟩
        exact hvector ⟨⟨hsingle, hdouble⟩, inner, hinner⟩
      rw [hscalar, or_iff_right hnovector]
      rcases @parseScalar_cases tx s with ⟨hlone, hpanic⟩ | ⟨hex, hs, hblob⟩ |
        ⟨hsingle, hdouble, hblob, v, hv⟩
      · exact Or.inl ⟨hlone.elim Or.inl fun hd => Or.inr (Or.inl hd), hpanic⟩
      · rw [hblob]
        exact parseBlob_cases hs
      · refine Or.inr (Or.inr ⟨?_, fun ⟨hex, hs, _⟩ => hblob ⟨hex, hs⟩, v, hv⟩)
        rintro (hl | hl | ⟨hex, hs, -⟩)
        · exact hsingle hl
        · exact hdouble hl
        · exact hblob ⟨hex, hs⟩

theorem parseValue_panics_iff (h : tx.Lawful) {l : List Char} :
    parseValue tx l = .error .panic ↔ Broken l := by
  rcases parseValue_cases h l with ⟨hb, hp⟩ | ⟨hb, -, e, hp⟩ | ⟨hb, -, v, hp⟩ <;> simp [hb, hp]

theorem parseValue_ok_iff (h : tx.Lawful) {l : List Char} :
    (∃ v, parseValue tx l = .ok v) ↔ ¬ Broken l ∧ ¬ Refused tx l := by
  rcases parseValue_cases h l with ⟨hb, hp⟩ | ⟨hb, hr, e, hp⟩ | ⟨hb, hr, v, hp⟩
  · simp [hb, hp]
  · simp [hr, hp]
  · simp [hb, hr, hp]

end VelociDB
