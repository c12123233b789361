/-
# The scan for ORDER BY (`parser.rs`)

`find_order_by` goes over the bytes of a query and slices the text at them.  Only at a byte
of an ASCII letter does it slice, so it is a scan over letters (`orderChars`); it stops at
the first ORDER BY outside quotes, or panics at an ORDER followed by `bẙ`.
-/
import VelociDB.ParserFaults

namespace VelociDB

open Text

/-! ## Letters and their bytes -/

theorem utf8EncodeChar_ascii {c : Char} (h : isAscii c = true) :
    String.utf8EncodeChar c = [UInt8.ofNat c.toNat] :=
  if_pos (Nat.le_of_lt_succ (of_decide_eq_true h))

theorem utf8EncodeChar_high {c : Char} (h : isAscii c = false) :
    ∀ b ∈ String.utf8EncodeChar c, 128 ≤ b.toNat := by
  intro b hb
  have hge : ¬ c.toNat < 128 := of_decide_eq_false h
  have hnot : ¬ c.val.toNat ≤ 0x7f := fun hle => hge (Nat.lt_succ_of_le hle)
  rw [String.utf8EncodeChar, if_neg hnot] at hb
  split at hb
  · simp only [List.mem_cons, List.not_mem_nil, or_false] at hb
    rcases hb with rfl | rfl <;> simp only [UInt8.toNat_ofNat'] <;> omega
  · split at hb
    · simp only [List.mem_cons, List.not_mem_nil, or_false] at hb
      rcases hb with rfl | rfl | rfl <;> simp only [UInt8.toNat_ofNat'] <;> omega
    · simp only [List.mem_cons, List.not_mem_nil, or_false] at hb
      rcases hb with rfl | rfl | rfl | rfl <;> simp only [UInt8.toNat_ofNat'] <;> omega

/-- The byte of an ASCII letter. -/
def asciiByte (c : Char) : UInt8 := UInt8.ofNat c.toNat

theorem asciiByte_inj {c d : Char} (hc : isAscii c = true) (hd : isAscii d = true) :
    asciiByte c = asciiByte d ↔ c = d := by
  constructor
  · intro h
    have hclt : c.toNat < 128 := of_decide_eq_true hc
    have hdlt : d.toNat < 128 := of_decide_eq_true hd
    have hnat := congrArg UInt8.toNat h
    rw [asciiByte, asciiByte, UInt8.toNat_ofNat', UInt8.toNat_ofNat', Nat.mod_eq_of_lt (by omega),
      Nat.mod_eq_of_lt (by omega)] at hnat
    exact Char.toNat_inj.mp hnat
  · rintro rfl
    rfl

theorem isAscii_of_toUpper {c : Char} (h : isAscii c.toUpper = true) : isAscii c = true := by
  rw [Char.toUpper] at h
  split at h
  · rename_i hc
    exact decide_eq_true (lt_of_le_of_lt (UInt32.le_iff_toNat_le.mp hc.2) (by decide))
  · exact h

/-- Upper case makes no white space. -/
theorem toUpper_eq_white {c x : Char} (hx : x = ' ' ∨ x = '\t' ∨ x = '\n')
    (h : c.toUpper = x) : c = x := by
  rw [Char.toUpper] at h
  split at h
  · rename_i hc
    exfalso
    have hval := congrArg Char.val h
    have hlow := UInt32.le_iff_toNat_le.mp hc.1
    have hhigh := UInt32.le_iff_toNat_le.mp hc.2
    have hnat := congrArg UInt32.toNat hval
    have hxle : x.val.toNat ≤ 32 := by rcases hx with rfl | rfl | rfl <;> decide
    simp only [UInt32.toNat_add] at hnat
    change _ = x.val.toNat at hnat
    have h1 : ('A'.val - 'a'.val : UInt32).toNat = 4294967264 := by decide
    have h2 : 'a'.val.toNat = 97 := by decide
    have h3 : 'z'.val.toNat = 122 := by decide
    rw [h1] at hnat
    rw [h2] at hlow
    rw [h3] at hhigh
    omega
  · exact h

namespace Parser

variable {tx : TextFns}

/-! ## ORDER BY at a place -/

/-- ORDER and white space, and what is behind them. -/
def OrderWord (v after : List Char) : Prop :=
  ∃ u x rest, v = u ++ x :: rest ∧ u.map Char.toUpper = "ORDER".toList ∧
    (x = ' ' ∨ x = '\t' ∨ x = '\n') ∧ after = trimStart isWhite rest

/-- ORDER BY and white space. -/
def AtOrderBy (v : List Char) : Prop :=
  ∃ b y c rest, OrderWord v (b :: y :: c :: rest) ∧ b.toUpper = 'B' ∧ y.toUpper = 'Y' ∧
    isWhite c = true

/-- ORDER BY with a ring over the Y. -/
def AtOrderRing (v : List Char) : Prop :=
  ∃ b rest, OrderWord v (b :: 'ẙ' :: rest) ∧ b.toUpper = 'B'

theorem OrderWord.unique {v after after' : List Char} (h : OrderWord v after)
    (h' : OrderWord v after') : after = after' := by
  obtain ⟨u, x, rest, rfl, hu, -, rfl⟩ := h
  obtain ⟨u', x', rest', heq, hu', -, rfl⟩ := h'
  have hlen : u.length = u'.length := by
    rw [← List.length_map (f := Char.toUpper), hu, ← hu', List.length_map]
  rw [(List.cons.inj (List.append_inj heq hlen).2).2]

theorem upper_append (u v : List Char) : tx.upper (u ++ v) = tx.upper u ++ tx.upper v :=
  List.flatMap_append

theorem upper_of_ascii (h : tx.Lawful) {u : List Char} (hu : ∀ c ∈ u, isAscii c = true) :
    tx.upper u = u.map Char.toUpper := by
  induction u with
  | nil => rfl
  | cons c u ih =>
      rw [h.upper_cons (hu c List.mem_cons_self), ih fun d hd => hu d (List.mem_cons_of_mem _ hd)]
      rfl

/-- Letters whose upper case is ASCII. -/
theorem ascii_of_map {u p : List Char} (h : u.map Char.toUpper = p)
    (hp : p.all isAscii = true) : ∀ c ∈ u, isAscii c = true := by
  intro c hc
  refine isAscii_of_toUpper (List.all_eq_true.mp hp _ ?_)
  rw [← h]
  exact List.mem_map.mpr ⟨c, hc, rfl⟩

/-- The test for ORDER. -/
def upperOrder (tx : TextFns) (v : List Char) : Prop :=
  "ORDER ".toList <+: tx.upper (v.take 9) ∨ "ORDER\t".toList <+: tx.upper (v.take 9) ∨
    "ORDER\n".toList <+: tx.upper (v.take 9)

theorem orderWord_of_upper (h : tx.Lawful) {v : List Char} (hv : upperOrder tx v) :
    ∃ after, OrderWord v after := by
  obtain ⟨x, hx, hpre⟩ : ∃ x, (x = ' ' ∨ x = '\t' ∨ x = '\n') ∧
      "ORDER".toList ++ [x] <+: tx.upper (v.take 9) := by
    rcases hv with hv | hv | hv
    · exact ⟨' ', Or.inl rfl, hv⟩
    · exact ⟨'\t', Or.inr (Or.inl rfl), hv⟩
    · exact ⟨'\n', Or.inr (Or.inr rfl), hv⟩
  have hplain : isPlain TextFns.upperSpecials ("ORDER".toList ++ [x]) = true := by
    rcases hx with rfl | rfl | rfl <;> rfl
  obtain ⟨w, t, htake, hmap, -⟩ := h.upper_starts hplain hpre
  obtain ⟨u, l, rfl, hu, hl⟩ := List.map_eq_append_iff.mp hmap
  obtain ⟨y, hy⟩ := List.length_eq_one_iff.mp (by
    rw [← List.length_map (f := Char.toUpper), hl]; rfl : l.length = 1)
  rw [hy] at hl htake
  have hyx : y = x := toUpper_eq_white hx (List.cons.inj hl).1
  refine ⟨_, u, x, t ++ v.drop 9, ?_, hu, hx, rfl⟩
  have hdrop := (List.take_append_drop 9 v).symm
  rw [htake, hyx, List.append_assoc, List.append_assoc] at hdrop
  exact hdrop

theorem upper_of_orderWord (h : tx.Lawful) {v after : List Char} (hv : OrderWord v after) :
    upperOrder tx v := by
  obtain ⟨u, x, rest, rfl, hu, hx, -⟩ := hv
  have hascii := ascii_of_map hu rfl
  have hlen : u.length = 5 := by rw [← List.length_map (f := Char.toUpper), hu]; rfl
  have htake : (u ++ x :: rest).take 9 = u ++ x :: rest.take 3 := by
    rw [List.take_append, hlen, List.take_of_length_le (by omega)]
    rfl
  have hupper : tx.upper ((u ++ x :: rest).take 9) =
      "ORDER".toList ++ ([x] ++ tx.upper (rest.take 3)) := by
    have hxa : isAscii x = true ∧ x.toUpper = x := by rcases hx with rfl | rfl | rfl <;> decide
    rw [htake, upper_append, upper_of_ascii h hascii, hu, h.upper_cons hxa.1, hxa.2]
    rfl
  rw [upperOrder, hupper]
  rcases hx with rfl | rfl | rfl
  · exact Or.inl ⟨_, rfl⟩
  · exact Or.inr (Or.inl ⟨_, rfl⟩)
  · exact Or.inr (Or.inr ⟨_, rfl⟩)

/-- The test for BY: with a Y, or with a Y that has a ring. -/
theorem upperBy_iff (h : tx.Lawful) {after : List Char} :
    "BY".toList <+: tx.upper (after.take 3) ↔
      ∃ b y rest, after = b :: y :: rest ∧ b.toUpper = 'B' ∧ (y.toUpper = 'Y' ∨ y = 'ẙ') := by
  constructor
  · rintro ⟨t, ht⟩
    have hby : tx.upper (after.take 3) = 'B' :: 'Y' :: t := ht.symm
    obtain ⟨b, s, w, hs, hb, hrest⟩ := flatMap_eq_cons h.upper_ne_nil hby
    have hbascii : isAscii b = true := by
      by_contra hn
      have hmem := h.upper_mem (Bool.eq_false_iff.mpr hn)
        (hb ▸ List.mem_cons_self : 'B' ∈ tx.upperChar b) rfl
      rw [hb] at hmem
      simp [TextFns.upperSpecials] at hmem
    rw [h.upper_ascii b hbascii] at hb
    obtain ⟨hbupper, rfl⟩ := List.cons.inj hb
    obtain ⟨y, s', w', rfl, hy, -⟩ := flatMap_eq_cons h.upper_ne_nil hrest
    refine ⟨b, y, s' ++ after.drop 3, ?_, hbupper, ?_⟩
    · have hafter := (List.take_append_drop 3 after).symm
      rw [hs] at hafter
      exact hafter
    · cases hyascii : isAscii y with
      | true =>
          rw [h.upper_ascii y hyascii] at hy
          exact Or.inl (List.cons.inj hy).1
      | false =>
          have hmem := h.upper_mem hyascii (hy ▸ List.mem_cons_self : 'Y' ∈ tx.upperChar y) rfl
          rw [hy] at hmem
          simp only [TextFns.upperSpecials, List.mem_cons, Prod.mk.injEq, List.cons.injEq,
            List.not_mem_nil, or_false] at hmem
          have hring : y = 'ẙ' ∧ w' = ['\u030a'] := by simpa using hmem
          exact Or.inr hring.1
  · rintro ⟨b, y, rest, rfl, hb, hy⟩
    have hbascii : isAscii b = true := isAscii_of_toUpper (hb ▸ rfl)
    rw [show (b :: y :: rest).take 3 = b :: y :: rest.take 1 from rfl, h.upper_cons hbascii, hb]
    rcases hy with hy | rfl
    · rw [h.upper_cons (isAscii_of_toUpper (hy ▸ rfl)), hy]
      exact ⟨_, rfl⟩
    · have hring : tx.upperChar 'ẙ' = ['Y', '\u030a'] :=
        h.upper_special ('ẙ', ['Y', '\u030a']) (by simp [TextFns.upperSpecials])
      rw [TextFns.upper, List.flatMap_cons, hring]
      exact ⟨_, rfl⟩

/-- The slice behind ORDER. -/
theorem sliceFrom_order {v after : List Char} (hv : OrderWord v after) :
    (sliceFrom v 5).map (trimStart isWhite) = some after := by
  obtain ⟨u, x, rest, rfl, hu, hx, rfl⟩ := hv
  have hsize : size u = 5 := by
    rw [size_of_isAscii (ascii_of_map hu rfl), ← List.length_map (f := Char.toUpper), hu]
    rfl
  have hwhite : ∀ c ∈ [x], isWhite c = true := by
    rintro c hc
    rw [List.mem_singleton.mp hc]
    rcases hx with rfl | rfl | rfl <;> decide
  rw [← hsize, sliceFrom_size, Option.map_some]
  exact congrArg some (trimStart_append (s := rest) hwhite)

/-- `ẙ` has three bytes. -/
theorem sliceFrom_ring {b : Char} {rest : List Char} (hb : isAscii b = true) :
    sliceFrom (b :: 'ẙ' :: rest) 2 = none := by
  rw [sliceFrom, utf8Size_of_isAscii hb]
  rfl

theorem sliceFrom_by {b y : Char} {rest : List Char} (hb : isAscii b = true)
    (hy : isAscii y = true) : sliceFrom (b :: y :: rest) 2 = some rest := by
  have hsize : size [b, y] = 2 := by
    rw [size_cons, size_cons, size_nil, utf8Size_of_isAscii hb, utf8Size_of_isAscii hy]
  rw [← hsize]
  exact sliceFrom_size [b, y] rest

theorem isOrderBy_of_not (hv : ¬ upperOrder tx v) : isOrderBy tx v = .ok false := by
  rw [isOrderBy]
  exact if_neg hv

theorem isOrderBy_of_word {v after : List Char} (hup : upperOrder tx v)
    (hv : OrderWord v after) : isOrderBy tx v =
      if "BY".toList <+: tx.upper (after.take 3) then
        orPanic (sliceFrom after 2) >>= fun r => .ok (r.head?.any isWhite)
      else .ok false := by
  obtain ⟨t, ht, htrim⟩ := Option.map_eq_some_iff.mp (sliceFrom_order hv)
  rw [isOrderBy]
  dsimp only
  rw [if_pos (show "ORDER ".toList <+: _ ∨ _ from hup), ht]
  change (if "BY".toList <+: tx.upper ((trimStart isWhite t).take 3) then _ else _) = _
  rw [htrim]
  rfl

/-- The test for ORDER BY. -/
theorem isOrderBy_cases (h : tx.Lawful) (v : List Char) :
    (AtOrderRing v ∧ isOrderBy tx v = .error .panic) ∨
    (¬ AtOrderRing v ∧ AtOrderBy v ∧ isOrderBy tx v = .ok true) ∨
    (¬ AtOrderRing v ∧ ¬ AtOrderBy v ∧ isOrderBy tx v = .ok false) := by
  by_cases hup : upperOrder tx v
  · obtain ⟨after, hv⟩ := orderWord_of_upper h hup
    rw [isOrderBy_of_word hup hv]
    by_cases hby : "BY".toList <+: tx.upper (after.take 3)
    · rw [if_pos hby]
      obtain ⟨b, y, rest, rfl, hb, hy⟩ := (upperBy_iff h).mp hby
      have hbascii : isAscii b = true := isAscii_of_toUpper (hb ▸ rfl)
      rcases hy with hy | rfl
      · rw [sliceFrom_by hbascii (isAscii_of_toUpper (hy ▸ rfl))]
        have hring : ¬ AtOrderRing v := by
          rintro ⟨b', rest', hv', -⟩
          have heq := hv.unique hv'
          have hyy : y = 'ẙ' := (List.cons.inj (List.cons.inj heq).2).1
          rw [hyy] at hy
          exact absurd hy (by decide)
        cases hwhite : rest.head?.any isWhite with
        | true =>
            cases rest with
            | nil => cases hwhite
            | cons c rest' =>
                refine Or.inr (Or.inl ⟨hring, ⟨b, y, c, rest', hv, hb, hy, hwhite⟩, ?_⟩)
                change Except.ok ((c :: rest').head?.any isWhite) = _
                rw [hwhite]
        | false =>
            refine Or.inr (Or.inr ⟨hring, ?_, ?_⟩)
            · rintro ⟨b', y', c, rest', hv', -, -, hc⟩
              obtain ⟨-, heq⟩ := List.cons.inj (hv.unique hv')
              obtain ⟨-, rfl⟩ := List.cons.inj heq
              rw [List.head?_cons, Option.any_some, hc] at hwhite
              cases hwhite
            · change Except.ok (rest.head?.any isWhite) = _
              rw [hwhite]
      · rw [sliceFrom_ring hbascii]
        exact Or.inl ⟨⟨b, rest, hv, hb⟩, rfl⟩
    · rw [if_neg hby]
      refine Or.inr (Or.inr ⟨?_, ?_, rfl⟩)
      · rintro ⟨b, rest, hv', hb⟩
        rw [hv.unique hv'] at hby
        exact hby ((upperBy_iff h).mpr ⟨b, _, rest, rfl, hb, Or.inr rfl⟩)
      · rintro ⟨b, y, c, rest, hv', hb, hy, -⟩
        rw [hv.unique hv'] at hby
        exact hby ((upperBy_iff h).mpr ⟨b, y, _, rfl, hb, Or.inl hy⟩)
  · refine Or.inr (Or.inr ⟨?_, ?_, isOrderBy_of_not hup⟩)
    · rintro ⟨b, rest, hv, -⟩
      exact hup (upper_of_orderWord h hv)
    · rintro ⟨b, y, c, rest, hv, -⟩
      exact hup (upper_of_orderWord h hv)

/-! ## The scan by letters -/

/-- The quote the scan is in, and whether the letter before is ASCII white space. -/
structure OrderState where
  quote : Option Char
  white : Bool

namespace OrderState

/-- At the start of the text. -/
def start : OrderState := ⟨none, true⟩

/-- Behind one more letter. -/
def step (st : OrderState) (c : Char) : OrderState where
  quote :=
    match st.quote with
    | some q => if c = q then none else some q
    | none => if c = '\'' ∨ c = '"' then some c else none
  white := decide (c ∈ [' ', '\t', '\n', '\x0c', '\x0d'])

/-- A place where ORDER BY is looked for. -/
def Open (st : OrderState) : Prop := st.quote = none ∧ st.white = true

/-- Quotes are single or double. -/
def Proper (st : OrderState) : Prop :=
  st.quote = none ∨ st.quote = some '\'' ∨ st.quote = some '"'

theorem Proper.step {st : OrderState} (h : st.Proper) (c : Char) : (st.step c).Proper := by
  rw [OrderState.step, Proper]
  dsimp only
  rcases h with h | h | h
  · rw [h]
    dsimp only
    split
    · rename_i hc
      exact Or.inr (hc.imp (congrArg some) (congrArg some))
    · exact Or.inl rfl
  · rw [h]
    dsimp only
    split
    · exact Or.inl rfl
    · exact Or.inr (Or.inl rfl)
  · rw [h]
    dsimp only
    split
    · exact Or.inl rfl
    · exact Or.inr (Or.inr rfl)

instance decidableOpen (st : OrderState) : Decidable st.Open := inferInstanceAs (Decidable (_ ∧ _))

end OrderState

/-- The scan of `find_order_by` over the letters behind byte `i`. -/
def orderChars (tx : TextFns) : Nat → OrderState → List Char → Except Fault (Option Nat)
  | _, _, [] => .ok none
  | i, st, c :: rest =>
      if st.Open ∧ (c = 'O' ∨ c = 'o') ∧ 8 ≤ size (c :: rest) then do
        if ← isOrderBy tx (c :: rest) then return some i
        orderChars tx (i + c.utf8Size) (st.step c) rest
      else orderChars tx (i + c.utf8Size) (st.step c) rest

theorem isAsciiWhite_iff {c : Char} (h : isAscii c = true) :
    isAsciiWhite (asciiByte c) = decide (c ∈ [' ', '\t', '\n', '\x0c', '\x0d']) := by
  have hbytes : ([0x20, 0x09, 0x0a, 0x0c, 0x0d] : List UInt8) =
      [asciiByte ' ', asciiByte '\t', asciiByte '\n', asciiByte '\x0c', asciiByte '\x0d'] := rfl
  rw [isAsciiWhite, hbytes]
  refine decide_eq_decide.mpr ?_
  simp only [List.mem_cons, List.not_mem_nil, or_false]
  rw [asciiByte_inj h rfl, asciiByte_inj h rfl, asciiByte_inj h rfl, asciiByte_inj h rfl,
    asciiByte_inj h rfl]

/-- No byte of a letter beyond ASCII means anything to the scan. -/
theorem orderLoop_high {s : List Char} {quote : Option UInt8} (hq : ∀ q ∈ quote, q.toNat < 128)
    (bs more : List UInt8) (hhigh : ∀ b ∈ bs, 128 ≤ b.toNat) (hne : bs ≠ []) (i : Nat)
    (before : Option UInt8) : ∃ b, 128 ≤ b.toNat ∧ orderLoop tx s i before quote (bs ++ more) =
      orderLoop tx s (i + bs.length) (some b) quote more := by
  have hone : ∀ (b : UInt8) i before more, 128 ≤ b.toNat →
      orderLoop tx s i before quote (b :: more) = orderLoop tx s (i + 1) (some b) quote more := by
    intro b i before more hb
    have hne : ∀ n : UInt8, n.toNat < 128 → b ≠ n := by
      rintro n hn rfl
      omega
    cases quote with
    | some q => rw [orderLoop, if_neg (hne q (hq q rfl))]
    | none =>
        rw [orderLoop, if_neg (not_or.mpr ⟨hne _ (by decide), hne _ (by decide)⟩),
          if_neg fun hc => (not_or.mpr ⟨hne _ (by decide), hne _ (by decide)⟩) hc.1]
  induction bs generalizing i before with
  | nil => exact absurd rfl hne
  | cons b bs ih =>
      have hb := hhigh b List.mem_cons_self
      rw [List.cons_append, hone b i before _ hb]
      cases bs with
      | nil => exact ⟨b, hb, rfl⟩
      | cons b' bs =>
          obtain ⟨d, hd, heq⟩ := ih (fun x hx => hhigh x (List.mem_cons_of_mem _ hx))
            (List.cons_ne_nil _ _) (i + 1) (some b)
          refine ⟨d, hd, ?_⟩
          rw [heq, List.length_cons (a := b), Nat.add_assoc, Nat.add_comm 1]

/-- The byte of an ASCII letter. -/
theorem orderLoop_ascii {s rest : List Char} {c : Char} {i : Nat} {before : Option UInt8}
    {st : OrderState} {bytes : List UInt8} (hascii : isAscii c = true)
    (hslice : sliceFrom s i = some (c :: rest)) (hwhite : before.all isAsciiWhite = st.white)
    (hproper : st.Proper)
    (ih : orderLoop tx s (i + 1) (some (asciiByte c)) ((st.step c).quote.map asciiByte) bytes =
      orderChars tx (i + 1) (st.step c) rest) :
    orderLoop tx s i before (st.quote.map asciiByte) ([UInt8.ofNat c.toNat] ++ bytes) =
      orderChars tx i st (c :: rest) := by
  change orderLoop tx s i before (st.quote.map asciiByte) (asciiByte c :: bytes) = _
  rw [orderChars, utf8Size_of_isAscii hascii]
  cases hquote : st.quote with
  | some q =>
      have hq : isAscii q = true := by
        rcases hproper with h | h | h <;> rw [hquote] at h <;> cases h <;> rfl
      have hstep : (st.step c).quote.map asciiByte =
          if asciiByte c = asciiByte q then none else some (asciiByte q) := by
        rw [OrderState.step, hquote]
        dsimp only
        by_cases hc : c = q
        · rw [if_pos hc, if_pos (congrArg asciiByte hc)]
          rfl
        · rw [if_neg hc, if_neg (fun h => hc ((asciiByte_inj hascii hq).mp h))]
          rfl
      rw [Option.map_some, orderLoop, ← hstep, ih, if_neg]
      rintro ⟨⟨hnone, -⟩, -⟩
      rw [hquote] at hnone
      cases hnone
  | none =>
      have hmarks : (asciiByte c = 0x27 ∨ asciiByte c = 0x22) ↔ (c = '\'' ∨ c = '"') :=
        or_congr (asciiByte_inj hascii (d := '\'') rfl) (asciiByte_inj hascii (d := '"') rfl)
      have hletters : (asciiByte c = 0x4f ∨ asciiByte c = 0x6f) ↔ (c = 'O' ∨ c = 'o') :=
        or_congr (asciiByte_inj hascii (d := 'O') rfl) (asciiByte_inj hascii (d := 'o') rfl)
      have hstep : (st.step c).quote.map asciiByte =
          if c = '\'' ∨ c = '"' then some (asciiByte c) else none := by
        rw [OrderState.step, hquote]
        dsimp only
        split <;> rfl
      rw [hstep] at ih
      rw [Option.map_none, orderLoop]
      by_cases hmark : c = '\'' ∨ c = '"'
      · rw [if_pos hmark] at ih
        rw [if_pos (hmarks.mpr hmark), ih, if_neg]
        rintro ⟨-, ho, -⟩
        rcases hmark with rfl | rfl <;> rcases ho with ho | ho <;> exact absurd ho (by decide)
      · rw [if_neg hmark] at ih
        rw [if_neg fun h => hmark (hmarks.mp h)]
        by_cases ho : (c = 'O' ∨ c = 'o') ∧ st.white = true
        · rw [if_pos ⟨hletters.mpr ho.1, hwhite.trans ho.2⟩, hslice]
          change (if 8 ≤ size (c :: rest) then _ else _) = _
          by_cases hlarge : 8 ≤ size (c :: rest)
          · rw [if_pos hlarge, if_pos ⟨⟨hquote, ho.2⟩, ho.1, hlarge⟩]
            cases isOrderBy tx (c :: rest) with
            | error e => rfl
            | ok found =>
                cases found with
                | true => rfl
                | false => exact ih
          · rw [if_neg hlarge, if_neg fun h => hlarge h.2.2]
            exact ih
        · rw [if_neg fun h => ho ⟨hletters.mp h.1, hwhite ▸ h.2⟩, if_neg fun h => ho ⟨h.2.1, h.1.2⟩, ih]

/-- The scan over the bytes is the scan over the letters. -/
theorem orderLoop_eq (rest : List Char) : ∀ (s done : List Char) (before : Option UInt8)
    (st : OrderState), s = done ++ rest → before.all isAsciiWhite = st.white → st.Proper →
      orderLoop tx s (size done) before (st.quote.map asciiByte)
        (rest.flatMap String.utf8EncodeChar) = orderChars tx (size done) st rest := by
  induction rest with
  | nil =>
      intro s done before st hs hwhite hproper
      rfl
  | cons c rest ih =>
      intro s done before st hs hwhite hproper
      have hnext : s = (done ++ [c]) ++ rest := by rw [hs, List.append_assoc]; rfl
      have hsize : size done + c.utf8Size = size (done ++ [c]) := by
        rw [size_append, size_cons, size_nil, Nat.add_zero]
      have hslice : sliceFrom s (size done) = some (c :: rest) := by
        rw [hs]
        exact sliceFrom_size _ _
      rw [List.flatMap_cons]
      cases hascii : isAscii c with
      | true =>
          have hwhite' : (some (asciiByte c)).all isAsciiWhite = (st.step c).white :=
            isAsciiWhite_iff hascii
          have hih := ih s (done ++ [c]) (some (asciiByte c)) (st.step c) hnext hwhite'
            (hproper.step c)
          rw [← hsize, utf8Size_of_isAscii hascii] at hih
          rw [utf8EncodeChar_ascii hascii]
          exact orderLoop_ascii hascii hslice hwhite hproper hih
      | false =>
          have hne : String.utf8EncodeChar c ≠ [] := String.utf8EncodeChar_ne_nil
          have hquote : ∀ q ∈ st.quote.map asciiByte, q.toNat < 128 := by
            rcases hproper with hq | hq | hq <;> rw [hq] <;> simp [asciiByte]
          obtain ⟨b, hb, heq⟩ := @orderLoop_high tx s _ hquote (String.utf8EncodeChar c)
            (rest.flatMap String.utf8EncodeChar) (utf8EncodeChar_high hascii) hne (size done) before
          have hother : ∀ d, isAscii d = true → c ≠ d := by
            rintro d hd rfl
            rw [hascii] at hd
            cases hd
          have hstep : st.step c = ⟨st.quote, false⟩ := by
            rw [OrderState.step]
            congr 1
            · rcases hproper with hq | hq | hq
              · rw [hq]
                exact if_neg (not_or.mpr ⟨hother _ rfl, hother _ rfl⟩)
              · rw [hq]
                exact if_neg (hother _ rfl)
              · rw [hq]
                exact if_neg (hother _ rfl)
            · refine decide_eq_false fun hmem => ?_
              simp only [List.mem_cons, List.not_mem_nil, or_false] at hmem
              rcases hmem with h | h | h | h | h
              all_goals exact hother _ rfl h
          have hbwhite : (some b).all isAsciiWhite = (st.step c).white := by
            rw [hstep, Option.all_some, isAsciiWhite]
            refine decide_eq_false fun hmem => ?_
            simp only [List.mem_cons, List.not_mem_nil, or_false] at hmem
            rcases hmem with rfl | rfl | rfl | rfl | rfl
            all_goals exact absurd hb (by decide)
          have hih := ih s (done ++ [c]) (some b) (st.step c) hnext hbwhite (hproper.step c)
          rw [heq, String.length_utf8EncodeChar, hsize, orderChars, if_neg, hsize, ← hih, hstep]
          rintro ⟨-, ho, -⟩
          exact ho.elim (hother _ rfl) (hother _ rfl)

/-! ## Where the scan stops -/

/-- The state behind a text. -/
def OrderState.behind (st : OrderState) (u : List Char) : OrderState := u.foldl OrderState.step st

/-- The scan from `st` meets ORDER BY with a ring, and no ORDER BY before it. -/
def MeetsRing (st : OrderState) (s : List Char) : Prop :=
  ∃ u v, s = u ++ v ∧ (st.behind u).Open ∧ AtOrderRing v ∧
    ∀ u' v', s = u' ++ v' → u'.length < u.length → (st.behind u').Open → ¬ AtOrderBy v'

theorem OrderWord.head {c : Char} {rest after : List Char} (h : OrderWord (c :: rest) after) :
    (c = 'O' ∨ c = 'o') ∧ 6 + size after ≤ size (c :: rest) := by
  obtain ⟨u, x, t, heq, hu, hx, rfl⟩ := h
  have hascii := ascii_of_map hu rfl
  have hsize : size u = 5 := by
    rw [size_of_isAscii hascii, ← List.length_map (f := Char.toUpper), hu]
    rfl
  have hxone : x.utf8Size = 1 := by rcases hx with rfl | rfl | rfl <;> rfl
  constructor
  · cases u with
    | nil => cases hu
    | cons d u =>
        obtain ⟨rfl, -⟩ := List.cons.inj heq
        have hup : c.toUpper = 'O' := (List.cons.inj hu).1
        rw [Char.toUpper] at hup
        split at hup
        · rename_i hlow
          right
          have hval := congrArg (fun d : Char => d.val.toNat) hup
          have hge := UInt32.le_iff_toNat_le.mp hlow.1
          have hle := UInt32.le_iff_toNat_le.mp hlow.2
          have h1 : ('A'.val - 'a'.val : UInt32).toNat = 4294967264 := by decide
          have h2 : 'a'.val.toNat = 97 := by decide
          have h3 : 'z'.val.toNat = 122 := by decide
          have h4 : 'O'.val.toNat = 79 := by decide
          simp only [UInt32.toNat_add] at hval
          rw [h1, h4] at hval
          rw [h2] at hge
          rw [h3] at hle
          exact Char.toNat_inj.mp (show c.val.toNat = 111 by omega)
        · exact Or.inl hup
  · rw [heq, size_append, size_cons, hsize, hxone]
    have hdrop : size (trimStart isWhite t) ≤ size t := by
      have hsplit := congrArg size (List.takeWhile_append_dropWhile (p := isWhite) (l := t))
      rw [size_append] at hsplit
      rw [trimStart]
      omega
    omega

/-- An ORDER BY, with a ring or not, passes the tests before the slice. -/
theorem AtOrderRing.passes {c : Char} {rest : List Char} (h : AtOrderRing (c :: rest)) :
    (c = 'O' ∨ c = 'o') ∧ 8 ≤ size (c :: rest) := by
  obtain ⟨b, t, hword, -⟩ := h
  obtain ⟨ho, hsize⟩ := hword.head
  have hb := b.utf8Size_pos
  have hy : ('ẙ' : Char).utf8Size = 3 := rfl
  rw [size_cons (c := b), size_cons, hy] at hsize
  exact ⟨ho, by omega⟩

theorem AtOrderBy.passes {c : Char} {rest : List Char} (h : AtOrderBy (c :: rest)) :
    (c = 'O' ∨ c = 'o') ∧ 8 ≤ size (c :: rest) := by
  obtain ⟨b, y, d, t, hword, -⟩ := h
  obtain ⟨ho, hsize⟩ := hword.head
  have hb := b.utf8Size_pos
  have hy := y.utf8Size_pos
  rw [size_cons (c := b), size_cons (c := y)] at hsize
  exact ⟨ho, by omega⟩

theorem not_meetsRing_nil {st : OrderState} : ¬ MeetsRing st [] := by
  rintro ⟨u, v, heq, -, ⟨b, t, ⟨w, x, r, hv, -⟩, -⟩, -⟩
  obtain ⟨-, rfl⟩ := List.append_eq_nil_iff.mp heq.symm
  exact List.append_ne_nil_of_right_ne_nil w (List.cons_ne_nil _ _) hv.symm

theorem meetsRing_cons {st : OrderState} {c : Char} {rest : List Char} :
    MeetsRing st (c :: rest) ↔ (st.Open ∧ AtOrderRing (c :: rest)) ∨
      (¬ (st.Open ∧ AtOrderBy (c :: rest)) ∧ MeetsRing (st.step c) rest) := by
  constructor
  · rintro ⟨u, v, heq, hopen, hring, hfirst⟩
    cases u with
    | nil =>
        obtain rfl : c :: rest = v := heq
        exact Or.inl ⟨hopen, hring⟩
    | cons d u =>
        obtain ⟨rfl, rfl⟩ := List.cons.inj heq
        refine Or.inr ⟨?_, u, v, rfl, hopen, hring, ?_⟩
        · rintro ⟨hst, hby⟩
          exact hfirst [] _ rfl (Nat.succ_pos _) hst hby
        · rintro u' v' heq' hlt hst
          exact hfirst (c :: u') v' (congrArg (c :: ·) heq') (Nat.succ_lt_succ hlt) hst
  · rintro (⟨hopen, hring⟩ | ⟨hnot, u, v, rfl, hopen, hring, hfirst⟩)
    · exact ⟨[], c :: rest, rfl, hopen, hring, fun u' _ _ hlt => absurd hlt (Nat.not_lt_zero _)⟩
    · refine ⟨c :: u, v, rfl, hopen, hring, ?_⟩
      rintro u' v' heq hlt hst hby
      cases u' with
      | nil =>
          obtain rfl : c :: (u ++ v) = v' := heq
          exact hnot ⟨hst, hby⟩
      | cons d u' =>
          obtain ⟨rfl, htail⟩ := List.cons.inj heq
          exact hfirst u' v' htail (Nat.lt_of_succ_lt_succ hlt) hst hby

/-- The scan panics if it meets ORDER BY with a ring. -/
theorem orderChars_panics (h : tx.Lawful) (s : List Char) : ∀ (i : Nat) (st : OrderState),
    orderChars tx i st s = .error .panic ↔ MeetsRing st s := by
  induction s with
  | nil =>
      intro i st
      simp [orderChars, not_meetsRing_nil]
  | cons c rest ih =>
      intro i st
      rw [orderChars, meetsRing_cons]
      split
      · rename_i hc
        rcases isOrderBy_cases h (c :: rest) with ⟨hring, hp⟩ | ⟨hring, hby, hp⟩ |
          ⟨hring, hby, hp⟩
        · rw [hp]
          exact iff_of_true rfl (Or.inl ⟨hc.1, hring⟩)
        · rw [hp]
          refine iff_of_false (fun hpanic => by cases hpanic) ?_
          rintro (⟨-, hr⟩ | ⟨hno, -⟩)
          · exact hring hr
          · exact hno ⟨hc.1, hby⟩
        · rw [hp]
          change orderChars tx _ _ _ = _ ↔ _
          rw [ih]
          exact ⟨fun hr => Or.inr ⟨fun hb => hby hb.2, hr⟩,
            fun hr => hr.elim (fun hr => absurd hr.2 hring) And.right⟩
      · rename_i hc
        rw [ih]
        refine ⟨fun hr => Or.inr ⟨fun hb => hc ⟨hb.1, hb.2.passes⟩, hr⟩, ?_⟩
        rintro (hr | hr)
        · exact absurd ⟨hr.1, hr.2.passes⟩ hc
        · exact hr.2

/-- Where the scan finds ORDER BY. -/
theorem orderChars_some (h : tx.Lawful) (s : List Char) : ∀ (i j : Nat) (st : OrderState),
    orderChars tx i st s = .ok (some j) → ∃ u v, s = u ++ v ∧ j = i + size u ∧ AtOrderBy v := by
  induction s with
  | nil =>
      intro i j st hj
      cases hj
  | cons c rest ih =>
      intro i j st hj
      have hnext : orderChars tx (i + c.utf8Size) (st.step c) rest = .ok (some j) →
          ∃ u v, c :: rest = u ++ v ∧ j = i + size u ∧ AtOrderBy v := by
        intro hj
        obtain ⟨u, v, rfl, rfl, hv⟩ := ih _ _ _ hj
        exact ⟨c :: u, v, rfl, by rw [size_cons, Nat.add_assoc], hv⟩
      rw [orderChars] at hj
      split at hj
      · rcases isOrderBy_cases h (c :: rest) with ⟨-, hp⟩ | ⟨-, hby, hp⟩ | ⟨-, -, hp⟩
        · rw [hp] at hj
          cases hj
        · rw [hp] at hj
          obtain rfl := Option.some.inj (Except.ok.inj hj)
          exact ⟨[], c :: rest, rfl, rfl, hby⟩
        · rw [hp] at hj
          exact hnext hj
      · exact hnext hj

theorem findOrderBy_eq (s : List Char) :
    findOrderBy tx s = orderChars tx 0 OrderState.start s :=
  orderLoop_eq s s [] none OrderState.start rfl rfl (Or.inl rfl)

theorem findOrderBy_panics (h : tx.Lawful) (s : List Char) :
    findOrderBy tx s = .error .panic ↔ MeetsRing OrderState.start s := by
  rw [findOrderBy_eq]
  exact orderChars_panics h s 0 _

theorem findOrderBy_some (h : tx.Lawful) {s : List Char} {j : Nat}
    (hj : findOrderBy tx s = .ok (some j)) : ∃ u v, s = u ++ v ∧ j = size u ∧ AtOrderBy v := by
  rw [findOrderBy_eq] at hj
  obtain ⟨u, v, hs, rfl, hv⟩ := orderChars_some h s 0 j _ hj
  exact ⟨u, v, hs, Nat.zero_add _, hv⟩

end Parser

end VelociDB
