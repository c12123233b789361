/-
# The pieces of a WHERE clause (`parser.rs`)

`split_on_and` reads a clause letter by letter.  `pieces` is what lies between the ANDs
outside quotes; `split_on_and` drops the last piece if it is blank (`splitOnAnd_eq`).

    quoteAfter q s      the quote the scan is in behind `s`, if it was in `q` before
    pieceLoop_through   no AND outside quotes starts in a text: it is kept whole
    pieceLoop_append    more text changes the last piece or adds pieces
-/
import VelociDB.Parser

namespace VelociDB

open Text

namespace Parser

/-- The loop of `split_on_and`, with the last piece always kept. -/
def pieceLoop : Nat → List Char → Option Char → List Char → List (List Char)
  | _, current, _, [] => [current]
  | skip + 1, current, quote, _ :: rest => pieceLoop skip current quote rest
  | 0, current, some q, c :: rest =>
      pieceLoop 0 (current ++ [c]) (if c = q then none else some q) rest
  | 0, current, none, c :: rest =>
      if c = '\'' ∨ c = '"' then pieceLoop 0 (current ++ [c]) (some c) rest
      else if isAnd (c :: rest) then current :: pieceLoop 4 [] none rest
      else pieceLoop 0 (current ++ [c]) none rest

/-- The pieces of a clause between its ANDs outside quotes. -/
def pieces (clause : List Char) : List (List Char) := pieceLoop 0 [] none clause

/-- The quote behind a letter. -/
def quoteStep : Option Char → Char → Option Char
  | some q, c => if c = q then none else some q
  | none, c => if c = '\'' ∨ c = '"' then some c else none

/-- The quote behind a text. -/
def quoteAfter (quote : Option Char) (s : List Char) : Option Char := s.foldl quoteStep quote

variable {skip : Nat} {current s more : List Char} {quote : Option Char}

@[simp] theorem quoteAfter_nil (quote : Option Char) : quoteAfter quote [] = quote := rfl

@[simp] theorem quoteAfter_cons (quote : Option Char) (c : Char) (s : List Char) :
    quoteAfter quote (c :: s) = quoteAfter (quoteStep quote c) s := rfl

@[simp] theorem quoteAfter_append (quote : Option Char) (u v : List Char) :
    quoteAfter quote (u ++ v) = quoteAfter (quoteAfter quote u) v := List.foldl_append

/-! ## The last piece -/

theorem pieceLoop_concat (skip : Nat) (current : List Char) (quote : Option Char) (s : List Char) :
    ∃ ps p, pieceLoop skip current quote s = ps ++ [p] ∧
      splitLoop skip current quote s = if trim isWhite p = [] then ps else ps ++ [p] := by
  fun_induction pieceLoop skip current quote s with
  | case1 skip current quote =>
      refine ⟨[], current, rfl, ?_⟩
      cases skip <;> rfl
  | case2 skip current quote c rest ih => exact ih
  | case3 current q c rest ih => exact ih
  | case4 current c rest hquote ih =>
      obtain ⟨ps, p, hps, hsplit⟩ := ih
      exact ⟨ps, p, hps, by rw [splitLoop, if_pos hquote, hsplit]⟩
  | case5 current c rest hquote hand ih =>
      obtain ⟨ps, p, hps, hsplit⟩ := ih
      refine ⟨current :: ps, p, by rw [hps]; rfl, ?_⟩
      rw [splitLoop, if_neg hquote, if_pos hand, hsplit]
      split <;> rfl
  | case6 current c rest hquote hand ih =>
      obtain ⟨ps, p, hps, hsplit⟩ := ih
      exact ⟨ps, p, hps, by rw [splitLoop, if_neg hquote, if_neg hand, hsplit]⟩

/-- `split_on_and` drops a blank last piece. -/
theorem splitOnAnd_eq (clause : List Char) : ∃ ps p, pieces clause = ps ++ [p] ∧
    splitOnAnd clause = if trim isWhite p = [] then ps else ps ++ [p] :=
  pieceLoop_concat 0 [] none clause

/-! ## Where an AND starts -/

theorem length_of_isAnd {v : List Char} (h : isAnd v = true) : 5 ≤ v.length := by
  unfold isAnd at h
  split at h
  · simp
  · cases h

/-- An AND is five letters. -/
theorem isAnd_append {v : List Char} (h : 5 ≤ v.length) : isAnd (v ++ more) = isAnd v := by
  rcases v with _ | ⟨a, _ | ⟨b, _ | ⟨c, _ | ⟨d, _ | ⟨e, rest⟩⟩⟩⟩⟩
  all_goals first
    | rfl
    | exact absurd h (by simp)

/-! ## A text that is kept whole -/

/-- A text in which no AND outside quotes starts. -/
theorem pieceLoop_through (h : ∀ u v, s = u ++ v → v ≠ [] → isAnd (v ++ more) = true →
      quoteAfter quote u ≠ none) :
    pieceLoop 0 current quote (s ++ more) =
      pieceLoop 0 (current ++ s) (quoteAfter quote s) more := by
  induction s generalizing current quote with
  | nil => rw [List.append_nil, List.nil_append, quoteAfter_nil]
  | cons c s ih =>
      have hrest : pieceLoop 0 (current ++ [c]) (quoteStep quote c) (s ++ more) =
          pieceLoop 0 (current ++ c :: s) (quoteAfter quote (c :: s)) more := by
        rw [ih, List.append_assoc]
        · rfl
        · intro u v hs hv hand
          exact h (c :: u) v (by rw [hs]; rfl) hv hand
      rw [← hrest, List.cons_append]
      cases quote with
      | some q => rw [pieceLoop, quoteStep]
      | none =>
          rw [pieceLoop, quoteStep]
          split
          · rfl
          · rw [if_neg]
            intro hand
            exact h [] (c :: s) rfl (List.cons_ne_nil _ _) hand rfl

theorem pieceLoop_short (hs : s.length < 5) : pieceLoop 0 current quote s = [current ++ s] := by
  have hthrough := @pieceLoop_through current s [] quote (by
    intro u v hs' hv h
    have hlen := length_of_isAnd h
    rw [hs', List.length_append] at hs
    rw [List.append_nil] at hlen
    omega)
  rw [List.append_nil] at hthrough
  rw [hthrough]
  cases quoteAfter quote s <;> rfl

/-! ## More text -/

/-- The scan of more text, if it stays one piece. -/
theorem pieceLoop_single {p : List Char} (h : pieceLoop 0 current quote s = [p]) :
    p = current ++ s := by
  induction s generalizing current quote with
  | nil =>
      rw [pieceLoop] at h
      rw [List.append_nil]
      exact (List.cons.inj h).1.symm
  | cons c s ih =>
      have hlater : ∀ q, pieceLoop 0 (current ++ [c]) q s = [p] → p = current ++ c :: s := by
        intro q hq
        rw [ih hq, List.append_assoc]
        rfl
      cases quote with
      | some q =>
          rw [pieceLoop] at h
          exact hlater _ h
      | none =>
          rw [pieceLoop] at h
          split at h
          · exact hlater _ h
          · split at h
            · obtain ⟨ps, x, hps, -⟩ := pieceLoop_concat 4 [] none s
              rw [hps] at h
              exact absurd (List.cons.inj h).2 (List.append_ne_nil_of_right_ne_nil _ (by simp))
            · exact hlater _ h

/-- The letters of the pieces: those behind the first are of the text. -/
theorem pieceLoop_mem (skip : Nat) (current : List Char) (quote : Option Char) (s : List Char)
    {p : List Char} {ps : List (List Char)} (h : pieceLoop skip current quote s = p :: ps) :
    (∀ c ∈ p, c ∈ current ∨ c ∈ s) ∧ ∀ r ∈ ps, ∀ c ∈ r, c ∈ s := by
  have hstep : ∀ {p current s : List Char} {ps : List (List Char)} {a : Char},
      ((∀ c ∈ p, c ∈ current ++ [a] ∨ c ∈ s) ∧ ∀ r ∈ ps, ∀ c ∈ r, c ∈ s) →
        (∀ c ∈ p, c ∈ current ∨ c ∈ a :: s) ∧ ∀ r ∈ ps, ∀ c ∈ r, c ∈ a :: s := by
    rintro p current s ps a ⟨hp, hps⟩
    refine ⟨fun c hc => ?_, fun r hr c hc => List.mem_cons_of_mem _ (hps r hr c hc)⟩
    rcases hp c hc with hmem | hmem
    · rcases List.mem_append.mp hmem with hmem | hmem
      · exact Or.inl hmem
      · exact Or.inr (List.mem_singleton.mp hmem ▸ List.mem_cons_self)
    · exact Or.inr (List.mem_cons_of_mem _ hmem)
  fun_induction pieceLoop skip current quote s generalizing p ps with
  | case1 skip current quote =>
      obtain ⟨rfl, rfl⟩ := List.cons.inj h
      exact ⟨fun c hc => Or.inl hc, by simp⟩
  | case2 skip current quote a rest ih =>
      obtain ⟨hp, hps⟩ := ih h
      exact ⟨fun c hc => (hp c hc).imp_right (List.mem_cons_of_mem _),
        fun r hr c hc => List.mem_cons_of_mem _ (hps r hr c hc)⟩
  | case3 current q a rest ih => exact hstep (ih h)
  | case4 current a rest hquote ih => exact hstep (ih h)
  | case5 current a rest hquote hand ih =>
      obtain ⟨rfl, htail⟩ := List.cons.inj h
      refine ⟨fun c hc => Or.inl hc, fun r hr c hc => List.mem_cons_of_mem _ ?_⟩
      obtain ⟨q, qs, rfl⟩ := List.exists_cons_of_ne_nil (List.ne_nil_of_mem hr)
      obtain ⟨hq, hqs⟩ := ih htail
      rcases List.mem_cons.mp hr with rfl | hr
      · exact (hq c hc).resolve_left List.not_mem_nil
      · exact hqs r hr c hc
  | case6 current a rest hquote hand ih => exact hstep (ih h)

theorem pieceLoop_skip (h : s.length ≤ skip) : pieceLoop skip current quote (s ++ more) =
    pieceLoop (skip - s.length) current quote more := by
  induction s generalizing skip with
  | nil => rfl
  | cons c s ih =>
      obtain ⟨n, rfl⟩ := Nat.exists_eq_add_of_le' (Nat.le_trans (Nat.le_add_left 1 _) h)
      rw [List.cons_append, pieceLoop, ih (Nat.le_of_succ_le_succ h), List.length_cons,
        Nat.add_sub_add_right]

theorem pieceLoop_cons (skip : Nat) (current : List Char) (quote : Option Char) (s : List Char) :
    ∃ p ps, pieceLoop skip current quote s = p :: ps := by
  obtain ⟨ps, p, hps, -⟩ := pieceLoop_concat skip current quote s
  exact List.exists_cons_of_ne_nil (by rw [hps]; simp)

theorem concat_eq_singleton {ps : List (List Char)} {p x : List Char} (h : [x] = ps ++ [p]) :
    ps = [] ∧ p = x := by
  cases ps with
  | nil => exact ⟨rfl, (List.cons.inj h).1.symm⟩
  | cons y ps => exact absurd (List.cons.inj h).2.symm (by simp)

/-- More text changes the last piece or adds pieces of its own letters. -/
theorem pieceLoop_append {ps : List (List Char)} {p : List Char} (hskip : skip ≤ s.length)
    (h : pieceLoop skip current quote s = ps ++ [p]) :
    ∃ q qs, pieceLoop skip current quote (s ++ more) = ps ++ q :: qs ∧
      (qs = [] → q = p ++ more) ∧ ∀ r ∈ qs, ∀ c ∈ r, c ∈ more := by
  induction s generalizing skip current quote ps with
  | nil =>
      obtain rfl : skip = 0 := Nat.le_zero.mp hskip
      rw [pieceLoop] at h
      obtain ⟨rfl, rfl⟩ := concat_eq_singleton h
      obtain ⟨q, qs, hqs⟩ := pieceLoop_cons 0 p quote more
      refine ⟨q, qs, hqs, ?_, (pieceLoop_mem 0 p quote more hqs).2⟩
      rintro rfl
      exact pieceLoop_single hqs
  | cons c s ih =>
      cases skip with
      | succ skip =>
          rw [pieceLoop] at h
          exact ih (Nat.le_of_succ_le_succ hskip) h
      | zero =>
          cases quote with
          | some q =>
              rw [pieceLoop] at h
              exact ih (Nat.zero_le _) h
          | none =>
              rw [pieceLoop] at h
              rw [List.cons_append, pieceLoop]
              split at h
              · rename_i hquote
                rw [if_pos hquote]
                exact ih (Nat.zero_le _) h
              · rename_i hquote
                rw [if_neg hquote]
                split at h
                · rename_i hand
                  have hlen := length_of_isAnd hand
                  have hmore : isAnd (c :: (s ++ more)) = true := (isAnd_append hlen).trans hand
                  rw [if_pos hmore]
                  obtain ⟨r, rs, hrs⟩ := pieceLoop_cons 4 [] none s
                  cases ps with
                  | nil =>
                      rw [hrs] at h
                      exact absurd (List.cons.inj h).2 (List.cons_ne_nil _ _)
                  | cons x ps =>
                      obtain ⟨rfl, htail⟩ := List.cons.inj h
                      obtain ⟨q, qs, hqs, hone, hmem⟩ := ih (Nat.le_of_succ_le_succ hlen) htail
                      exact ⟨q, qs, by rw [hqs]; rfl, hone, hmem⟩
                · rename_i hand
                  by_cases hmore : isAnd (c :: (s ++ more)) = true
                  · have hshort : (c :: s).length < 5 := by
                      by_contra hlen
                      exact hand ((isAnd_append (Nat.not_lt.mp hlen)).symm.trans hmore)
                    rw [pieceLoop_short (Nat.lt_of_succ_lt hshort)] at h
                    obtain ⟨rfl, -⟩ := concat_eq_singleton h
                    obtain ⟨r, rs, hrs⟩ := pieceLoop_cons 4 [] none (s ++ more)
                    rw [if_pos hmore, hrs]
                    refine ⟨current, r :: rs, rfl, fun hnil => absurd hnil (List.cons_ne_nil _ _), ?_⟩
                    rw [pieceLoop_skip (Nat.le_of_lt_succ (Nat.lt_of_succ_lt hshort))] at hrs
                    obtain ⟨hr, hmem⟩ := pieceLoop_mem _ _ _ _ hrs
                    rintro x hx a ha
                    rcases List.mem_cons.mp hx with rfl | hx
                    · exact (hr a ha).resolve_left List.not_mem_nil
                    · exact hmem x hx a ha
                  · rw [if_neg hmore]
                    exact ih (Nat.zero_le _) h

/-- A semicolon is no part of an AND. -/
theorem isAnd_semicolon (v : List Char) : isAnd (v ++ [';']) = isAnd v := by
  rcases v with _ | ⟨a, _ | ⟨b, _ | ⟨c, _ | ⟨d, _ | ⟨e, rest⟩⟩⟩⟩⟩
  · rfl
  · rfl
  · rfl
  · rfl
  · exact Bool.and_false _
  · rfl

theorem pieceLoop_semicolon (hskip : skip ≤ s.length) {ps : List (List Char)} {p : List Char}
    (h : pieceLoop skip current quote s = ps ++ [p]) :
    pieceLoop skip current quote (s ++ [';']) = ps ++ [p ++ [';']] := by
  induction s generalizing skip current quote ps with
  | nil =>
      obtain rfl : skip = 0 := Nat.le_zero.mp hskip
      rw [pieceLoop] at h
      obtain ⟨rfl, rfl⟩ := concat_eq_singleton h
      exact pieceLoop_short (by simp)
  | cons c s ih =>
      cases skip with
      | succ skip =>
          rw [pieceLoop] at h
          exact ih (Nat.le_of_succ_le_succ hskip) h
      | zero =>
          cases quote with
          | some q =>
              rw [pieceLoop] at h
              exact ih (Nat.zero_le _) h
          | none =>
              have hand : isAnd (c :: (s ++ [';'])) = isAnd (c :: s) := isAnd_semicolon (c :: s)
              rw [pieceLoop] at h
              rw [List.cons_append, pieceLoop, hand]
              split at h
              · rename_i hquote
                rw [if_pos hquote]
                exact ih (Nat.zero_le _) h
              · rename_i hquote
                rw [if_neg hquote]
                split at h
                · rename_i hand'
                  have hlen := Nat.le_of_succ_le_succ (length_of_isAnd hand')
                  rw [if_pos hand']
                  cases ps with
                  | nil =>
                      obtain ⟨r, rs, hrs⟩ := pieceLoop_cons 4 [] none s
                      rw [hrs] at h
                      exact absurd (List.cons.inj h).2 (List.cons_ne_nil _ _)
                  | cons x ps =>
                      obtain ⟨rfl, htail⟩ := List.cons.inj h
                      rw [ih hlen htail]
                      rfl
                · rename_i hand'
                  rw [if_neg hand']
                  exact ih (Nat.zero_le _) h

end Parser

end VelociDB
