/-
# Statements in the buffer of the REPL (`main.rs`)

`split_statements` and `has_complete_statement` follow the quotes of a buffer; the parser's
`parse_values` does too, but takes a backslash in a literal for an escape, and they do not:

    'a\';b'     the parser   one literal, its text `a';b`
                the REPL     a literal, then a semicolon that ends the statement

    Quiet       no semicolon stands outside quotes, as the REPL reads them
    Closed      the last quote is closed
-/
import VelociDB.WhereRound

namespace VelociDB

open Text VelociDB.Parser

namespace Repl

/-- The loop of `split_statements`. -/
def statementsLoop : List Char → Option Char → List Char → List (List Char)
  | current, _, [] => if trim isWhite current = [] then [] else [trim isWhite current]
  | current, some quote, ch :: rest =>
      statementsLoop (current ++ [ch]) (if ch = quote then none else some quote) rest
  | current, none, ch :: rest =>
      if ch = '\'' ∨ ch = '"' then statementsLoop (current ++ [ch]) (some ch) rest
      else if ch = ';' then
        if trim isWhite current = [] then statementsLoop [] none rest
        else trim isWhite current :: statementsLoop [] none rest
      else statementsLoop (current ++ [ch]) none rest

/-- `split_statements`. -/
def splitStatements (buffer : List Char) : List (List Char) := statementsLoop [] none buffer

/-- The loop of `has_complete_statement`. -/
def completeLoop : Option Char → List Char → Bool
  | _, [] => false
  | some quote, ch :: rest => completeLoop (if ch = quote then none else some quote) rest
  | none, ch :: rest =>
      if ch = '\'' ∨ ch = '"' then completeLoop (some ch) rest
      else if ch = ';' then true
      else completeLoop none rest

/-- `has_complete_statement`. -/
def hasCompleteStatement (buffer : List Char) : Bool := completeLoop none buffer

variable {current s t u v more : List Char} {quote : Option Char} {texts : List (List Char)}

/-! ## Semicolons outside quotes -/

/-- No semicolon stands outside quotes, if the text starts in `quote`. -/
def QuietFrom (quote : Option Char) (s : List Char) : Prop :=
  ∀ p r, s = p ++ ';' :: r → quoteAfter quote p ≠ none

/-- No semicolon stands outside quotes. -/
abbrev Quiet (s : List Char) : Prop := QuietFrom none s

/-- The last quote is closed. -/
def Closed (s : List Char) : Prop := quoteAfter none s = none

theorem quietFrom_nil : QuietFrom quote [] := by
  rintro p r h
  cases p <;> cases h

theorem quietFrom_cons {ch : Char} : QuietFrom quote (ch :: s) ↔
    (ch = ';' → quote ≠ none) ∧ QuietFrom (quoteStep quote ch) s := by
  constructor
  · intro h
    refine ⟨?_, fun p r hs => h (ch :: p) r (by rw [hs]; rfl)⟩
    rintro rfl
    exact h [] s rfl
  · rintro ⟨hch, hs⟩ p r heq
    cases p with
    | nil =>
        obtain ⟨rfl, -⟩ := List.cons.inj heq
        exact hch rfl
    | cons c p =>
        obtain ⟨rfl, rfl⟩ := List.cons.inj heq
        exact hs p r rfl

theorem quietFrom_append : QuietFrom quote (u ++ v) ↔
    QuietFrom quote u ∧ QuietFrom (quoteAfter quote u) v := by
  induction u generalizing quote with
  | nil => exact ⟨fun h => ⟨quietFrom_nil, h⟩, fun h => h.2⟩
  | cons c u ih => rw [List.cons_append, quietFrom_cons, quietFrom_cons, ih, and_assoc]; rfl

/-- Blanks change nothing. -/
theorem quoteAfter_white (hq : ∀ q, quote = some q → q = '\'' ∨ q = '"')
    (h : ∀ c ∈ s, isWhite c = true) : quoteAfter quote s = quote := by
  induction s with
  | nil => rfl
  | cons c s ih =>
      have hc := h c List.mem_cons_self
      have hno : ¬ (c = '\'' ∨ c = '"') := by
        rintro (rfl | rfl)
        · exact absurd hc (by decide)
        · exact absurd hc (by decide)
      have hstep : quoteStep quote c = quote := by
        cases quote with
        | none => exact if_neg hno
        | some q =>
            refine if_neg ?_
            rintro rfl
            exact hno (hq c rfl)
      rw [quoteAfter_cons, hstep, ih fun d hd => h d (List.mem_cons_of_mem _ hd)]

/-- Trimming takes away no semicolon and no quote. -/
theorem Quiet.trim (h : Quiet s) : Quiet (Text.trim isWhite s) := by
  obtain ⟨u, v, heq, hu, -⟩ := trim_decompose isWhite s
  rw [heq, List.append_assoc] at h
  have hrest := (quietFrom_append.mp h).2
  rw [quoteAfter_white (by rintro _ ⟨⟩) hu] at hrest
  exact (quietFrom_append.mp hrest).1

theorem Closed.trim (h : Closed s) : Closed (Text.trim isWhite s) := by
  obtain ⟨u, v, heq, hu, hv⟩ := trim_decompose isWhite s
  rw [Closed, heq, quoteAfter_append, quoteAfter_append, quoteAfter_white (by rintro _ ⟨⟩) hu,
    quoteAfter_white (fun q => quoteAfter_some) hv] at h
  exact h

/-! ## Text literals -/

section

variable (hq : ∀ q, quote = some q → q = '\'' ∨ q = '"')

include hq

theorem quoteStep_backslash : quoteStep quote '\\' = quote := by
  cases quote with
  | none => rfl
  | some q =>
      refine if_neg ?_
      rintro rfl
      exact absurd (hq _ rfl) (by decide)

theorem quoteStep_isQuote {c : Char} : ∀ q, quoteStep quote c = some q → q = '\'' ∨ q = '"' := by
  intro q h
  cases quote with
  | none =>
      rw [quoteStep] at h
      split at h
      · obtain rfl := Option.some.inj h
        assumption
      · cases h
  | some p =>
      rw [quoteStep] at h
      split at h
      · cases h
      · exact hq q h

/-- The backslashes of escapes are not seen: an escaped text is read as the text itself. -/
theorem quoteAfter_escape : quoteAfter quote (escape s) = quoteAfter quote s := by
  induction s generalizing quote with
  | nil => rfl
  | cons c s ih =>
      have hrest := ih (quoteStep_isQuote hq (c := c))
      rw [escape]
      split
      · rw [quoteAfter_cons, quoteStep_backslash hq, quoteAfter_cons, hrest]
        rfl
      · rw [quoteAfter_cons, hrest]
        rfl

theorem quietFrom_escape : QuietFrom quote (escape s) ↔ QuietFrom quote s := by
  induction s generalizing quote with
  | nil => exact Iff.rfl
  | cons c s ih =>
      have hrest := ih (quoteStep_isQuote hq (c := c))
      rw [escape, quietFrom_cons]
      split
      · rw [quietFrom_cons, quoteStep_backslash hq, quietFrom_cons, hrest]
        exact and_iff_right fun h => absurd h (by decide)
      · rw [quietFrom_cons, hrest]

end

/-- A statement: what stands before each of its text literals, the texts, and the rest. -/
def written (literals : List (List Char × List Char)) (rest : List Char) : List Char :=
  literals.flatMap (fun l => l.1 ++ quoted l.2) ++ rest

/-- Neither quotes nor semicolons. -/
def Plain (s : List Char) : Prop := ∀ c ∈ s, c ≠ '\'' ∧ c ≠ '"' ∧ c ≠ ';'

theorem Plain.closed (h : Plain s) : quoteAfter none s = none :=
  quoteAfter_plain fun c hc => ⟨(h c hc).1, (h c hc).2.1⟩

theorem Plain.quiet (h : Plain s) : QuietFrom quote s := by
  rintro p r rfl
  exact absurd rfl (h ';' (by simp)).2.2

/-- A literal without single quotes in its text ends where the REPL sees it end. -/
theorem quoted_fits (h : '\'' ∉ s) : Quiet (quoted s) ∧ Closed (quoted s) := by
  have hinside : ∀ u : List Char, (∃ v, s = u ++ v) → quoteAfter (some '\'') u = some '\'' := by
    rintro u ⟨v, rfl⟩
    refine quoteAfter_inside fun c hc => ?_
    rintro rfl
    exact h (List.mem_append_left _ hc)
  have hstart : ∀ q, some '\'' = some q → q = '\'' ∨ q = '"' := by
    rintro _ ⟨⟩
    exact Or.inl rfl
  have hopen : quoteAfter (some '\'') (escape s) = some '\'' := by
    rw [quoteAfter_escape hstart]
    exact hinside s ⟨[], by simp⟩
  constructor
  · refine quietFrom_cons.mpr ⟨fun hc => absurd hc (by decide), quietFrom_append.mpr ⟨?_, ?_⟩⟩
    · refine (quietFrom_escape hstart).mpr ?_
      rintro p r heq
      rw [hinside p ⟨_, heq⟩]
      exact Option.some_ne_none _
    · exact quietFrom_cons.mpr ⟨fun hc => absurd hc (by decide), quietFrom_nil⟩
  · rw [Closed, quoted, quoteAfter_cons]
    show quoteAfter (some '\'') (escape s ++ ['\'']) = none
    rw [quoteAfter_append, hopen]
    rfl

/-- A statement whose texts have no single quotes, semicolons or not. -/
theorem written_fits {literals : List (List Char × List Char)} {rest : List Char}
    (hplain : ∀ l ∈ literals, Plain l.1) (hrest : Plain rest) (htext : ∀ l ∈ literals, '\'' ∉ l.2) :
    Quiet (written literals rest) ∧ Closed (written literals rest) := by
  induction literals with
  | nil => exact ⟨hrest.quiet, hrest.closed⟩
  | cons l literals ih =>
      obtain ⟨hquiet, hclosed⟩ := ih (fun x hx => hplain x (List.mem_cons_of_mem _ hx))
        fun x hx => htext x (List.mem_cons_of_mem _ hx)
      have hl := hplain l List.mem_cons_self
      obtain ⟨hquoted, hend⟩ := quoted_fits (htext l List.mem_cons_self)
      have heq : written (l :: literals) rest = l.1 ++ (quoted l.2 ++ written literals rest) := by
        simp [written]
      rw [Closed] at hend
      rw [heq, Closed, quoteAfter_append, quoteAfter_append, hl.closed, hend]
      refine ⟨quietFrom_append.mpr ⟨hl.quiet, ?_⟩, hclosed⟩
      rw [hl.closed]
      refine quietFrom_append.mpr ⟨hquoted, ?_⟩
      rw [hend]
      exact hquiet

/-! ## What the loops do -/

theorem statementsLoop_through (h : QuietFrom quote u) :
    statementsLoop current quote (u ++ more) =
      statementsLoop (current ++ u) (quoteAfter quote u) more := by
  induction u generalizing current quote with
  | nil => rw [List.append_nil, List.nil_append, quoteAfter_nil]
  | cons c u ih =>
      obtain ⟨hc, hu⟩ := quietFrom_cons.mp h
      have hrest := @ih (current ++ [c]) _ hu
      rw [List.append_assoc] at hrest
      rw [quoteAfter_cons, ← List.singleton_append, ← hrest, List.append_assoc,
        List.singleton_append]
      cases quote with
      | some q => rw [statementsLoop, quoteStep]
      | none =>
          rw [statementsLoop, quoteStep]
          split
          · rfl
          · rw [if_neg fun heq => hc heq rfl]

/-- Every statement is quiet, and all but the last are closed. -/
theorem statementsLoop_pieces : ∀ {s current : List Char} {quote : Option Char}, Quiet current →
    quoteAfter none current = quote → (∀ t ∈ statementsLoop current quote s, Quiet t) ∧
      ∀ t ∈ (statementsLoop current quote s).dropLast, Closed t := by
  intro s
  induction s with
  | nil =>
      intro current quote hquiet _
      rw [statementsLoop]
      split
      · exact ⟨by simp, by simp⟩
      · exact ⟨by simpa using hquiet.trim, by simp⟩
  | cons c s ih =>
      intro current quote hquiet hquote
      -- a letter that does not end the statement
      have hkeep : (c = ';' → quote ≠ none) → (∀ t ∈ statementsLoop (current ++ [c])
          (quoteStep quote c) s, Quiet t) ∧
            ∀ t ∈ (statementsLoop (current ++ [c]) (quoteStep quote c) s).dropLast, Closed t := by
        intro hc
        refine ih (quietFrom_append.mpr ⟨hquiet, ?_⟩) ?_
        · rw [hquote]
          exact quietFrom_cons.mpr ⟨hc, quietFrom_nil⟩
        · rw [quoteAfter_append, hquote]
          rfl
      cases quote with
      | some q => exact hkeep fun _ => Option.some_ne_none q
      | none =>
          rw [statementsLoop]
          rw [quoteStep] at hkeep
          split
          · rename_i hmark
            rw [if_pos hmark] at hkeep
            refine hkeep ?_
            rintro rfl
            exact absurd hmark (by decide)
          · rename_i hmark
            rw [if_neg hmark] at hkeep
            split
            · obtain ⟨hall, hlast⟩ := @ih [] _ quietFrom_nil rfl
              split
              · exact ⟨hall, hlast⟩
              · refine ⟨fun t ht => ?_, fun t ht => ?_⟩
                · rcases List.mem_cons.mp ht with rfl | ht
                  · exact hquiet.trim
                  · exact hall t ht
                · cases hrest : statementsLoop [] none s with
                  | nil =>
                      rw [hrest] at ht
                      cases ht
                  | cons x xs =>
                      rw [hrest, List.dropLast_cons_cons, ← hrest] at ht
                      rcases List.mem_cons.mp ht with rfl | ht
                      · exact Closed.trim hquote
                      · exact hlast t ht
            · rename_i hsemi
              exact hkeep fun hc => absurd hc hsemi

theorem completeLoop_eq_false : completeLoop quote s = false ↔ QuietFrom quote s := by
  induction s generalizing quote with
  | nil => exact ⟨fun _ => quietFrom_nil, fun _ => by cases quote <;> rfl⟩
  | cons c s ih =>
      rw [quietFrom_cons, ← ih]
      cases quote with
      | some q =>
          rw [completeLoop, quoteStep]
          exact ⟨fun h => ⟨fun _ => Option.some_ne_none q, h⟩, fun h => h.2⟩
      | none =>
          rw [completeLoop, quoteStep]
          split
          · rename_i hmark
            refine ⟨fun h => ⟨?_, h⟩, fun h => h.2⟩
            rintro rfl
            exact absurd hmark (by decide)
          · split
            · rename_i hsemi
              exact iff_of_false (by decide) fun h => h.1 hsemi rfl
            · rename_i hsemi
              exact ⟨fun h => ⟨fun hc => absurd hc hsemi, h⟩, fun h => h.2⟩

/-! ## Joined statements -/

theorem splitStatements_join : ∀ {texts : List (List Char)},
    (∀ t ∈ texts, trim isWhite t = t ∧ t ≠ []) → (∀ t ∈ texts, Quiet t) →
    (∀ t ∈ texts.dropLast, Closed t) → splitStatements ([';'].intercalate texts) = texts
  | [], _, _, _ => rfl
  | [t], htrim, hquiet, _ => by
      obtain ⟨ht, hne⟩ := htrim t List.mem_cons_self
      have hthrough := @statementsLoop_through [] t [] none
        (hquiet t List.mem_cons_self)
      rw [List.append_nil, List.nil_append] at hthrough
      rw [List.intercalate_singleton, splitStatements, hthrough, statementsLoop, ht, if_neg hne]
  | t :: t' :: texts, htrim, hquiet, hclosed => by
      obtain ⟨ht, hne⟩ := htrim t List.mem_cons_self
      have hnone : quoteAfter none t = none := hclosed t (by simp)
      have hih : splitStatements ([';'].intercalate (t' :: texts)) = t' :: texts := by
        refine splitStatements_join (fun x hx => htrim x (List.mem_cons_of_mem _ hx))
          (fun x hx => hquiet x (List.mem_cons_of_mem _ hx)) fun x hx => hclosed x ?_
        rw [List.dropLast_cons_cons]
        exact List.mem_cons_of_mem _ hx
      rw [List.intercalate_cons_cons, List.append_assoc, splitStatements,
        statementsLoop_through (hquiet t List.mem_cons_self), hnone, List.nil_append,
        List.singleton_append, statementsLoop, if_neg (by decide), if_pos rfl, ht, if_neg hne]
      exact congrArg _ hih

/-- Statements that are not blank and have no blanks at their ends: the buffer they are
joined to is split into them, and none of them alone is complete, if and only if no semicolon
stands outside quotes in any of them and in all but the last every quote is closed. -/
theorem splits_statements (h : ∀ t ∈ texts, trim isWhite t = t ∧ t ≠ []) :
    (splitStatements ([';'].intercalate texts) = texts ∧
        ∀ t ∈ texts, hasCompleteStatement t = false) ↔
      (∀ t ∈ texts, Quiet t) ∧ ∀ t ∈ texts.dropLast, Closed t := by
  constructor
  · rintro ⟨hsplit, -⟩
    have hpieces := @statementsLoop_pieces ([';'].intercalate texts) [] none quietFrom_nil rfl
    have hloop : statementsLoop [] none ([';'].intercalate texts) = texts := hsplit
    rwa [hloop] at hpieces
  · rintro ⟨hquiet, hclosed⟩
    exact ⟨splitStatements_join h hquiet hclosed,
      fun t ht => completeLoop_eq_false.mpr (hquiet t ht)⟩

theorem plain_insert : Plain "INSERT INTO t VALUES (".toList := by
  have hall : "INSERT INTO t VALUES (".toList.all
      (fun c => c != '\'' && c != '"' && c != ';') = true := rfl
  intro c hc
  simpa [and_assoc] using List.all_eq_true.mp hall c hc

/-- `INSERT INTO t VALUES ('a;b')` and `INSERT INTO t VALUES ('\\')`. -/
def plainTexts : List (List Char) :=
  [written [("INSERT INTO t VALUES (".toList, "a;b".toList)] [')'],
    written [("INSERT INTO t VALUES (".toList, ['\\'])] [')']]

theorem splits_statements_plain : splitStatements ([';'].intercalate plainTexts) = plainTexts ∧
    ∀ t ∈ plainTexts, hasCompleteStatement t = false := by
  refine (splits_statements ?_).mpr ?_
  · decide
  · have hfits : ∀ t : List Char, '\'' ∉ t →
        Quiet (written [("INSERT INTO t VALUES (".toList, t)] [')']) ∧
          Closed (written [("INSERT INTO t VALUES (".toList, t)] [')']) := by
      intro t ht
      refine written_fits ?_ ?_ ?_
      · intro l hl
        obtain rfl := List.mem_singleton.mp hl
        exact plain_insert
      · intro c hc
        rw [List.mem_singleton.mp hc]
        decide
      · intro l hl
        obtain rfl := List.mem_singleton.mp hl
        exact ht
    have hfirst := hfits "a;b".toList (by decide)
    have hsecond := hfits ['\\'] (by decide)
    constructor
    · intro t ht
      rcases List.mem_cons.mp ht with rfl | ht
      · exact hfirst.1
      · rw [List.mem_singleton.mp ht]
        exact hsecond.1
    · intro t ht
      rw [List.mem_singleton.mp ht]
      exact hfirst.2

/-- `INSERT INTO t VALUES ('a\';b')`: the parser reads one text, the REPL two statements. -/
theorem not_splits_statements : ¬ ∀ tx : TextFns, tx.Lawful → ∀ texts : List (List Char),
    (∀ t ∈ texts, trim isWhite t = t ∧ ∃ table columns values,
      parse tx t = .ok (.change (.insert table columns values))) →
    splitStatements ([';'].intercalate texts) = texts ∧
      ∀ t ∈ texts, hasCompleteStatement t = false := by
  intro h
  have hparse : parse .basic (written [("INSERT INTO t VALUES (".toList, "a';b".toList)] [')']) =
      .ok (.change (.insert "t" none [.text "a';b"])) := rfl
  have hsplit := (h .basic TextFns.basic_lawful
    [written [("INSERT INTO t VALUES (".toList, "a';b".toList)] [')']] fun t ht => by
      obtain rfl := List.mem_singleton.mp ht
      exact ⟨by decide, _, _, _, hparse⟩).2 _ (List.mem_singleton.mpr rfl)
  exact absurd hsplit (by decide)

end Repl

end VelociDB
