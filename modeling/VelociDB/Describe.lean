/-
# Which tables are read back from their description (`storage.rs`)

The text that `describe_table` prints is read back as the table exactly if its columns are
`Describable`, whatever statements have made the table.  For the converse: the text is cut at
its commas, a quoted name is shorter than what is read for it, and no quote is printed but in
a name.
-/
import VelociDB.DescribeText
import VelociDB.ParserPanics

namespace VelociDB

open Text

/-- Columns that are read back. -/
structure Describable (columns : List Column) : Prop where
  nonempty : columns ≠ []
  names : ∀ c ∈ columns, PlainName c.name.toList
  flags : ∀ c ∈ columns, c.primaryKey = true → c.unique = false

namespace Parser

variable {tx : TextFns}

/-! ## Names of definitions -/

/-- A quoted name ends at its closing quote, and the quotes are not part of it. -/
theorem identifierLoop_ok {s : List Char} {e : Char} {text ident x r : List Char} {pos : Nat}
    {escaped : Bool} (h : identifierLoop s e pos escaped ident text = .ok (x, r)) :
    ∃ y v, text = y ++ e :: v ∧ x.length ≤ ident.length + y.length ∧
      ∀ c ∈ x, c ∈ ident ∨ c ∈ y := by
  induction text generalizing pos escaped ident with
  | nil => cases h
  | cons ch text ih =>
      have hgrow : ∀ {pos escaped}, identifierLoop s e pos escaped (ident ++ [ch]) text = .ok (x, r) →
          ∃ y v, ch :: text = y ++ e :: v ∧ x.length ≤ ident.length + y.length ∧
            ∀ c ∈ x, c ∈ ident ∨ c ∈ y := by
        rintro pos escaped h
        obtain ⟨y, v, rfl, hlen, hmem⟩ := ih h
        rw [List.length_append, List.length_singleton] at hlen
        refine ⟨ch :: y, v, rfl, by rw [List.length_cons]; omega, fun c hc => ?_⟩
        rcases hmem c hc with hc | hc
        · refine (List.mem_append.mp hc).imp id fun hc => ?_
          rw [List.mem_singleton.mp hc]
          exact List.mem_cons_self
        · exact Or.inr (List.mem_cons_of_mem _ hc)
      rw [identifierLoop] at h
      split at h
      · exact hgrow h
      · split at h
        · obtain ⟨y, v, rfl, hlen, hmem⟩ := ih h
          exact ⟨ch :: y, v, rfl, by rw [List.length_cons]; omega,
            fun c hc => (hmem c hc).imp id fun hc => List.mem_cons_of_mem _ hc⟩
        · split at h
          · rename_i heq
            obtain ⟨t, -, ht⟩ := bind_oks.mp h
            obtain ⟨rfl, -⟩ := Prod.mk.inj (Except.ok.inj ht)
            exact ⟨[], text, by rw [heq]; rfl, by simp, fun c hc => Or.inl hc⟩
          · exact hgrow h

/-- The pairs of quotes of an identifier. -/
def quotes : List (Char × Char) := [('"', '"'), ('\x60', '\x60'), ('[', ']')]

/-- How the name of a column definition is read: between quotes, or up to a blank. -/
theorem parseIdentifier_ok {s x r : List Char} (h : parseIdentifier s = .ok (x, r)) :
    (trim isWhite s = [] ∧ x = []) ∨
    (∃ q e y v, (q, e) ∈ quotes ∧ trim isWhite s = q :: (y ++ e :: v) ∧ x.length ≤ y.length ∧
      ∀ c ∈ x, c ∈ y) ∨
    (x ≠ [] ∧ (∀ c ∈ x, isWhite c = false) ∧ (∀ c, x.head? = some c → c ∉ ['"', '\x60', '[']) ∧
      ∀ c ∈ x, c ∈ trim isWhite s) := by
  rw [parseIdentifier] at h
  have hhead := @trim_head isWhite s
  cases htrim : trim isWhite s with
  | nil =>
      rw [htrim] at h
      exact Or.inl ⟨rfl, (Prod.mk.inj (Except.ok.inj h)).1.symm⟩
  | cons c t =>
      rw [htrim] at h hhead
      dsimp only at h
      have hloop : ∀ {e pos}, (c, e) ∈ quotes →
          identifierLoop (c :: t) e pos false [] t = .ok (x, r) →
          ∃ q e y v, (q, e) ∈ quotes ∧ c :: t = q :: (y ++ e :: v) ∧ x.length ≤ y.length ∧
            ∀ c ∈ x, c ∈ y := by
        rintro e pos hq hl
        obtain ⟨y, v, rfl, hlen, hmem⟩ := identifierLoop_ok hl
        rw [List.length_nil, Nat.zero_add] at hlen
        exact ⟨c, e, y, v, hq, rfl, hlen, fun d hd => (hmem d hd).resolve_left List.not_mem_nil⟩
      split at h
      · rename_i hc
        refine Or.inr (Or.inl (hloop ?_ h))
        rcases hc with rfl | rfl
        · exact List.mem_cons_self
        · exact List.mem_cons_of_mem _ List.mem_cons_self
      · rename_i hc
        split at h
        · rename_i hb
          rw [hb] at hloop h
          exact Or.inr (Or.inl (hb ▸ hloop (by simp [quotes]) h))
        · rename_i hb
          obtain ⟨rfl, -⟩ := Prod.mk.inj (Except.ok.inj h)
          have hcons : (c :: t).takeWhile (fun c => !isWhite c) =
              c :: t.takeWhile (fun c => !isWhite c) :=
            List.takeWhile_cons_of_pos (by rw [hhead rfl]; rfl)
          refine Or.inr (Or.inr ⟨?_, ?_, ?_, ?_⟩)
          · rw [hcons]
            exact List.cons_ne_nil _ _
          · intro d hd
            have hsolid := List.mem_takeWhile_imp hd
            simpa using hsolid
          · rw [hcons]
            rintro d hd
            obtain rfl := Option.some.inj hd
            simp only [List.mem_cons, List.not_mem_nil, or_false]
            rintro (rfl | rfl | rfl)
            · exact hc (Or.inl rfl)
            · exact hc (Or.inr rfl)
            · exact hb rfl
          · exact fun d hd => (List.takeWhile_sublist _).subset hd

/-! ## Columns of statements -/

theorem dataTypeFromStr_ne (s : List Char) : dataTypeFromStr tx s ≠ .null := by
  rw [dataTypeFromStr]
  split
  · rintro ⟨⟩
  · split
    · rintro ⟨⟩
    · split
      · rintro ⟨⟩
      · split
        · rintro ⟨⟩
        · split
          · rintro ⟨⟩
          · rintro ⟨⟩

theorem parseColumn_ok {s : List Char} {c : Column} (h : parseColumn tx s = .ok c) :
    (∃ r, parseIdentifier s = .ok (c.name.toList, r)) ∧ Declared c := by
  rw [parseColumn, bind_oks] at h
  obtain ⟨⟨x, r⟩, hident, h⟩ := h
  dsimp only at h
  split at h
  · cases h
  · split at h
    · cases h
    · obtain rfl := Except.ok.inj h
      refine ⟨⟨r, by rw [String.toList_ofList]; exact hident⟩, fun hkey => ?_, dataTypeFromStr_ne _⟩
      exact Bool.or_eq_true_iff.mpr (Or.inl hkey)

theorem parseAddedColumn_ok {s : List Char} {c : Column} (h : parseAddedColumn tx s = .ok c) :
    Declared c := by
  rw [parseAddedColumn, bind_oks] at h
  obtain ⟨⟨x, r⟩, -, h⟩ := h
  dsimp only at h
  split at h
  · cases h
  · split at h
    · cases h
    · split at h
      · cases h
      · obtain rfl := Except.ok.inj h
        exact ⟨by rintro ⟨⟩, dataTypeFromStr_ne _⟩

/-! ## Statements on tables -/

/-- What a CREATE TABLE was read from: a list in parentheses. -/
theorem parse_create_oks (h : tx.Lawful) {sql : List Char} {name : String} {columns : List Column}
    (hparse : parse tx sql = .ok (.change (.createTable name columns))) :
    ∃ u l v, trim isWhite sql = u ++ '(' :: (l ++ ')' :: v) ∧ l ≠ [] ∧ Name tx name.toList ∧
      List.Forall₂ (fun p c => parseColumn tx p = .ok c) (definitions l) columns := by
  obtain ⟨-, hkind⟩ := parse_oks hparse
  change parseCreateTable tx (trim isWhite sql) = _ at hkind
  rw [parseCreateTable, h.captures_eq] at hkind
  cases hm : (createRe tx).search (trim isWhite sql) with
  | none =>
      rw [hm] at hkind
      cases hkind
  | some m =>
      rw [hm] at hkind
      dsimp only at hkind
      obtain ⟨w, hw, htext⟩ := Regex.search_eats hm
      rw [createRe] at hw
      simp only [Regex.eats_seqs_cons, Regex.eats_seqs_nil] at hw
      obtain ⟨k, w₁, g₁, g₁', hk, ⟨b, w₂, g₂, g₂', hb, ⟨k', w₃, g₃, g₃', hk', ⟨b', w₄, g₄, g₄', hb',
        ⟨n, w₅, g₅, g₅', hn, ⟨b₀, w₆, g₆, g₆', hb₀, ⟨o, w₇, g₇, g₇', ho, ⟨l, w₈, g₈, g₈', hl,
        ⟨e, w₉, g₉, g₉', he, ⟨rfl, rfl⟩, rfl, rfl⟩, rfl, rfl⟩, rfl, rfl⟩, rfl, rfl⟩, rfl, rfl⟩,
        rfl, rfl⟩, rfl, rfl⟩, rfl, rfl⟩, rfl, hgroups⟩ := hw
      obtain ⟨-, rfl⟩ := eats_word.mp hk
      obtain ⟨-, rfl⟩ := eats_blanks.mp hb
      obtain ⟨-, rfl⟩ := eats_word.mp hk'
      obtain ⟨-, rfl⟩ := eats_blanks.mp hb'
      obtain ⟨hname, rfl⟩ := eats_name.mp hn
      obtain ⟨-, rfl⟩ := hb₀
      obtain ⟨o, ho, rfl, rfl⟩ := ho
      obtain ⟨hline, rfl⟩ := eats_dots.mp hl
      obtain ⟨e, he, rfl, rfl⟩ := he
      rw [beq_iff_eq] at ho he
      subst ho
      subst he
      have hgroup : m.group 1 = some n ∧ m.group 2 = some l := by
        constructor
        · rw [Regex.Match.group, hgroups]
          rfl
        · rw [Regex.Match.group, hgroups]
          rfl
      rw [groupName, hgroup.1, hgroup.2] at hkind
      obtain ⟨t, ht, hkind⟩ := bind_oks.mp hkind
      obtain rfl := Except.ok.inj ht
      obtain ⟨t, ht, hkind⟩ := bind_oks.mp hkind
      obtain rfl := Except.ok.inj ht
      obtain ⟨cs, hcs, hkind⟩ := bind_oks.mp hkind
      cases Except.ok.inj hkind
      refine ⟨m.before ++ (k ++ (b ++ (k' ++ (b' ++ (n ++ b₀))))), l, m.after, ?_, hline.1, ?_,
        mapM_oks.mp hcs⟩
      · rw [htext]
        simp only [List.append_assoc, List.cons_append, List.nil_append]
      · rw [String.toList_ofList]
        exact hname

/-- What the actions of an ALTER TABLE bring into the schema. -/
def AlterSound (tx : TextFns) : AlterAction → Prop
  | .renameTable newName => Name tx newName.toList
  | .addColumn column => Declared column
  | _ => True

theorem renameTableRe_name {sql : List Char} {m : Regex.Match Char}
    (hm : (renameTableRe tx).search sql = some m) : ∃ n, m.group 2 = some n ∧ Name tx n := by
  have hlast : renameTableRe tx = Regex.seqs ([.start, word "ALTER", blanks, word "TABLE", blanks,
      name tx 1, blanks, word "RENAME", blanks, word "TO", blanks] ++ [name tx 2, .stop]) := rfl
  obtain ⟨w, hw, -⟩ := Regex.search_eats hm
  rw [hlast] at hw
  obtain ⟨-, v, gu, gv, -, hv, -, hgroups⟩ := Regex.eats_seqs_append.mp hw
  simp only [Regex.eats_seqs_cons, Regex.eats_seqs_nil] at hv
  obtain ⟨n, -, gn, -, hn, ⟨-, -, -, -, ⟨-, rfl⟩, ⟨-, rfl⟩, -, rfl⟩, -, rfl⟩ := hv
  obtain ⟨hname, rfl⟩ := eats_name.mp hn
  refine ⟨n, ?_, hname⟩
  rw [Regex.Match.group, hgroups]
  rfl

theorem parse_alter_oks (h : tx.Lawful) {sql : List Char} {table : String} {action : AlterAction}
    (hparse : parse tx sql = .ok (.change (.alterTable table action))) : AlterSound tx action := by
  obtain ⟨-, hkind⟩ := parse_oks hparse
  change parseAlterTable tx (trim isWhite sql) = _ at hkind
  rw [parseAlterTable] at hkind
  split at hkind
  · rename_i m hm
    rw [h.captures_eq] at hm
    obtain ⟨n, hgroup, hname⟩ := renameTableRe_name hm
    obtain ⟨t, -, hkind⟩ := bind_oks.mp hkind
    obtain ⟨t', ht', hkind⟩ := bind_oks.mp hkind
    rw [groupName, hgroup] at ht'
    obtain rfl := Except.ok.inj ht'
    cases Except.ok.inj hkind
    change Name tx (String.ofList n).toList
    rw [String.toList_ofList]
    exact hname
  · split at hkind
    · obtain ⟨t, -, hkind⟩ := bind_oks.mp hkind
      obtain ⟨t, -, hkind⟩ := bind_oks.mp hkind
      obtain ⟨t, -, hkind⟩ := bind_oks.mp hkind
      cases Except.ok.inj hkind
      exact trivial
    · split at hkind
      · obtain ⟨t, -, hkind⟩ := bind_oks.mp hkind
        obtain ⟨text, -, hkind⟩ := bind_oks.mp hkind
        obtain ⟨column, hcolumn, hkind⟩ := bind_oks.mp hkind
        cases Except.ok.inj hkind
        exact parseAddedColumn_ok hcolumn
      · split at hkind
        · obtain ⟨t, -, hkind⟩ := bind_oks.mp hkind
          obtain ⟨t, -, hkind⟩ := bind_oks.mp hkind
          cases Except.ok.inj hkind
          exact trivial
        · cases hkind

/-! ## Pieces of the text -/

section

variable {a : Char} {p q u v s t : List Char} {ps : List (List Char)}

/-- Two texts cut at their first comma. -/
theorem cut_unique (heq : u ++ a :: s = v ++ a :: t) (hu : a ∉ u) (hv : a ∉ v) :
    u = v ∧ s = t := by
  have hspan : u = v ∧ a :: s = a :: t := by
    refine span_unique (p := fun c => c != a) heq ?_ ?_ ?_ ?_
    · exact fun c hc => bne_iff_ne.mpr fun h => hu (h ▸ hc)
    · exact fun c hc => bne_iff_ne.mpr fun h => hv (h ▸ hc)
    · rintro c hc
      rw [← Option.some.inj hc, bne_self_eq_false]
    · rintro c hc
      rw [← Option.some.inj hc, bne_self_eq_false]
  exact ⟨hspan.1, (List.cons.inj hspan.2).2⟩

/-- Pieces have one comma less than they are. -/
theorem count_intercalate (hne : ps ≠ []) (h : ∀ p ∈ ps, a ∉ p) :
    (List.intercalate [a] ps).count a + 1 = ps.length := by
  induction ps with
  | nil => exact absurd rfl hne
  | cons p ps ih =>
      have hp : p.count a = 0 := List.count_eq_zero.mpr (h p List.mem_cons_self)
      cases ps with
      | nil => rw [List.intercalate_singleton, hp, List.length_singleton]
      | cons q ps =>
          have hrest := ih (List.cons_ne_nil _ _) fun r hr => h r (List.mem_cons_of_mem _ hr)
          rw [List.intercalate_cons_cons, List.count_append, List.count_append, hp,
            List.count_singleton_self, List.length_cons, ← hrest]
          omega

/-- A letter that is not in the front part is behind it. -/
theorem length_le_of_not_mem (heq : u ++ a :: v = s ++ t) (h : a ∉ s) : s.length ≤ u.length := by
  rw [List.append_eq_append_iff] at heq
  rcases heq with ⟨d, hd, hrest⟩ | ⟨d, hd, -⟩
  · cases d with
    | nil => rw [hd, List.append_nil]
    | cons b d =>
        rw [hd, ← (List.cons.inj hrest).1] at h
        exact absurd (List.mem_append_right _ List.mem_cons_self) h
  · rw [hd, List.length_append]
    omega

theorem splitOn_comma {l : List Char} : ∀ p ∈ l.splitOn a, a ∉ p := by
  induction l with
  | nil =>
      rintro p hp
      rw [List.splitOn_nil, List.mem_singleton] at hp
      rw [hp]
      exact List.not_mem_nil
  | cons c l ih =>
      rintro p hp
      rw [List.splitOn_cons_eq_if_modifyHead] at hp
      split at hp
      · rcases List.mem_cons.mp hp with rfl | hp
        · exact List.not_mem_nil
        · exact ih p hp
      · rename_i hc
        cases hsplit : l.splitOn a with
        | nil => exact absurd hsplit (List.splitOn_ne_nil _ _)
        | cons q qs =>
            rw [hsplit] at hp ih
            rcases List.mem_cons.mp hp with rfl | hp
            · intro hmem
              rcases List.mem_cons.mp hmem with rfl | hmem
              · exact hc (beq_self_eq_true _)
              · exact ih q List.mem_cons_self hmem
            · exact ih p (List.mem_cons_of_mem _ hp)

/-- A quoted text inside a text whose quotes are all in its middle. -/
theorem quoted_between {c e : Char} {x y z pre mid post : List Char}
    (heq : x ++ (c :: (y ++ e :: z)) = pre ++ (mid ++ post)) (hpre : c ∉ pre) (hpost : e ∉ post) :
    y.length + 2 ≤ mid.length := by
  have hleft := length_le_of_not_mem heq hpre
  have hreverse : z.reverse ++ e :: (y.reverse ++ c :: x.reverse) =
      post.reverse ++ (mid.reverse ++ pre.reverse) := by
    have h := congrArg List.reverse heq
    simp only [List.reverse_append, List.reverse_cons, List.append_assoc, List.cons_append,
      List.nil_append] at h
    exact h
  have hright := length_le_of_not_mem hreverse fun hmem => hpost (List.mem_reverse.mp hmem)
  have hlen := congrArg List.length heq
  simp only [List.length_append, List.length_cons, List.length_reverse] at hlen hright
  omega

end

/-! ## Names that are read back -/

/-- No comma and no quote. -/
def Bare (s : List Char) : Prop := ∀ c ∈ s, c ∉ [',', '"', '\x60', '[', ']']

theorem Bare.append {s t : List Char} (hs : Bare s) (ht : Bare t) : Bare (s ++ t) := by
  intro c hc
  rcases List.mem_append.mp hc with hc | hc
  · exact hs c hc
  · exact ht c hc

theorem Bare.quotes {s : List Char} (h : Bare s) {q e : Char} (hq : (q, e) ∈ quotes) :
    q ∉ s ∧ e ∉ s := by
  have hall : (Parser.quotes.all fun x => x.1 ∈ [',', '"', '\x60', '[', ']'] &&
    x.2 ∈ [',', '"', '\x60', '[', ']']) = true := rfl
  have hmem := List.all_eq_true.mp hall _ hq
  rw [Bool.and_eq_true, decide_eq_true_eq, decide_eq_true_eq] at hmem
  exact ⟨fun h' => h _ h' hmem.1, fun h' => h _ h' hmem.2⟩

theorem Bare.comma {s : List Char} (h : Bare s) : ',' ∉ s := fun h' => h _ h' (by decide)

/-- Behind the name nothing is a quote or a comma. -/
theorem bare_spaced (c : Column) : Bare (spaced (columnWords c)) := by
  intro x hx
  obtain ⟨w, hw, hx⟩ := List.mem_flatMap.mp hx
  rcases List.mem_cons.mp hx with rfl | hx
  · decide
  · have hno := (isPrinted_facts ((columnWords_printed hw).2 x hx)).2.2.2
    refine fun hmem => hno ?_
    simp only [List.mem_cons, List.not_mem_nil, or_false] at hmem ⊢
    rcases hmem with rfl | rfl | rfl | rfl | rfl
    all_goals simp

/-- A name is read back from a piece around it only if it is plain. -/
theorem plainName_of_piece {p x z pre post : List Char} {c : Column}
    (hparse : parseColumn tx p = .ok c) (hne : trim isWhite p ≠ []) (hcomma : ',' ∉ p)
    (hpre : Bare pre) (hpost : Bare post)
    (heq : x ++ p ++ z = pre ++ columnText c ++ post) : PlainName c.name.toList := by
  obtain ⟨b, b', hp, -, -⟩ := trim_decompose isWhite p
  obtain ⟨⟨r, hident⟩, -⟩ := parseColumn_ok hparse
  rcases parseIdentifier_ok hident with ⟨hnil, -⟩ | ⟨q, e, y, v, hq, htext, hlen, -⟩ |
    ⟨hname, hsolid, hhead, hmem⟩
  · exact absurd hnil hne
  · -- the quotes would both stand in the name, with more than it between them
    have hbetween : (x ++ b) ++ (q :: (y ++ e :: (v ++ b' ++ z))) =
        pre ++ (c.name.toList ++ (spaced (columnWords c) ++ post)) := by
      rw [hp, htext, columnText_eq] at heq
      simpa only [List.append_assoc, List.cons_append] using heq
    have hlong := quoted_between hbetween (hpre.quotes hq).1
      (((bare_spaced c).append hpost).quotes hq).2
    omega
  · refine ⟨hname, hsolid, fun h => hcomma ?_, hhead⟩
    rw [hp]
    exact List.mem_append_left _ (List.mem_append_right _ (hmem _ h))

/-- A name that was read has no comma, if the definition had none. -/
theorem name_comma {p : List Char} {c : Column} (hparse : parseColumn tx p = .ok c)
    (hcomma : ',' ∉ p) : ',' ∉ c.name.toList := by
  obtain ⟨b, b', hp, -, -⟩ := trim_decompose isWhite p
  obtain ⟨⟨r, hident⟩, -⟩ := parseColumn_ok hparse
  have htrim : ',' ∉ trim isWhite p := by
    intro hmem
    rw [hp] at hcomma
    exact hcomma (List.mem_append_left _ (List.mem_append_right _ hmem))
  rcases parseIdentifier_ok hident with ⟨-, hnil⟩ | ⟨q, e, y, v, -, htext, -, hsub⟩ |
    ⟨-, -, -, hsub⟩
  · rw [hnil]
    exact List.not_mem_nil
  · intro hmem
    rw [htext] at htrim
    exact htrim (List.mem_cons_of_mem _ (List.mem_append_left _ (hsub _ hmem)))
  · exact fun hmem => htrim (hsub _ hmem)

/-- A piece that is the definition of a column. -/
structure Defines (tx : TextFns) (p : List Char) (c : Column) : Prop where
  nonempty : trim isWhite p ≠ []
  comma : ',' ∉ p
  parse : parseColumn tx (trim isWhite p) = .ok c

namespace Defines

variable {p : List Char} {c : Column}

theorem trim_comma (h : Defines tx p c) : ',' ∉ trim isWhite p := by
  obtain ⟨b, b', hp, -, -⟩ := trim_decompose isWhite p
  intro hmem
  refine h.comma ?_
  rw [hp]
  exact List.mem_append_left _ (List.mem_append_right _ hmem)

theorem name_comma (h : Defines tx p c) : ',' ∉ c.name.toList :=
  Parser.name_comma h.parse h.trim_comma

theorem plainName (h : Defines tx p c) {x z pre post : List Char} (hpre : Bare pre)
    (hpost : Bare post) (heq : x ++ p ++ z = pre ++ columnText c ++ post) :
    PlainName c.name.toList := by
  obtain ⟨b, b', hp, -, -⟩ := trim_decompose isWhite p
  refine plainName_of_piece (x := x ++ b) (z := b' ++ z) h.parse ?_ h.trim_comma hpre hpost ?_
  · rw [trim_trim]
    exact h.nonempty
  · rw [← heq]
    conv_rhs => rw [hp]
    simp only [List.append_assoc]

end Defines

/-- The pieces of a text around the printed columns, as many as they are: every name is
plain. -/
theorem plainNames_of_pieces {ps : List (List Char)} {columns : List Column} {z post : List Char}
    (h : List.Forall₂ (Defines tx) ps columns) (hpost : Bare post) :
    ∀ {x pre : List Char}, ',' ∉ x → Bare pre →
      x ++ List.intercalate [','] ps ++ z = pre ++ columnsText columns ++ post →
      ∀ c ∈ columns, PlainName c.name.toList := by
  induction h with
  | nil => exact fun _ _ _ c hc => absurd hc List.not_mem_nil
  | @cons p c ps columns hp hps ih =>
      rintro x pre hx hpre heq d hd
      cases hps with
      | nil =>
          obtain rfl := List.mem_singleton.mp hd
          rw [List.intercalate_singleton, columnsText_singleton] at heq
          exact hp.plainName hpre hpost heq
      | @cons p' c' ps columns hp' hps =>
          have hcut : x ++ p ++ ',' :: (List.intercalate [','] (p' :: ps) ++ z) =
              pre ++ columnText c ++ ',' :: ([' '] ++ columnsText (c' :: columns) ++ post) := by
            rw [List.intercalate_cons_cons, columnsText_cons] at heq
            simpa only [List.append_assoc, List.cons_append, List.nil_append] using heq
          have hleft : ',' ∉ x ++ p := fun hmem => (List.mem_append.mp hmem).elim hx hp.comma
          have hright : ',' ∉ pre ++ columnText c := fun hmem =>
            (List.mem_append.mp hmem).elim hpre.comma (columnText_comma hp.name_comma)
          obtain ⟨hfirst, hrest⟩ := cut_unique hcut hleft hright
          rcases List.mem_cons.mp hd with rfl | hd
          · have hpiece : x ++ p ++ [] = pre ++ columnText d ++ [] := by
              rw [List.append_nil, List.append_nil, hfirst]
            exact hp.plainName hpre (fun e he => absurd he List.not_mem_nil) hpiece
          · have hblank : Bare [' '] := by
              intro e he
              rw [List.mem_singleton.mp he]
              decide
            have hpieces : [] ++ List.intercalate [','] (p' :: ps) ++ z =
                [' '] ++ columnsText (c' :: columns) ++ post := hrest
            exact ih List.not_mem_nil hblank hpieces d hd

theorem count_columnsText {columns : List Column} (hne : columns ≠ [])
    (h : ∀ c ∈ columns, ',' ∉ c.name.toList) : (columnsText columns).count ',' + 1 = columns.length := by
  induction columns with
  | nil => exact absurd rfl hne
  | cons c columns ih =>
      have hc : (columnText c).count ',' = 0 :=
        List.count_eq_zero.mpr (columnText_comma (h c List.mem_cons_self))
      cases columns with
      | nil => rw [columnsText_singleton, hc, List.length_singleton]
      | cons d columns =>
          have hrest := ih (List.cons_ne_nil _ _) fun e he => h e (List.mem_cons_of_mem _ he)
          rw [columnsText_cons, List.count_append, hc, List.count_cons_self,
            List.count_cons_of_ne (by decide), List.length_cons, ← hrest]
          omega

theorem Name.not_mem (h : tx.Lawful) {w : List Char} (hw : Name tx w) {c : Char}
    (hc : isAscii c = true) (hno : (c.isAlphanum || c == '_') = false) : c ∉ w := by
  intro hmem
  have hword := hw.2 c hmem
  rw [h.word_ascii c hc, hno] at hword
  cases hword

theorem Name.bare (h : tx.Lawful) {w : List Char} (hw : Name tx w) : Bare w := by
  intro c hc hmem
  have hall : ([',', '"', '\x60', '[', ']'].all fun c => isAscii c &&
    !(c.isAlphanum || c == '_')) = true := rfl
  have hfacts := List.all_eq_true.mp hall c hmem
  rw [Bool.and_eq_true, Bool.not_eq_true'] at hfacts
  exact hw.not_mem h hfacts.1 hfacts.2 hc

/-- What is printed before the columns. -/
theorem bare_start (h : tx.Lawful) {name : List Char} (hname : Name tx name) :
    Bare ("CREATE TABLE ".toList ++ name ++ " (".toList) := by
  have hall : ("CREATE TABLE ".toList ++ " (".toList).all
    (fun c => c ∉ [',', '"', '\x60', '[', ']']) = true := rfl
  have hconst : Bare ("CREATE TABLE ".toList ++ " (".toList) :=
    fun c hc => of_decide_eq_true (List.all_eq_true.mp hall c hc)
  refine Bare.append (Bare.append ?_ (hname.bare h)) ?_
  · exact fun c hc => hconst c (List.mem_append_left _ hc)
  · exact fun c hc => hconst c (List.mem_append_right _ hc)

/-- If the printed text is read as its columns, then every name is plain. -/
theorem plainNames_of_parse (h : tx.Lawful) {name : List Char} {columns : List Column}
    (hname : Name tx name) (hne : columns ≠ []) {table : String}
    (hparse : parse tx (tableText name (columnsText columns)) =
      .ok (.change (.createTable table columns))) :
    ∀ c ∈ columns, PlainName c.name.toList := by
  obtain ⟨u, l, v, htext, -, -, hdefs⟩ := parse_create_oks h hparse
  rw [tableText_trim, tableText_def] at htext
  have hpre := bare_start h hname
  have hpost : Bare [')'] := by
    intro c hc
    rw [List.mem_singleton.mp hc]
    decide
  have hjoin : List.intercalate [','] (l.splitOn ',') = l := List.intercalate_splitOn ','
  have hpieces : ∀ q ∈ l.splitOn ',', ',' ∉ q := splitOn_comma
  have htrimmed : ∀ {q : List Char}, ',' ∉ q → ',' ∉ trim isWhite q := by
    intro q hq hmem
    obtain ⟨b, b', hdec, -, -⟩ := trim_decompose isWhite q
    rw [hdec] at hq
    exact hq (List.mem_append_left _ (List.mem_append_right _ hmem))
  have hnames : ∀ c ∈ columns, ',' ∉ c.name.toList := by
    intro c hc
    obtain ⟨p, hp, hpc⟩ := exists_of_forall₂ hdefs hc
    obtain ⟨q, hq, rfl⟩ := List.mem_map.mp (List.mem_filter.mp hp).1
    exact name_comma hpc (htrimmed (hpieces q hq))
  -- there are as many pieces as columns, so all commas of the text are between pieces
  have hcount := congrArg (List.count ',') htext
  have hcolumns := count_columnsText hne hnames
  have hsplit := count_intercalate (List.splitOn_ne_nil ',' l) hpieces
  have hlength : (definitions l).length = columns.length := hdefs.length_eq
  have hfilter : (definitions l).length ≤ (l.splitOn ',').length := by
    rw [definitions]
    exact (List.length_filter_le _ _).trans (by rw [List.length_map])
  rw [hjoin] at hsplit
  rw [List.count_append, List.count_append, List.count_eq_zero.mpr hpre.comma,
    List.count_eq_zero.mpr hpost.comma, List.count_append, List.count_cons_of_ne (by decide),
    List.count_append] at hcount
  have hu : ',' ∉ u := List.count_eq_zero.mp (by omega)
  have hall : ∀ w ∈ (l.splitOn ',').map (trim isWhite), w ≠ [] := by
    have hfull : (definitions l).length = ((l.splitOn ',').map (trim isWhite)).length := by
      rw [List.length_map]
      omega
    exact fun w hw => of_decide_eq_true (List.length_filter_eq_length_iff.mp hfull w hw)
  have hdefines : List.Forall₂ (Defines tx) (l.splitOn ',') columns := by
    rw [definitions, List.filter_eq_self.mpr fun w hw => decide_eq_true (hall w hw),
      List.forall₂_map_left_iff] at hdefs
    refine ((List.forall₂_and_left (p := fun q => q ∈ l.splitOn ',') _ _).mpr
      ⟨fun q hq => hq, hdefs⟩).imp ?_
    rintro q c ⟨hq, hparse⟩
    exact ⟨hall _ (List.mem_map_of_mem hq), hpieces q hq, hparse⟩
  refine plainNames_of_pieces (x := u ++ ['(']) (z := ')' :: v) hdefines hpost ?_ hpre ?_
  · intro hmem
    rcases List.mem_append.mp hmem with hmem | hmem
    · exact hu hmem
    · exact absurd (List.mem_singleton.mp hmem) (by decide)
  · rw [hjoin, htext]
    simp only [List.append_assoc, List.cons_append, List.nil_append]

/-- `()` is no column list. -/
theorem parse_noColumns (h : tx.Lawful) {name : List Char} (hname : Name tx name) {table : String}
    {columns : List Column} :
    parse tx (tableText name (columnsText [])) ≠ .ok (.change (.createTable table columns)) := by
  intro hparse
  obtain ⟨u, l, v, htext, hl, -⟩ := parse_create_oks h hparse
  rw [tableText_trim, tableText_def] at htext
  have hregroup : ∀ k : List Char, k ++ name ++ [' ', '('] ++ columnsText [] ++ [')'] =
      (k ++ name ++ [' ']) ++ ['(', ')'] := by
    intro k
    rw [show columnsText [] = [] from rfl]
    simp only [List.append_assoc, List.cons_append, List.nil_append]
  have heq : u ++ '(' :: (l ++ ')' :: v) = ("CREATE TABLE ".toList ++ name ++ [' ']) ++ ['(', ')'] :=
    htext.symm.trans (hregroup _)
  have hno : '(' ∉ "CREATE TABLE ".toList ++ name ++ [' '] := by
    have hword : '(' ∉ "CREATE TABLE ".toList := by
      have hall : ("CREATE TABLE ".toList.all fun c => c != '(') = true := rfl
      intro hmem
      exact bne_iff_ne.mp (List.all_eq_true.mp hall _ hmem) rfl
    intro hmem
    rcases List.mem_append.mp hmem with hmem | hmem
    · exact (List.mem_append.mp hmem).elim hword (hname.not_mem h rfl rfl)
    · exact absurd (List.mem_singleton.mp hmem) (by decide)
  have hle := length_le_of_not_mem heq hno
  have hlen := congrArg List.length heq
  rw [List.length_append, List.length_cons, List.length_append, List.length_cons,
    List.length_append, List.length_cons, List.length_singleton] at hlen
  have hpos := List.length_pos_iff.mpr hl
  omega

end Parser

/-! ## Tables of a run -/

/-- A statement that was parsed. -/
def Statement.FromText (tx : TextFns) (stmt : Statement) : Prop :=
  ∃ sql, Parser.parse tx sql = .ok (.change stmt)

/-- What the schema holds under a name. -/
structure TableSchema.Described (tx : TextFns) (name : String) (ts : TableSchema) : Prop where
  name_eq : ts.name = name
  word : Parser.Name tx name.toList
  declared : ∀ c ∈ ts.columns, Parser.Declared c

/-- All tables were parsed. -/
def Described (tx : TextFns) (schema : Std.ExtTreeMap String TableSchema) : Prop :=
  ∀ (name : String) (ts : TableSchema), schema[name]? = some ts → ts.Described tx name

namespace Described

variable {tx : TextFns} {schema : Std.ExtTreeMap String TableSchema} {table : String}
  {ts : TableSchema}

theorem empty : Described tx ∅ := by
  intro name ts hts
  rw [Std.ExtTreeMap.getElem?_empty] at hts
  cases hts

theorem insert (h : Described tx schema) (hts : ts.Described tx table) :
    Described tx (schema.insert table ts) := by
  intro name ts' hts'
  rw [Std.ExtTreeMap.getElem?_insert] at hts'
  split at hts'
  · rename_i heq
    obtain rfl := Std.compare_eq_iff_eq.mp heq
    obtain rfl := Option.some.inj hts'
    exact hts
  · exact h name ts' hts'

theorem erase (h : Described tx schema) : Described tx (schema.erase table) := by
  intro name ts' hts'
  rw [Std.ExtTreeMap.getElem?_erase] at hts'
  split at hts'
  · cases hts'
  · exact h name ts' hts'

/-- The columns of a table change, its name stays. -/
theorem setColumns (h : Described tx schema) (hts : schema[table]? = some ts)
    {columns : List Column} (hcolumns : ∀ c ∈ columns, Parser.Declared c) :
    Described tx (schema.insert table ⟨ts.name, columns⟩) :=
  h.insert ⟨(h table ts hts).name_eq, (h table ts hts).word, hcolumns⟩

end Described

namespace Parser

variable {tx : TextFns} {ext : Externals} {put : Put} {db db' : Tables RowMap}

theorem modify_declared {columns : List Column} (h : ∀ c ∈ columns, Declared c) (i : Nat)
    (name : String) :
    ∀ c ∈ columns.modify i fun c => { c with name := name }, Declared c := by
  intro c hc
  obtain ⟨j, hj⟩ := List.getElem?_of_mem hc
  rw [List.getElem?_modify] at hj
  obtain ⟨c', hc', rfl⟩ := Option.map_eq_some_iff.mp hj
  have hdeclared := h c' (List.mem_of_getElem? hc')
  split
  · exact ⟨hdeclared.key, hdeclared.type⟩
  · exact hdeclared

/-- The step: an Ok statement that was parsed. -/
theorem described_statement (h : tx.Lawful) {stmt : Statement} {changes : List StagedChange}
    (hdb : Described tx db.schema) (hstmt : stmt.FromText tx)
    (hx : executeStatement ext (listTrees put) db stmt = .ok (db', changes)) :
    Described tx db'.schema := by
  obtain ⟨sql, hsql⟩ := hstmt
  cases stmt with
  | createTable name columns =>
      obtain ⟨_, _, _, -, -, hname, hdefs⟩ := parse_create_oks h hsql
      obtain ⟨db₁, hcreate, hdb₁⟩ := bind_ok.mp hx
      obtain ⟨rfl, -⟩ := Prod.mk.inj (pure_ok.mp hdb₁)
      obtain ⟨-, rfl⟩ := executeCreateTable_ok hcreate
      have hnew : TableSchema.Described tx name ⟨name, columns⟩ := by
        refine ⟨rfl, hname, fun c hc => ?_⟩
        obtain ⟨p, -, hp⟩ := exists_of_forall₂ hdefs hc
        exact (parseColumn_ok hp).2
      exact hdb.insert hnew
  | dropTable name =>
      obtain ⟨db₁, hdrop, hdb₁⟩ := bind_ok.mp hx
      obtain ⟨rfl, -⟩ := Prod.mk.inj (pure_ok.mp hdb₁)
      rw [executeDropTable_ok hdrop]
      exact hdb.erase
  | alterTable table action =>
      have haction := parse_alter_oks h hsql
      obtain ⟨db₁, halter, hdb₁⟩ := bind_ok.mp hx
      obtain ⟨rfl, -⟩ := Prod.mk.inj (pure_ok.mp hdb₁)
      cases action with
      | renameTable newName =>
          obtain ⟨ts, hts, -, rfl⟩ := renameTable_ok halter
          have hnew : TableSchema.Described tx newName { ts with name := newName } :=
            ⟨rfl, haction, (hdb table ts hts).declared⟩
          exact hdb.erase.insert hnew
      | renameColumn oldName newName =>
          obtain ⟨ts, i, hts, -, -, rfl⟩ := renameColumn_ok halter
          exact hdb.setColumns hts (modify_declared (hdb table ts hts).declared i newName)
      | addColumn column =>
          obtain ⟨ts, es, hts, -, -, rfl⟩ := addColumn_ok halter
          refine hdb.setColumns hts fun c hc => ?_
          rcases List.mem_append.mp hc with hc | hc
          · exact (hdb table ts hts).declared c hc
          · rw [List.mem_singleton.mp hc]
            exact haction
      | dropColumn name =>
          obtain ⟨ts, es, i, hts, -, -, -, rfl⟩ := dropColumn_ok halter
          exact hdb.setColumns hts fun c hc =>
            (hdb table ts hts).declared c ((List.eraseIdx_sublist _ _).subset hc)
  | insert table columns values =>
      obtain ⟨ts, es, pk, key, hi⟩ := executeInsert_ok hx
      rw [hi.result]
      exact hdb
  | update table assignments clause =>
      obtain ⟨ts, es, pkIndex, rows, us, hu⟩ := executeUpdate_ok hx
      rw [hu.result]
      exact hdb
  | delete table clause =>
      obtain ⟨ts, es, rows, -, -, -, rfl, -⟩ := executeDelete_ok hx
      exact hdb

/-- The run. -/
theorem described_reaches (h : tx.Lawful) {s : SqlState}
    (hs : Transition.Reaches (SqlState.Step ext put)
      (SqlState.When fun _ stmt => stmt.FromText tx) .init s) :
    Described tx s.tables.schema :=
  SqlState.tables_invariant (I := fun db => Described tx db.schema) Described.empty
    (fun _ _ _ _ => described_statement h) hs

theorem map_readBack_iff {columns : List Column} : columns.map readBack = columns ↔
    ∀ c ∈ columns, c.primaryKey = true → c.unique = false := by
  have hone : ∀ c : Column, readBack c = c ↔ (c.primaryKey = true → c.unique = false) := by
    rintro ⟨name, type, primaryKey, notNull, unique⟩
    rw [readBack, Column.mk.injEq]
    cases primaryKey
    all_goals cases unique
    all_goals simp
  rw [← forall₂_congr fun c _ => hone c]
  conv_lhs => rw [← List.map_id columns, List.map_map]
  exact List.map_inj_left

/-- The text of a described table is read back exactly if its columns are describable. -/
theorem parse_tableText_iff (h : tx.Lawful) {name : String} {ts : TableSchema}
    (hts : ts.Described tx name) :
    parse tx (tableText name.toList (columnsText ts.columns)) =
      .ok (.change (.createTable name ts.columns)) ↔ Describable ts.columns := by
  constructor
  · intro hparse
    have hne : ts.columns ≠ [] := by
      intro hnil
      rw [hnil] at hparse
      exact parse_noColumns h hts.word hparse
    have hnames := plainNames_of_parse h hts.word hne hparse
    rw [parse_describe h hts.word hne hnames hts.declared, String.ofList_toList] at hparse
    have hstmt := SqlStatement.change.inj (Except.ok.inj hparse)
    exact ⟨hne, hnames, map_readBack_iff.mp (Statement.createTable.inj hstmt).2⟩
  · intro hcolumns
    rw [parse_describe h hts.word hcolumns.nonempty hcolumns.names hts.declared,
      String.ofList_toList, map_readBack_iff.mpr hcolumns.flags]

end Parser

/-! ## Descriptions -/

section

variable {tx : TextFns} {ext : Externals} {put : Put}

theorem describeTable_ok {schema : Std.ExtTreeMap String TableSchema} {name : String}
    {ts : TableSchema} (hts : schema[name]? = some ts) :
    describeTable schema name =
      .ok (Parser.tableText ts.name.toList (columnsText ts.columns)) := by
  rw [describeTable, bind_ok]
  exact ⟨ts, getTable_ok.mpr hts, rfl⟩

/-- In every run of parsed statements: the description of a table is read back as its name and
its columns exactly if it has a column, every name is plain and no PRIMARY KEY is UNIQUE. -/
theorem describe_round_trip (h : tx.Lawful) {s : SqlState}
    (hs : Transition.Reaches (SqlState.Step ext put)
      (SqlState.When fun _ stmt => stmt.FromText tx) .init s) {name : String} {ts : TableSchema}
    (hts : s.tables.schema[name]? = some ts) :
    ∃ text, describeTable s.tables.schema name = .ok text ∧
      (Parser.parse tx text = .ok (.change (.createTable name ts.columns)) ↔
        Describable ts.columns) := by
  have hdescribed := Parser.described_reaches h hs name ts hts
  refine ⟨_, describeTable_ok hts, ?_⟩
  rw [hdescribed.name_eq]
  exact Parser.parse_tableText_iff h hdescribed

end

/-- A table with a quoted name. -/
def quotedTable : List Char := "CREATE TABLE t (\"a b\" INTEGER PRIMARY KEY)".toList

/-- A table without. -/
def plainTable : List Char := "CREATE TABLE t (a INTEGER PRIMARY KEY)".toList

/-- The column of the first. -/
def quotedColumn : Column := ⟨"a b", .integer, true, true, false⟩

/-- The column of the second. -/
def plainColumn : Column := ⟨"a", .integer, true, true, false⟩

/-- A state after one CREATE TABLE that was parsed. -/
theorem reaches_create (text : List Char) (column : Column)
    (hparse : Parser.parse .basic text = .ok (.change (.createTable "t" [column]))) :
    ∃ s : SqlState, Transition.Reaches (SqlState.Step mute Multimap.insert)
      (SqlState.When fun _ stmt => stmt.FromText .basic) .init s ∧
        s.tables.schema["t"]? = some ⟨"t", [column]⟩ := by
  have hrun : executeStatement mute (listTrees Multimap.insert) .empty (.createTable "t" [column]) =
      .ok (⟨Std.ExtTreeMap.insert ∅ "t" ⟨"t", [column]⟩, Std.ExtTreeMap.insert ∅ "t" []⟩, []) := rfl
  have hok : SqlState.When (fun _ stmt => stmt.FromText .basic) .init
      (.statement (.createTable "t" [column])) := ⟨text, hparse⟩
  exact ⟨_, Transition.Reaches.refl.tail hok (.statement hrun), Std.ExtTreeMap.getElem?_insert_self⟩

theorem describe_round_trip_plain : ∃ s : SqlState,
    s.tables.schema["t"]? = some ⟨"t", [plainColumn]⟩ ∧
    ∃ text, describeTable s.tables.schema "t" = .ok text ∧
      Parser.parse .basic text = .ok (.change (.createTable "t" [plainColumn])) := by
  obtain ⟨s, hs, hts⟩ := reaches_create plainTable plainColumn rfl
  obtain ⟨text, htext, hiff⟩ := describe_round_trip TextFns.basic_lawful hs hts
  refine ⟨s, hts, text, htext, hiff.mpr ⟨List.cons_ne_nil _ _, fun c hc => ?_, fun c hc _ => ?_⟩⟩
  · have hname : plainColumn.name.toList = ['a'] := rfl
    rw [List.mem_singleton.mp hc, hname]
    refine ⟨List.cons_ne_nil _ _, fun d hd => ?_, by decide, fun d hd => ?_⟩
    · rw [List.mem_singleton.mp hd]
      rfl
    · rw [← Option.some.inj hd]
      decide
  · rw [List.mem_singleton.mp hc]
    rfl

/-- `a b INTEGER PRIMARY KEY` is the column `a`. -/
theorem not_describe_round_trip : ¬ ∀ s : SqlState,
    Transition.Reaches (SqlState.Step mute Multimap.insert)
      (SqlState.When fun _ stmt => stmt.FromText .basic) .init s →
    ∀ (name : String) (ts : TableSchema), s.tables.schema[name]? = some ts →
      ∃ text, describeTable s.tables.schema name = .ok text ∧
        Parser.parse .basic text = .ok (.change (.createTable name ts.columns)) := by
  intro hall
  obtain ⟨s, hs, hts⟩ := reaches_create quotedTable quotedColumn rfl
  obtain ⟨text, htext, hparse⟩ := hall s hs "t" _ hts
  obtain rfl := Except.ok.inj ((describeTable_ok hts).symm.trans htext)
  have hread : Parser.parse .basic (Parser.tableText "t".toList (columnsText [quotedColumn])) =
      .ok (.change (.createTable "t" [⟨"a", .text, true, true, false⟩])) := rfl
  have hstmt := SqlStatement.change.inj (Except.ok.inj (hread.symm.trans hparse))
  have hcolumn := (List.cons.inj (Statement.createTable.inj hstmt).2).1
  exact absurd (congrArg Column.name hcolumn) (by decide)

end VelociDB
