/-
# LIKE and the wildcards of SQL (`parser.rs`)

`Operator::evaluate` translates a LIKE pattern letter by letter into a regular expression.
Every letter is translated to what SQL means by it, but for one: the `.` that stands for a
wildcard is no line feed.
-/
import VelociDB.Lib.Regex
import VelociDB.ExecutorLogic

namespace VelociDB

/-! ## The wildcards -/

/-- SQL's LIKE: the text is cut into what the letters of the pattern stand for. -/
inductive Like : List Char → List Char → Prop
  | nil : Like [] []
  | percent {p a : List Char} (w : List Char) : Like p a → Like ('%' :: p) (w ++ a)
  | underscore {p a : List Char} (c : Char) : Like p a → Like ('_' :: p) (c :: a)
  | letter {p a : List Char} {c : Char} : c ≠ '%' → c ≠ '_' → Like p a →
      Like (c :: p) (c :: a)

/-- LIKE answers, and answers what the wildcards mean. -/
def LikeMeans (ext : Externals) (a p : String) : Prop :=
  ∃ b, Operator.like.evaluate ext (.text a) (.text p) = .ok b ∧ (b = true ↔ Like p.toList a.toList)

/-! ## The regular expressions -/

namespace LikeRegex

/-- The letters that `Operator::evaluate` escapes. -/
def special : List Char := ".+*?()[]\x7b\x7d|^$\\".toList

/-- `.`, a letter that is no line feed. -/
def dot (c : Char) : Bool := c != '\n'

/-- How the regex crate reads `^`, `$`, `.`, `.*`, an escaped letter, and a letter that is
not special. -/
def read : List Char → Option (List (Regex Char))
  | [] => some []
  | c :: rest =>
      if c = '^' then (read rest).map (.start :: ·)
      else if c = '$' then (read rest).map (.stop :: ·)
      else if c = '.' then
        match rest with
        | '*' :: rest => (read rest).map (.many dot true :: ·)
        | rest => (read rest).map (.one dot :: ·)
      else if c = '\\' then
        match rest with
        | d :: rest => if d ∈ special then (read rest).map (.one (· == d) :: ·) else none
        | [] => none
      else if c ∈ special then none
      else (read rest).map (.one (· == c) :: ·)

/-- The regex crate on these expressions: it accepts the texts they match. -/
def Crate (ext : Externals) : Prop :=
  ∀ re items a, read re.toList = some items →
    ext.regexIsMatch re a = .ok ((Regex.seqs items).search a.toList).isSome

/-- What a letter of a pattern becomes. -/
def item (ch : Char) : Regex Char :=
  if ch = '%' then .many dot true else if ch = '_' then .one dot else .one (· == ch)

/-- The letters `likeRegex` writes for a letter of the pattern. -/
def translate (ch : Char) : List Char :=
  if ch = '%' then ['.', '*']
  else if ch = '_' then ['.']
  else if ch ∈ special then ['\\', ch]
  else [ch]

theorem likeRegex_eq (p : String) :
    (Operator.likeRegex p).toList = '^' :: p.toList.flatMap translate ++ ['$'] := by
  rw [Operator.likeRegex, String.toList_ofList]
  rfl

/-- No translation continues a `.` before it. -/
theorem head_ne_star (p : List Char) : (p.flatMap translate ++ ['$']).head? ≠ some '*' := by
  cases p with
  | nil => simp
  | cons c p =>
      have hstar : '*' ∈ special := by decide
      have hhead : (translate c).head? ≠ some '*' ∧ translate c ≠ [] := by
        unfold translate
        split
        · simp
        · split
          · simp
          · split
            · simp
            · rename_i h
              refine ⟨?_, by simp⟩
              rintro heq
              obtain rfl : c = '*' := by simpa using heq
              exact h hstar
      rw [List.flatMap_cons, List.append_assoc, List.head?_append_of_ne_nil _ hhead.2]
      exact hhead.1

theorem read_dot {rest : List Char} (h : rest.head? ≠ some '*') :
    read ('.' :: rest) = (read rest).map (.one dot :: ·) := by
  rw [read.eq_def]
  dsimp only
  rw [if_neg (by decide), if_neg (by decide), if_pos rfl]
  split
  · exact absurd rfl h
  · rfl

/-- A translated letter is read as its item. -/
theorem read_translate (c : Char) {rest : List Char} (h : rest.head? ≠ some '*') :
    read (translate c ++ rest) = (read rest).map (item c :: ·) := by
  unfold translate item
  split
  · rfl
  · split
    · exact read_dot h
    · split
      · rename_i hc
        rw [List.cons_append, List.singleton_append, read.eq_def]
        exact if_pos hc
      · rename_i hc
        have hne : c ≠ '^' ∧ c ≠ '$' ∧ c ≠ '.' ∧ c ≠ '\\' := by
          refine ⟨?_, ?_, ?_, ?_⟩ <;>
          · rintro rfl
            exact hc (by decide)
        rw [List.singleton_append, read.eq_def]
        dsimp only
        rw [if_neg hne.1, if_neg hne.2.1, if_neg hne.2.2.1, if_neg hne.2.2.2, if_neg hc]

theorem read_pattern (p : List Char) :
    read (p.flatMap translate ++ ['$']) = some (p.map item ++ [.stop]) := by
  induction p with
  | nil => rfl
  | cons c p ih =>
      rw [List.flatMap_cons, List.append_assoc, read_translate c (head_ne_star p), ih]
      rfl

/-! ## What the expression of a pattern matches -/

/-- LIKE with wildcards that stay on their line. -/
inductive OnLine : List Char → List Char → Prop
  | nil : OnLine [] []
  | percent {p a : List Char} (w : List Char) : '\n' ∉ w → OnLine p a →
      OnLine ('%' :: p) (w ++ a)
  | underscore {p a : List Char} (c : Char) : c ≠ '\n' → OnLine p a →
      OnLine ('_' :: p) (c :: a)
  | letter {p a : List Char} {c : Char} : c ≠ '%' → c ≠ '_' → OnLine p a →
      OnLine (c :: p) (c :: a)

theorem dot_iff {w : List Char} : (∀ c ∈ w, dot c = true) ↔ '\n' ∉ w := by
  simp only [dot, bne_iff_ne]
  exact ⟨fun h hn => h _ hn rfl, fun h c hc hn => h (hn ▸ hc)⟩

/-- The items of a pattern run through the texts the pattern matches on one line. -/
theorem runs_items {p : List Char} {c d : Regex.Cursor Char} :
    (Regex.seqs (p.map item ++ [.stop])).Runs c d → OnLine p c.rest := by
  induction p generalizing c with
  | nil =>
      rintro ⟨e, ⟨hrest, rfl⟩, -⟩
      rw [hrest]
      exact .nil
  | cons x p ih =>
      rintro ⟨e, hx, hp⟩
      have hrest := ih hp
      unfold item at hx
      split at hx
      · rename_i hpercent
        obtain ⟨w, hw, heq, -⟩ := hx
        rw [heq, hpercent]
        exact .percent w (dot_iff.mp hw) hrest
      · split at hx
        · rename_i hunder
          obtain ⟨y, hy, heq, -⟩ := hx
          rw [heq, hunder]
          exact .underscore y (bne_iff_ne.mp hy) hrest
        · rename_i hpercent hunder
          obtain ⟨y, hy, heq, -⟩ := hx
          rw [heq, beq_iff_eq.mp hy]
          exact .letter hpercent hunder hrest

theorem OnLine.runs {p a : List Char} (h : OnLine p a) (b : Bool) (groups : List (Nat × List Char)) :
    ∃ d, (Regex.seqs (p.map item ++ [.stop])).Runs ⟨b, a, groups⟩ d := by
  induction h generalizing b with
  | nil => exact ⟨⟨b, [], groups⟩, ⟨b, [], groups⟩, ⟨rfl, rfl⟩, rfl⟩
  | percent w hw _ ih =>
      obtain ⟨d, hd⟩ := ih (b && w.isEmpty)
      exact ⟨d, _, ⟨w, dot_iff.mpr hw, rfl, rfl⟩, hd⟩
  | underscore c hc _ ih =>
      obtain ⟨d, hd⟩ := ih false
      exact ⟨d, _, ⟨c, bne_iff_ne.mpr hc, rfl, rfl⟩, hd⟩
  | @letter p a c hp hu _ ih =>
      obtain ⟨d, hd⟩ := ih false
      refine ⟨d, ⟨false, a, groups⟩, ?_, hd⟩
      rw [item, if_neg hp, if_neg hu]
      exact ⟨c, beq_self_eq_true c, rfl, rfl⟩

/-- The regular expression of a pattern accepts what the pattern matches on one line. -/
theorem evaluate_like {ext : Externals} (h : Crate ext) (a p : String) :
    ∃ b, Operator.like.evaluate ext (.text a) (.text p) = .ok b ∧
      (b = true ↔ OnLine p.toList a.toList) := by
  have hread : read (Operator.likeRegex p).toList = some (.start :: (p.toList.map item ++ [.stop])) := by
    rw [likeRegex_eq, List.cons_append, read.eq_def]
    exact congrArg (Option.map (Regex.start :: ·)) (read_pattern p.toList)
  refine ⟨_, h _ _ a hread, ?_⟩
  rw [Regex.seqs, Regex.search_start, Option.isSome_map, Regex.exec_isSome]
  constructor
  · rintro ⟨d, hd, -⟩
    exact runs_items hd
  · intro hline
    obtain ⟨d, hd⟩ := hline.runs true []
    exact ⟨d, hd, rfl⟩

/-! ## On one line or not -/

theorem OnLine.like {p a : List Char} (h : OnLine p a) : Like p a := by
  induction h with
  | nil => exact .nil
  | percent w _ _ ih => exact .percent w ih
  | underscore c _ _ ih => exact .underscore c ih
  | letter hp hu _ ih => exact .letter hp hu ih

theorem OnLine.count {p a : List Char} (h : OnLine p a) : a.count '\n' = p.count '\n' := by
  induction h with
  | nil => rfl
  | percent w hw _ ih =>
      rw [List.count_append, List.count_eq_zero_of_not_mem hw, Nat.zero_add, ih,
        List.count_cons_of_ne (by decide)]
  | underscore c hc _ ih => rw [List.count_cons_of_ne hc, ih, List.count_cons_of_ne (by decide)]
  | letter _ _ _ ih => rw [List.count_cons, List.count_cons, ih]

/-- A match holds every line feed of the pattern. -/
theorem count_le_of_like {p a : List Char} (h : Like p a) : p.count '\n' ≤ a.count '\n' := by
  induction h with
  | nil => exact le_rfl
  | percent w _ ih =>
      rw [List.count_cons_of_ne (by decide), List.count_append]
      exact le_trans ih (Nat.le_add_left _ _)
  | underscore c _ ih =>
      rw [List.count_cons_of_ne (by decide)]
      exact le_trans ih (List.count_le_count_cons)
  | letter _ _ _ ih =>
      rw [List.count_cons, List.count_cons]
      exact Nat.add_le_add_right ih _

/-- If the counts agree, no wildcard stands for a line feed. -/
theorem onLine_of_like {p a : List Char} (h : Like p a) (hcount : a.count '\n' = p.count '\n') :
    OnLine p a := by
  induction h with
  | nil => exact .nil
  | @percent p a w h ih =>
      rw [List.count_cons_of_ne (by decide), List.count_append] at hcount
      have hle := count_le_of_like h
      have hw : w.count '\n' = 0 := by omega
      exact .percent w (List.count_eq_zero.mp hw) (ih (by omega))
  | @underscore p a c h ih =>
      rw [List.count_cons_of_ne (show ('_' : Char) ≠ '\n' by decide)] at hcount
      have hle := count_le_of_like h
      have hc : c ≠ '\n' := by
        rintro rfl
        rw [List.count_cons_self] at hcount
        omega
      rw [List.count_cons_of_ne hc] at hcount
      exact .underscore c hc (ih hcount)
  | letter hp hu _ ih =>
      rw [List.count_cons, List.count_cons] at hcount
      exact .letter hp hu (ih (Nat.add_right_cancel hcount))

theorem onLine_iff {p a : List Char} :
    OnLine p a ↔ Like p a ∧ a.count '\n' = p.count '\n' :=
  ⟨fun h => ⟨h.like, h.count⟩, fun h => onLine_of_like h.1 h.2⟩

end LikeRegex

/-- LIKE means what its wildcards mean exactly if no match of them is for a text with more
line feeds than the pattern. -/
theorem like_means_iff {ext : Externals} (h : LikeRegex.Crate ext) (a p : String) :
    LikeMeans ext a p ↔
      (Like p.toList a.toList → a.toList.count '\n' = p.toList.count '\n') := by
  obtain ⟨b, hb, hiff⟩ := LikeRegex.evaluate_like h a p
  rw [LikeRegex.onLine_iff] at hiff
  constructor
  · rintro ⟨b', hb', hlike⟩ hmatch
    obtain rfl : b = b' := Except.ok.inj (hb.symm.trans hb')
    exact (hiff.mp (hlike.mpr hmatch)).2
  · intro hcount
    exact ⟨b, hb, hiff.trans ⟨And.left, fun hmatch => ⟨hmatch, hcount hmatch⟩⟩⟩

/-- A regex crate that knows these expressions only. -/
def LikeRegex.crate : Externals :=
  { mute with
    regexIsMatch := fun re a =>
      match read re.toList with
      | some items => .ok ((Regex.seqs items).search a.toList).isSome
      | none => .error (.parseError "Invalid LIKE pattern") }

theorem LikeRegex.crate_reads : Crate crate := by
  intro re items a h
  dsimp only [crate]
  rw [h]

theorem like_means_iff_word : LikeMeans LikeRegex.crate "a.b" "%.b" ↔
    (Like "%.b".toList "a.b".toList → "a.b".toList.count '\n' = "%.b".toList.count '\n') :=
  like_means_iff LikeRegex.crate_reads "a.b" "%.b"

/-- `%` does not stand for a line feed. -/
theorem not_like_means : ¬ ∀ ext, LikeRegex.Crate ext → ∀ a p, LikeMeans ext a p := by
  intro h
  obtain ⟨b, hb, hiff⟩ := h LikeRegex.crate LikeRegex.crate_reads "a\nb" "a%b"
  have hlike : Like "a%b".toList "a\nb".toList :=
    .letter (by decide) (by decide) (.percent ['\n'] (.letter (by decide) (by decide) .nil))
  have hanswer : Operator.like.evaluate LikeRegex.crate (.text "a\nb") (.text "a%b") =
      .ok false := by decide +kernel
  rw [hanswer] at hb
  rw [hiff.mpr hlike] at hb
  cases hb

end VelociDB
