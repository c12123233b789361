/-
# A table as the text of its CREATE TABLE (`storage.rs`)

`describe_table` prints the columns without quotes, and a PRIMARY KEY column without its
other constraints:

    name          read back if it is not empty, has no white space, no comma, and no quote
                  at its start (`PlainName`)
    type          read back, as the parser makes none of type NULL
    PRIMARY KEY   read back with NOT NULL; a UNIQUE beside it is not printed (`readBack`)

With plain names the parser reads the text column by column (`parse_describe`).
-/
import VelociDB.Printer
import VelociDB.TableInv

namespace VelociDB

open Text

/-! ## The text -/

/-- The type of a column. -/
def typeText : DataType → List Char
  | .integer => "INTEGER".toList
  | .real => "REAL".toList
  | .text => "TEXT".toList
  | .blob => "BLOB".toList
  | .null => "NULL".toList
  | .vector dim => "F32_BLOB(".toList ++ Nat.toDigits 10 dim.toNat ++ [')']

/-- A column. -/
def columnText (c : Column) : List Char :=
  c.name.toList ++ ' ' :: typeText c.dataType ++
    (if c.primaryKey then " PRIMARY KEY".toList else []) ++
    (if c.notNull && !c.primaryKey then " NOT NULL".toList else []) ++
    (if c.unique && !c.primaryKey then " UNIQUE".toList else [])

/-- The columns, with a comma and a blank before each but the first. -/
def columnsText (columns : List Column) : List Char :=
  List.intercalate ", ".toList (columns.map columnText)

/-- `Database::describe_table`. -/
def describeTable (schema : Std.ExtTreeMap String TableSchema) (name : String) :
    Except Fault (List Char) := do
  let table ← getTable schema name
  return "CREATE TABLE ".toList ++ table.name.toList ++ " (".toList ++
    columnsText table.columns ++ [')']

/-- A name that is read back from a column definition. -/
structure PlainName (name : List Char) : Prop where
  nonempty : name ≠ []
  solid : ∀ c ∈ name, isWhite c = false
  comma : ',' ∉ name
  head : ∀ c, name.head? = some c → c ∉ ['"', '\x60', '[']

namespace Parser

variable {tx : TextFns}

/-! ## Printed words -/

/-- The letters of types and constraints. -/
def isPrinted (c : Char) : Bool := c.isUpper || c.isDigit || c ∈ ['_', '(', ')']

theorem isPrinted_facts {c : Char} (h : isPrinted c = true) :
    isAscii c = true ∧ c.toUpper = c ∧ isWhite c = false ∧
      c ∉ [',', '"', '\x60', '[', ']', '\'', '\\', '\n'] := by
  have hrange : 40 ≤ c.toNat ∧ c.toNat ≤ 95 := by
    rw [isPrinted, Bool.or_eq_true, Bool.or_eq_true, Char.isUpper, Char.isDigit] at h
    rcases h with (h | h) | h
    · obtain ⟨hlo, hhi⟩ := of_decide_eq_true h
      exact ⟨le_trans (by decide) (UInt32.le_iff_toNat_le.mp hlo),
        le_trans (UInt32.le_iff_toNat_le.mp hhi) (by decide)⟩
    · rw [Bool.and_eq_true, decide_eq_true_eq, decide_eq_true_eq] at h
      exact ⟨le_trans (by decide) (UInt32.le_iff_toNat_le.mp h.1),
        le_trans (UInt32.le_iff_toNat_le.mp h.2) (by decide)⟩
    · have hmem := of_decide_eq_true h
      simp only [List.mem_cons, List.not_mem_nil, or_false] at hmem
      rcases hmem with rfl | rfl | rfl
      all_goals decide
  obtain ⟨n, hn, rfl⟩ : ∃ n, c.toNat = n ∧ c = Char.ofNat n := ⟨_, rfl, (Char.ofNat_toNat c).symm⟩
  rw [hn] at hrange
  obtain ⟨hlo, hhi⟩ := hrange
  clear hn
  interval_cases n
  all_goals first | exact absurd h (by decide) | decide

/-- A word of types and constraints. -/
def PrintedWord (w : List Char) : Prop := w ≠ [] ∧ ∀ c ∈ w, isPrinted c = true

theorem PrintedWord.of_all {w : List Char} (hne : w ≠ []) (h : w.all isPrinted = true) :
    PrintedWord w := ⟨hne, fun c hc => List.all_eq_true.mp h c hc⟩

theorem toDigits_printed (n : Nat) : PrintedWord (Nat.toDigits 10 n) := by
  refine ⟨Nat.toDigits_ne_nil, fun c hc => ?_⟩
  have hdigit : c.isDigit = true := Nat.isDigit_of_mem_toDigits (by decide) (by decide) hc
  rw [isPrinted, hdigit, Bool.or_true, Bool.true_or]

theorem typeText_vector (dim : UInt32) :
    typeText (.vector dim) = "F32_BLOB(".toList ++ Nat.toDigits 10 dim.toNat ++ [')'] := rfl

theorem typeText_printed (t : DataType) : PrintedWord (typeText t) := by
  cases t with
  | integer | real | text | blob | null => exact .of_all (List.cons_ne_nil _ _) rfl
  | vector dim =>
      rw [typeText_vector]
      refine ⟨List.append_ne_nil_of_right_ne_nil _ (List.cons_ne_nil _ _), fun c hc => ?_⟩
      rcases List.mem_append.mp hc with hc | hc
      · rcases List.mem_append.mp hc with hc | hc
        · have hall : "F32_BLOB(".toList.all isPrinted = true := rfl
          exact List.all_eq_true.mp hall c hc
        · exact (toDigits_printed _).2 c hc
      · rw [List.mem_singleton.mp hc]
        rfl

/-- The constraints that are printed. -/
def flagWords (primaryKey notNull unique : Bool) : List (List Char) :=
  (if primaryKey then ["PRIMARY".toList, "KEY".toList] else []) ++
    (if notNull && !primaryKey then ["NOT".toList, "NULL".toList] else []) ++
    (if unique && !primaryKey then ["UNIQUE".toList] else [])

/-- What is printed behind the name. -/
def columnWords (c : Column) : List (List Char) :=
  typeText c.dataType :: flagWords c.primaryKey c.notNull c.unique

/-- The words of all constraints. -/
def allFlags : List (List Char) :=
  ["PRIMARY".toList, "KEY".toList, "NOT".toList, "NULL".toList, "UNIQUE".toList]

/-- Which words are printed. -/
theorem mem_flagWords : ∀ primaryKey notNull unique : Bool,
    (∀ w ∈ flagWords primaryKey notNull unique, w ∈ allFlags) ∧
    (("PRIMARY".toList ∈ flagWords primaryKey notNull unique ∧
      "KEY".toList ∈ flagWords primaryKey notNull unique) ↔ primaryKey = true) ∧
    (("NOT".toList ∈ flagWords primaryKey notNull unique ∧
      "NULL".toList ∈ flagWords primaryKey notNull unique) ↔
        (notNull && !primaryKey) = true) ∧
    ("UNIQUE".toList ∈ flagWords primaryKey notNull unique ↔
      (unique && !primaryKey) = true) := by
  decide

/-- Words, a blank before each. -/
def spaced (words : List (List Char)) : List Char := words.flatMap (' ' :: ·)

theorem columnText_eq (c : Column) : columnText c = c.name.toList ++ spaced (columnWords c) := by
  obtain ⟨name, type, primaryKey, notNull, unique⟩ := c
  rw [columnText, columnWords, spaced, List.flatMap_cons, flagWords, List.flatMap_append,
    List.flatMap_append, List.append_assoc, List.append_assoc, List.append_assoc,
    List.cons_append, List.append_assoc, List.cons_append]
  cases primaryKey
  all_goals cases notNull
  all_goals cases unique
  all_goals rfl

theorem columnWords_printed {c : Column} {w : List Char} (hw : w ∈ columnWords c) :
    PrintedWord w := by
  rcases List.mem_cons.mp hw with rfl | hw
  · exact typeText_printed _
  · have hall : (allFlags.all fun v => !v.isEmpty && v.all isPrinted) = true := rfl
    have hprinted := List.all_eq_true.mp hall w ((mem_flagWords _ _ _).1 w hw)
    rw [Bool.and_eq_true, Bool.not_eq_true', List.isEmpty_eq_false_iff] at hprinted
    exact .of_all hprinted.1 hprinted.2

/-! ## Words read back -/

section

variable {w v : List Char} {words : List (List Char)}

theorem PrintedWord.not_white (h : PrintedWord w) : ∀ c ∈ w, isWhite c = false :=
  fun c hc => (isPrinted_facts (h.2 c hc)).2.2.1

/-- What is in upper case stays so. -/
theorem upper_fixed (h : tx.Lawful) (hw : ∀ c ∈ w, isAscii c = true ∧ c.toUpper = c) :
    tx.upper w = w := by
  induction w with
  | nil => rfl
  | cons c w ih =>
      obtain ⟨hascii, hc⟩ := hw c List.mem_cons_self
      rw [TextFns.upper, List.flatMap_cons, h.upper_ascii c hascii, hc]
      exact congrArg (c :: ·) (ih fun d hd => hw d (List.mem_cons_of_mem _ hd))

theorem PrintedWord.upper (h : tx.Lawful) (hw : PrintedWord w) : tx.upper w = w :=
  upper_fixed h fun c hc => ⟨(isPrinted_facts (hw.2 c hc)).1, (isPrinted_facts (hw.2 c hc)).2.1⟩

/-- A word goes into the current part. -/
theorem partsLoop_word (hw : ∀ c ∈ w, isPrinted c = true) (current rest : List Char) :
    partsLoop current none false (w ++ rest) = partsLoop (current ++ w) none false rest := by
  induction w generalizing current with
  | nil => rw [List.nil_append, List.append_nil]
  | cons c w ih =>
      obtain ⟨-, -, hwhite, hmem⟩ := isPrinted_facts (hw c List.mem_cons_self)
      have hback : c ≠ '\\' := by
        rintro rfl
        exact hmem (by decide)
      have hquote : ¬ ((none : Option Char) = none ∧ (c = '"' ∨ c = '\'')) := by
        rintro ⟨-, rfl | rfl⟩
        · exact hmem (by decide)
        · exact hmem (by decide)
      have hblank : ¬ ((none : Option Char) = none ∧ isWhite c = true) := by
        rintro ⟨-, hc⟩
        rw [hwhite] at hc
        cases hc
      rw [List.cons_append, partsLoop, if_neg Bool.false_ne_true, if_neg hback, if_neg hquote,
        if_neg (by rintro ⟨⟩), if_neg hblank, ih fun d hd => hw d (List.mem_cons_of_mem _ hd),
        List.append_assoc]
      rfl

theorem partsLoop_spaced (hv : PrintedWord v) (hwords : ∀ w ∈ words, PrintedWord w) :
    partsLoop v none false (spaced words) = v :: words := by
  induction words generalizing v with
  | nil => exact if_neg hv.1
  | cons w words ih =>
      have hw := hwords w List.mem_cons_self
      have hrest := ih hw fun u hu => hwords u (List.mem_cons_of_mem _ hu)
      have hword := partsLoop_word hw.2 [] (spaced words)
      rw [List.nil_append] at hword
      rw [spaced, List.flatMap_cons, List.cons_append]
      change partsLoop v none false (' ' :: (w ++ spaced words)) = _
      rw [partsLoop, if_neg Bool.false_ne_true, if_neg (by decide), if_neg (by decide),
        if_neg (by rintro ⟨⟩), if_pos ⟨rfl, rfl⟩, if_neg hv.1, hword, hrest]

/-- Printed words are split where they were joined. -/
theorem splitSqlParts_spaced (hw : PrintedWord w) (hwords : ∀ v ∈ words, PrintedWord v) :
    splitSqlParts (w ++ spaced words) = w :: words := by
  rw [splitSqlParts, partsLoop_word hw.2, List.nil_append, partsLoop_spaced hw hwords]

theorem spaced_last (hwords : ∀ w ∈ words, PrintedWord w) {c : Char}
    (hc : (spaced words).getLast? = some c) : isPrinted c = true := by
  rcases List.eq_nil_or_concat words with rfl | ⟨words, w, rfl⟩
  · cases hc
  · have hw := hwords w (by simp)
    rw [spaced, List.concat_eq_append, List.flatMap_append, List.flatMap_cons, List.flatMap_nil,
      List.append_nil, List.getLast?_append_of_ne_nil _ (List.cons_ne_nil _ _), List.getLast?_cons,
      List.getLast?_eq_some_getLast hw.1] at hc
    obtain rfl := Option.some.inj hc
    exact hw.2 _ (List.getLast_mem hw.1)

theorem stripStart_append (p s : List Char) : stripStart p (p ++ s) = some s := by
  rw [stripStart, if_pos (List.prefix_append p s), List.drop_left]

theorem parseUnsigned_toDigits {max n : Nat} (h : n ≤ max) :
    parseUnsigned max 10 (Nat.toDigits 10 n) = .ok n := by
  have hdigits := parseDigits_toDigits h
  obtain ⟨c, s, hs⟩ := List.exists_cons_of_ne_nil (Nat.toDigits_ne_nil : Nat.toDigits 10 n ≠ [])
  have hc : c.isDigit = true := by
    refine Nat.isDigit_of_mem_toDigits (by decide) (by decide) (?_ : c ∈ Nat.toDigits 10 n)
    rw [hs]
    exact List.mem_cons_self
  have hplus : c ≠ '+' := by
    rintro rfl
    cases hc
  rw [hs] at hdigits ⊢
  rw [parseUnsigned, if_neg fun h => hplus h.1, hdigits]

/-- A printed type is read back. -/
theorem dataTypeFromStr_text (h : tx.Lawful) {t : DataType} (ht : t ≠ .null) :
    dataTypeFromStr tx (typeText t) = t := by
  have hprinted := typeText_printed t
  have hupper : tx.upper (trim isWhite (typeText t)) = typeText t := by
    rw [trim_solid hprinted.not_white, hprinted.upper h]
  rw [dataTypeFromStr, hupper]
  cases t with
  | null => exact absurd rfl ht
  | integer => rfl
  | real => rfl
  | text => rfl
  | blob => rfl
  | vector dim =>
      have hstrip : stripStart "F32_BLOB(".toList (typeText (.vector dim)) =
          some (Nat.toDigits 10 dim.toNat ++ [')']) := by
        rw [typeText_vector, List.append_assoc, stripStart_append]
      have hdim := dim.toNat_lt
      rw [hstrip]
      dsimp only [Option.some_or, Option.bind_eq_bind, Option.bind_some]
      rw [List.getLast?_concat, if_pos rfl, List.dropLast_concat,
        trim_solid (toDigits_printed _).not_white, parseUnsigned_toDigits (by omega)]
      exact congrArg DataType.vector (UInt32.ofNat_toNat)

end

/-! ## Columns read back -/

/-- The column a definition is read as: a UNIQUE beside a PRIMARY KEY is lost. -/
def readBack (c : Column) : Column := { c with unique := c.unique && !c.primaryKey }

/-- What the parser makes of a column definition: a PRIMARY KEY is NOT NULL, and no type is
NULL. -/
structure Declared (c : Column) : Prop where
  key : c.primaryKey = true → c.notNull = true
  type : c.dataType ≠ .null

theorem parseIdentifier_plain {name rest : List Char} (hname : PlainName name)
    (hhead : ∀ c, rest.head? = some c → isWhite c = true)
    (hlast : ∀ c, (name ++ rest).getLast? = some c → isWhite c = false) :
    parseIdentifier (name ++ rest) = .ok (name, rest) := by
  obtain ⟨c, s, hs⟩ := List.exists_cons_of_ne_nil hname.nonempty
  have htrim : trim isWhite (name ++ rest) = name ++ rest := by
    refine trim_of_ends (fun d hd => ?_) hlast
    rw [List.head?_append_of_ne_nil _ hname.nonempty] at hd
    exact hname.solid d (List.mem_of_mem_head? hd)
  have hno := hname.head c (by rw [hs]; rfl)
  have hquote : ¬ (c = '"' ∨ c = '\x60') := by
    rintro (rfl | rfl)
    · exact hno (by decide)
    · exact hno (by decide)
  have hbracket : c ≠ '[' := by
    rintro rfl
    exact hno (by decide)
  have hsolid : ∀ d ∈ name, (!isWhite d) = true := fun d hd => by rw [hname.solid d hd]; rfl
  have hspan : name = (name ++ rest).takeWhile (fun c => !isWhite c) ∧
      rest = (name ++ rest).dropWhile (fun c => !isWhite c) := by
    refine span_unique (p := fun c => !isWhite c) List.takeWhile_append_dropWhile.symm hsolid
      (fun d hd => List.mem_takeWhile_imp (p := fun c => !isWhite c) hd)
      (fun d hd => by rw [hhead d hd]; rfl) ?_
    intro d hd
    have hnot := List.head?_dropWhile_not (fun c => !isWhite c) (name ++ rest)
    rw [hd] at hnot
    simpa using hnot
  rw [parseIdentifier, htrim]
  rw [← hspan.1, ← hspan.2, hs, List.cons_append]
  dsimp only
  rw [if_neg hquote, if_neg hbracket]

/-- No flag is a type. -/
theorem typeText_ne {t : DataType} (ht : t ≠ .null) {w : List Char}
    (hw : w ∈ allFlags) : typeText t ≠ w := by
  have hhead : (typeText t).head? ∈ [some 'I', some 'R', some 'T', some 'B', some 'F'] := by
    cases t with
    | null => exact absurd rfl ht
    | integer | real | text | blob => decide
    | vector dim =>
        rw [typeText_vector]
        exact List.mem_of_getElem? (i := 4) rfl
  rintro rfl
  have hall : (allFlags.all fun w =>
    w.head? ∉ [some 'I', some 'R', some 'T', some 'B', some 'F']) = true := rfl
  exact of_decide_eq_true (List.all_eq_true.mp hall _ hw) hhead

theorem columnText_last (c : Column) {x : Char} (hx : (columnText c).getLast? = some x) :
    isPrinted x = true := by
  have hne : spaced (columnWords c) ≠ [] := List.cons_ne_nil _ _
  rw [columnText_eq, List.getLast?_append_of_ne_nil _ hne] at hx
  exact spaced_last (fun w => columnWords_printed) hx

theorem trim_spaced {w : List Char} {words : List (List Char)} (hw : PrintedWord w)
    (hwords : ∀ v ∈ words, PrintedWord v) :
    trim isWhite (spaced (w :: words)) = w ++ spaced words := by
  have hends : trim isWhite (w ++ spaced words) = w ++ spaced words := by
    refine trim_of_ends (fun c hc => ?_) fun c hc => ?_
    · rw [List.head?_append_of_ne_nil _ hw.1] at hc
      exact hw.not_white c (List.mem_of_mem_head? hc)
    · rcases List.mem_append.mp (List.mem_of_getLast? hc) with hmem | -
      · exact hw.not_white c hmem
      · refine (isPrinted_facts (@spaced_last (w :: words) ?_ c ?_)).2.2.1
        · rintro v hv
          rcases List.mem_cons.mp hv with rfl | hv
          · exact hw
          · exact hwords v hv
        · change (' ' :: (w ++ spaced words)).getLast? = some c
          rw [List.getLast?_cons, hc]
          rfl
  have hblank : ∀ c ∈ [' '], isWhite c = true := by
    intro c hc
    rw [List.mem_singleton.mp hc]
    rfl
  have hcut : trim isWhite ([' '] ++ (w ++ spaced words) ++ []) = trim isWhite (w ++ spaced words) :=
    trim_append hblank fun c hc => absurd hc List.not_mem_nil
  rw [List.append_nil, hends] at hcut
  exact hcut

theorem mem_columnWords {c : Column} (hc : c.dataType ≠ .null) {w : List Char}
    (hw : w ∈ allFlags) :
    w ∈ columnWords c ↔ w ∈ flagWords c.primaryKey c.notNull c.unique := by
  rw [columnWords, List.mem_cons]
  exact or_iff_right fun heq => typeText_ne hc hw heq.symm

/-- A printed column is read back, but for a UNIQUE beside a PRIMARY KEY. -/
theorem parseColumn_text (h : tx.Lawful) {c : Column} (hname : PlainName c.name.toList)
    (hc : Declared c) : parseColumn tx (columnText c) = .ok (readBack c) := by
  have hflags : ∀ w ∈ flagWords c.primaryKey c.notNull c.unique, PrintedWord w :=
    fun w hw => columnWords_printed (c := c) (List.mem_cons_of_mem _ hw)
  have hident : parseIdentifier (columnText c) =
      .ok (c.name.toList, spaced (columnWords c)) := by
    rw [columnText_eq]
    refine parseIdentifier_plain hname ?_ fun x hx => ?_
    · rintro x hx
      rw [← Option.some.inj hx]
      rfl
    · rw [← columnText_eq] at hx
      exact (isPrinted_facts (columnText_last c hx)).2.2.1
  have hupper : (typeText c.dataType :: flagWords c.primaryKey c.notNull c.unique).map tx.upper =
      columnWords c := by
    refine (List.map_congr_left fun w hw => ?_).trans (List.map_id _)
    exact (columnWords_printed (c := c) hw).upper h
  have htrim : trim isWhite (spaced (columnWords c)) =
      typeText c.dataType ++ spaced (flagWords c.primaryKey c.notNull c.unique) :=
    trim_spaced (typeText_printed _) hflags
  have hne : typeText c.dataType ++ spaced (flagWords c.primaryKey c.notNull c.unique) ≠ [] :=
    List.append_ne_nil_of_left_ne_nil (typeText_printed _).1 _
  obtain ⟨-, hkey, hnull, hunique⟩ := mem_flagWords c.primaryKey c.notNull c.unique
  have hnotNull : (c.primaryKey || (c.notNull && !c.primaryKey)) = c.notNull := by
    cases hpk : c.primaryKey with
    | true => exact (hc.key hpk).symm
    | false => exact Bool.and_true _
  rw [parseColumn, bind_oks]
  refine ⟨_, hident, ?_⟩
  dsimp only
  rw [htrim, if_neg hne, splitSqlParts_spaced (typeText_printed _) hflags]
  dsimp only
  rw [hupper, dataTypeFromStr_text h hc.type]
  simp only [mem_columnWords hc.type (show "PRIMARY".toList ∈ allFlags from by decide),
    mem_columnWords hc.type (show "KEY".toList ∈ allFlags from by decide),
    mem_columnWords hc.type (show "NOT".toList ∈ allFlags from by decide),
    mem_columnWords hc.type (show "NULL".toList ∈ allFlags from by decide),
    mem_columnWords hc.type (show "UNIQUE".toList ∈ allFlags from by decide), hkey, hnull, hunique,
    Bool.decide_eq_true, hnotNull, String.ofList_toList]
  rfl

/-! ## The list of columns -/

theorem columnsText_cons (c d : Column) (columns : List Column) :
    columnsText (c :: d :: columns) = columnText c ++ ',' :: ' ' :: columnsText (d :: columns) := by
  rw [columnsText, List.map_cons, List.map_cons, List.intercalate_cons_cons, ← List.map_cons,
    List.append_assoc]
  rfl

theorem columnsText_singleton (c : Column) : columnsText [c] = columnText c := by
  rw [columnsText, List.map_singleton, List.intercalate_singleton]

/-- No comma is printed but in a name. -/
theorem columnText_comma {c : Column} (h : ',' ∉ c.name.toList) : ',' ∉ columnText c := by
  rw [columnText_eq, List.mem_append]
  rintro (hmem | hmem)
  · exact h hmem
  · obtain ⟨w, hw, hmem⟩ := List.mem_flatMap.mp hmem
    rcases List.mem_cons.mp hmem with heq | hmem
    · exact absurd heq (by decide)
    · exact (isPrinted_facts ((columnWords_printed hw).2 _ hmem)).2.2.2 (by decide)

/-- The definitions of a column list. -/
def definitions (text : List Char) : List (List Char) :=
  ((text.splitOn ',').map (trim isWhite)).filter (· ≠ [])

theorem columnText_trim {c : Column} (h : PlainName c.name.toList) :
    trim isWhite (columnText c) = columnText c := by
  refine trim_of_ends (fun x hx => ?_) fun x hx => (isPrinted_facts (columnText_last c hx)).2.2.1
  rw [columnText_eq, List.head?_append_of_ne_nil _ h.nonempty] at hx
  exact h.solid x (List.mem_of_mem_head? hx)

theorem columnText_ne_nil (c : Column) : columnText c ≠ [] := by
  rw [columnText_eq]
  exact List.append_ne_nil_of_right_ne_nil _ (List.cons_ne_nil _ _)

/-- The column list is split into the columns. -/
theorem definitions_columnsText {columns : List Column} (hne : columns ≠ [])
    (h : ∀ c ∈ columns, PlainName c.name.toList) :
    definitions (columnsText columns) = columns.map columnText := by
  have hsplit : ∀ b : List Char, (∀ x ∈ b, isWhite x = true) →
      ((b ++ columnsText columns).splitOn ',').map (trim isWhite) = columns.map columnText := by
    induction columns with
    | nil => exact absurd rfl hne
    | cons c columns ih =>
        intro b hb
        have hc := h c List.mem_cons_self
        have htrim : trim isWhite (b ++ columnText c) = columnText c := by
          have hcut : trim isWhite (b ++ columnText c ++ []) = trim isWhite (columnText c) :=
            trim_append hb fun x hx => absurd hx List.not_mem_nil
          rwa [List.append_nil, columnText_trim hc] at hcut
        have hcomma : ',' ∉ b ++ columnText c := by
          rw [List.mem_append]
          rintro (hmem | hmem)
          · exact absurd (hb _ hmem) (by decide)
          · exact columnText_comma hc.comma hmem
        cases columns with
        | nil =>
            rw [columnsText_singleton, List.splitOn_eq_singleton hcomma, List.map_singleton, htrim]
            rfl
        | cons d columns =>
            have hrest := ih (List.cons_ne_nil _ _) (fun e he => h e (List.mem_cons_of_mem _ he))
              [' '] (fun x hx => by rw [List.mem_singleton.mp hx]; rfl)
            rw [columnsText_cons, ← List.append_assoc,
              List.splitOn_append_cons_self_of_not_mem hcomma, List.map_cons, List.map_cons, htrim]
            exact congrArg (columnText c :: ·) hrest
  have hnil := hsplit [] fun x hx => absurd hx List.not_mem_nil
  rw [List.nil_append] at hnil
  rw [definitions, hnil, List.filter_eq_self]
  rintro w hw
  obtain ⟨c, -, rfl⟩ := List.mem_map.mp hw
  exact decide_eq_true (columnText_ne_nil c)

/-! ## The statement read back -/

/-- What `describe_table` prints. -/
def tableText (name columns : List Char) : List Char :=
  "CREATE TABLE ".toList ++ name ++ " (".toList ++ columns ++ [')']

theorem tableText_def (name columns : List Char) : tableText name columns =
    "CREATE TABLE ".toList ++ name ++ " (".toList ++ columns ++ [')'] := rfl

theorem tableText_eq (name columns : List Char) : tableText name columns =
    "CREATE".toList ++ ([' '] ++ ("TABLE".toList ++
      ([' '] ++ (name ++ ([' '] ++ ('(' :: (columns ++ [')']))))))) := by
  have hwords : "CREATE TABLE ".toList = "CREATE".toList ++ ([' '] ++ ("TABLE".toList ++ [' '])) :=
    rfl
  have hregroup : ∀ k t : List Char, k ++ ([' '] ++ (t ++ [' '])) ++ name ++ [' ', '('] ++ columns ++
      [')'] = k ++ ([' '] ++ (t ++ ([' '] ++ (name ++ ([' '] ++ ('(' :: (columns ++ [')']))))))) := by
    intro k t
    simp only [List.append_assoc, List.cons_append, List.nil_append]
  exact (congrArg (fun w => w ++ name ++ [' ', '('] ++ columns ++ [')']) hwords).trans
    (hregroup _ _)

theorem folds_self {k : String} (h : (k.toList.all fun c => foldsTo c c) = true) :
    Folds k k.toList := by
  rw [Folds, List.forall₂_same]
  exact fun c hc => List.all_eq_true.mp h c hc

/-- The printed statement is matched whole. -/
theorem search_createRe (h : tx.Lawful) {name columns : List Char} (hname : Name tx name)
    (hne : columns ≠ []) (hline : '\n' ∉ columns) :
    (createRe tx).search (tableText name columns) =
      some ⟨[], [], [(2, columns), (1, name)]⟩ := by
  have hblank : Blanks [' '] := by
    refine ⟨List.cons_ne_nil _ _, fun c hc => ?_⟩
    rw [List.mem_singleton.mp hc]
    rfl
  have hdot : ∀ c ∈ columns, LikeRegex.dot c = true := LikeRegex.dot_iff.mpr hline
  have hopen : ∀ {s : List Char} {a : Char}, ('(' :: s).head? = some a →
      isWhite a = false := by
    rintro s a ha
    rw [← Option.some.inj ha]
    rfl
  have hspace : ∀ {s : List Char} {a : Char}, ([' '] ++ s).head? = some a → a = ' ' :=
    fun ha => (Option.some.inj ha).symm
  have hexec : (createRe tx).exec some ⟨true, tableText name columns, []⟩ =
      some ⟨false, [], [(2, columns), (1, name)]⟩ := by
    rw [tableText_eq, createRe, Regex.seqs, Regex.exec_seq]
    refine exec_word rfl (folds_self rfl) (List.cons_ne_nil _ _) ?_
    rw [Regex.seqs, Regex.exec_seq]
    refine exec_blanks rfl hblank (by rintro a ha; rw [← Option.some.inj ha]; rfl) ?_
    rw [Regex.seqs, Regex.exec_seq]
    refine exec_word rfl (folds_self rfl) (List.cons_ne_nil _ _) ?_
    rw [Regex.seqs, Regex.exec_seq]
    refine exec_blanks rfl hblank (fun a ha => ?_) ?_
    · rw [List.head?_append_of_ne_nil _ hname.1] at ha
      exact not_white_head (hname.not_white h) ha
    rw [Regex.seqs, Regex.exec_seq]
    refine exec_name rfl hname (fun a ha => ?_) ?_
    · rw [hspace ha, h.word_ascii ' ' rfl]
      rfl
    rw [Regex.seqs, Regex.exec_seq]
    refine Regex.exec_many_max rfl hblank.2 (fun a => hopen) ?_
    rw [Regex.seqs, Regex.exec_seq]
    change Regex.exec (Regex.seqs [line 2, letter ')']) some ⟨false, columns ++ [')'], [(1, name)]⟩ = _
    rw [Regex.seqs, Regex.exec_seq]
    refine Regex.exec_group_last rfl hne hdot rfl ?_
    -- behind the closing parenthesis there is none
    rintro u v gs hu - huv
    obtain ⟨a, u, rfl⟩ := List.exists_cons_of_ne_nil hu
    obtain ⟨-, hnil⟩ := List.cons.inj huv
    obtain ⟨-, rfl⟩ := List.append_eq_nil_iff.mp hnil.symm
    rfl
  rw [Regex.search_of_start hexec]

theorem columnsText_mem {columns : List Column} {x : Char} (hx : x ∈ columnsText columns) :
    x ∈ [',', ' '] ∨ ∃ c ∈ columns, x ∈ columnText c := by
  induction columns with
  | nil => cases hx
  | cons c columns ih =>
      cases columns with
      | nil =>
          rw [columnsText_singleton] at hx
          exact Or.inr ⟨c, List.mem_cons_self, hx⟩
      | cons d columns =>
          rw [columnsText_cons, List.mem_append, List.mem_cons, List.mem_cons] at hx
          rcases hx with hx | rfl | rfl | hx
          · exact Or.inr ⟨c, List.mem_cons_self, hx⟩
          · exact Or.inl List.mem_cons_self
          · exact Or.inl (List.mem_cons_of_mem _ List.mem_cons_self)
          · refine (ih hx).imp id ?_
            rintro ⟨e, he, hxe⟩
            exact ⟨e, List.mem_cons_of_mem _ he, hxe⟩

theorem columnsText_ne_nil {columns : List Column} (h : columns ≠ []) : columnsText columns ≠ [] := by
  obtain ⟨c, columns, rfl⟩ := List.exists_cons_of_ne_nil h
  cases columns with
  | nil =>
      rw [columnsText_singleton]
      exact columnText_ne_nil c
  | cons d columns =>
      rw [columnsText_cons]
      exact List.append_ne_nil_of_left_ne_nil (columnText_ne_nil c) _

/-- What a printed column is made of. -/
theorem columnText_mem {c : Column} {x : Char} (hx : x ∈ columnText c) :
    x ∈ c.name.toList ∨ x = ' ' ∨ isPrinted x = true := by
  rw [columnText_eq, List.mem_append] at hx
  refine hx.imp id fun hx => ?_
  obtain ⟨w, hw, hx⟩ := List.mem_flatMap.mp hx
  exact (List.mem_cons.mp hx).imp id fun hx => (columnWords_printed hw).2 x hx

theorem columnsText_line {columns : List Column} (h : ∀ c ∈ columns, PlainName c.name.toList) :
    '\n' ∉ columnsText columns := by
  rintro hmem
  rcases columnsText_mem hmem with hmem | ⟨c, hc, hmem⟩
  · exact absurd hmem (by decide)
  · rcases columnText_mem hmem with hmem | heq | hmem
    · exact absurd ((h c hc).solid _ hmem) (by decide)
    · exact absurd heq (by decide)
    · exact absurd hmem (by decide)

theorem tableText_trim (name columns : List Char) :
    trim isWhite (tableText name columns) = tableText name columns := by
  refine trim_of_ends (fun c hc => ?_) fun c hc => ?_
  · rw [tableText_eq] at hc
    rw [← Option.some.inj hc]
    rfl
  · rw [tableText_def, List.getLast?_concat] at hc
    rw [← Option.some.inj hc]
    rfl

/-- The printed statement is a CREATE TABLE. -/
theorem parse_tableText (h : tx.Lawful) (name columns : List Char) :
    parse tx (tableText name columns) = parseCreateTable tx (tableText name columns) := by
  have hall : ("CREATE TABLE ".toList.all fun c => isAscii c && c.toUpper == c) = true := rfl
  have hupper : tx.upper "CREATE TABLE ".toList = "CREATE TABLE ".toList := by
    refine upper_fixed h fun c hc => ?_
    have hc := List.all_eq_true.mp hall c hc
    rw [Bool.and_eq_true, beq_iff_eq] at hc
    exact hc
  have hprefix : "CREATE TABLE".toList <+: tx.upper (tableText name columns) := by
    have hpre : "CREATE TABLE".toList <+: "CREATE TABLE ".toList := ⟨[' '], rfl⟩
    obtain ⟨rest, hrest⟩ : "CREATE TABLE ".toList <+: tableText name columns :=
      ⟨name ++ (" (".toList ++ (columns ++ [')'])), by
        rw [tableText_def, List.append_assoc, List.append_assoc, List.append_assoc]⟩
    rw [← hrest, TextFns.upper, List.flatMap_append]
    refine hpre.trans ?_
    rw [show List.flatMap tx.upperChar "CREATE TABLE ".toList = _ from hupper]
    exact List.prefix_append _ _
  have hkind : kindOf (tx.upper (tableText name columns)) = some .createTable := if_pos hprefix
  rw [parse, tableText_trim, hkind]
  rfl

/-- With plain names the printed columns are read, each for itself. -/
theorem parse_describe (h : tx.Lawful) {name : List Char} {columns : List Column}
    (hname : Name tx name) (hne : columns ≠ []) (hplain : ∀ c ∈ columns, PlainName c.name.toList)
    (hdeclared : ∀ c ∈ columns, Declared c) :
    parse tx (tableText name (columnsText columns)) =
      .ok (.change (.createTable (String.ofList name) (columns.map readBack))) := by
  have hsearch : tx.captures (createRe tx) (tableText name (columnsText columns)) =
      some ⟨[], [], [(2, columnsText columns), (1, name)]⟩ := by
    rw [h.captures_eq]
    exact search_createRe h hname (columnsText_ne_nil hne) (columnsText_line hplain)
  have hcolumns : (definitions (columnsText columns)).mapM (parseColumn tx) =
      .ok (columns.map readBack) := by
    rw [definitions_columnsText hne hplain, mapM_oks, List.forall₂_map_left_iff,
      List.forall₂_map_right_iff, List.forall₂_same]
    exact fun c hc => parseColumn_text h (hplain c hc) (hdeclared c hc)
  rw [parse_tableText h]
  generalize tableText name (columnsText columns) = text at hsearch
  rw [parseCreateTable, hsearch]
  dsimp only
  rw [bind_oks]
  refine ⟨String.ofList name, rfl, bind_oks.mpr ⟨columnsText columns, rfl, ?_⟩⟩
  exact bind_oks.mpr ⟨_, hcolumns, rfl⟩

end Parser

end VelociDB
