/-
# What the parser's expressions match (`parser.rs`)

The groups each expression has in every match, and the parts a match consists of.
-/
import VelociDB.Parser
import VelociDB.LiteralFaults

namespace VelociDB

namespace Parser

open Text
open LikeRegex (dot)

variable {tx : TextFns} {w : List Char} {gs : List (Nat × List Char)}

/-! ## Groups -/

@[simp] theorem createRe_binds : (createRe tx).binds = [1, 2] := rfl

@[simp] theorem dropRe_binds : (dropRe tx).binds = [1] := rfl

@[simp] theorem renameTableRe_binds : (renameTableRe tx).binds = [1, 2] := rfl

@[simp] theorem renameColumnRe_binds : (renameColumnRe tx).binds = [1, 2, 3] := rfl

@[simp] theorem addColumnRe_binds : (addColumnRe tx).binds = [1, 2] := rfl

@[simp] theorem dropColumnRe_binds : (dropColumnRe tx).binds = [1, 2] := rfl

@[simp] theorem insertRe_binds : (insertRe tx).binds = [1, 3] := rfl

@[simp] theorem limitRe_binds : (limitRe tx).binds = [1] := rfl

@[simp] theorem selectRe_binds : (selectRe tx).binds = [1, 2] := rfl

@[simp] theorem updateRe_binds : (updateRe tx).binds = [1, 2] := rfl

@[simp] theorem deleteRe_binds : (deleteRe tx).binds = [1] := rfl

@[simp] theorem conditionRe_binds : (conditionRe tx).binds = [1, 2, 3] := rfl

/-! ## Parts -/

/-- White space, at least one. -/
def Blanks (w : List Char) : Prop := w ≠ [] ∧ ∀ c ∈ w, isWhite c = true

/-- A name. -/
def Name (tx : TextFns) (w : List Char) : Prop := w ≠ [] ∧ ∀ c ∈ w, tx.isWord c = true

/-- A text without a line feed, not empty. -/
def Line (w : List Char) : Prop := w ≠ [] ∧ '\n' ∉ w

/-- A keyword in any case. -/
def Folds (k : String) (w : List Char) : Prop := List.Forall₂ (fun c x => foldsTo c x = true) k.toList w

theorem eats_blanks : blanks.Eats w gs ↔ Blanks w ∧ gs = [] := by
  rw [blanks, Regex.eats_some1, Blanks, and_assoc]

theorem eats_name {n : Nat} : (name tx n).Eats w gs ↔ Name tx w ∧ gs = [(n, w)] := by
  rw [name, Regex.eats_group, Name]
  constructor
  · rintro ⟨g, hg, rfl⟩
    obtain ⟨hne, hw, rfl⟩ := Regex.eats_some1.mp hg
    exact ⟨⟨hne, hw⟩, rfl⟩
  · rintro ⟨⟨hne, hw⟩, rfl⟩
    exact ⟨[], Regex.eats_some1.mpr ⟨hne, hw, rfl⟩, rfl⟩

/-- `(.+)`, greedy or not. -/
theorem eats_dots {n : Nat} {greedy : Bool} :
    (Regex.group n (Regex.some1 dot greedy)).Eats w gs ↔ Line w ∧ gs = [(n, w)] := by
  rw [Regex.eats_group, Line]
  constructor
  · rintro ⟨g, hg, rfl⟩
    obtain ⟨hne, hw, rfl⟩ := Regex.eats_some1.mp hg
    exact ⟨⟨hne, LikeRegex.dot_iff.mp hw⟩, rfl⟩
  · rintro ⟨⟨hne, hw⟩, rfl⟩
    exact ⟨[], Regex.eats_some1.mpr ⟨hne, LikeRegex.dot_iff.mpr hw, rfl⟩, rfl⟩

theorem eats_word {k : String} : (word k).Eats w gs ↔ Folds k w ∧ gs = [] := by
  rw [word, Folds]
  induction k.toList generalizing w gs with
  | nil => simp [Regex.seqs, Regex.Eats]
  | cons c k ih =>
      rw [List.map_cons, Regex.eats_seqs_cons]
      constructor
      · rintro ⟨u, v, gu, gv, ⟨x, hx, rfl, rfl⟩, hv, rfl, rfl⟩
        obtain ⟨hfolds, rfl⟩ := ih.mp hv
        exact ⟨.cons hx hfolds, rfl⟩
      · rintro ⟨hw, rfl⟩
        cases hw with
        | cons hx hv => exact ⟨_, _, [], [], ⟨_, hx, rfl, rfl⟩, ih.mpr ⟨hv, rfl⟩, rfl, rfl⟩

theorem eats_operator {op : List Char} :
    (Regex.alts (operatorTexts.map fun op => Regex.seqs (op.toList.map letter))).Eats op gs ↔
      op ∈ operatorTexts.map String.toList ∧ gs = [] := by
  rw [Regex.eats_alts]
  constructor
  · rintro ⟨r, hr, h⟩
    obtain ⟨text, htext, rfl⟩ := List.mem_map.mp hr
    obtain ⟨rfl, rfl⟩ := Regex.eats_letters.mp h
    exact ⟨List.mem_map.mpr ⟨text, htext, rfl⟩, rfl⟩
  · rintro ⟨hop, rfl⟩
    obtain ⟨text, htext, rfl⟩ := List.mem_map.mp hop
    exact ⟨_, List.mem_map.mpr ⟨text, htext, rfl⟩, Regex.eats_letters.mpr ⟨rfl, rfl⟩⟩

/-- A match of the expression for a condition. -/
structure ConditionParts (tx : TextFns) (part : List Char) (m : Regex.Match Char)
    (column op value : List Char) : Prop where
  column_name : Name tx column
  op_mem : op ∈ operatorTexts.map String.toList
  value_line : Line value
  groups : m.groups = [(3, value), (2, op), (1, column)]
  text : ∃ b b', (∀ c ∈ b, isWhite c = true) ∧ (∀ c ∈ b', isWhite c = true) ∧
    part = m.before ++ (column ++ b ++ op ++ b' ++ value ++ m.after)

theorem conditionRe_parts {part : List Char} {m : Regex.Match Char}
    (hm : (conditionRe tx).search part = some m) :
    ∃ column op value, ConditionParts tx part m column op value := by
  obtain ⟨w, hw, hpart⟩ := Regex.search_eats hm
  rw [conditionRe] at hw
  simp only [Regex.eats_seqs_cons, Regex.eats_seqs_nil] at hw
  obtain ⟨column, w₁, g₁, g₁', hname, ⟨b, w₂, g₂, g₂', hb, ⟨op, w₃, g₃, g₃', hop,
    ⟨b', w₄, g₄, g₄', hb', ⟨value, w₅, g₅, g₅', hdots, ⟨rfl, rfl⟩, rfl, rfl⟩, rfl, rfl⟩,
    rfl, rfl⟩, rfl, rfl⟩, rfl, hgroups⟩ := hw
  obtain ⟨hcolumn, rfl⟩ := eats_name.mp hname
  obtain ⟨hb, rfl⟩ := hb
  obtain ⟨g, hg, rfl⟩ := Regex.eats_group.mp hop
  obtain ⟨hmem, rfl⟩ := eats_operator.mp hg
  obtain ⟨hb', rfl⟩ := hb'
  obtain ⟨hvalue, rfl⟩ := eats_dots.mp hdots
  refine ⟨column, op, value, hcolumn, hmem, hvalue, hgroups, b, b', hb, hb', ?_⟩
  rw [hpart]
  simp only [List.append_assoc, List.append_nil]

theorem ConditionParts.group {part column op value : List Char} {m : Regex.Match Char}
    (h : ConditionParts tx part m column op value) :
    m.group 1 = some column ∧ m.group 2 = some op ∧ m.group 3 = some value := by
  refine ⟨?_, ?_, ?_⟩ <;>
  · rw [Regex.Match.group, h.groups]
    rfl

/-- The operator of a condition is one of `Operator::from_str`. -/
theorem operatorFromStr_ok {op : List Char} (h : op ∈ operatorTexts.map String.toList) :
    ∃ o, operatorFromStr op = .ok o := by
  simp only [operatorTexts, List.map_cons, List.map_nil, List.mem_cons, List.not_mem_nil,
    or_false] at h
  rcases h with rfl | rfl | rfl | rfl | rfl | rfl | rfl | rfl
  all_goals exact ⟨_, rfl⟩

end Parser

end VelociDB
