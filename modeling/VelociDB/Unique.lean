/-
# UNIQUE

No two rows of a table have equal values in a UNIQUE column that is not the primary key.
INSERT compares the new row with every row; UPDATE sorts the values its statement leaves
in the column and compares neighbours only, which is enough because "less" under
`compare_values` is transitive (`compareValues_lt_trans`) although "equal" is not.
-/
import VelociDB.TableInv
import VelociDB.ValueOrder
import VelociDB.Lib.Sorting

namespace VelociDB

open Multimap

variable {ext : Externals} {ts : TableSchema} {es : RowMap} {i : Nat} {r r' : Row}

/-- Two rows have no common value in a column; NULL is no value. -/
def Apart (ext : Externals) (i : Nat) (r r' : Row) : Prop :=
  ∀ v w, r.values[i]? = some v → r'.values[i]? = some w → v ≠ .null → w ≠ .null →
    compareValues ext v w ≠ .eq

theorem Apart.symm (h : Apart ext i r r') : Apart ext i r' r := by
  intro v w hv hw hv0 hw0 heq
  refine h w v hw hv hw0 hv0 ?_
  rw [compareValues_swap v w, heq]
  rfl

theorem Apart.stored_right (h : Apart ext i r r') : Apart ext i r r'.stored := by
  intro v w hv hw hv0 hw0 heq
  rw [Row.stored, List.getElem?_map, Option.map_eq_some_iff] at hw
  obtain ⟨w', hw', rfl⟩ := hw
  refine h v w' hv hw' hv0 ?_ (compareValues_stored_eq.mp heq)
  rintro rfl
  exact hw0 rfl

theorem Apart.stored (h : Apart ext i r r') : Apart ext i r.stored r'.stored :=
  h.stored_right.symm.stored_right.symm

theorem mem_uniqueColumns :
    i ∈ uniqueColumns ts ↔ ∃ c, ts.columns[i]? = some c ∧ c.unique = true ∧ c.primaryKey = false := by
  simp only [uniqueColumns, List.mem_filter, List.mem_range]
  constructor
  · rintro ⟨hi, h⟩
    rw [List.getElem?_eq_getElem hi] at h
    exact ⟨_, List.getElem?_eq_getElem hi, by simpa using h⟩
  · rintro ⟨c, hc, hu, hpk⟩
    exact ⟨(List.getElem?_eq_some_iff.mp hc).1, by simp [hc, hu, hpk]⟩

/-! ## The checks -/

theorem findDuplicate_none {cols : List Nat} (h : findDuplicate ext cols r r' = none)
    (hi : i ∈ cols) : Apart ext i r r' := by
  intro v w hv hw hv0 hw0 heq
  have hnone := List.findSome?_eq_none_iff.mp h i hi
  simp [hv, hw, hv0, heq] at hnone

theorem checkInsertUnique_ok {put : Put}
    (h : checkInsertUnique ext (listTrees put) ts es r = .ok ()) (hi : i ∈ uniqueColumns ts)
    {e : Int64 × Row} (he : e ∈ es) : Apart ext i e.2 r := by
  intro v w hv hw hv0 hw0
  have hcol : i ∈ (uniqueColumns ts).filter fun i =>
      r.values[i]? ≠ none ∧ r.values[i]? ≠ some .null := by
    rw [List.mem_filter, hw]
    exact ⟨hi, by simpa using hw0⟩
  unfold checkInsertUnique at h
  dsimp only at h
  rw [if_neg (List.ne_nil_of_mem hcol)] at h
  obtain ⟨rows, hrows, h⟩ := bind_ok.mp h
  obtain rfl := Except.ok.inj hrows
  split at h
  · exact (fail_ok.mp h).elim
  · rename_i hnone
    exact findDuplicate_none (List.findSome?_eq_none_iff.mp hnone e he) hcol v w hv hw hv0 hw0

/-- Neighbours in order and none equal: each is less than the next. -/
theorem adjacentDuplicate_none : ∀ {l : List Value}, adjacentDuplicate ext l = none →
    (l.IsChain fun v w => decide (compareValues ext v w ≠ .gt)) →
    l.IsChain fun v w => compareValues ext v w = .lt
  | [], _, _ => .nil
  | [v], _, _ => .singleton v
  | v :: w :: l, h, hle => by
      obtain ⟨hvw, hle⟩ := List.isChain_cons_cons.mp hle
      rw [adjacentDuplicate] at h
      split at h
      · cases h
      · rename_i hne
        refine .cons_cons ?_ (adjacentDuplicate_none h hle)
        cases hc : compareValues ext v w with
        | lt => rfl
        | eq => exact absurd hc hne
        | gt => simp [hc] at hvw

/-- Values that are sorted and have no equal neighbours are all different. -/
theorem pairwise_of_sorted {l : List Value}
    (h : adjacentDuplicate ext (l.mergeSort fun a b => compareValues ext a b ≠ .gt) = none) :
    l.Pairwise fun v w => compareValues ext v w ≠ .eq := by
  have htotal : ∀ a b : Value, decide (compareValues ext a b ≠ .gt) = true ∨
      decide (compareValues ext b a ≠ .gt) = true := by
    intro a b
    rw [compareValues_swap a b]
    cases compareValues ext a b <;> simp
  have hchain := adjacentDuplicate_none h (Sorting.isChain_mergeSort htotal l)
  have : IsTrans Value fun v w => compareValues ext v w = .lt :=
    ⟨fun _ _ _ => compareValues_lt_trans⟩
  have hlt := List.isChain_iff_pairwise.mp hchain
  have hne := hlt.imp fun {v w} (hvw : compareValues ext v w = .lt) =>
    (by rw [hvw]; decide : compareValues ext v w ≠ .eq)
  refine ((List.mergeSort_perm l _).pairwise_iff ?_).mp hne
  intro v w hvw heq
  rw [compareValues_swap w v] at hvw
  exact hvw (by rw [heq]; rfl)

theorem checkUnique_ok {rows : List Row} : ∀ {cols : List Nat},
    (checkUnique ext ts rows cols : Except Fault Unit) = .ok () → i ∈ cols →
      rows.Pairwise (Apart ext i)
  | j :: cols, h, hi => by
      simp only [checkUnique] at h
      split at h
      · exact (fail_ok.mp h).elim
      rename_i hnone
      rcases List.mem_cons.mp hi with rfl | hi
      · have hpair := pairwise_of_sorted hnone
        rw [List.pairwise_filter, List.pairwise_filterMap] at hpair
        refine hpair.imp fun hr v w hv hw hv0 hw0 => hr v hv w hw (by simpa using hv0) ?_
        simpa using hw0
      · exact checkUnique_ok h hi

theorem checkUpdateUnique_ok {put : Put} {assignments : List (String × Value)}
    {us : List RowUpdate}
    (h : checkUpdateUnique ext (listTrees put) ts es assignments us = .ok ())
    (hi : i ∈ uniqueColumns ts) {c : Column} (hc : ts.columns[i]? = some c) {a : String × Value}
    (ha : a ∈ assignments) (hname : a.1 = c.name) (hne : us ≠ []) :
    ((es.filter fun e => !(us.any fun u => u.key == e.1)).map Prod.snd ++
      us.map RowUpdate.updated).Pairwise (Apart ext i) := by
  unfold checkUpdateUnique at h
  dsimp only at h
  have hany : (assignments.any fun a => a.1 == c.name) = true :=
    List.any_eq_true.mpr ⟨a, ha, by simpa using hname⟩
  split at h
  · rename_i hskip
    rcases hskip with hnil | hnil
    · refine absurd hnil (List.ne_nil_of_mem (List.mem_filter.mpr ⟨hi, ?_⟩))
      rw [hc]
      exact hany
    · exact absurd (List.isEmpty_iff.mp hnil) hne
  · obtain ⟨all, hall, h⟩ := bind_ok.mp h
    obtain rfl := Except.ok.inj hall
    refine checkUnique_ok h (List.mem_filter.mpr ⟨hi, ?_⟩)
    rw [hc]
    exact hany

/-! ## A table -/

/-- UNIQUE holds of a table. -/
def UniqueOk (ext : Externals) (ts : TableSchema) (es : RowMap) : Prop :=
  ∀ i ∈ uniqueColumns ts, ∀ e ∈ es, ∀ e' ∈ es, e.1 ≠ e'.1 → Apart ext i e.2 e'.2

/-- Rows rewritten so that a column now holds what another held before, or NULL. -/
theorem UniqueOk.rewriteAll {ts' : TableSchema} {f : Row → Row} (h : UniqueOk ext ts es)
    (hnd : (keys es).Nodup)
    (hf : ∀ i ∈ uniqueColumns ts', (∀ e ∈ es, (f e.2).values[i]? = some .null) ∨
      ∃ j ∈ uniqueColumns ts, ∀ e ∈ es, (f e.2).values[i]? = e.2.values[j]?) :
    UniqueOk ext ts' (rewriteAll replace f es es) := by
  intro i hi x hx x' hx' hne
  obtain ⟨e, he, rfl⟩ := (rewriteAll_mem lawful_replace f hnd).2 x hx
  obtain ⟨e', he', rfl⟩ := (rewriteAll_mem lawful_replace f hnd).2 x' hx'
  refine Apart.stored ?_
  rcases hf i hi with hnull | ⟨j, hj, hsame⟩
  · intro v w hv _ hv0
    exact absurd (Option.some.inj ((hnull e he).symm.trans hv)).symm hv0
  · intro v w hv hw
    rw [hsame e he] at hv
    rw [hsame e' he'] at hw
    exact h j hj e he e' he' hne v w hv hw

theorem uniqueColumns_modify {name : String} (j : Nat) :
    i ∈ uniqueColumns
      { ts with columns := ts.columns.modify j fun c => { c with name := name } } ↔
      i ∈ uniqueColumns ts := by
  simp only [mem_uniqueColumns, List.getElem?_modify]
  cases ts.columns[i]? with
  | none => simp
  | some c =>
      split <;> simp

theorem uniqueColumns_append {column : Column}
    (h : i ∈ uniqueColumns { ts with columns := ts.columns ++ [column] }) :
    i = ts.columns.length ∨ (i ∈ uniqueColumns ts ∧ i < ts.columns.length) := by
  obtain ⟨c, hc, hu⟩ := mem_uniqueColumns.mp h
  have hi : i < ts.columns.length + 1 := by simpa using (List.getElem?_eq_some_iff.mp hc).1
  rcases Nat.lt_succ_iff_lt_or_eq.mp hi with hlt | heq
  · rw [List.getElem?_append_left hlt] at hc
    exact Or.inr ⟨mem_uniqueColumns.mpr ⟨c, hc, hu⟩, hlt⟩
  · exact Or.inl heq

/-! ## UPDATE -/

/-- A map after an UPDATE: the rows it did not choose, and the updated ones. -/
theorem mem_replaceAll : ∀ {us : List RowUpdate} {es : RowMap} {e : Int64 × Row}, (keys es).Nodup →
    e ∈ replaceAll replace es us →
      (e ∈ es ∧ ∀ u ∈ us, u.key ≠ e.1) ∨ ∃ u ∈ us, e = (u.newKey, u.updated.stored)
  | [], es, e, _, h => Or.inl ⟨h, by simp⟩
  | u :: us, es, e, hnd, h => by
      have hih : (e ∈ replace (delete es u.key) u.newKey u.updated.stored ∧ ∀ v ∈ us, v.key ≠ e.1) ∨
          ∃ v ∈ us, e = (v.newKey, v.updated.stored) :=
        mem_replaceAll (nodup_replace (nodup_delete hnd)) h
      rcases hih with ⟨he, hno⟩ | ⟨v, hv, he⟩
      · rcases mem_replace.mp he with rfl | ⟨he, -⟩
        · exact Or.inr ⟨u, List.mem_cons_self, rfl⟩
        · refine Or.inl ⟨mem_of_mem_delete he, fun v hv => ?_⟩
          rcases List.mem_cons.mp hv with rfl | hv
          · exact (key_ne_of_mem_delete hnd he).symm
          · exact hno v hv
      · exact Or.inr ⟨v, List.mem_cons_of_mem _ hv, he⟩

section Update

variable {put : Put} {table : String} {assignments : List (String × Value)}
  {clause : Option WhereClause} {db db' : Tables RowMap} {changes : List StagedChange}
  {pkIndex : Nat} {rows : List (Int64 × Row)} {us : List RowUpdate}

/-- Two updates that store different keys changed different rows. -/
theorem UpdateDone.key_ne
    (hu : UpdateDone ext put table assignments clause db db' changes ts es pkIndex rows us)
    (hnd : (keys es).Nodup) {u u' : RowUpdate} (hmem : u ∈ us) (hmem' : u' ∈ us)
    (hne : u.newKey ≠ u'.newKey) : u.key ≠ u'.key := by
  intro hkey
  have hkeys : (us.map RowUpdate.key).Nodup := by
    rw [map_key_of_computed hu.computed]
    exact hnd.sublist ((chosenRows_sublist hu.chosen).map _)
  exact hne (congrArg RowUpdate.newKey (List.inj_on_of_nodup_map hkeys hmem hmem' hkey))

/-- A UNIQUE column the UPDATE does not assign. -/
theorem UniqueOk.update_untouched
    (hu : UpdateDone ext put table assignments clause db db' changes ts es pkIndex rows us)
    (h : UniqueOk ext ts es) (hnd : (keys es).Nodup) (hi : i ∈ uniqueColumns ts) {c : Column}
    (hc : ts.columns[i]? = some c) (hno : ∀ a ∈ assignments, a.1 ≠ c.name) {e e' : Int64 × Row}
    (he : e ∈ replaceAll replace es us) (he' : e' ∈ replaceAll replace es us) (hne : e.1 ≠ e'.1) :
    Apart ext i e.2 e'.2 := by
  -- an updated row has in the column what the row it replaces had
  have hpos : ∀ a ∈ assignments, ts.position a.1 ≠ some i := by
    intro a ha hp
    obtain ⟨c', hc', hname⟩ := position_spec hp
    obtain rfl := Option.some.inj (hc.symm.trans hc')
    exact hno a ha hname.symm
  have hold : ∀ u ∈ us, ∃ x ∈ es, x.1 = u.key ∧ x.2.values[i]? = u.updated.values[i]? := by
    intro u hmem
    obtain ⟨x, hx, hup⟩ := exists_of_forall₂ hu.computed hmem
    obtain ⟨b, happly, -⟩ := hup.computed
    exact ⟨x, (chosenRows_sublist hu.chosen).subset hx, hup.key.symm,
      (applyAssignments_kept hpos happly).symm⟩
  have hto : ∀ (r : Row) u, u ∈ us → (∀ x ∈ es, x.1 = u.key → Apart ext i r x.2) →
      Apart ext i r u.updated.stored := by
    intro r u hmem hr
    obtain ⟨x, hx, hkey, hval⟩ := hold u hmem
    refine Apart.stored_right fun v w hv hw => ?_
    exact hr x hx hkey v w hv (hval.trans hw)
  rcases mem_replaceAll hnd he with ⟨hmem, hkeep⟩ | ⟨u, hmem, rfl⟩
  · rcases mem_replaceAll hnd he' with ⟨hmem', -⟩ | ⟨u', hmem', rfl⟩
    · exact h i hi e hmem e' hmem' hne
    · exact hto _ u' hmem' fun x hx hkey => h i hi e hmem x hx
        fun heq => hkeep u' hmem' (hkey.symm.trans heq.symm)
  · rcases mem_replaceAll hnd he' with ⟨hmem', hkeep⟩ | ⟨u', hmem', rfl⟩
    · exact Apart.symm (hto _ u hmem fun x hx hkey => h i hi e' hmem' x hx
        fun heq => hkeep u hmem (hkey.symm.trans heq.symm))
    · refine hto _ u' hmem' fun x' hx' hkey' => Apart.symm (hto _ u hmem fun x hx hkey => ?_)
      refine h i hi x' hx' x hx fun heq => ?_
      exact hu.key_ne hnd hmem hmem' hne (hkey.symm.trans (heq.symm.trans hkey'))

/-- A UNIQUE column the UPDATE assigns was checked on the final rows. -/
theorem UniqueOk.update_touched
    (hu : UpdateDone ext put table assignments clause db db' changes ts es pkIndex rows us)
    (hnd : (keys es).Nodup) (hi : i ∈ uniqueColumns ts) {c : Column}
    (hc : ts.columns[i]? = some c) {a : String × Value} (ha : a ∈ assignments)
    (hname : a.1 = c.name) (hne : us ≠ []) {e e' : Int64 × Row}
    (he : e ∈ replaceAll replace es us) (he' : e' ∈ replaceAll replace es us) (hkey : e.1 ≠ e'.1) :
    Apart ext i e.2 e'.2 := by
  have hpair := checkUpdateUnique_ok hu.unique hi hc ha hname hne
  rw [List.pairwise_append, List.pairwise_map, List.pairwise_map] at hpair
  obtain ⟨hkept, hupdated, hcross⟩ := hpair
  have hkeep : ∀ x ∈ es, (∀ u ∈ us, u.key ≠ x.1) →
      x ∈ es.filter fun e => !(us.any fun u => u.key == e.1) := by
    intro x hx hno
    rw [List.mem_filter]
    exact ⟨hx, by simpa using hno⟩
  rcases mem_replaceAll hnd he with ⟨hx, hno⟩ | ⟨u, hx, rfl⟩
  · rcases mem_replaceAll hnd he' with ⟨hx', hno'⟩ | ⟨u', hx', rfl⟩
    · have : Std.Symm fun x y : Int64 × Row => Apart ext i x.2 y.2 := ⟨fun _ _ => Apart.symm⟩
      exact hkept.forall (hkeep e hx hno) (hkeep e' hx' hno')
        fun heq => hkey (congrArg Prod.fst heq)
    · exact (hcross _ (List.mem_map_of_mem (hkeep e hx hno)) _
        (List.mem_map_of_mem hx')).stored_right
  · rcases mem_replaceAll hnd he' with ⟨hx', hno'⟩ | ⟨u', hx', rfl⟩
    · exact (hcross _ (List.mem_map_of_mem (hkeep e' hx' hno')) _
        (List.mem_map_of_mem hx)).stored_right.symm
    · have : Std.Symm fun x y : RowUpdate => Apart ext i x.updated y.updated :=
        ⟨fun _ _ => Apart.symm⟩
      exact (hupdated.forall hx hx' fun heq => hkey (congrArg RowUpdate.newKey heq)).stored

theorem UniqueOk.update
    (hu : UpdateDone ext put table assignments clause db db' changes ts es pkIndex rows us)
    (h : UniqueOk ext ts es) (hnd : (keys es).Nodup) : UniqueOk ext ts (replaceAll replace es us) := by
  intro i hi e he e' he' hne
  obtain ⟨c, hc, -⟩ := mem_uniqueColumns.mp hi
  by_cases hnil : us = []
  · subst hnil
    exact h i hi e he e' he' hne
  by_cases hname : ∃ a ∈ assignments, a.1 = c.name
  · obtain ⟨a, ha, hac⟩ := hname
    exact UniqueOk.update_touched hu hnd hi hc ha hac hnil he he' hne
  · have hno : ∀ a ∈ assignments, a.1 ≠ c.name := fun a ha hac => hname ⟨a, ha, hac⟩
    exact h.update_untouched hu hnd hi hc hno he he' hne

end Update

/-! ## Runs -/

/-- A map whose rows are as wide as their table. -/
def Wide (ts : TableSchema) (es : RowMap) : Prop :=
  (keys es).Nodup ∧ ∀ e ∈ es, Fits (fun _ _ => True) ts e.2

theorem keeps_wide (ext : Externals) (ok : Tables RowMap → Statement → Prop) :
    Keeps ext replace ok Wide :=
  keeps_fits lawful_replace fitRule_any keeps_nodup id

theorem keeps_unique {ok : Tables RowMap → Statement → Prop} :
    Keeps ext replace ok fun ts es => Wide ts es ∧ UniqueOk ext ts es where
  create hok := ⟨(keeps_wide ext ok).create hok, by simp [UniqueOk]⟩
  renameTable name h := ⟨(keeps_wide ext ok).renameTable name h.1, h.2⟩
  renameColumn j h hno :=
    ⟨(keeps_wide ext ok).renameColumn j h.1 hno, fun i hi => h.2 i ((uniqueColumns_modify j).mp hi)⟩
  addColumn {_ _ ts es column} hok h hno := by
    refine ⟨(keeps_wide ext ok).addColumn hok h.1 hno, h.2.rewriteAll h.1.1 fun i hi => ?_⟩
    rcases uniqueColumns_append hi with rfl | ⟨hi, hlt⟩
    · refine Or.inl fun e he => ?_
      simp [(h.1.2 e he).length_eq]
    · refine Or.inr ⟨i, hi, fun e he => ?_⟩
      exact List.getElem?_append_left ((h.1.2 e he).length_eq ▸ hlt)
  dropColumn {ts es j} h hno := by
    refine ⟨(keeps_wide ext ok).dropColumn h.1 hno, h.2.rewriteAll h.1.1 fun i hi => Or.inr ?_⟩
    obtain ⟨c, hc, hu⟩ := mem_uniqueColumns.mp hi
    rw [List.getElem?_eraseIdx] at hc
    refine ⟨if i < j then i else i + 1, mem_uniqueColumns.mpr ⟨c, ?_, hu⟩, fun e he => ?_⟩
    · split at hc <;> simp [*]
    · rw [List.getElem?_eraseIdx]
      split <;> rfl
  insert hok h hi := by
    refine ⟨(keeps_wide ext ok).insert hok h.1 hi, fun i hu e he e' he' hne => ?_⟩
    rcases mem_replace.mp he with rfl | ⟨he, -⟩
    · rcases mem_replace.mp he' with rfl | ⟨he', -⟩
      · exact absurd rfl hne
      · exact (checkInsertUnique_ok hi.unique hu he').stored_right.symm
    · rcases mem_replace.mp he' with rfl | ⟨he', -⟩
      · exact (checkInsertUnique_ok hi.unique hu he).stored_right
      · exact h.2 i hu e he e' he' hne
  update hok h hu := ⟨(keeps_wide ext ok).update hok h.1 hu, h.2.update hu h.1.1⟩
  delete h hs := ⟨(keeps_wide ext ok).delete h.1 hs,
    fun i hi e he e' he' => h.2 i hi e (hs.subset he) e' (hs.subset he')⟩

/-- In every run, no two rows of a table have equal values in a UNIQUE column. -/
theorem unique_enforced {s : SqlState}
    (hs : Transition.Reaches (SqlState.Step ext replace) Transition.Any .init s) {table : String}
    (hts : s.tables.schema[table]? = some ts) (hes : s.tables.btrees[table]? = some es)
    {c : Column} (hc : ts.columns[i]? = some c) (hu : c.unique = true)
    (hpk : c.primaryKey = false) {e e' : Int64 × Row} (he : e ∈ es) (he' : e' ∈ es) (hne : e ≠ e')
    {v w : Value} (hv : e.2.values[i]? = some v) (hw : e'.2.values[i]? = some w)
    (hv0 : v ≠ .null) (hw0 : w ≠ .null) : compareValues ext v w ≠ .eq := by
  have hs' : Transition.Reaches (SqlState.Step ext replace)
      (SqlState.When fun _ _ => True) .init s := hs.mono fun _ a _ => by cases a <;> trivial
  obtain ⟨⟨hnd, -⟩, hunique⟩ := (keeps_unique.all_reaches hs').each table ts es hts hes
  have hkey : e.1 ≠ e'.1 := fun heq => hne (List.inj_on_of_nodup_map hnd he he' heq)
  exact hunique i (mem_uniqueColumns.mpr ⟨c, hc, hu, hpk⟩) e he e' he' hkey v w hv hw hv0 hw0

/-- `CREATE TABLE t (id INTEGER PRIMARY KEY, mail TEXT UNIQUE)`. -/
def createMails : Statement :=
  .createTable "t" [⟨"id", .integer, true, true, false⟩, ⟨"mail", .text, false, false, true⟩]

/-- `INSERT INTO t VALUES (k, mail)`. -/
def insertMail (k : Int64) (mail : String) : Statement := .insert "t" none [.integer k, .text mail]

/-- `UPDATE t SET id = 3 WHERE id = 1`. -/
def moveMail : Statement :=
  .update "t" [("id", .integer 3)] (some ⟨[⟨"id", .equal, .integer 1⟩]⟩)

theorem unique_enforced_moved : ∃ db,
    SqlState.runStatements mute replace
      [createMails, insertMail 1 "a", insertMail 2 "b", moveMail] .empty = .ok db ∧
      db.btrees["t"]? = some [(2, ⟨[.integer 2, .text "b"]⟩), (3, ⟨[.integer 3, .text "a"]⟩)] ∧
      compareValues mute (.text "b") (.text "a") ≠ .eq := by
  have hrun : (SqlState.runStatements mute replace
      [createMails, insertMail 1 "a", insertMail 2 "b", moveMail] .empty).toOption.map
      (fun db => (db.schema["t"]?, db.btrees["t"]?)) =
        some (some ⟨"t", [⟨"id", .integer, true, true, false⟩, ⟨"mail", .text, false, false, true⟩]⟩,
          some [(2, ⟨[.integer 2, .text "b"]⟩), (3, ⟨[.integer 3, .text "a"]⟩)]) := by
    with_unfolding_all decide
  obtain ⟨db, hdb, hview⟩ := SqlState.of_runStatements hrun
  obtain ⟨hts, hes⟩ := Prod.mk.inj hview
  have hall : SqlState.okStatements mute replace (fun _ _ => True)
      [createMails, insertMail 1 "a", insertMail 2 "b", moveMail] .empty :=
    SqlState.okStatements_of_all fun _ _ => trivial
  have hreach := (SqlState.reaches_runStatements hall .refl hdb).mono fun _ _ _ => trivial
  exact ⟨db, hdb, hes, unique_enforced hreach hts hes (i := 1) rfl rfl rfl List.mem_cons_self
    (List.mem_cons_of_mem _ List.mem_cons_self) (by decide) rfl rfl (by decide) (by decide)⟩

end VelociDB
