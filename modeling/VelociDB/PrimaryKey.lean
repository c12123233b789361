/-
# Primary keys are unique

In a run of Ok statements no two rows of a table have the same key, and the value in the
primary-key column of a row is its key, as long as

    UPDATE       that assigns the primary key a new value matches at most one row
    INSERT       names the primary-key column once
    CREATE TABLE gives the name of the primary key to no other column
-/
import VelociDB.TableInv
import VelociDB.Columns

namespace VelociDB

open Multimap

variable {ext : Externals} {ts : TableSchema} {es : RowMap}

/-! ## The invariant of a table -/

/-- Distinct keys, and each row carries its key in the primary-key column. -/
structure KeyedBy (ts : TableSchema) (es : RowMap) : Prop where
  nodup : (keys es).Nodup
  pk : ∀ e ∈ es, ∃ i, ts.pkIndex = some i ∧ e.2.values[i]? = some (.integer e.1)

theorem keyedBy_nil : KeyedBy ts [] := ⟨by simp, by simp⟩

theorem stored_integer {row : Row} {i : Nat} {k : Int64}
    (h : row.values[i]? = some (.integer k)) : row.stored.values[i]? = some (.integer k) := by
  simp [Row.stored, h]

theorem KeyedBy.sublist {es' : RowMap} (h : KeyedBy ts es) (hs : es'.Sublist es) :
    KeyedBy ts es' :=
  ⟨h.nodup.sublist (hs.map _), fun e he => h.pk e (hs.subset he)⟩

theorem KeyedBy.insert {key : Int64} {row : Row} {i : Nat} (h : KeyedBy ts es)
    (hkey : key ∉ keys es) (hi : ts.pkIndex = some i)
    (hrow : row.values[i]? = some (.integer key)) :
    KeyedBy ts (insert es key row.stored) := by
  refine ⟨nodup_insert h.nodup hkey, fun e he => ?_⟩
  rcases mem_insert.mp he with rfl | he
  · exact ⟨i, hi, stored_integer hrow⟩
  · exact h.pk e he

/-- One delete-insert pair of an UPDATE. -/
theorem KeyedBy.replace {key newKey : Int64} {row : Row} {i : Nat} (h : KeyedBy ts es)
    (hkey : newKey = key ∨ newKey ∉ keys es) (hi : ts.pkIndex = some i)
    (hrow : row.values[i]? = some (.integer newKey)) :
    KeyedBy ts (Multimap.insert (delete es key) newKey row.stored) := by
  refine ⟨nodup_move h.nodup hkey, fun e he => ?_⟩
  rcases mem_insert.mp he with rfl | he
  · exact ⟨i, hi, stored_integer hrow⟩
  · exact h.pk e (mem_of_mem_delete he)

/-! ## Rewriting every row -/

/-- Rewriting all rows moves the table to other columns. -/
theorem KeyedBy.rewriteAll {ts' : TableSchema} {f : Row → Row} (h : KeyedBy ts es)
    (hf : ∀ i (row : Row) key, ts.pkIndex = some i → row.values[i]? = some (.integer key) →
      ∃ j, ts'.pkIndex = some j ∧ (f row).values[j]? = some (.integer key)) :
    KeyedBy ts' (rewriteAll Multimap.insert f es es) := by
  obtain ⟨hnd, hmem⟩ := rewriteAll_mem lawful_insert f h.nodup
  refine ⟨hnd, fun e he => ?_⟩
  obtain ⟨e', he', rfl⟩ := hmem e he
  obtain ⟨i, hi, hrow⟩ := h.pk e' he'
  obtain ⟨j, hj, hrow'⟩ := hf i e'.2 e'.1 hi hrow
  exact ⟨j, hj, stored_integer hrow'⟩

/-! ## UPDATE -/

/-- After the assignments a row still carries its key. -/
theorem applyAssignments_key {pkIndex : Nat} {assignments : List (String × Value)}
    {key newKey : Int64} {b b' : Bool} {row row' : Row}
    (hrow : row.values[pkIndex]? = some (.integer key))
    (h : applyAssignments ext ts pkIndex key b row assignments = .ok (newKey, b', row')) :
    row'.values[pkIndex]? = some (.integer newKey) := by
  refine applyAssignments_invariant (J := fun k _ r => r.values[pkIndex]? = some (.integer k))
    (fun name value i k _ r _ _ _ hlt hr => ⟨fun hi => ?_, fun c hi hv => ?_⟩) hrow h
  · exact (List.getElem?_set_ne hi).trans hr
  · subst hi hv
    exact List.getElem?_set_self hlt

/-- A key that was assigned is among the assignments. -/
theorem applyAssignments_assigned {pkIndex : Nat} {assignments : List (String × Value)}
    {key newKey : Int64} {b b' : Bool} {row row' : Row}
    (h : applyAssignments ext ts pkIndex key b row assignments = .ok (newKey, b', row')) :
    (newKey = key ∧ b' = b) ∨ (b' = true ∧
      ∃ name, (name, .integer newKey) ∈ assignments ∧ ts.position name = some pkIndex) := by
  refine applyAssignments_invariant (J := fun k c _ => (k = key ∧ c = b) ∨ (c = true ∧
      ∃ name, (name, Value.integer k) ∈ assignments ∧ ts.position name = some pkIndex))
    (fun name value i k _ r hmem hp _ _ hJ => ⟨fun _ => hJ, fun c hi hv => Or.inr ⟨rfl, ?_⟩⟩)
    (Or.inl ⟨rfl, rfl⟩) h
  subst hi hv
  exact ⟨name, hmem, hp⟩

/-- Rows that keep their keys. -/
theorem KeyedBy.replaceAll {i : Nat} (hi : ts.pkIndex = some i) :
    ∀ {us : List RowUpdate} {es : RowMap}, KeyedBy ts es →
      (∀ u ∈ us, u.newKey = u.key) → (∀ u ∈ us, u.updated.values[i]? = some (.integer u.newKey)) →
      KeyedBy ts (replaceAll Multimap.insert es us)
  | [], _, h, _, _ => h
  | u :: us, es, h, hsame, hrow => by
      have hu := h.replace (Or.inl (hsame u List.mem_cons_self)) hi (hrow u List.mem_cons_self)
      have hsame' : ∀ v ∈ us, v.newKey = v.key := fun v hv => hsame v (List.mem_cons_of_mem _ hv)
      have hrow' : ∀ v ∈ us, v.updated.values[i]? = some (.integer v.newKey) :=
        fun v hv => hrow v (List.mem_cons_of_mem _ hv)
      exact (KeyedBy.replaceAll hi hu hsame' hrow' :)

/-- An UPDATE that assigns the primary key a value no row has matches at most one row. -/
def MovesOneRow (ext : Externals) (ts : TableSchema) (es : RowMap)
    (assignments : List (String × Value)) (clause : Option WhereClause) : Prop :=
  ∀ rows name c, chosenRows ext ts es clause = .ok rows → (name, Value.integer c) ∈ assignments →
    ts.pkIndex = ts.position name → c ∉ keys es → rows.length ≤ 1

theorem KeyedBy.update {assignments : List (String × Value)} {clause : Option WhereClause}
    {pkIndex : Nat} {rows : List (Int64 × Row)} {us : List RowUpdate} (h : KeyedBy ts es)
    (hi : ts.pkIndex = some pkIndex) (hone : MovesOneRow ext ts es assignments clause)
    (hrows : chosenRows ext ts es clause = .ok rows)
    (hus : List.Forall₂ (Updated ext ts es pkIndex assignments) rows us) :
    KeyedBy ts (VelociDB.replaceAll Multimap.insert es us) := by
  have hsub := chosenRows_sublist hrows
  have hcarry : ∀ e u, e ∈ rows → Updated ext ts es pkIndex assignments e u →
      u.updated.values[pkIndex]? = some (.integer u.newKey) := by
    intro e u he hu
    obtain ⟨assigned, happly, -⟩ := hu.computed
    obtain ⟨j, hj, hrow⟩ := h.pk e (hsub.subset he)
    obtain rfl := Option.some.inj (hi.symm.trans hj)
    exact applyAssignments_key hrow happly
  -- a row that moves has been assigned a free key, so it is the only row
  have hmove : ∀ e u, Updated ext ts es pkIndex assignments e u → u.newKey ≠ u.key →
      u.newKey ∉ keys es ∧ rows.length ≤ 1 := by
    intro e u hu hne
    obtain ⟨assigned, happly, hfree⟩ := hu.computed
    rw [hu.key] at hne
    rcases applyAssignments_assigned happly with ⟨heq, -⟩ | ⟨rfl, name, hmem, hpos⟩
    · exact absurd heq hne
    · exact ⟨hfree rfl hne, hone rows name _ hrows hmem (hi.trans hpos.symm) (hfree rfl hne)⟩
  cases hus with
  | nil => exact h
  | @cons e u rest us hu htail =>
      cases htail with
      | nil =>
          refine h.replace ?_ hi (hcarry e u List.mem_cons_self hu)
          by_cases hne : u.newKey = u.key
          · exact Or.inl hne
          · exact Or.inr (hmove e u hu hne).1
      | @cons e₂ u₂ rest us hu₂ htail =>
          have hall : List.Forall₂ (Updated ext ts es pkIndex assignments) (e :: e₂ :: rest)
              (u :: u₂ :: us) := .cons hu (.cons hu₂ htail)
          refine KeyedBy.replaceAll hi h (fun v hv => ?_) fun v hv => ?_
          · obtain ⟨x, -, hx⟩ := exists_of_forall₂ hall hv
            by_contra hne
            exact absurd (hmove x v hx hne).2 (by simp)
          · obtain ⟨x, hx, hup⟩ := exists_of_forall₂ hall hv
            exact hcarry x v hx hup

/-! ## Runs -/

variable {db db' : Tables RowMap} {table : String} {changes : List StagedChange}

/-- The condition on a statement. -/
def KeySafe (ext : Externals) (db : Tables RowMap) : Statement → Prop
  | .createTable name columns => TableSchema.KeyNamed ⟨name, columns⟩
  | .insert table columns _ => ∀ (ts : TableSchema) (pk : Column) (cols : List String),
      db.schema[table]? = some ts → ts.columns.find? Column.primaryKey = some pk →
      columns = some cols → cols.count pk.name ≤ 1
  | .update table assignments clause => ∀ (ts : TableSchema) (es : RowMap),
      db.schema[table]? = some ts → db.btrees[table]? = some es →
      MovesOneRow ext ts es assignments clause
  | _ => True

/-- The invariant of a table. -/
structure Keyed (ts : TableSchema) (es : RowMap) : Prop extends KeyedBy ts es where
  named : ts.KeyNamed

/-- A row inserted with the primary key named once carries its key. -/
theorem Inserted.carries_key {columns : Option (List String)} {values : List Value} {pk : Column}
    {key : Int64} {put : Put}
    (hi : Inserted ext put table columns values db db' changes ts es pk key) (hd : ts.KeyNamed)
    (honce : ∀ cols, columns = some cols → cols.count pk.name ≤ 1) :
    ∃ i, ts.pkIndex = some i ∧
      (insertedRow ts columns values).values[i]? = some (.integer key) := by
  obtain ⟨i, hpk, hcol⟩ := pkIndex_of_find hi.isPk
  have hlt := (List.getElem?_eq_some_iff.mp hcol).1
  have hcount : ((namedValues ts columns values).map Prod.fst).count pk.name ≤ 1 := by
    rw [namedValues, List.map_fst_zip (le_of_eq hi.counts)]
    cases columns with
    | some cols => exact honce cols rfl
    | none => exact hd.count hpk hcol
  exact ⟨i, hpk, fillRow_named (hd.position hpk hcol) (by simpa using hlt) hi.named hcount⟩

theorem keeps_keyed : Keeps ext insert (KeySafe ext) Keyed where
  create hok := ⟨keyedBy_nil, hok⟩
  renameTable _ h := ⟨⟨h.nodup, h.pk⟩, h.named⟩
  renameColumn {ts es newName} i h hno := by
    refine ⟨⟨h.nodup, fun e he => ?_⟩, h.named.modify i hno⟩
    obtain ⟨j, hj, hrow⟩ := h.pk e he
    exact ⟨j, (pkIndex_modify ts.columns i).trans hj, hrow⟩
  addColumn _ h hno := by
    refine ⟨h.toKeyedBy.rewriteAll fun i row key hi hrow => ?_, h.named.append hno⟩
    have hlt := (List.getElem?_eq_some_iff.mp hrow).1
    exact ⟨i, pkIndex_append hi, (List.getElem?_append_left hlt).trans hrow⟩
  dropColumn {ts es j} h hno := by
    refine ⟨h.toKeyedBy.rewriteAll fun i row key hi hrow => ?_, h.named.eraseIdx hno⟩
    have hne : i ≠ j := by
      rintro rfl
      obtain ⟨c, hc, hpk⟩ := pkIndex_spec hi
      exact hno (by simp [hc, hpk])
    exact ⟨_, pkIndex_eraseIdx hi hno, eraseIdx_value hne hrow⟩
  insert hok h hi := by
    obtain ⟨i, hpk, hrow⟩ := hi.carries_key h.named fun cols hcols =>
      hok _ _ cols hi.schema hi.isPk hcols
    exact ⟨h.toKeyedBy.insert hi.free hpk hrow, h.named⟩
  update hok h hu :=
    ⟨h.toKeyedBy.update hu.isPk (hok _ _ hu.schema hu.btree) hu.chosen hu.computed, h.named⟩
  delete h hs := ⟨h.toKeyedBy.sublist hs, h.named⟩

/-! ## SELECT -/

theorem sortBy_perm {α : Type} (cmp : α → α → Ordering) (l : List α) :
    (sortBy cmp l).Perm l := List.mergeSort_perm _ _

theorem knn_subperm (vec : VectorFns) (expr : DistanceExpr) (i k : Nat)
    (rows : List (Int64 × Row)) : ((knn ext vec expr i k rows).map Prod.snd).Subperm rows := by
  have hback : (scoreRows ext vec expr i rows).map Prod.snd = rows := by
    rw [scoreRows, List.map_map]
    exact List.map_id rows
  unfold knn
  split
  · exact List.nil_subperm
  · dsimp only
    rw [((sortBy_perm _ _).map Prod.snd).subperm_right]
    split
    · rename_i hlt
      have hpos : k - 1 < (scoreRows ext vec expr i rows).length := by omega
      have hperm := (vec.selection.perm nearer hpos).map Prod.snd
      rw [hback] at hperm
      exact ((List.take_sublist _ _).map _).subperm.trans hperm.subperm
    · rw [hback]

/-- ORDER BY gives back some of the rows, each at most as often as it was there. -/
theorem orderRows_subperm {vec : VectorFns} {name : String} {order : Option OrderBy}
    {limit : Option Nat} {rows rows' : List (Int64 × Row)}
    (h : orderRows ext vec name ts order limit rows = .ok rows') : rows'.Subperm rows := by
  unfold orderRows at h
  split at h
  · obtain rfl := Except.ok.inj h
    exact List.Subperm.refl _
  rename_i order
  split at h
  · cases h
  · rename_i expr _
    split at h
    · cases h
    · rename_i i _
      split at h
      · obtain rfl := Except.ok.inj h
        exact knn_subperm vec expr i _ rows
      · obtain rfl := Except.ok.inj h
        have hperm := (sortBy_perm farther (scoreRows ext vec expr i rows)).map Prod.snd
        have hback : (scoreRows ext vec expr i rows).map Prod.snd = rows := by
          rw [scoreRows, List.map_map]
          exact List.map_id rows
        rw [hback] at hperm
        exact hperm.subperm
  · split at h
    · cases h
    · obtain rfl := Except.ok.inj h
      exact (sortBy_perm _ rows).subperm

/-- `CREATE TABLE t (id INTEGER PRIMARY KEY)`. -/
def createKeyed : Statement := .createTable "t" [⟨"id", .integer, true, true, false⟩]

/-- `INSERT INTO t VALUES (k)`. -/
def insertKey (k : Int64) : Statement := .insert "t" none [.integer k]

end VelociDB
