/-
# Columns and values by name

All name resolution is by first match (`TableSchema.position`), so a column is found by its
name if no other column has it: `TableSchema.KeyNamed` says so of the primary key,
`TableSchema.Distinct` of every column.  ALTER TABLE keeps both.  The last part is about
the value an INSERT leaves in a column.
-/
import VelociDB.ExecutorLogic

namespace VelociDB

variable {ts : TableSchema}

/-! ## Columns by name -/

/-- The columns of a table have distinct names. -/
def TableSchema.Distinct (ts : TableSchema) : Prop := (ts.columns.map Column.name).Nodup

/-- No other column has the name of the primary key. -/
def TableSchema.KeyNamed (ts : TableSchema) : Prop :=
  ∀ i j pk c, ts.pkIndex = some i → ts.columns[i]? = some pk → ts.columns[j]? = some c →
    c.name = pk.name → j = i

theorem TableSchema.Distinct.keyNamed (h : ts.Distinct) : ts.KeyNamed := by
  intro i j pk c _ hpk hc hname
  obtain ⟨hi, rfl⟩ := List.getElem?_eq_some_iff.mp hpk
  obtain ⟨hj, rfl⟩ := List.getElem?_eq_some_iff.mp hc
  have hj' : j < (ts.columns.map Column.name).length := by simpa using hj
  have hi' : i < (ts.columns.map Column.name).length := by simpa using hi
  have heq : (ts.columns.map Column.name)[j] = (ts.columns.map Column.name)[i] := by
    simpa using hname
  exact h.getElem_inj_iff.mp heq

theorem position_spec {name : String} {i : Nat} (h : ts.position name = some i) :
    ∃ c, ts.columns[i]? = some c ∧ c.name = name := by
  rw [TableSchema.position, List.findIdx?_eq_some_iff_getElem] at h
  obtain ⟨hi, hname, -⟩ := h
  exact ⟨ts.columns[i], List.getElem?_eq_getElem hi, by simpa using hname⟩

/-- Looking a column up by name and by its position. -/
theorem find_of_position {name : String} {i : Nat} (h : ts.position name = some i) :
    (ts.columns.find? fun c => c.name == name) = ts.columns[i]? := by
  rw [TableSchema.position, List.findIdx?_eq_some_iff_getElem] at h
  obtain ⟨hi, hname, hfirst⟩ := h
  rw [List.getElem?_eq_getElem hi, List.find?_eq_some_iff_getElem]
  exact ⟨hname, i, hi, rfl, fun j hj => by simpa using hfirst j hj⟩

theorem position_inj {name name' : String} {i : Nat} (h : ts.position name = some i)
    (h' : ts.position name' = some i) : name = name' := by
  obtain ⟨c, hc, rfl⟩ := position_spec h
  obtain ⟨c', hc', rfl⟩ := position_spec h'
  rw [hc] at hc'
  exact congrArg Column.name (Option.some.inj hc')

theorem pkIndex_spec {i : Nat} (h : ts.pkIndex = some i) :
    ∃ c, ts.columns[i]? = some c ∧ c.primaryKey = true := by
  rw [TableSchema.pkIndex, List.findIdx?_eq_some_iff_getElem] at h
  obtain ⟨hi, hpk, -⟩ := h
  exact ⟨ts.columns[i], List.getElem?_eq_getElem hi, hpk⟩

theorem pkIndex_of_find {pk : Column} (h : ts.columns.find? Column.primaryKey = some pk) :
    ∃ i, ts.pkIndex = some i ∧ ts.columns[i]? = some pk := by
  rw [List.find?_eq_some_iff_getElem] at h
  obtain ⟨hpk, i, hi, rfl, hfirst⟩ := h
  refine ⟨i, ?_, List.getElem?_eq_getElem hi⟩
  rw [TableSchema.pkIndex, List.findIdx?_eq_some_iff_getElem]
  exact ⟨hi, hpk, fun j hj => by simpa using hfirst j hj⟩

/-- The primary key is where its name says. -/
theorem TableSchema.KeyNamed.position {i : Nat} {pk : Column} (h : ts.KeyNamed)
    (hi : ts.pkIndex = some i) (hpk : ts.columns[i]? = some pk) :
    ts.position pk.name = some i := by
  obtain ⟨hlt, rfl⟩ := List.getElem?_eq_some_iff.mp hpk
  rw [TableSchema.position, List.findIdx?_eq_some_iff_getElem]
  refine ⟨hlt, by simp, fun j hj hname => ?_⟩
  have hji := h i j _ _ hi hpk (List.getElem?_eq_getElem (by omega)) (by simpa using hname)
  omega

theorem TableSchema.KeyNamed.count {i : Nat} {pk : Column} (h : ts.KeyNamed)
    (hi : ts.pkIndex = some i) (hpk : ts.columns[i]? = some pk) :
    (ts.columns.map Column.name).count pk.name ≤ 1 := by
  by_contra hcount
  have htwo : 2 ≤ (ts.columns.map Column.name).count pk.name := by omega
  have hdup := List.duplicate_iff_two_le_count.mpr htwo
  obtain ⟨n, m, hnm, hn, hm⟩ := List.duplicate_iff_exists_distinct_get.mp hdup
  have hat : ∀ k : Fin (ts.columns.map Column.name).length,
      pk.name = (ts.columns.map Column.name).get k → k.val = i := by
    intro k hk
    have hlt : k.val < ts.columns.length := by simpa using k.isLt
    exact h i k.val pk ts.columns[k.val] hi hpk (List.getElem?_eq_getElem hlt)
      (by simpa using hk.symm)
  have heq : n.val = m.val := (hat n hn).trans (hat m hm).symm
  exact absurd (Fin.ext heq) hnm.ne

/-! ## Columns added, dropped and renamed -/

theorem TableSchema.Distinct.append {column : Column} (h : ts.Distinct)
    (hno : ∀ c ∈ ts.columns, c.name ≠ column.name) :
    TableSchema.Distinct { ts with columns := ts.columns ++ [column] } := by
  show ((ts.columns ++ [column]).map Column.name).Nodup
  rw [List.map_append, List.nodup_append]
  refine ⟨h, by simp, fun n hn m hm heq => ?_⟩
  obtain ⟨c, hc, rfl⟩ := List.mem_map.mp hn
  obtain rfl : m = column.name := by simpa using hm
  exact hno c hc heq

theorem TableSchema.Distinct.eraseIdx (h : ts.Distinct) (i : Nat) :
    TableSchema.Distinct { ts with columns := ts.columns.eraseIdx i } :=
  h.sublist ((List.eraseIdx_sublist ..).map Column.name)

theorem map_name_modify {newName : String} : ∀ (columns : List Column) (i : Nat),
    ((columns.modify i fun c => { c with name := newName }).map Column.name) =
      (columns.map Column.name).modify i fun _ => newName
  | [], i => by simp
  | c :: cs, 0 => by simp
  | c :: cs, i + 1 => by simp [map_name_modify cs i]

theorem nodup_modify {newName : String} : ∀ {names : List String} (i : Nat), names.Nodup →
    newName ∉ names → (names.modify i fun _ => newName).Nodup ∧
      ∀ n ∈ names.modify i fun _ => newName, n = newName ∨ n ∈ names
  | [], _, _, _ => by simp
  | n :: ns, 0, hnd, hno => by
      rw [List.nodup_cons] at hnd
      rw [List.mem_cons, not_or] at hno
      simp only [List.modify_zero_cons, List.nodup_cons, List.mem_cons]
      exact ⟨⟨hno.2, hnd.2⟩, fun m hm => hm.imp id Or.inr⟩
  | n :: ns, i + 1, hnd, hno => by
      rw [List.nodup_cons] at hnd
      rw [List.mem_cons, not_or] at hno
      obtain ⟨hmod, hsub⟩ := nodup_modify i hnd.2 hno.2
      simp only [List.modify_succ_cons, List.nodup_cons, List.mem_cons]
      refine ⟨⟨fun hn => ?_, hmod⟩, fun m hm => ?_⟩
      · rcases hsub n hn with rfl | hn
        · exact hno.1 rfl
        · exact hnd.1 hn
      · rcases hm with rfl | hm
        · exact Or.inr (Or.inl rfl)
        · exact (hsub m hm).imp id Or.inr

theorem TableSchema.Distinct.modify {newName : String} (h : ts.Distinct) (i : Nat)
    (hno : ∀ c ∈ ts.columns, c.name ≠ newName) : TableSchema.Distinct
      { ts with columns := ts.columns.modify i fun c => { c with name := newName } } := by
  show List.Nodup _
  rw [map_name_modify]
  refine (nodup_modify i h fun hmem => ?_).1
  obtain ⟨c, hc, hn⟩ := List.mem_map.mp hmem
  exact hno c hc hn

theorem pkIndex_modify {newName : String} : ∀ (columns : List Column) (i : Nat),
    (columns.modify i fun c => { c with name := newName }).findIdx? Column.primaryKey =
      columns.findIdx? Column.primaryKey
  | [], i => by simp
  | c :: cs, 0 => by simp [List.findIdx?_cons]
  | c :: cs, i + 1 => by simp [List.findIdx?_cons, pkIndex_modify cs i]

theorem pkIndex_append {columns : List Column} {column : Column} {i : Nat}
    (h : columns.findIdx? Column.primaryKey = some i) :
    (columns ++ [column]).findIdx? Column.primaryKey = some i := by
  rw [List.findIdx?_append, h]
  rfl

/-- Without a column that is not the primary key, the primary key is where it was or one
place to the left. -/
theorem pkIndex_eraseIdx : ∀ {columns : List Column} {i j : Nat},
    columns.findIdx? Column.primaryKey = some i → ¬ columns[j]?.any Column.primaryKey →
    (columns.eraseIdx j).findIdx? Column.primaryKey = some (if j < i then i - 1 else i)
  | [], _, _, h, _ => by cases h
  | c :: cs, i, 0, h, hj => by
      have hc : c.primaryKey = false := by simpa using hj
      rw [List.findIdx?_cons, hc] at h
      simp only [Bool.false_eq_true, if_false, Option.map_eq_some_iff] at h
      obtain ⟨k, hk, rfl⟩ := h
      simpa using hk
  | c :: cs, i, j + 1, h, hj => by
      rw [List.eraseIdx_cons_succ, List.findIdx?_cons]
      rw [List.findIdx?_cons] at h
      by_cases hc : c.primaryKey
      · rw [if_pos hc] at h ⊢
        obtain rfl := Option.some.inj h
        simp
      · rw [if_neg hc, Option.map_eq_some_iff] at h
        obtain ⟨k, hk, rfl⟩ := h
        rw [if_neg hc, pkIndex_eraseIdx hk (by simpa using hj), Option.map_some]
        congr 1
        split <;> split <;> omega

theorem TableSchema.KeyNamed.modify {newName : String} (h : ts.KeyNamed) (k : Nat)
    (hno : ∀ c ∈ ts.columns, c.name ≠ newName) : TableSchema.KeyNamed
      { ts with columns := ts.columns.modify k fun c => { c with name := newName } } := by
  intro i j pk c hi hpk hc hname
  have hi' : ts.pkIndex = some i := (pkIndex_modify ts.columns k).symm.trans hi
  dsimp only at hpk hc
  rw [List.getElem?_modify] at hpk hc
  obtain ⟨pk', hpk', rfl⟩ := Option.map_eq_some_iff.mp hpk
  obtain ⟨c', hc', rfl⟩ := Option.map_eq_some_iff.mp hc
  have hpkname := hno pk' (List.mem_of_getElem? hpk')
  have hcname := hno c' (List.mem_of_getElem? hc')
  by_cases hik : k = i
  · by_cases hjk : k = j
    · exact hjk.symm.trans hik
    · rw [if_neg hjk, if_pos hik] at hname
      exact absurd hname hcname
  · by_cases hjk : k = j
    · rw [if_pos hjk, if_neg hik] at hname
      exact absurd hname.symm hpkname
    · rw [if_neg hjk, if_neg hik] at hname
      exact h i j pk' c' hi' hpk' hc' hname

theorem TableSchema.KeyNamed.append {column : Column} (h : ts.KeyNamed)
    (hno : ∀ c ∈ ts.columns, c.name ≠ column.name) :
    TableSchema.KeyNamed { ts with columns := ts.columns ++ [column] } := by
  intro i j pk c hi hpk hc hname
  dsimp only at hpk hc
  have hlast : ∀ {k : Nat} {d : Column}, (ts.columns ++ [column])[k]? = some d →
      ts.columns[k]? = some d ∨ (k = ts.columns.length ∧ d = column) := by
    intro k d hd
    rw [List.getElem?_append] at hd
    split at hd
    · exact Or.inl hd
    · rename_i hk
      obtain ⟨hlt, rfl⟩ := List.getElem?_eq_some_iff.mp hd
      have hlt' : k - ts.columns.length < 1 := hlt
      exact Or.inr ⟨by omega, by simp⟩
  rcases hlast hpk with hpk₀ | ⟨rfl, rfl⟩
  · have hi' : ts.pkIndex = some i := by
      cases hold : ts.pkIndex with
      | some i' => exact (pkIndex_append hold).symm.trans hi
      | none =>
          obtain ⟨d, hd, hdpk⟩ := pkIndex_spec hi
          have hnone := List.findIdx?_eq_none_iff.mp hold pk (List.mem_of_getElem? hpk₀)
          obtain rfl : pk = d := Option.some.inj (hpk.symm.trans hd)
          rw [hnone] at hdpk
          cases hdpk
    rcases hlast hc with hc₀ | ⟨-, hcol⟩
    · exact h i j pk c hi' hpk₀ hc₀ hname
    · exact absurd (hcol ▸ hname.symm) (hno pk (List.mem_of_getElem? hpk₀))
  · rcases hlast hc with hc₀ | ⟨hj, -⟩
    · exact absurd hname (hno c (List.mem_of_getElem? hc₀))
    · exact hj

theorem TableSchema.KeyNamed.eraseIdx (h : ts.KeyNamed) {k : Nat}
    (hno : ¬ ts.columns[k]?.any Column.primaryKey) :
    TableSchema.KeyNamed { ts with columns := ts.columns.eraseIdx k } := by
  intro i j pk c hi hpk hc hname
  dsimp only at hpk hc
  rw [List.getElem?_eraseIdx] at hpk hc
  cases hold : ts.pkIndex with
  | none =>
      obtain ⟨d, hd, hdpk⟩ := pkIndex_spec hi
      have hmem := (List.eraseIdx_sublist ts.columns k).subset (List.mem_of_getElem? hd)
      rw [List.findIdx?_eq_none_iff.mp hold d hmem] at hdpk
      cases hdpk
  | some i' =>
      have hne : i' ≠ k := by
        rintro rfl
        obtain ⟨d, hd, hdpk⟩ := pkIndex_spec hold
        exact hno (by simp [hd, hdpk])
      have hii' : (if k < i' then i' - 1 else i') = i :=
        Option.some.inj ((pkIndex_eraseIdx hold hno).symm.trans hi)
      have hpk' : ts.columns[i']? = some pk := by
        split at hpk <;> split at hii' <;> first | omega | skip
        · exact hii' ▸ hpk
        · have hback : i' = i + 1 := by omega
          exact hback ▸ hpk
      have hj := h i' (if j < k then j else j + 1) pk c hold hpk' (by split at hc <;> simp [*]) hname
      split at hj <;> split at hii' <;> omega

theorem eraseIdx_value {values : List Value} {i j : Nat} {v : Value} (hne : i ≠ j)
    (h : values[i]? = some v) : (values.eraseIdx j)[if j < i then i - 1 else i]? = some v := by
  rw [List.getElem?_eraseIdx]
  split
  · rename_i hlt
    rw [if_neg (by omega), Nat.sub_add_cancel (by omega)]
    exact h
  · rw [if_pos (by omega)]
    exact h

/-! ## The row of an INSERT -/

theorem fillRow_length (row : List Value) (nv : List (String × Value)) :
    (fillRow ts row nv).length = row.length := by
  induction nv generalizing row with
  | nil => rfl
  | cons e nv ih =>
      obtain ⟨name, value⟩ := e
      simp only [fillRow]
      split
      · rw [ih, List.length_set]
      · exact ih row

theorem fillRow_untouched {name : String} {i : Nat} (hp : ts.position name = some i) :
    ∀ {row : List Value} {nv : List (String × Value)}, (∀ e ∈ nv, e.1 ≠ name) →
      (fillRow ts row nv)[i]? = row[i]?
  | _, [], _ => rfl
  | row, (n, v) :: nv, h => by
      have hrest : ∀ e ∈ nv, e.1 ≠ name := fun e he => h e (List.mem_cons_of_mem _ he)
      simp only [fillRow]
      split
      · rename_i j hj
        have hne : j ≠ i := by
          rintro rfl
          exact h _ List.mem_cons_self (position_inj hj hp)
        rw [fillRow_untouched hp hrest, List.getElem?_set_ne hne]
      · exact fillRow_untouched hp hrest

/-- A column holds the last value given for it, or what it held. -/
theorem fillRow_value {i : Nat} : ∀ {row : List Value} (nv : List (String × Value)),
    i < row.length →
    (∃ e ∈ nv, ts.position e.1 = some i ∧ (fillRow ts row nv)[i]? = some e.2) ∨
      ((∀ e ∈ nv, ts.position e.1 ≠ some i) ∧ (fillRow ts row nv)[i]? = row[i]?)
  | row, [], _ => Or.inr ⟨by simp, rfl⟩
  | row, (name, value) :: nv, hi => by
      simp only [fillRow]
      split
      · rename_i j hj
        have hi' : i < (row.set j value).length := by rwa [List.length_set]
        rcases fillRow_value nv hi' with ⟨e, he, hp, hv⟩ | ⟨hno, hv⟩
        · exact Or.inl ⟨e, List.mem_cons_of_mem _ he, hp, hv⟩
        · by_cases hji : j = i
          · subst hji
            rw [List.getElem?_set_self hi] at hv
            exact Or.inl ⟨_, List.mem_cons_self, hj, hv⟩
          · rw [List.getElem?_set_ne hji] at hv
            refine Or.inr ⟨fun e he hp => ?_, hv⟩
            rcases List.mem_cons.mp he with rfl | he
            · exact hji (Option.some.inj (hj.symm.trans hp))
            · exact hno e he hp
      · rename_i hj
        rcases fillRow_value nv hi with ⟨e, he, hp, hv⟩ | ⟨hno, hv⟩
        · exact Or.inl ⟨e, List.mem_cons_of_mem _ he, hp, hv⟩
        · refine Or.inr ⟨fun e he hp => ?_, hv⟩
          rcases List.mem_cons.mp he with rfl | he
          · simp [hj] at hp
          · exact hno e he hp

/-- A column named once holds the value given for it. -/
theorem fillRow_named {name : String} {i : Nat} {v : Value} (hp : ts.position name = some i) :
    ∀ {row : List Value} {nv : List (String × Value)}, i < row.length →
      nv.find? (fun e => e.1 == name) = some (name, v) → (nv.map Prod.fst).count name ≤ 1 →
      (fillRow ts row nv)[i]? = some v
  | _, [], _, h, _ => by cases h
  | row, (n, w) :: nv, hi, h, hcount => by
      simp only [fillRow]
      by_cases hn : n = name
      · subst hn
        rw [List.find?_cons_of_pos (by simp)] at h
        obtain ⟨-, rfl⟩ := Prod.mk.inj (Option.some.inj h)
        rw [List.map_cons, List.count_cons_self] at hcount
        have hrest : ∀ e ∈ nv, e.1 ≠ n := by
          intro e he heq
          have := List.one_le_count_iff.mpr (heq ▸ List.mem_map_of_mem he : n ∈ nv.map Prod.fst)
          omega
        rw [hp]
        dsimp only
        rw [fillRow_untouched hp hrest, List.getElem?_set_self hi]
      · rw [List.find?_cons_of_neg (by simpa using hn)] at h
        rw [List.map_cons, List.count_cons_of_ne hn] at hcount
        split
        · exact fillRow_named hp (by rwa [List.length_set]) h hcount
        · exact fillRow_named hp hi h hcount

end VelociDB
