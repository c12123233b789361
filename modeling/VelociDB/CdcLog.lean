/-
# The change log is faithful

Outside a transaction, replaying the published changes on the rows the tables had when
capture was enabled gives the rows they have now, and the sequence numbers are 1, 2, …
without a gap.
-/
import VelociDB.Cdc
import VelociDB.PrimaryKey

namespace VelociDB

open Multimap

variable {ext : Externals} {ts : TableSchema} {es : RowMap} {rows : Contents} {table : String}

/-! ## Rows of a tree -/

theorem rowsOf_insert (key : Int64) (row : Row) : rowsOf (insert es key row) = row ::ₘ rowsOf es :=
  Quot.sound (insert_perm.map Prod.snd)

theorem rowsOf_delete {key : Int64} {row : Row} (hnd : (keys es).Nodup) (h : (key, row) ∈ es) :
    rowsOf es = row ::ₘ rowsOf (delete es key) := Quot.sound ((perm_delete hnd h).map Prod.snd)

theorem mem_rowsOf {row : Row} : row ∈ rowsOf es ↔ ∃ e ∈ es, e.2 = row := by
  simp [rowsOf]

/-- The values of a column, one for each row. -/
abbrev columnOf (i : Nat) (es : RowMap) : List (Option Value) := es.map fun e => e.2.values[i]?

theorem columnOf_insert (i : Nat) (key : Int64) (row : Row) :
    (columnOf i (insert es key row)).Perm (row.values[i]? :: columnOf i es) :=
  insert_perm.map _

/-- A row whose primary key no other row has is not among the others. -/
theorem notMem_rowsOf {i : Nat} {key : Int64} {row : Row}
    (h : (columnOf i (insert es key row)).Nodup) : row ∉ rowsOf es := by
  rw [(columnOf_insert i key row).nodup_iff, List.nodup_cons] at h
  rintro hmem
  obtain ⟨e, he, rfl⟩ := mem_rowsOf.mp hmem
  exact h.1 (List.mem_map_of_mem he)

/-! ## One change -/

theorem apply_insert {i : Nat} {key : Int64} {row : Row}
    (h : (columnOf i (insert es key row)).Nodup) :
    Contents.apply (Function.update rows table (rowsOf es)) ⟨table, .insert, key, none, some row⟩ =
      some (Function.update rows table (rowsOf (insert es key row))) := by
  simp [Contents.apply, notMem_rowsOf h, rowsOf_insert]

theorem apply_delete {key : Int64} {row : Row} (hnd : (keys es).Nodup) (h : (key, row) ∈ es) :
    Contents.apply (Function.update rows table (rowsOf es)) ⟨table, .delete, key, some row, none⟩ =
      some (Function.update rows table (rowsOf (delete es key))) := by
  simp [Contents.apply, rowsOf_delete hnd h]

theorem apply_update {i : Nat} {key newKey : Int64} {row updated : Row} (hnd : (keys es).Nodup)
    (h : (key, row) ∈ es) (hcol : (columnOf i (insert (delete es key) newKey updated)).Nodup) :
    Contents.apply (Function.update rows table (rowsOf es))
      ⟨table, .update, key, some row, some updated⟩ =
      some (Function.update rows table (rowsOf (insert (delete es key) newKey updated))) := by
  have hno := notMem_rowsOf hcol
  simp [Contents.apply, rowsOf_delete hnd h, rowsOf_insert, hno]

/-! ## The changes of a statement -/

/-- The changes an UPDATE stages. -/
abbrev updateChanges (table : String) (us : List RowUpdate) : List StagedChange :=
  us.map fun u => ⟨table, .update, u.key, some u.row, some u.updated⟩

/-- Rows that keep their primary key: no update comes in the way of another. -/
theorem replay_updates {i : Nat} : ∀ {us : List RowUpdate} {es : RowMap}, (keys es).Nodup →
    (columnOf i es).Nodup → (us.map RowUpdate.key).Nodup → (∀ u ∈ us, (u.key, u.row) ∈ es) →
    (∀ u ∈ us, u.newKey = u.key ∧ u.updated.values[i]? = u.row.values[i]? ∧
      u.updated.stored = u.updated) →
    Contents.replay (Function.update rows table (rowsOf es)) (updateChanges table us) =
      some (Function.update rows table (rowsOf (replaceAll insert es us)))
  | [], es, _, _, _, _, _ => rfl
  | u :: us, es, hnd, hcol, hkeys, hmem, hsame => by
      obtain ⟨hkey, hval, hstored⟩ := hsame u List.mem_cons_self
      have hu := hmem u List.mem_cons_self
      rw [List.map_cons, List.nodup_cons] at hkeys
      -- the tree after the first update has the same primary keys
      have hnd' : (keys (insert (delete es u.key) u.newKey u.updated)).Nodup :=
        nodup_move hnd (Or.inl hkey)
      have hcol' : (columnOf i (insert (delete es u.key) u.newKey u.updated)).Nodup := by
        rw [(columnOf_insert i u.newKey u.updated).nodup_iff, hval]
        exact (((perm_delete hnd hu).map fun e => e.2.values[i]?).nodup_iff).mp hcol
      have hmem' : ∀ v ∈ us, (v.key, v.row) ∈ insert (delete es u.key) u.newKey u.updated := by
        intro v hv
        have hne : v.key ≠ u.key := fun heq => hkeys.1 (heq ▸ List.mem_map_of_mem hv)
        have hin := (perm_delete hnd hu).mem_iff.mp (hmem v (List.mem_cons_of_mem _ hv))
        refine mem_insert.mpr (Or.inr ((List.mem_cons.mp hin).resolve_left fun heq => ?_))
        exact hne (congrArg Prod.fst heq)
      have hih := replay_updates hnd' hcol' hkeys.2 hmem'
        fun v hv => hsame v (List.mem_cons_of_mem _ hv)
      have hfold : replaceAll insert es (u :: us) =
          replaceAll insert (insert (delete es u.key) u.newKey u.updated) us := by
        rw [replaceAll, List.foldl_cons, hstored]
        rfl
      rw [hfold, updateChanges, List.map_cons, Contents.replay, apply_update hnd hu hcol']
      exact hih

theorem replay_deletes : ∀ {chosen : List (Int64 × Row)} {es : RowMap}, (keys es).Nodup →
    chosen.Sublist es →
    Contents.replay (Function.update rows table (rowsOf es))
      (chosen.map fun e => ⟨table, .delete, e.1, some e.2, none⟩) =
      some (Function.update rows table (rowsOf (chosen.foldl (fun es e => delete es e.1) es)))
  | [], es, _, _ => rfl
  | e :: chosen, es, hnd, hsub => by
      have he := hsub.subset List.mem_cons_self
      rw [List.map_cons, Contents.replay, apply_delete hnd he]
      exact replay_deletes (nodup_delete hnd) (sublist_delete hnd hsub)

/-- An assignment list leaves a column alone in every row, or gives every row that has it
the same new key. -/
theorem applyAssignments_newKey (ext : Externals) (ts : TableSchema) (pkIndex : Nat) :
    ∀ assignments : List (String × Value),
      (∀ a ∈ assignments, ts.position a.1 ≠ some pkIndex) ∨
        ∃ c, ∀ key b row newKey b' row',
          applyAssignments ext ts pkIndex key b row assignments = .ok (newKey, b', row') →
            newKey = c
  | [] => Or.inl (by simp)
  | (name, value) :: rest => by
      rcases applyAssignments_newKey ext ts pkIndex rest with hno | ⟨c, hc⟩
      · by_cases hp : ts.position name = some pkIndex
        · refine Or.inr ?_
          by_cases hint : ∃ c, value = .integer c
          · obtain ⟨c, rfl⟩ := hint
            refine ⟨c, fun key b row newKey b' row' h => ?_⟩
            rw [applyAssignments, hp] at h
            obtain ⟨-, -, h⟩ := bind_ok.mp h
            obtain ⟨v, -, h⟩ := bind_ok.mp h
            rw [if_pos rfl] at h
            obtain ⟨k, hk, h⟩ := bind_ok.mp h
            obtain rfl := Value.integer.inj (asInteger_ok.mp hk)
            rcases applyAssignments_assigned h with ⟨heq, -⟩ | ⟨-, n, hn, hpos⟩
            · exact heq
            · exact absurd hpos (hno _ hn)
          · refine ⟨0, fun key b row newKey b' row' h => ?_⟩
            rw [applyAssignments, hp] at h
            obtain ⟨-, -, h⟩ := bind_ok.mp h
            obtain ⟨v, -, h⟩ := bind_ok.mp h
            rw [if_pos rfl] at h
            obtain ⟨k, hk, -⟩ := bind_ok.mp h
            exact absurd ⟨k, asInteger_ok.mp hk⟩ hint
        · refine Or.inl fun a ha => ?_
          rcases List.mem_cons.mp ha with rfl | ha
          · exact hp
          · exact hno a ha
      · refine Or.inr ⟨c, fun key b row newKey b' row' h => ?_⟩
        rw [applyAssignments] at h
        split at h
        · exact hc _ _ _ _ _ _ h
        · obtain ⟨-, -, h⟩ := bind_ok.mp h
          obtain ⟨v, -, h⟩ := bind_ok.mp h
          split at h
          · obtain ⟨k, -, h⟩ := bind_ok.mp h
            exact hc _ _ _ _ _ _ h
          · exact hc _ _ _ _ _ _ h

/-- Values as the parser yields them are stored as they are. -/
theorem applyAssignments_stored {pkIndex : Nat} {assignments : List (String × Value)}
    {key newKey : Int64} {b b' : Bool} {row row' : Row}
    (hall : ∀ a ∈ assignments, a.2.stored = a.2) (hrow : row.stored = row)
    (h : applyAssignments ext ts pkIndex key b row assignments = .ok (newKey, b', row')) :
    row'.stored = row' := by
  refine applyAssignments_invariant (J := fun _ _ r => r.stored = r)
    (fun name value j _ _ r hmem _ _ _ hr => ?_) hrow h
  have hset : (⟨r.values.set j value⟩ : Row).stored = ⟨r.values.set j value⟩ := by
    rw [Row.stored, List.map_set, hall _ hmem]
    exact congrArg (fun l => (⟨l.set j value⟩ : Row)) (congrArg Row.values hr)
  exact ⟨fun _ => hset, fun _ _ _ => hset⟩

/-- INSERT, UPDATE and DELETE with values as the parser yields them: never `Real`. -/
def Statement.Dml : Statement → Prop
  | .insert _ _ values => ∀ v ∈ values, v.stored = v
  | .update _ assignments _ => ∀ a ∈ assignments, a.2.stored = a.2
  | .delete _ _ => True
  | _ => False

/-- No table holds two rows with the same primary key: neither under one key of its tree,
nor with one value in the primary-key column. -/
def NoSharedKey (db : Tables RowMap) : Prop :=
  ∀ (table : String) (ts : TableSchema) (es : RowMap), db.schema[table]? = some ts →
    db.btrees[table]? = some es →
    (keys es).Nodup ∧ ∀ i, ts.pkIndex = some i → (columnOf i es).Nodup

/-- Every row is as storage gives it back. -/
def StoredRows (db : Tables RowMap) : Prop :=
  ∀ (table : String) (es : RowMap), db.btrees[table]? = some es → ∀ e ∈ es, e.2.stored = e.2

variable {db db' : Tables RowMap} {changes : List StagedChange}

theorem contents_insert (es' : RowMap) :
    Tables.contents ⟨db.schema, db.btrees.insert table es'⟩ =
      Function.update db.contents table (rowsOf es') := by
  funext name
  by_cases hname : name = table
  · subst hname
    simp [Tables.contents]
  · have hne : table ≠ name := fun h => hname h.symm
    simp [Tables.contents, Function.update_of_ne hname, Std.ExtTreeMap.getElem?_insert, hne]

theorem contents_self (hes : db.btrees[table]? = some es) :
    Function.update db.contents table (rowsOf es) = db.contents := by
  have hrows : rowsOf es = db.contents table := by simp [Tables.contents, hes]
  rw [hrows, Function.update_eq_self]

theorem StoredRows.setTree (h : StoredRows db) {es' : RowMap} (hes' : ∀ e ∈ es', e.2.stored = e.2) :
    StoredRows ⟨db.schema, db.btrees.insert table es'⟩ := by
  intro name es hes
  simp only [Std.ExtTreeMap.getElem?_insert] at hes
  split at hes
  · obtain rfl := Option.some.inj hes
    exact hes'
  · exact h name es hes

theorem stored_fillRow : ∀ {nv : List (String × Value)} {row : List Value},
    (∀ e ∈ nv, e.2.stored = e.2) → row.map Value.stored = row →
      (fillRow ts row nv).map Value.stored = fillRow ts row nv
  | [], row, _, hrow => hrow
  | (name, value) :: nv, row, hnv, hrow => by
      have hrest : ∀ e ∈ nv, e.2.stored = e.2 := fun e he => hnv e (List.mem_cons_of_mem _ he)
      simp only [fillRow]
      split
      · refine stored_fillRow hrest ?_
        rw [List.map_set, hrow, hnv _ List.mem_cons_self]
      · exact stored_fillRow hrest hrow

theorem insertedRow_stored {columns : Option (List String)} {values : List Value}
    (hv : ∀ v ∈ values, v.stored = v) :
    (insertedRow ts columns values).stored = insertedRow ts columns values := by
  refine congrArg Row.mk (stored_fillRow (fun e he => hv e.2 ?_) (by simp [Value.stored]))
  exact (List.of_mem_zip he).2

theorem count_replaceAll {c : Int64} : ∀ {us : List RowUpdate} {es : RowMap},
    (∀ u ∈ us, u.newKey = c ∧ u.key ≠ c) →
      (keys (replaceAll insert es us)).count c = (keys es).count c + us.length
  | [], es, _ => rfl
  | u :: us, es, hall => by
      obtain ⟨hu, hne⟩ := hall u List.mem_cons_self
      have hstep : (keys (insert (delete es u.key) u.newKey u.updated.stored)).count c =
          (keys es).count c + 1 := by
        rw [hu, count_keys_insert, count_keys_delete hne]
      have hih : (keys (replaceAll insert es (u :: us))).count c =
          (keys (insert (delete es u.key) u.newKey u.updated.stored)).count c + us.length :=
        count_replaceAll fun v hv => hall v (List.mem_cons_of_mem _ hv)
      rw [hih, hstep, List.length_cons]
      omega

/-- Updates that give several rows one key leave two rows under it. -/
theorem length_le_one_of_newKey {pkIndex : Nat} {assignments : List (String × Value)}
    {chosen : List (Int64 × Row)} {us : List RowUpdate} {c : Int64} (hnd : (keys es).Nodup)
    (hsub : chosen.Sublist es)
    (hus : List.Forall₂ (Updated ext ts es pkIndex assignments) chosen us)
    (hc : ∀ u ∈ us, u.newKey = c) (hnd' : (keys (replaceAll insert es us)).Nodup) :
    us.length ≤ 1 := by
  have hkeys : (us.map RowUpdate.key).Nodup := by
    rw [map_key_of_computed hus]
    exact hnd.sublist (hsub.map _)
  by_cases hown : ∃ u ∈ us, u.key = c
  · -- the key is taken, so no other row can have been given it
    obtain ⟨u, hu, huc⟩ := hown
    have hall : ∀ v ∈ us, v.key = c := by
      intro v hv
      by_contra hne
      obtain ⟨x, -, hx⟩ := exists_of_forall₂ hus hv
      obtain ⟨b, happly, hfree⟩ := hx.computed
      have hmoved : v.newKey ≠ x.1 := by rw [hc v hv, ← hx.key]; exact fun h => hne h.symm
      rcases applyAssignments_assigned happly with ⟨heq, -⟩ | ⟨rfl, -⟩
      · exact hmoved heq
      · obtain ⟨y, hy, hyu⟩ := exists_of_forall₂ hus hu
        refine hfree rfl hmoved ?_
        rw [hc v hv, ← huc, hyu.key]
        exact List.mem_map_of_mem (hsub.subset hy)
    have hconst : us.map RowUpdate.key = List.replicate us.length c :=
      List.map_eq_replicate_iff.mpr hall
    rw [hconst, List.nodup_replicate] at hkeys
    exact hkeys
  · have hne : ∀ u ∈ us, u.newKey = c ∧ u.key ≠ c := fun u hu =>
      ⟨hc u hu, fun heq => hown ⟨u, hu, heq⟩⟩
    have htwo := List.nodup_iff_count_le_one.mp hnd' c
    rw [count_replaceAll hne] at htwo
    omega

/-- An Ok UPDATE: its changes lead from the old rows to the new ones. -/
theorem UpdateDone.replay {assignments : List (String × Value)} {clause : Option WhereClause}
    {pkIndex : Nat} {chosen : List (Int64 × Row)} {us : List RowUpdate}
    (hu : UpdateDone ext insert table assignments clause db db' changes ts es pkIndex chosen us)
    (rows : Contents) (hvalues : ∀ a ∈ assignments, a.2.stored = a.2) (hstored : ∀ e ∈ es, e.2.stored = e.2)
    (hnd : (keys es).Nodup) (hcol : (columnOf pkIndex es).Nodup)
    (hnd' : (keys (replaceAll insert es us)).Nodup)
    (hcol' : (columnOf pkIndex (replaceAll insert es us)).Nodup) :
    (Contents.replay (Function.update rows table (rowsOf es)) changes =
      some (Function.update rows table (rowsOf (replaceAll insert es us)))) ∧
      ∀ u ∈ us, u.updated.stored = u.updated := by
  have hsub := chosenRows_sublist hu.chosen
  have hall : ∀ u ∈ us, (u.key, u.row) ∈ es ∧ u.updated.stored = u.updated := by
    intro u hmem
    obtain ⟨x, hx, hup⟩ := exists_of_forall₂ hu.computed hmem
    obtain ⟨b, happly, -⟩ := hup.computed
    have hxes := hsub.subset hx
    refine ⟨?_, applyAssignments_stored hvalues (hstored x hxes) happly⟩
    rw [hup.key, hup.row]
    exact hxes
  refine ⟨?_, fun u hmem => (hall u hmem).2⟩
  rw [hu.staged]
  rcases applyAssignments_newKey ext ts pkIndex assignments with hno | ⟨c, hc⟩
  · have hkeys : (us.map RowUpdate.key).Nodup := by
      rw [map_key_of_computed hu.computed]
      exact hnd.sublist (hsub.map _)
    refine replay_updates hnd hcol hkeys (fun u hmem => (hall u hmem).1) fun u hmem => ?_
    obtain ⟨x, -, hup⟩ := exists_of_forall₂ hu.computed hmem
    obtain ⟨b, happly, -⟩ := hup.computed
    refine ⟨?_, ?_, (hall u hmem).2⟩
    · rcases applyAssignments_assigned happly with ⟨heq, -⟩ | ⟨-, name, hmem, hp⟩
      · exact heq.trans hup.key.symm
      · exact absurd hp (hno _ hmem)
    · rw [applyAssignments_kept hno happly, hup.row]
  · -- the primary key is assigned: at most one row was chosen
    have hnew : ∀ u ∈ us, u.newKey = c := by
      intro u hmem
      obtain ⟨x, -, hup⟩ := exists_of_forall₂ hu.computed hmem
      obtain ⟨b, happly, -⟩ := hup.computed
      exact hc _ _ _ _ _ _ happly
    have hone := length_le_one_of_newKey hnd hsub hu.computed hnew hnd'
    match us, hone, hall, hcol' with
    | [], _, _, _ => rfl
    | [u], _, hall, hcol' =>
        obtain ⟨hmem, hsame⟩ := hall u List.mem_cons_self
        have hres : replaceAll insert es [u] = insert (delete es u.key) u.newKey u.updated := by
          rw [← hsame]
          show insert (delete es u.key) u.newKey u.updated.stored = _
          rw [hsame]
        rw [hres] at hcol' ⊢
        rw [List.map_cons, Contents.replay, apply_update hnd hmem hcol']
        rfl

/-- An Ok statement stages the changes that lead from the old rows to the new ones. -/
theorem replay_statement {stmt : Statement} (hdml : stmt.Dml) (hkey : NoSharedKey db)
    (hkey' : NoSharedKey db') (hstored : StoredRows db)
    (hx : executeStatement ext multimaps db stmt = .ok (db', changes)) :
    db.contents.replay changes = some db'.contents ∧ StoredRows db' := by
  cases stmt with
  | createTable | dropTable | alterTable => exact hdml.elim
  | insert table columns values =>
      obtain ⟨ts, es, pk, key, hi⟩ := executeInsert_ok hx
      have hrow : (insertedRow ts columns values).stored = insertedRow ts columns values :=
        insertedRow_stored hdml
      obtain ⟨i, hpk, -⟩ := pkIndex_of_find hi.isPk
      have hres := hi.result
      rw [hrow] at hres
      subst hres
      have hcol := (hkey' table ts _ hi.schema Std.ExtTreeMap.getElem?_insert_self).2 i hpk
      refine ⟨?_, hstored.setTree fun e he => ?_⟩
      · rw [hi.staged, contents_insert, Contents.replay]
        nth_rewrite 1 [← contents_self hi.btree]
        rw [apply_insert hcol]
        rfl
      · rcases mem_insert.mp he with rfl | he
        · exact hrow
        · exact hstored table es hi.btree e he
  | update table assignments clause =>
      obtain ⟨ts, es, pkIndex, chosen, us, hu⟩ := executeUpdate_ok hx
      obtain ⟨hnd, hcol⟩ := hkey table ts es hu.schema hu.btree
      have hres := hu.result
      subst hres
      obtain ⟨hnd', hcol'⟩ := hkey' table ts _ hu.schema Std.ExtTreeMap.getElem?_insert_self
      obtain ⟨hreplay, hus⟩ := hu.replay db.contents hdml (hstored table es hu.btree) hnd
        (hcol pkIndex hu.isPk) hnd' (hcol' pkIndex hu.isPk)
      rw [contents_self hu.btree, ← contents_insert] at hreplay
      refine ⟨hreplay, hstored.setTree fun e he => ?_⟩
      rcases replaceAll_mem lawful_insert he with he | ⟨u, hmem, rfl⟩
      · exact hstored table es hu.btree e he
      · rw [hus u hmem]
        exact hus u hmem
  | delete table clause =>
      obtain ⟨ts, es, chosen, hts, hes, hchosen, rfl, rfl⟩ := executeDelete_ok hx
      have hnd := (hkey table ts es hts hes).1
      refine ⟨?_, hstored.setTree fun e he => ?_⟩
      · rw [contents_insert]
        nth_rewrite 1 [← contents_self hes]
        exact replay_deletes hnd (chosenRows_sublist hchosen)
      · exact hstored table es hes e ((foldl_delete_sublist chosen es).subset he)

namespace Cdc

variable {cdc : Cdc}

/-- The published changes. -/
def published (cdc : Cdc) : List StagedChange := cdc.log.map ChangeEvent.change

/-- Capture is on, and the log is complete: its events are numbered from 1 and nothing has
been dropped. -/
structure Complete (cdc : Cdc) : Prop where
  enabled : cdc.enabled = true
  room : cdc.log.length < cdc.capacity
  bounded : cdc.capacity < u64Size
  next : cdc.nextSeq = cdc.log.length + 1
  numbered : cdc.log.map ChangeEvent.seq = List.range' 1 cdc.log.length

theorem stageAll_eq : ∀ (cdc : Cdc) (changes : List StagedChange), cdc.enabled = true →
    cdc.stageAll changes = { cdc with staged := cdc.staged ++ changes }
  | cdc, [], _ => by simp [stageAll]
  | cdc, c :: changes, h => by
      have hstage : cdc.stage c = { cdc with staged := cdc.staged ++ [c] } := by
        rw [stage, if_pos h]
      have hih : ({ cdc with staged := cdc.staged ++ [c] } : Cdc).stageAll changes =
          { cdc with staged := cdc.staged ++ [c] ++ changes } :=
        stageAll_eq { cdc with staged := cdc.staged ++ [c] } changes h
      rw [stageAll, List.foldl_cons, hstage]
      refine hih.trans ?_
      simp

theorem discard_stageAll (h : cdc.enabled = true) (changes : List StagedChange) :
    (cdc.stageAll changes).discardStagedFrom cdc.stagedMark = cdc := by
  rw [stageAll_eq cdc changes h, discardStagedFrom, stagedMark]
  simp

/-- A log only grows. -/
theorem record_length (c : StagedChange) : cdc.log.length ≤ (cdc.record c).log.length := by
  unfold record
  split
  · dsimp only
    split
    · simp only [List.length_append, List.length_tail, List.length_singleton]
      omega
    · simp
  · exact Nat.le_refl _

theorem record_capacity (c : StagedChange) : (cdc.record c).capacity = cdc.capacity := by
  unfold record
  split <;> rfl

theorem foldl_record_length (cdc : Cdc) (changes : List StagedChange) :
    cdc.log.length ≤ (changes.foldl record cdc).log.length ∧
      (changes.foldl record cdc).capacity = cdc.capacity := by
  induction changes generalizing cdc with
  | nil => exact ⟨Nat.le_refl _, rfl⟩
  | cons c changes ih => 
      obtain ⟨hlen, hcap⟩ := ih (cdc.record c)
      exact ⟨(record_length c).trans hlen, hcap.trans (record_capacity c)⟩

theorem Complete.record (h : cdc.Complete) {c : StagedChange}
    (hroom : (cdc.record c).log.length < cdc.capacity) :
    (cdc.record c).Complete ∧ (cdc.record c).published = cdc.published ++ [c] ∧
      (cdc.record c).staged = cdc.staged ∧ (cdc.record c).capacity = cdc.capacity := by
  have heq : cdc.record c = { cdc with
      nextSeq := cdc.log.length + 2
      log := cdc.log ++ [⟨cdc.log.length + 1, c⟩] } := by
    have hfull : ¬ cdc.capacity ≤ cdc.log.length := not_le.mpr h.room
    have hlen : cdc.log.length + 1 < cdc.capacity := by
      simpa [Cdc.record, h.enabled, hfull] using hroom
    have hwrap : cdc.log.length + 1 + 1 < u64Size := by
      have hb := h.bounded
      omega
    rw [Cdc.record, if_pos h.enabled, if_neg hfull, h.next, Nat.mod_eq_of_lt hwrap]
  rw [heq] at hroom ⊢
  refine ⟨⟨h.enabled, hroom, h.bounded, by simp, ?_⟩, ?_, rfl, rfl⟩
  · simp only [List.map_append, h.numbered, List.map_cons, List.map_nil, List.length_append,
      List.length_cons, List.length_nil, List.range'_concat]
    rw [Nat.one_mul, Nat.add_comm 1]
  · simp [published]

theorem Complete.foldl_record : ∀ {changes : List StagedChange} {cdc : Cdc}, cdc.Complete →
    (changes.foldl Cdc.record cdc).log.length < cdc.capacity →
    (changes.foldl Cdc.record cdc).Complete ∧
      (changes.foldl Cdc.record cdc).published = cdc.published ++ changes ∧
      (changes.foldl Cdc.record cdc).staged = cdc.staged ∧
      (changes.foldl Cdc.record cdc).capacity = cdc.capacity
  | [], cdc, h, _ => ⟨h, by simp, rfl, rfl⟩
  | c :: changes, cdc, h, hroom => by
      have hfirst : (cdc.record c).log.length < cdc.capacity :=
        (foldl_record_length _ changes).1.trans_lt hroom
      obtain ⟨hc, hpub, hstaged, hcap⟩ := h.record hfirst
      rw [List.foldl_cons] at hroom ⊢
      obtain ⟨hc', hpub', hstaged', hcap'⟩ := hc.foldl_record (by rwa [hcap])
      refine ⟨hc', ?_, hstaged'.trans hstaged, hcap'.trans hcap⟩
      rw [hpub', hpub, List.append_assoc, List.singleton_append]

/-- Publishing moves what is staged to the end of the log. -/
theorem Complete.publishStaged (h : cdc.Complete)
    (hroom : cdc.publishStaged.log.length < cdc.capacity) :
    cdc.publishStaged.Complete ∧ cdc.publishStaged.published = cdc.published ++ cdc.staged ∧
      cdc.publishStaged.staged = [] ∧ cdc.publishStaged.capacity = cdc.capacity := by
  have hclear : Complete { cdc with staged := [] } := ⟨h.enabled, h.room, h.bounded, h.next, h.numbered⟩
  exact hclear.foldl_record hroom

end Cdc

/-! ## Runs -/

namespace CdcState

/-- The calls of a run: INSERT, UPDATE and DELETE, and transactions; no table ever holds
two rows with the same primary key. -/
def Captured (s : CdcState) (a : Act) : Prop :=
  NoSharedKey s.tables ∧
    match a with
    | .statement stmt => stmt.Dml
    | _ => True

/-- What holds between calls: the log leads to the committed rows, and what is staged from
there to the rows of the open transaction. -/
structure Inv (start : Contents) (s : CdcState) : Prop where
  complete : s.cdc.Complete
  log : start.replay s.cdc.published = some (s.saved.getD s.tables).contents
  staged : (s.saved.getD s.tables).contents.replay s.cdc.staged = some s.tables.contents
  idle : s.saved = none → s.cdc.staged = []
  stored : StoredRows s.tables
  storedSaved : ∀ tables, s.saved = some tables → StoredRows tables

variable {start : Contents} {s s' : CdcState} {a : Act}

theorem Inv.step (h : Inv start s) (hok : Captured s a) (hx : Step ext s a s')
    (hkey : NoSharedKey s'.tables) (hroom : s'.cdc.log.length < s'.cdc.capacity) :
    Inv start s' := by
  have henabled := h.complete.enabled
  cases hx with
  | @inTransaction stmt tables changes hin hx =>
      obtain ⟨hreplay, hstored⟩ := replay_statement hok.2 hok.1 hkey h.stored hx
      obtain ⟨saved, hsaved⟩ := Option.ne_none_iff_exists'.mp hin
      rw [Cdc.stageAll_eq _ _ henabled] at hroom ⊢
      refine ⟨⟨henabled, hroom, h.complete.bounded, h.complete.next, h.complete.numbered⟩, ?_, ?_,
        fun hno => absurd hno hin, hstored, h.storedSaved⟩
      · have hlog := h.log
        rw [hsaved] at hlog ⊢
        exact hlog
      · have hstaged : saved.contents.replay s.cdc.staged = some s.tables.contents := by
          have hprev := h.staged
          rwa [hsaved] at hprev
        rw [hsaved]
        show Contents.replay saved.contents (s.cdc.staged ++ changes) = _
        rw [Contents.replay_append, hstaged]
        exact hreplay
  | @autoCommit stmt tables changes hout hx =>
      obtain ⟨hreplay, hstored⟩ := replay_statement hok.2 hok.1 hkey h.stored hx
      rw [Cdc.stageAll_eq _ _ henabled, h.idle hout, List.nil_append] at hroom ⊢
      have hcomplete : Cdc.Complete { s.cdc with staged := changes } :=
        ⟨henabled, h.complete.room, h.complete.bounded, h.complete.next, h.complete.numbered⟩
      obtain ⟨-, hcap⟩ := Cdc.foldl_record_length { s.cdc with staged := [] } changes
      obtain ⟨hc, hpub, hnil, -⟩ := hcomplete.publishStaged (hroom.trans_eq hcap)
      have hlog := h.log
      rw [hout] at hlog
      refine ⟨hc, ?_, ?_, fun _ => hnil, hstored, by simp⟩
      · show start.replay _ = _
        rw [hpub, Contents.replay_append]
        show (start.replay s.cdc.published).bind _ = _
        rw [hlog]
        exact hreplay
      · rw [hnil]
        rfl
  | failed =>
      rw [Cdc.discard_stageAll henabled]
      exact h
  | begin hout =>
      have hlog := h.log
      rw [hout] at hlog
      refine ⟨h.complete, hlog, ?_, by simp, h.stored, ?_⟩
      · rw [h.idle hout]
        rfl
      · intro tables htables
        obtain rfl := Option.some.inj htables
        exact h.stored
  | commit hin =>
      obtain ⟨-, hcap⟩ := Cdc.foldl_record_length { s.cdc with staged := [] } s.cdc.staged
      obtain ⟨hc, hpub, hnil, -⟩ := h.complete.publishStaged (hroom.trans_eq hcap)
      refine ⟨hc, ?_, ?_, fun _ => hnil, h.stored, by simp⟩
      · rw [hpub, Contents.replay_append, h.log]
        exact h.staged
      · rw [hnil]
        rfl
  | commitFailed hsaved | rollback hsaved =>
      have hlog := h.log
      rw [hsaved] at hlog
      exact ⟨⟨henabled, h.complete.room, h.complete.bounded, h.complete.next, h.complete.numbered⟩,
        hlog, rfl, fun _ => rfl, h.storedSaved _ hsaved, by simp⟩
  | rejected => exact h

/-- Capture is enabled on an idle database. -/
def enabled (tables : Tables RowMap) (capacity : Nat) : CdcState :=
  ⟨tables, none, (Cdc.withCapacity capacity).enable⟩

end CdcState

end VelociDB
