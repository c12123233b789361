/-
# Convergence of replicas (`crdt.rs`)

Under last-write-wins a record is a function of the set of operations about it: it has the stamp
of the last one and is deleted when that is a delete, and it has the values of the last one that
is not a delete.  The code keeps to that as long as

    INSERT    is not earlier than the record it finds: it is not compared with it
    DELETE    finds a record, and none with its own timestamp and a smaller node
    UPDATE    that is earlier than a deletion was written over already: the values of a
              deleted record are those the deletion found

`Holds` is what the set determines, `Holds.apply` what one operation does to it.
-/
import VelociDB.CrdtSync

namespace VelociDB.Crdt

/-- The operations that write values. -/
def writers (ops : Set CrdtOperation) : Set CrdtOperation := {op ∈ ops | op.values ≠ none}

/-- The record that a set of operations determines. -/
structure Determines (ops : Set CrdtOperation) (record : CrdtRecord) : Prop where
  key : ∀ op ∈ ops, op.key = record.key
  last : IsGreatest (CrdtOperation.stamp '' ops) record.stamp
  deleted : ∀ op ∈ ops, op.stamp = record.stamp → (record.isDeleted ↔ op.values = none)
  written : ∃ op ∈ ops, op.values = some record.values ∧
    ∀ o ∈ writers ops, o.stamp ≤ op.stamp

/-- What is stored of a record: nothing without operations. -/
def Holds (ops : Set CrdtOperation) : Option CrdtRecord → Prop
  | none => ops = ∅
  | some record => Determines ops record

variable {ops : Set CrdtOperation} {op : CrdtOperation} {r r' : CrdtRecord}

theorem stamp_record_eq_iff : r.stamp = r'.stamp ↔ r.timestamp = r'.timestamp ∧ r.nodeId = r'.nodeId := by
  simp [CrdtRecord.stamp]

/-- An update replaces the record when its stamp is later. -/
theorem merge_new (r : CrdtRecord) (key : Int64) (values : List Value)
    (timestamp : LamportTimestamp) (nodeId : NodeId) :
    (r.merge (.new key values timestamp nodeId)).1 =
      if r.stamp < toLex (timestamp, nodeId) then ⟨r.key, values, timestamp, nodeId, false⟩
      else r := by
  simp only [CrdtRecord.merge, CrdtRecord.new, CrdtRecord.stamp, Prod.Lex.toLex_lt_toLex]
  rcases lt_trichotomy r.timestamp timestamp with hlt | heq | hgt
  · simp [hlt]
  · subst heq
    by_cases hnode : r.nodeId < nodeId
    · simp [hnode]
    · simp [hnode]
  · simp [hgt.not_gt, hgt.ne, hgt.ne']

/-- A set whose operations have different stamps determines one record. -/
theorem Determines.unique (hunique : Set.InjOn CrdtOperation.stamp ops) (h : Determines ops r)
    (h' : Determines ops r') : r = r' := by
  have hstamp : r.stamp = r'.stamp := h.last.unique h'.last
  obtain ⟨htime, hnode⟩ := stamp_record_eq_iff.mp hstamp
  obtain ⟨op, hop, heq⟩ := h.last.1
  have hdeleted : r.isDeleted = r'.isDeleted := by
    rw [Bool.eq_iff_iff, h.deleted op hop heq, h'.deleted op hop (heq.trans hstamp)]
  obtain ⟨w, hw, hvalues, hall⟩ := h.written
  obtain ⟨w', hw', hvalues', hall'⟩ := h'.written
  have hsame : w = w' := hunique hw hw' (le_antisymm
    (hall' w ⟨hw, by simp [hvalues]⟩) (hall w' ⟨hw', by simp [hvalues']⟩))
  have hkey : r.key = r'.key := (h.key op hop).symm.trans (h'.key op hop)
  have hval : r.values = r'.values := by
    rw [hsame, hvalues'] at hvalues
    exact (Option.some.inj hvalues).symm
  cases r
  cases r'
  simp_all

/-- An operation that writes the record anew. -/
theorem determines_new {record : CrdtRecord} {values : List Value}
    (hkey : ∀ o ∈ ops, o.key = op.key) (hlater : ∀ o ∈ ops, o.stamp ≤ op.stamp)
    (hunique : Set.InjOn CrdtOperation.stamp (insert op ops)) (hvalues : op.values = some values)
    (hrecord : record = ⟨op.key, values, op.timestamp, op.nodeId, false⟩) :
    Determines (insert op ops) record := by
  have hall : ∀ o ∈ insert op ops, o.stamp ≤ op.stamp := by
    rintro o (rfl | ho)
    · exact le_refl _
    · exact hlater o ho
  subst hrecord
  refine ⟨?_, ⟨⟨op, Set.mem_insert .., rfl⟩, ?_⟩, fun o ho heq => ?_,
    op, Set.mem_insert .., hvalues, fun o ho => hall o ho.1⟩
  · rintro o (rfl | ho)
    · rfl
    · exact hkey o ho
  · rintro _ ⟨o, ho, rfl⟩
    exact hall o ho
  · rw [hunique ho (Set.mem_insert ..) heq, hvalues]
    simp

/-- An operation that changes nothing: it is not the last, nor the last to write values. -/
theorem Determines.insert_earlier (h : Determines ops r) (hkey : op.key = r.key)
    (hunique : Set.InjOn CrdtOperation.stamp (insert op ops)) (hearlier : op.stamp ≤ r.stamp)
    (hwritten : op.values ≠ none → ∃ o ∈ writers ops, op.stamp ≤ o.stamp) :
    Determines (insert op ops) r := by
  obtain ⟨w, hw, hvalues, hall⟩ := h.written
  obtain ⟨last, hlast, hstamp⟩ := h.last.1
  refine ⟨?_, ⟨⟨last, Set.mem_insert_of_mem _ hlast, hstamp⟩, ?_⟩, fun o ho heq => ?_,
    w, Set.mem_insert_of_mem _ hw, hvalues, ?_⟩
  · rintro o (rfl | ho)
    · exact hkey
    · exact h.key o ho
  · rintro _ ⟨o, rfl | ho, rfl⟩
    · exact hearlier
    · exact h.last.2 ⟨o, ho, rfl⟩
  · have hsame : o = last :=
      hunique ho (Set.mem_insert_of_mem _ hlast) (heq.trans hstamp.symm)
    rw [hsame]
    exact h.deleted last hlast hstamp
  · rintro o ⟨rfl | ho, hwrites⟩
    · obtain ⟨p, hp, hle⟩ := hwritten hwrites
      exact hle.trans (hall p hp)
    · exact hall o ⟨ho, hwrites⟩

/-- The operation meets the record as last-write-wins expects. -/
def InOrder (ops : Set CrdtOperation) (record : Option CrdtRecord) (op : CrdtOperation) : Prop :=
  match op with
  | .insert .. => ∀ r ∈ record, r.stamp ≤ op.stamp
  | .update .. => ∀ r ∈ record, r.isDeleted → op.stamp ≤ r.stamp →
      ∃ o ∈ writers ops, op.stamp ≤ o.stamp
  | .delete .. => ∃ r ∈ record, r.timestamp = op.timestamp → op.nodeId ≤ r.nodeId

/-- A deletion later than the record. -/
theorem Determines.insert_delete (h : Determines ops r) (hkey : op.key = r.key)
    (hunique : Set.InjOn CrdtOperation.stamp (insert op ops)) (hdelete : op.values = none)
    (hlater : r.timestamp < op.timestamp) : Determines (insert op ops)
      { r with isDeleted := true, timestamp := op.timestamp, nodeId := op.nodeId } := by
  obtain ⟨w, hw, hvalues, hall⟩ := h.written
  have hstamp : r.stamp < op.stamp := Prod.Lex.toLex_lt_toLex.mpr (Or.inl hlater)
  refine ⟨?_, ⟨⟨op, Set.mem_insert .., rfl⟩, ?_⟩, fun o ho heq => ?_,
    w, Set.mem_insert_of_mem _ hw, hvalues, ?_⟩
  · rintro o (rfl | ho)
    · exact hkey
    · exact h.key o ho
  · rintro _ ⟨o, rfl | ho, rfl⟩
    · exact le_refl _
    · exact (h.last.2 ⟨o, ho, rfl⟩).trans hstamp.le
  · rw [hunique ho (Set.mem_insert ..) heq, hdelete]
    simp
  · rintro o ⟨rfl | ho, hwrites⟩
    · exact absurd hdelete hwrites
    · exact hall o ⟨ho, hwrites⟩

theorem Determines.key_eq (h : Determines ops r) (hkey : ∀ o ∈ ops, o.key = op.key) :
    op.key = r.key := by
  obtain ⟨o, ho, -⟩ := h.last.1
  exact (hkey o ho).symm.trans (h.key o ho)

/-- The last operation about a record that is not deleted wrote its values. -/
theorem Determines.last_writes (h : Determines ops r) (hlive : ¬ r.isDeleted) :
    ∃ o ∈ writers ops, o.stamp = r.stamp := by
  obtain ⟨o, ho, hstamp⟩ := h.last.1
  exact ⟨o, ⟨ho, fun hnone => hlive ((h.deleted o ho hstamp).mpr hnone)⟩, hstamp⟩

theorem Holds.apply {record : Option CrdtRecord} (h : Holds ops record)
    (hkey : ∀ o ∈ ops, o.key = op.key)
    (hunique : Set.InjOn CrdtOperation.stamp (insert op ops)) (hok : InOrder ops record op) :
    Holds (insert op ops) (op.applyTo record) := by
  have hbelow : ∀ r ∈ record, r.stamp ≤ op.stamp → ∀ o ∈ ops, o.stamp ≤ op.stamp := by
    rintro r hr hle o ho
    obtain rfl := Option.mem_def.mp hr
    exact (h.last.2 ⟨o, ho, rfl⟩).trans hle
  cases op with
  | insert table key values timestamp nodeId =>
      refine determines_new hkey ?_ hunique rfl rfl
      cases record with
      | none =>
          obtain rfl : ops = ∅ := h
          simp
      | some r => exact hbelow r rfl (hok r rfl)
  | update table key values timestamp nodeId =>
      cases record with
      | none =>
          obtain rfl : ops = ∅ := h
          exact determines_new hkey (by simp) hunique rfl rfl
      | some r =>
          have hr : Determines ops r := h
          show Determines _ (r.merge (.new key values timestamp nodeId)).1
          rw [merge_new]
          split
          · rename_i hlt
            refine determines_new hkey (hbelow r rfl hlt.le) hunique rfl ?_
            rw [← hr.key_eq hkey]
            rfl
          · rename_i hge
            have hle : CrdtOperation.stamp (.update table key values timestamp nodeId) ≤ r.stamp :=
              not_lt.mp hge
            refine hr.insert_earlier (hr.key_eq hkey) hunique hle fun _ => ?_
            by_cases hdeleted : r.isDeleted
            · exact hok r rfl hdeleted hle
            · obtain ⟨o, ho, hstamp⟩ := hr.last_writes hdeleted
              exact ⟨o, ho, hle.trans_eq hstamp.symm⟩
  | delete table key timestamp nodeId =>
      obtain ⟨r, hrecord, htie⟩ := hok
      obtain rfl := Option.mem_def.mp hrecord
      have hr : Determines ops r := h
      show Determines _ (r.delete timestamp nodeId)
      rw [CrdtRecord.delete]
      split
      · rename_i hlt
        exact hr.insert_delete (hr.key_eq hkey) hunique rfl hlt
      · rename_i hge
        refine hr.insert_earlier (hr.key_eq hkey) hunique ?_ fun hwrites => absurd rfl hwrites
        refine Prod.Lex.toLex_le_toLex.mpr ?_
        rcases (not_lt.mp hge).lt_or_eq with hlt | heq
        · exact Or.inl hlt
        · exact Or.inr ⟨heq, htie heq.symm⟩

/-! ## Stores -/

namespace CrdtStore

/-- The operations about a record in the log. -/
def about (s : CrdtStore) (table : String) (key : Int64) : Set CrdtOperation :=
  {op | op ∈ s.operationLog ∧ op.table = table ∧ op.key = key}

theorem mem_about {s : CrdtStore} {op : CrdtOperation} {table : String} {key : Int64} :
    op ∈ s.about table key ↔ op ∈ s.operationLog ∧ op.table = table ∧ op.key = key := Iff.rfl

/-- Every record is the one its operations determine. -/
def Consistent (s : CrdtStore) : Prop := ∀ table key, Holds (s.about table key) (s.getRecord table key)

/-- The operation comes in order. -/
def TakesInOrder (s : CrdtStore) (op : CrdtOperation) : Prop :=
  InOrder (s.about op.table op.key) (s.getRecord op.table op.key) op

/-- Every operation of a batch comes in order. -/
def MergesInOrder : CrdtStore → List CrdtOperation → Prop
  | _, [] => True
  | s, op :: operations => s.TakesInOrder op ∧ (s.mergeOperation op).MergesInOrder operations

variable {s s' : CrdtStore} {op : CrdtOperation}

theorem consistent_new (nodeId : NodeId) : (new nodeId).Consistent := by
  intro table key
  rw [getRecord_eq]
  simp [tableState, new, Holds, about]

/-- One operation is applied and logged. -/
theorem Consistent.take (h : s.Consistent)
    (hlog : ∀ o, o ∈ s'.operationLog ↔ o ∈ s.operationLog ∨ o = op)
    (hrecord : ∀ tb k, s'.getRecord tb k =
      if tb = op.table ∧ k = op.key then op.applyTo (s.getRecord tb k) else s.getRecord tb k)
    (hunique : ∀ o ∈ s'.operationLog, ∀ p ∈ s'.operationLog, o.stamp = p.stamp → o = p)
    (hok : s.TakesInOrder op) : s'.Consistent := by
  intro table key
  rw [hrecord]
  by_cases hat : table = op.table ∧ key = op.key
  · obtain ⟨rfl, rfl⟩ := hat
    have habout : s'.about op.table op.key = Insert.insert op (s.about op.table op.key) := by
      ext o
      simp only [mem_about, hlog, Set.mem_insert_iff]
      constructor
      · rintro ⟨ho | rfl, hat⟩
        · exact Or.inr ⟨ho, hat⟩
        · exact Or.inl rfl
      · rintro (rfl | ⟨ho, hat⟩)
        · exact ⟨Or.inr rfl, rfl, rfl⟩
        · exact ⟨Or.inl ho, hat⟩
    rw [if_pos ⟨rfl, rfl⟩, habout]
    refine (h op.table op.key).apply (fun o ho => ho.2.2) ?_ hok
    rw [← habout]
    exact fun o ho p hp => hunique o ho.1 p hp.1
  · rw [if_neg hat]
    have habout : s'.about table key = s.about table key := by
      ext o
      simp only [mem_about, hlog]
      refine and_congr_left fun ho => or_iff_left ?_
      rintro rfl
      exact hat ⟨ho.1.symm, ho.2.symm⟩
    rw [habout]
    exact h table key

/-- Two stores with the same log have the same records. -/
theorem Consistent.getRecord_eq (h : s.Consistent) (h' : s'.Consistent)
    (hunique : ∀ o ∈ s.operationLog, ∀ p ∈ s.operationLog, o.stamp = p.stamp → o = p)
    (hsame : ∀ op, op ∈ s.operationLog ↔ op ∈ s'.operationLog) (table : String) (key : Int64) :
    s.getRecord table key = s'.getRecord table key := by
  have habout : s'.about table key = s.about table key := by
    ext o
    simp only [mem_about, hsame]
  have hrecord := h table key
  have hrecord' := h' table key
  rw [habout] at hrecord'
  have hinj : Set.InjOn CrdtOperation.stamp (s.about table key) :=
    fun o ho p hp => hunique o ho.1 p hp.1
  cases hr : s.getRecord table key with
  | none =>
      rw [hr] at hrecord
      cases hr' : s'.getRecord table key with
      | none => rfl
      | some r' =>
          rw [hr'] at hrecord'
          obtain ⟨o, ho, -⟩ := hrecord'.last.1
          rw [show s.about table key = ∅ from hrecord] at ho
          exact ho.elim
  | some r =>
      rw [hr] at hrecord
      cases hr' : s'.getRecord table key with
      | none =>
          rw [hr'] at hrecord'
          obtain ⟨o, ho, -⟩ := hrecord.last.1
          rw [show s.about table key = ∅ from hrecord'] at ho
          exact ho.elim
      | some r' =>
          rw [hr'] at hrecord'
          rw [hrecord.unique hinj hrecord']

end CrdtStore

namespace Replicas

variable {s s' : Replicas} {a : Act}

/-- What a replica issues, and all it merges, comes in order. -/
def AllInOrder (s : Replicas) : Act → Prop
  | .call n c => (s.stores n).TakesInOrder ((s.stores n).nextOperation c)
  | .deliver n operations => (s.stores n).MergesInOrder operations

theorem consistent_mergeOperations {issued : List CrdtOperation}
    (hunique : ∀ op ∈ issued, ∀ o ∈ issued, op.stamp = o.stamp → op = o) :
    ∀ {operations : List CrdtOperation} {store : CrdtStore}, store.Consistent →
    (∀ p ∈ store.operationLog, p ∈ issued) → (∀ p ∈ operations, p ∈ issued) →
    store.MergesInOrder operations → (store.mergeOperations operations).Consistent
  | [], _, h, _, _, _ => h
  | op :: operations, store, h, hlog, hops, hok => by
      have hop : op ∈ issued := hops op List.mem_cons_self
      have hone : ∀ p, p ∈ (store.mergeOperation op).operationLog ↔
          p ∈ store.operationLog ∨ p = op :=
        fun p => mem_operationLog_mergeOperation fun q hq => hunique q (hlog q hq) op hop
      have hlog' : ∀ p ∈ (store.mergeOperation op).operationLog, p ∈ issued := by
        intro p hp
        rcases (hone p).mp hp with hp | rfl
        · exact hlog p hp
        · exact hop
      have hnext : (store.mergeOperation op).Consistent :=
        h.take hone (CrdtStore.getRecord_mergeOperation store op)
          (fun o ho p hp => hunique o (hlog' o ho) p (hlog' p hp)) hok.1
      show ((store.mergeOperation op).mergeOperations operations).Consistent
      exact consistent_mergeOperations hunique hnext hlog'
        (fun p hp => hops p (List.mem_cons_of_mem _ hp)) hok.2

theorem consistent_step (hst : Stamped s) (h : ∀ n, (s.stores n).Consistent) (hwrap : NoWrap s a)
    (hok : AllInOrder s a) (hstep : s.step a = some s') : ∀ n, (s'.stores n).Consistent := by
  have hst' := hst.step hwrap hstep
  cases a with
  | call n c =>
      obtain rfl := Option.some.inj hstep
      refine (Function.forall_update_iff _ fun _ (store : CrdtStore) => store.Consistent).mpr
        ⟨?_, fun m _ => h m⟩
      refine (h n).take ?_ (CrdtStore.getRecord_call _ c) ?_ hok
      · intro o
        rw [(CrdtStore.call_frame (s.stores n) c).2.1]
        simp
      · have hlogged : ∀ o ∈ ((s.stores n).call c).operationLog,
            o ∈ s.issued ++ [(s.stores n).nextOperation c] := by
          intro o ho
          rw [(CrdtStore.call_frame (s.stores n) c).2.1] at ho
          rcases List.mem_append.mp ho with ho | ho
          · exact List.mem_append_left _ (hst.issued_of_logged ho)
          · exact List.mem_append_right _ ho
        exact fun o ho p hp => hst'.unique o (hlogged o ho) p (hlogged p hp)
  | deliver n operations =>
      simp only [Replicas.step] at hstep
      split at hstep
      · rename_i hissued
        obtain rfl := Option.some.inj hstep
        refine (Function.forall_update_iff _ fun _ (store : CrdtStore) => store.Consistent).mpr
          ⟨?_, fun m _ => h m⟩
        exact consistent_mergeOperations hst.unique (h n) (fun p hp => hst.issued_of_logged hp)
          hissued hok
      · cases hstep

/-- Replicas converge: in every run in which operations come in order, two replicas that have
applied the same operations have the same records. -/
theorem replicas_converge {a b : NodeId}
    (hs : Transition.Reaches (Transition.Via step) (fun s a => NoWrap s a ∧ AllInOrder s a) init s)
    (hsame : ∀ op, op ∈ s.applied a ↔ op ∈ s.applied b) (table : String) (key : Int64) :
    (s.stores a).getRecord table key = (s.stores b).getRecord table key := by
  obtain ⟨hst, hconsistent⟩ : Stamped s ∧ ∀ n, (s.stores n).Consistent := by
    refine Transition.Reaches.invariant (I := fun s => Stamped s ∧ ∀ n, (s.stores n).Consistent)
      ⟨stamped_init, CrdtStore.consistent_new⟩ ?_ hs
    rintro s act s' ⟨hst, h⟩ ⟨hwrap, hok⟩ hstep
    exact ⟨hst.step hwrap hstep, consistent_step hst h hwrap hok hstep⟩
  refine (hconsistent a).getRecord_eq (hconsistent b) ?_ (fun op => ?_) table key
  · exact fun o ho p hp => hst.unique o (hst.issued_of_logged ho) p (hst.issued_of_logged hp)
  · rw [hst.logged, hst.logged]
    exact hsame op

instance (s : CrdtStore) (table : String) (key : Int64) (op : CrdtOperation) :
    Decidable (∃ o ∈ writers (s.about table key), op.stamp ≤ o.stamp) :=
  decidable_of_iff (∃ o ∈ s.operationLog, (o.table = table ∧ o.key = key) ∧ o.values ≠ none ∧
    op.stamp ≤ o.stamp) (by simp [writers, CrdtStore.about, and_assoc])

instance (s : CrdtStore) (op : CrdtOperation) : Decidable (s.TakesInOrder op) :=
  match op with
  | .insert table key values timestamp nodeId =>
      inferInstanceAs (Decidable (∀ r ∈ s.getRecord table key,
        r.stamp ≤ CrdtOperation.stamp (.insert table key values timestamp nodeId)))
  | .update table key values timestamp nodeId =>
      inferInstanceAs (Decidable (∀ r ∈ s.getRecord table key, r.isDeleted →
        CrdtOperation.stamp (.update table key values timestamp nodeId) ≤ r.stamp →
        ∃ o ∈ writers (s.about table key),
          CrdtOperation.stamp (.update table key values timestamp nodeId) ≤ o.stamp))
  | .delete table key timestamp nodeId =>
      inferInstanceAs (Decidable (∃ r ∈ s.getRecord table key,
        r.timestamp = timestamp → nodeId ≤ r.nodeId))

instance (s : CrdtStore) : (operations : List CrdtOperation) → Decidable (s.MergesInOrder operations)
  | [] => isTrue trivial
  | op :: operations =>
      have := instDecidableMergesInOrder (s.mergeOperation op) operations
      inferInstanceAs (Decidable (_ ∧ _))

instance (s : Replicas) : (a : Act) → Decidable (AllInOrder s a)
  | .call n c => inferInstanceAs (Decidable
      ((s.stores n).TakesInOrder ((s.stores n).nextOperation c)))
  | .deliver n operations => inferInstanceAs (Decidable ((s.stores n).MergesInOrder operations))

/-- `b` updates what `a` inserted, and `a` deletes it. -/
def secondUpdate : CrdtOperation := .update "t" 1 [.integer 8] 2 "b"

def lastDelete : CrdtOperation := .delete "t" 1 3 "a"

/-- An insert, an update and a delete, each delivered and the update twice. -/
theorem replicas_converge_deleted : ∃ s, Transition.runActions step
      (fun s a => NoWrap s a ∧ AllInOrder s a) init
      [.call "a" (.insert "t" 1 [.integer 7]), .deliver "b" [firstInsert],
        .call "b" (.update "t" 1 [.integer 8]), .deliver "a" [secondUpdate],
        .call "a" (.delete "t" 1), .deliver "b" [lastDelete, secondUpdate]] = some s ∧
    (s.stores "a").getRecord "t" 1 = some ⟨1, [.integer 8], 3, "a", true⟩ ∧
    (s.stores "b").getRecord "t" 1 = some ⟨1, [.integer 8], 3, "a", true⟩ := by
  obtain ⟨s, hs, hfacts⟩ : ∃ s, Transition.runActions step
      (fun s a => NoWrap s a ∧ AllInOrder s a) init
      [.call "a" (.insert "t" 1 [.integer 7]), .deliver "b" [firstInsert],
        .call "b" (.update "t" 1 [.integer 8]), .deliver "a" [secondUpdate],
        .call "a" (.delete "t" 1), .deliver "b" [lastDelete, secondUpdate]] = some s ∧
      (s.applied "a", s.applied "b", (s.stores "a").getRecord "t" 1) =
        ([firstInsert, secondUpdate, lastDelete],
          [firstInsert, secondUpdate, lastDelete, secondUpdate],
          some ⟨1, [.integer 8], 3, "a", true⟩) :=
    Option.map_eq_some_iff.mp (by with_unfolding_all decide)
  obtain ⟨ha, hb, hrecord⟩ := by simpa only [Prod.mk.injEq] using hfacts
  refine ⟨s, hs, hrecord, ?_⟩
  rw [← replicas_converge (a := "a") (b := "b") (Transition.reaches_of_runActions _ .refl hs) ?_, hrecord]
  intro op
  rw [ha, hb]
  simp only [List.mem_cons, List.not_mem_nil]
  tauto

/-- Two inserts of one key, each replica applying its own first. -/
theorem not_replicas_converge : ¬ ∀ (s : Replicas) (a b : NodeId),
    Transition.Reaches (Transition.Via step) NoWrap init s →
    (∀ op, op ∈ s.applied a ↔ op ∈ s.applied b) →
    ∀ table key, (s.stores a).getRecord table key = (s.stores b).getRecord table key := by
  intro hall
  let other : CrdtOperation := .insert "t" 1 [.integer 8] 1 "b"
  obtain ⟨s, hs, hfacts⟩ : ∃ s, Transition.runActions step NoWrap init
      [.call "a" (.insert "t" 1 [.integer 7]), .call "b" (.insert "t" 1 [.integer 8]),
        .deliver "a" [other], .deliver "b" [firstInsert]] = some s ∧
      (s.applied "a", s.applied "b", ((s.stores "a").getRecord "t" 1).map CrdtRecord.nodeId,
        ((s.stores "b").getRecord "t" 1).map CrdtRecord.nodeId) =
        ([firstInsert, other], [other, firstInsert], some "b", some "a") :=
    Option.map_eq_some_iff.mp (by with_unfolding_all decide)
  obtain ⟨ha, hb, hra, hrb⟩ := by simpa only [Prod.mk.injEq] using hfacts
  have hsame := hall s "a" "b" (Transition.reaches_of_runActions _ .refl hs)
    (by simp [ha, hb, or_comm]) "t" 1
  rw [hsame, hrb] at hra
  exact absurd hra (by decide)

end Replicas

end VelociDB.Crdt
