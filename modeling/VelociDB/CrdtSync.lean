/-
# Replicas and their exchanges (`crdt.rs`)

Any number of replicas issue operations and merge batches of operations that some replica has
issued, in any order and any number of times.  A replica's log is the set of operations it has
applied, since an operation is determined by its stamp.

A peer asks for what it has not seen by its vector clock, which holds one entry, its own: the
largest timestamp it has issued or merged.  An operation that another replica had issued with a
smaller or equal timestamp is not sent.
-/
import VelociDB.CrdtClock

namespace VelociDB.Crdt

/-- The replicas, the operations issued by any of them, and what each has applied. -/
structure Replicas where
  stores : NodeId → CrdtStore
  issued : List CrdtOperation
  applied : NodeId → List CrdtOperation

namespace Replicas

def init : Replicas := ⟨.new, [], fun _ => []⟩

/-- A local call of a replica, or a batch of operations it merges. -/
inductive Act where
  | call (n : NodeId) (c : LocalCall)
  | deliver (n : NodeId) (operations : List CrdtOperation)

/-- One step; what is delivered has been issued. -/
def step (s : Replicas) : Act → Option Replicas
  | .call n c => some {
      stores := Function.update s.stores n ((s.stores n).call c)
      issued := s.issued ++ [(s.stores n).nextOperation c]
      applied := Function.update s.applied n (s.applied n ++ [(s.stores n).nextOperation c]) }
  | .deliver n operations =>
      if ∀ op ∈ operations, op ∈ s.issued then
        some { s with
          stores := Function.update s.stores n ((s.stores n).mergeOperations operations)
          applied := Function.update s.applied n (s.applied n ++ operations) }
      else none

/-- No clock wraps. -/
def NoWrap (s : Replicas) : Act → Prop
  | .call n _ => (s.stores n).lamportClock + 1 < u64Size
  | .deliver n operations => Fits (s.stores n).lamportClock operations

instance (s : Replicas) : (a : Act) → Decidable (NoWrap s a)
  | .call _ _ => inferInstanceAs (Decidable (_ < _))
  | .deliver _ operations => inferInstanceAs (Decidable (Fits _ operations))

/-- The stamps and the logs. -/
structure Stamped (s : Replicas) : Prop where
  node : ∀ n, (s.stores n).nodeId = n
  clock : ∀ n, 0 < (s.stores n).lamportClock
  past : ∀ op ∈ s.issued, 0 < op.timestamp ∧ op.timestamp < (s.stores op.nodeId).lamportClock
  unique : ∀ op ∈ s.issued, ∀ o ∈ s.issued, op.stamp = o.stamp → op = o
  applied : ∀ n, ∀ op ∈ s.applied n, op ∈ s.issued
  logged : ∀ n op, op ∈ (s.stores n).operationLog ↔ op ∈ s.applied n

theorem stamped_init : Stamped init where
  node _ := rfl
  clock _ := Nat.one_pos
  past := by simp [init]
  unique := by simp [init]
  applied := by simp [init]
  logged := by simp [init, CrdtStore.new]

/-! ## Logs -/

theorem stamp_eq_iff {op o : CrdtOperation} :
    op.stamp = o.stamp ↔ op.timestamp = o.timestamp ∧ op.nodeId = o.nodeId := by
  simp [CrdtOperation.stamp]

/-- Merging one operation logs it, as the log has no other with its stamp. -/
theorem mem_operationLog_mergeOperation {s : CrdtStore} {op o : CrdtOperation}
    (h : ∀ p ∈ s.operationLog, p.stamp = op.stamp → p = op) :
    o ∈ (s.mergeOperation op).operationLog ↔ o ∈ s.operationLog ∨ o = op := by
  rw [(CrdtStore.mergeOperation_frame s op).2.1]
  split
  · rename_i hpresent
    obtain ⟨p, hp, heq⟩ := List.any_eq_true.mp hpresent
    have hsame : p = op := h p hp (stamp_eq_iff.mpr (by simpa using heq))
    refine ⟨Or.inl, ?_⟩
    rintro (ho | rfl)
    · exact ho
    · exact hsame ▸ hp
  · simp

theorem mem_operationLog_mergeOperations {issued : List CrdtOperation}
    (hunique : ∀ op ∈ issued, ∀ o ∈ issued, op.stamp = o.stamp → op = o) {o : CrdtOperation} :
    ∀ {operations : List CrdtOperation} {s : CrdtStore}, (∀ p ∈ s.operationLog, p ∈ issued) →
    (∀ p ∈ operations, p ∈ issued) →
    (o ∈ (s.mergeOperations operations).operationLog ↔ o ∈ s.operationLog ∨ o ∈ operations)
  | [], s, _, _ => by simp [CrdtStore.mergeOperations]
  | op :: operations, s, hlog, hops => by
      have hop : op ∈ issued := hops op List.mem_cons_self
      have hone : ∀ p, p ∈ (s.mergeOperation op).operationLog ↔ p ∈ s.operationLog ∨ p = op :=
        fun p => mem_operationLog_mergeOperation fun q hq => hunique q (hlog q hq) op hop
      have hlog' : ∀ p ∈ (s.mergeOperation op).operationLog, p ∈ issued := by
        intro p hp
        rcases (hone p).mp hp with hp | rfl
        · exact hlog p hp
        · exact hop
      have hrest : o ∈ ((s.mergeOperation op).mergeOperations operations).operationLog ↔ _ :=
        mem_operationLog_mergeOperations hunique hlog' fun p hp => hops p (List.mem_cons_of_mem _ hp)
      rw [show s.mergeOperations (op :: operations) =
        (s.mergeOperation op).mergeOperations operations from rfl, hrest, hone, List.mem_cons, or_assoc]

theorem nodeId_mergeOperations : ∀ (operations : List CrdtOperation) (s : CrdtStore),
    (s.mergeOperations operations).nodeId = s.nodeId
  | [], _ => rfl
  | op :: operations, s => (nodeId_mergeOperations operations (s.mergeOperation op)).trans
      (CrdtStore.mergeOperation_frame s op).1

/-! ## Runs -/

variable {s s' : Replicas} {a : Act} {n : NodeId} {op : CrdtOperation}

theorem Stamped.issued_of_logged (h : Stamped s) (hop : op ∈ (s.stores n).operationLog) :
    op ∈ s.issued := h.applied n op ((h.logged n op).mp hop)

theorem Stamped.step (h : Stamped s) (hwrap : NoWrap s a) (hstep : s.step a = some s') :
    Stamped s' := by
  cases a with
  | call n c =>
      obtain rfl := Option.some.inj hstep
      obtain ⟨hnode, hlog, -, -⟩ := CrdtStore.call_frame (s.stores n) c
      have hclock : ((s.stores n).call c).lamportClock = (s.stores n).lamportClock + 1 :=
        CrdtStore.lamportClock_call hwrap
      have hstamp : ((s.stores n).nextOperation c).timestamp = (s.stores n).lamportClock :=
        c.timestamp_operation ..
      have hauthor : ((s.stores n).nextOperation c).nodeId = n :=
        (c.nodeId_operation ..).trans (h.node n)
      -- nothing issued before has the new stamp
      have hnew : ∀ op ∈ s.issued, op.stamp ≠ ((s.stores n).nextOperation c).stamp := by
        intro op hop heq
        obtain ⟨htime, hwho⟩ := stamp_eq_iff.mp heq
        have hlt := (h.past op hop).2
        rw [htime, hwho, hauthor, hstamp] at hlt
        exact Nat.lt_irrefl _ hlt
      refine ⟨?_, ?_, fun op hop => ?_, fun op hop o ho heq => ?_, ?_, fun m op => ?_⟩
      · exact (Function.forall_update_iff _ fun m (store : CrdtStore) => store.nodeId = m).mpr
          ⟨hnode.trans (h.node n), fun m _ => h.node m⟩
      · exact (Function.forall_update_iff _ fun _ (store : CrdtStore) => 0 < store.lamportClock).mpr
          ⟨hclock ▸ Nat.succ_pos _, fun m _ => h.clock m⟩
      · show 0 < op.timestamp ∧
          op.timestamp < (Function.update s.stores n ((s.stores n).call c) op.nodeId).lamportClock
        rcases List.mem_append.mp hop with hop | hop
        · obtain ⟨hpos, hlt⟩ := h.past op hop
          refine ⟨hpos, ?_⟩
          by_cases hn : op.nodeId = n
          · rw [hn, Function.update_self, hclock]
            rw [hn] at hlt
            exact hlt.trans (Nat.lt_succ_self _)
          · rw [Function.update_of_ne hn]
            exact hlt
        · obtain rfl := List.mem_singleton.mp hop
          rw [hauthor, Function.update_self, hclock, hstamp]
          exact ⟨h.clock n, Nat.lt_succ_self _⟩
      · rcases List.mem_append.mp hop with hop | hop <;> rcases List.mem_append.mp ho with ho | ho
        · exact h.unique op hop o ho heq
        · obtain rfl := List.mem_singleton.mp ho
          exact absurd heq (hnew op hop)
        · obtain rfl := List.mem_singleton.mp hop
          exact absurd heq.symm (hnew o ho)
        · exact (List.mem_singleton.mp hop).trans (List.mem_singleton.mp ho).symm
      · refine (Function.forall_update_iff _ fun _ (ops : List CrdtOperation) =>
          ∀ op ∈ ops, op ∈ s.issued ++ [(s.stores n).nextOperation c]).mpr
          ⟨fun op hop => ?_, fun m _ op hop => List.mem_append_left _ (h.applied m op hop)⟩
        rcases List.mem_append.mp hop with hop | hop
        · exact List.mem_append_left _ (h.applied n op hop)
        · exact List.mem_append_right _ hop
      · show op ∈ (Function.update s.stores n ((s.stores n).call c) m).operationLog ↔
          op ∈ Function.update s.applied n (s.applied n ++ [(s.stores n).nextOperation c]) m
        by_cases hm : m = n
        · subst hm
          rw [Function.update_self, Function.update_self, hlog, List.mem_append, List.mem_append,
            h.logged]
        · rw [Function.update_of_ne hm, Function.update_of_ne hm]
          exact h.logged m op
  | deliver n operations =>
      simp only [Replicas.step] at hstep
      split at hstep
      · rename_i hissued
        obtain rfl := Option.some.inj hstep
        obtain ⟨hle, -⟩ := CrdtStore.lamportClock_mergeOperations hwrap
        refine ⟨?_, ?_, fun op hop => ?_, h.unique, ?_, fun m op => ?_⟩
        · exact (Function.forall_update_iff _ fun m (store : CrdtStore) => store.nodeId = m).mpr
            ⟨(nodeId_mergeOperations operations _).trans (h.node n), fun m _ => h.node m⟩
        · exact (Function.forall_update_iff _ fun _ (store : CrdtStore) =>
            0 < store.lamportClock).mpr ⟨lt_of_lt_of_le (h.clock n) hle, fun m _ => h.clock m⟩
        · show 0 < op.timestamp ∧ op.timestamp < (Function.update s.stores n
            ((s.stores n).mergeOperations operations) op.nodeId).lamportClock
          obtain ⟨hpos, hlt⟩ := h.past op hop
          refine ⟨hpos, ?_⟩
          by_cases hn : op.nodeId = n
          · rw [hn, Function.update_self]
            rw [hn] at hlt
            exact lt_of_lt_of_le hlt hle
          · rw [Function.update_of_ne hn]
            exact hlt
        · refine (Function.forall_update_iff _ fun _ (ops : List CrdtOperation) =>
            ∀ op ∈ ops, op ∈ s.issued).mpr ⟨fun op hop => ?_, fun m _ => h.applied m⟩
          rcases List.mem_append.mp hop with hop | hop
          · exact h.applied n op hop
          · exact hissued op hop
        · show op ∈ (Function.update s.stores n
              ((s.stores n).mergeOperations operations) m).operationLog ↔
            op ∈ Function.update s.applied n (s.applied n ++ operations) m
          by_cases hm : m = n
          · subst hm
            rw [Function.update_self, Function.update_self, List.mem_append, ← h.logged,
              mem_operationLog_mergeOperations h.unique (fun p hp => h.issued_of_logged hp) hissued]
          · rw [Function.update_of_ne hm, Function.update_of_ne hm]
            exact h.logged m op
      · cases hstep

theorem stamped_run (h : Stamped s) (hrun : Transition.Reaches (Transition.Via step) NoWrap s s') :
    Stamped s' ∧ ∀ op ∈ s.issued, op ∈ s'.issued := by
  refine Transition.Reaches.invariant (I := fun s' => Stamped s' ∧ ∀ op ∈ s.issued, op ∈ s'.issued)
    ⟨h, fun _ hop => hop⟩ ?_ hrun
  rintro s₁ a s₂ ⟨hst, hissued⟩ hwrap hstep
  refine ⟨hst.step hwrap hstep, fun op hop => ?_⟩
  cases a with
  | call n c =>
      obtain rfl := Option.some.inj hstep
      exact List.mem_append_left _ (hissued op hop)
  | deliver n operations =>
      simp only [Transition.Via, Replicas.step] at hstep
      split at hstep
      · obtain rfl := Option.some.inj hstep
        exact hissued op hop
      · cases hstep

/-! ## Vector clocks -/

/-- The vector clock has one entry, the store's own: the largest timestamp in its log. -/
def Heard (s : CrdtStore) (time : LamportTimestamp) : Prop :=
  (∀ m, s.vectorClock[m]? = if m = s.nodeId then some time else none) ∧
    (∀ op ∈ s.operationLog, op.timestamp ≤ time) ∧
    (time = 0 ∨ ∃ op ∈ s.operationLog, op.timestamp = time)

theorem getElem?_updateVectorClock {s : CrdtStore} {time timestamp : LamportTimestamp}
    (h : ∀ m, s.vectorClock[m]? = if m = s.nodeId then some time else none) (m : NodeId) :
    (s.updateVectorClock timestamp).vectorClock[m]? =
      if m = s.nodeId then some (max time timestamp) else none := by
  have hown := h s.nodeId
  rw [if_pos rfl] at hown
  simp only [CrdtStore.updateVectorClock, hown]
  by_cases hm : m = s.nodeId
  · simp [hm]
  · have hne : s.nodeId ≠ m := fun heq => hm heq.symm
    simp [Std.ExtTreeMap.getElem?_insert, hne, hm, h m]

/-- An operation with the timestamp is logged, or one was. -/
theorem Heard.log {store store' : CrdtStore} {time timestamp : LamportTimestamp}
    (h : Heard store time) (hnode : store'.nodeId = store.nodeId)
    (hvector : store'.vectorClock = (store.updateVectorClock timestamp).vectorClock)
    (hlog : (store'.operationLog = store.operationLog ∧
        ∃ op ∈ store.operationLog, op.timestamp = timestamp) ∨
      ∃ op, store'.operationLog = store.operationLog ++ [op] ∧ op.timestamp = timestamp) :
    Heard store' (max time timestamp) := by
  obtain ⟨hclock, hall, hmax⟩ := h
  have hkept : ∀ op ∈ store.operationLog, op ∈ store'.operationLog := by
    rcases hlog with ⟨hlog, -⟩ | ⟨op, hlog, -⟩
    · simp [hlog]
    · simp +contextual [hlog]
  have hnew : ∃ op ∈ store'.operationLog, op.timestamp = timestamp := by
    rcases hlog with ⟨hlog, hold⟩ | ⟨op, hlog, heq⟩
    · rwa [hlog]
    · exact ⟨op, by simp [hlog], heq⟩
  refine ⟨fun m => ?_, fun op hop => ?_, Or.inr ?_⟩
  · rw [hvector, hnode]
    exact getElem?_updateVectorClock hclock m
  · have hcases : op ∈ store.operationLog ∨ op.timestamp = timestamp := by
      rcases hlog with ⟨hlog, -⟩ | ⟨o, hlog, heq⟩
      · exact Or.inl (hlog ▸ hop)
      · rw [hlog] at hop
        rcases List.mem_append.mp hop with hop | hop
        · exact Or.inl hop
        · exact Or.inr (List.mem_singleton.mp hop ▸ heq)
    rcases hcases with hold | heq
    · exact (hall op hold).trans (le_max_left ..)
    · exact heq.le.trans (le_max_right ..)
  · rcases le_total time timestamp with hle | hle
    · rw [max_eq_right hle]
      exact hnew
    · rw [max_eq_left hle]
      rcases hmax with rfl | ⟨op, hop, heq⟩
      · obtain rfl := Nat.le_zero.mp hle
        exact hnew
      · exact ⟨op, hkept op hop, heq⟩

theorem Heard.call {store : CrdtStore} {time : LamportTimestamp} (h : Heard store time)
    (c : LocalCall) : Heard (store.call c) (max time store.lamportClock) := by
  obtain ⟨hnode, hlog, -, hvector⟩ := CrdtStore.call_frame store c
  exact h.log hnode hvector (Or.inr ⟨_, hlog, c.timestamp_operation ..⟩)

theorem Heard.mergeOperation {store : CrdtStore} {time : LamportTimestamp} (h : Heard store time)
    (op : CrdtOperation) : Heard (store.mergeOperation op) (max time op.timestamp) := by
  obtain ⟨hnode, hlog, -, hvector⟩ := CrdtStore.mergeOperation_frame store op
  refine h.log hnode hvector ?_
  rw [hlog]
  split
  · rename_i hpresent
    obtain ⟨o, ho, heq⟩ := List.any_eq_true.mp hpresent
    exact Or.inl ⟨rfl, o, ho, (of_decide_eq_true heq).1⟩
  · exact Or.inr ⟨op, rfl, rfl⟩

theorem Heard.mergeOperations : ∀ (operations : List CrdtOperation) {store : CrdtStore},
    (∃ time, Heard store time) → ∃ time, Heard (store.mergeOperations operations) time
  | [], _, h => h
  | op :: operations, _, ⟨_, h⟩ => Heard.mergeOperations operations ⟨_, h.mergeOperation op⟩

theorem heard_run (hrun : Transition.Reaches (Transition.Via step) NoWrap init s) (n : NodeId) :
    ∃ time, Heard (s.stores n) time := by
  refine Transition.Reaches.invariant (I := fun s => ∀ n, ∃ time, Heard (s.stores n) time)
    (fun n => ⟨0, fun m => ?_, by simp [init, CrdtStore.new], Or.inl rfl⟩) ?_ hrun n
  · by_cases hm : m = n
    · simp [init, CrdtStore.new, hm]
    · have hne : n ≠ m := fun heq => hm heq.symm
      simp [init, CrdtStore.new, hm, hne]
  · intro s a s' h _ hstep
    cases a with
    | call n c =>
        obtain rfl := Option.some.inj hstep
        refine (Function.forall_update_iff _ fun _ (store : CrdtStore) => ∃ time, Heard store time).mpr
          ⟨?_, fun m _ => h m⟩
        obtain ⟨time, hheard⟩ := h n
        exact ⟨_, hheard.call c⟩
    | deliver n operations =>
        simp only [Transition.Via, Replicas.step] at hstep
        split at hstep
        · obtain rfl := Option.some.inj hstep
          exact (Function.forall_update_iff _ fun _ (store : CrdtStore) =>
            ∃ time, Heard store time).mpr ⟨Heard.mergeOperations operations (h n), fun m _ => h m⟩
        · cases hstep

/-- What is sent to a peer: what is later than all that was in its log. -/
theorem mem_generateSyncMessage {store peer : CrdtStore} {time : LamportTimestamp}
    (h : Heard peer time) {op : CrdtOperation} (hpos : 0 < op.timestamp) :
    op ∈ store.generateSyncMessage peer.vectorClock ↔
      op ∈ store.operationLog ∧ ∀ o ∈ peer.operationLog, o.timestamp < op.timestamp := by
  obtain ⟨hclock, hall, hmax⟩ := h
  have hentry : ∀ t, t ∈ (peer.vectorClock.toList.map fun e => e.2) ↔ t = time := by
    intro t
    simp only [List.mem_map, Prod.exists, Std.ExtTreeMap.mem_toList_iff_getElem?_eq_some, hclock]
    constructor
    · rintro ⟨m, t', ht, rfl⟩
      split at ht
      · exact (Option.some.inj ht).symm
      · cases ht
    · rintro rfl
      exact ⟨peer.nodeId, t, by simp, rfl⟩
  have hmin : (peer.vectorClock.toList.map fun e => e.2).min? = some time :=
    List.min?_eq_some_iff.mpr ⟨(hentry time).mpr rfl, fun t ht => ((hentry t).mp ht).ge⟩
  simp only [CrdtStore.generateSyncMessage, CrdtStore.getOperationsSince, hmin, Option.getD_some,
    List.mem_filter, decide_eq_true_eq]
  refine and_congr_right fun _ => ⟨fun hlt o ho => lt_of_le_of_lt (hall o ho) hlt, fun hlater => ?_⟩
  rcases hmax with rfl | ⟨o, ho, rfl⟩
  · exact hpos
  · exact hlater o ho

/-- A sync message delivers the log of a replica exactly when the peer has, of each of its
operations that is not later than everything the peer had when it sent its clock, a copy
already. -/
theorem sync_delivers_iff {s₁ s₂ s₃ : Replicas} {a b : NodeId}
    (h₁ : Transition.Reaches (Transition.Via step) NoWrap init s₁)
    (h₂ : Transition.Reaches (Transition.Via step) NoWrap s₁ s₂)
    (h₃ : Transition.Reaches (Transition.Via step) NoWrap s₂ s₃) :
    (∀ op ∈ (s₂.stores a).operationLog, op ∈ ((s₃.stores b).processSyncMessage
        ((s₂.stores a).generateSyncMessage (s₁.stores b).vectorClock)).operationLog) ↔
      ∀ op ∈ (s₂.stores a).operationLog,
        (∃ o ∈ (s₁.stores b).operationLog, op.timestamp ≤ o.timestamp) →
          op ∈ (s₃.stores b).operationLog := by
  obtain ⟨hst₁, -⟩ := stamped_run stamped_init h₁
  obtain ⟨hst₂, -⟩ := stamped_run hst₁ h₂
  obtain ⟨hst₃, hissued⟩ := stamped_run hst₂ h₃
  obtain ⟨time, hheard⟩ := heard_run h₁ b
  have hlogged : ∀ op, op ∈ (s₂.stores a).operationLog → op ∈ s₂.issued :=
    fun op hop => hst₂.issued_of_logged hop
  refine forall₂_congr fun op hop => ?_
  have hmessage : ∀ p, p ∈ (s₂.stores a).generateSyncMessage (s₁.stores b).vectorClock →
      p ∈ s₃.issued := fun p hp => hissued p (hlogged p (List.mem_filter.mp hp).1)
  rw [CrdtStore.processSyncMessage, mem_operationLog_mergeOperations hst₃.unique
    (fun p hp => hst₃.issued_of_logged hp) hmessage,
    mem_generateSyncMessage hheard (hst₂.past op (hlogged op hop)).1]
  constructor
  · rintro (hthere | ⟨-, hlater⟩) ⟨o, ho, hle⟩
    · exact hthere
    · exact absurd (hlater o ho) (not_lt.mpr hle)
  · intro hhas
    by_cases hlater : ∀ o ∈ (s₁.stores b).operationLog, o.timestamp < op.timestamp
    · exact Or.inr ⟨hop, hlater⟩
    · push Not at hlater
      exact Or.inl (hhas hlater)

/-- What `a` issues first. -/
def firstInsert : CrdtOperation := .insert "t" 1 [.integer 7] 1 "a"

/-- A peer that has the first operation of a replica is sent the second. -/
theorem sync_delivers_second : ∃ s₁ s₂ : Replicas,
    Transition.runActions step NoWrap init
      [.call "b" (.delete "t" 2), .call "a" (.insert "t" 1 [.integer 7]),
        .deliver "b" [firstInsert]] = some s₁ ∧
    Transition.runActions step NoWrap s₁ [.call "a" (.delete "t" 1)] = some s₂ ∧
    (s₂.stores "a").operationLog = [firstInsert, .delete "t" 1 2 "a"] ∧
    ∀ op ∈ (s₂.stores "a").operationLog, op ∈ ((s₂.stores "b").processSyncMessage
      ((s₂.stores "a").generateSyncMessage (s₁.stores "b").vectorClock)).operationLog := by
  obtain ⟨s₁, hs₁, hfacts⟩ : ∃ s₁, Transition.runActions step NoWrap init
      [.call "b" (.delete "t" 2), .call "a" (.insert "t" 1 [.integer 7]),
        .deliver "b" [firstInsert]] = some s₁ ∧
      ((Transition.runActions step NoWrap s₁ [.call "a" (.delete "t" 1)]).map fun s₂ =>
        ((s₂.stores "a").operationLog, decide (∀ op ∈ (s₂.stores "a").operationLog,
          (∃ o ∈ (s₁.stores "b").operationLog, op.timestamp ≤ o.timestamp) →
            op ∈ (s₂.stores "b").operationLog))) =
        some ([firstInsert, .delete "t" 1 2 "a"], true) :=
    Option.map_eq_some_iff.mp (by with_unfolding_all decide)
  obtain ⟨s₂, hs₂, hfacts⟩ := Option.map_eq_some_iff.mp hfacts
  simp only [Prod.mk.injEq, decide_eq_true_eq] at hfacts
  refine ⟨s₁, s₂, hs₁, hs₂, hfacts.1, ?_⟩
  exact (sync_delivers_iff (Transition.reaches_of_runActions _ .refl hs₁)
    (Transition.reaches_of_runActions _ .refl hs₂) .refl).mpr hfacts.2

/-- A peer that has written something itself is not sent what was written elsewhere before. -/
theorem not_sync_delivers : ¬ ∀ (s : Replicas) (a b : NodeId),
    Transition.Reaches (Transition.Via step) NoWrap init s →
    ∀ op ∈ (s.stores a).operationLog, op ∈ ((s.stores b).processSyncMessage
      ((s.stores a).generateSyncMessage (s.stores b).vectorClock)).operationLog := by
  intro hall
  obtain ⟨s, hs, hlogs⟩ : ∃ s, Transition.runActions step NoWrap init
      [.call "a" (.insert "t" 1 [.integer 7]), .call "b" (.insert "t" 2 [.integer 8])] = some s ∧
      ((s.stores "a").operationLog, ((s.stores "b").processSyncMessage
        ((s.stores "a").generateSyncMessage (s.stores "b").vectorClock)).operationLog) =
        ([firstInsert], [.insert "t" 2 [.integer 8] 1 "b"]) :=
    Option.map_eq_some_iff.mp (by with_unfolding_all decide)
  obtain ⟨hsent, hgot⟩ := Prod.mk.inj hlogs
  have hmem := hall s "a" "b" (Transition.reaches_of_runActions _ .refl hs) firstInsert
    (by rw [hsent]; exact List.mem_cons_self)
  rw [hgot] at hmem
  exact absurd hmem (by decide)

end Replicas

end VelociDB.Crdt
