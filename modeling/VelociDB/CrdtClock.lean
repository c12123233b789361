/-
# Lamport timestamps (`crdt.rs`)

A store stamps what it issues with its clock, which each local call advances by one and each
merged operation to one more than the larger of its timestamp and the clock.  The clock is
a `u64`: one step past its end it starts again at 0, and what is issued from then on is
stamped below what was issued and merged before.

`Fits` says that a batch does not take the clock past the end.
-/
import VelociDB.Crdt

namespace VelociDB.Crdt

/-- The batch leaves the clock in its range. -/
def Fits : LamportTimestamp → List CrdtOperation → Prop
  | _, [] => True
  | clock, op :: operations =>
      max op.timestamp clock + 1 < u64Size ∧ Fits (max op.timestamp clock + 1) operations

instance : (clock : LamportTimestamp) → (operations : List CrdtOperation) →
    Decidable (Fits clock operations)
  | _, [] => inferInstanceAs (Decidable True)
  | clock, op :: operations =>
      have := instDecidableFits (max op.timestamp clock + 1) operations
      inferInstanceAs (Decidable (_ ∧ _))

namespace CrdtStore

variable {s : CrdtStore} {c : LocalCall} {op : CrdtOperation} {operations : List CrdtOperation}

theorem lamportClock_call (h : s.lamportClock + 1 < u64Size) :
    (s.call c).lamportClock = s.lamportClock + 1 := by
  rw [(call_frame s c).2.2.1]
  exact Nat.mod_eq_of_lt h

theorem lamportClock_mergeOperation (h : max op.timestamp s.lamportClock + 1 < u64Size) :
    (s.mergeOperation op).lamportClock = max op.timestamp s.lamportClock + 1 := by
  rw [(mergeOperation_frame s op).2.2.1]
  exact Nat.mod_eq_of_lt h

theorem fits_cons (h : Fits s.lamportClock (op :: operations)) :
    s.lamportClock < (s.mergeOperation op).lamportClock ∧
    op.timestamp < (s.mergeOperation op).lamportClock ∧
    Fits (s.mergeOperation op).lamportClock operations := by
  rw [lamportClock_mergeOperation h.1]
  exact ⟨Nat.lt_succ_of_le (le_max_right ..), Nat.lt_succ_of_le (le_max_left ..), h.2⟩

/-- After a batch the clock is past what it was and past every timestamp of the batch. -/
theorem lamportClock_mergeOperations : ∀ {operations : List CrdtOperation} {s : CrdtStore},
    Fits s.lamportClock operations →
    s.lamportClock ≤ (s.mergeOperations operations).lamportClock ∧
    ∀ op ∈ operations, op.timestamp < (s.mergeOperations operations).lamportClock
  | [], s, _ => ⟨Nat.le_refl _, by simp⟩
  | op :: operations, s, h => by
      obtain ⟨hclock, hop, hrest⟩ := fits_cons h
      obtain ⟨hle, hall⟩ := lamportClock_mergeOperations hrest
      refine ⟨hclock.le.trans hle, fun o ho => ?_⟩
      rcases List.mem_cons.mp ho with rfl | ho
      · exact lt_of_lt_of_le hop hle
      · exact hall o ho

end CrdtStore

/-! ## One store and what it has issued and merged -/

/-- What a store issues and what it merges. -/
inductive Event where
  | issued (op : CrdtOperation)
  | merged (op : CrdtOperation)

namespace Event

def op : Event → CrdtOperation
  | issued op | merged op => op

def IsIssued : Event → Prop
  | issued _ => True
  | merged _ => False

instance : (e : Event) → Decidable e.IsIssued
  | issued _ => isTrue trivial
  | merged _ => isFalse id

/-- The timestamp of an operation that is issued. -/
def issuedTimestamp : Event → Option LamportTimestamp
  | issued op => some op.timestamp
  | merged _ => none

end Event

/-- A store and its events, in order. -/
structure Trace where
  store : CrdtStore
  events : List Event

namespace Trace

def start (nodeId : NodeId) : Trace := ⟨.new nodeId, []⟩

/-- The calls on a store. -/
inductive Act where
  | call (c : LocalCall)
  | merge (operations : List CrdtOperation)

/-- One call; the timestamps of received operations are any `u64`. -/
def step (t : Trace) : Act → Option Trace
  | .call c => some ⟨t.store.call c, t.events ++ [.issued (t.store.nextOperation c)]⟩
  | .merge operations =>
      if ∀ op ∈ operations, op.timestamp < u64Size then
        some ⟨t.store.mergeOperations operations, t.events ++ operations.map .merged⟩
      else none

/-- The clock does not wrap. -/
def NoWrap (t : Trace) : Act → Prop
  | .call _ => t.store.lamportClock + 1 < u64Size
  | .merge operations => Fits t.store.lamportClock operations

instance (t : Trace) : (a : Act) → Decidable (NoWrap t a)
  | .call _ => inferInstanceAs (Decidable (_ < _))
  | .merge operations => inferInstanceAs (Decidable (Fits _ operations))

/-- What is issued is stamped later than all that was issued or merged before. -/
def Causal (events : List Event) : Prop :=
  events.Pairwise fun e e' => e'.IsIssued → e.op.timestamp < e'.op.timestamp

instance (events : List Event) : Decidable (Causal events) :=
  inferInstanceAs (Decidable (events.Pairwise _))

/-- The events are causal, and the clock is past all of them. -/
structure Inv (t : Trace) : Prop where
  causal : Causal t.events
  past : ∀ e ∈ t.events, e.op.timestamp < t.store.lamportClock

theorem Inv.step {t t' : Trace} {a : Act} (h : Inv t) (hwrap : NoWrap t a)
    (hstep : t.step a = some t') : Inv t' := by
  cases a with
  | call c =>
      obtain rfl := Option.some.inj hstep
      have hclock : (t.store.call c).lamportClock = t.store.lamportClock + 1 :=
        CrdtStore.lamportClock_call hwrap
      have hstamp : (t.store.nextOperation c).timestamp = t.store.lamportClock :=
        c.timestamp_operation ..
      refine ⟨List.pairwise_append.mpr ⟨h.causal, List.pairwise_singleton .., fun e he e' he' _ => ?_⟩,
        fun e he => ?_⟩
      · obtain rfl := List.mem_singleton.mp he'
        exact (h.past e he).trans_eq hstamp.symm
      · show e.op.timestamp < (t.store.call c).lamportClock
        rw [hclock]
        rcases List.mem_append.mp he with he | he
        · exact (h.past e he).trans (Nat.lt_succ_self _)
        · obtain rfl := List.mem_singleton.mp he
          exact hstamp.trans_lt (Nat.lt_succ_self _)
  | merge operations =>
      simp only [Trace.step] at hstep
      split at hstep
      · obtain rfl := Option.some.inj hstep
        obtain ⟨hle, hall⟩ := CrdtStore.lamportClock_mergeOperations hwrap
        refine ⟨List.pairwise_append.mpr ⟨h.causal, ?_, fun e he e' he' hissued => ?_⟩, fun e he => ?_⟩
        · refine List.pairwise_map.mpr (List.pairwise_of_forall fun _ _ hissued => ?_)
          exact hissued.elim
        · obtain ⟨op, -, rfl⟩ := List.mem_map.mp he'
          exact hissued.elim
        · rcases List.mem_append.mp he with he | he
          · exact lt_of_lt_of_le (h.past e he) hle
          · obtain ⟨op, hop, rfl⟩ := List.mem_map.mp he
            exact hall op hop
      · cases hstep

theorem Causal.nodup {events : List Event} (h : Causal events) :
    (events.filterMap Event.issuedTimestamp).Nodup := by
  refine List.Pairwise.filterMap _ ?_ h
  intro e e' hlt n hn n' hn'
  cases e with
  | merged => cases hn
  | issued op => cases e' with
    | merged => cases hn'
    | issued op' =>
        obtain rfl := Option.some.inj hn
        obtain rfl := Option.some.inj hn'
        exact (hlt trivial).ne

/-- Timestamps respect causality as long as the clock does not wrap: every operation a store has
issued, and the one it issues next, is stamped later than all that it issued or merged before;
so no two share a timestamp. -/
theorem lamport_causal {nodeId : NodeId} {t : Trace}
    (ht : Transition.Reaches (Transition.Via step) NoWrap (start nodeId) t) (c : LocalCall) :
    Causal (t.events ++ [Event.issued (t.store.nextOperation c)]) ∧
      ((t.events ++ [Event.issued (t.store.nextOperation c)]).filterMap Event.issuedTimestamp).Nodup := by
  have hinv : Inv t := by
    refine Transition.Reaches.invariant ⟨.nil, by simp [start]⟩ ?_ ht
    intro t a t' h hwrap hstep
    exact h.step hwrap hstep
  have hcausal : Causal (t.events ++ [.issued (t.store.nextOperation c)]) := by
    refine List.pairwise_append.mpr
      ⟨hinv.causal, List.pairwise_singleton .., fun e he e' he' _ => ?_⟩
    obtain rfl := List.mem_singleton.mp he'
    exact (hinv.past e he).trans_eq (c.timestamp_operation ..).symm
  exact ⟨hcausal, hcausal.nodup⟩

/-- A store that has merged an operation from a node whose clock was ahead. -/
theorem lamport_causal_merged : ∃ t,
    Transition.runActions step NoWrap (start "a")
      [.call (.delete "t" 1), .merge [.delete "t" 1 7 "b"]] = some t ∧
    (t.store.nextOperation (.delete "t" 1)).timestamp = 8 ∧
    Causal (t.events ++ [.issued (t.store.nextOperation (.delete "t" 1))]) := by
  obtain ⟨t, ht, hnext⟩ : ∃ t, Transition.runActions step NoWrap (start "a")
      [.call (.delete "t" 1), .merge [.delete "t" 1 7 "b"]] = some t ∧
      (t.store.nextOperation (.delete "t" 1)).timestamp = 8 :=
    Option.map_eq_some_iff.mp (by with_unfolding_all decide)
  exact ⟨t, ht, hnext, (lamport_causal (Transition.reaches_of_runActions _ .refl ht) _).1⟩

/-- The largest timestamp takes the clock back to 0. -/
theorem not_lamport_causal : ¬ ∀ (nodeId : NodeId) (t : Trace),
    Transition.Reaches (Transition.Via step) Transition.Any (start nodeId) t → Causal t.events := by
  intro hall
  obtain ⟨t, ht, hevents⟩ : ∃ t, Transition.runActions step Transition.Any (start "a")
      [.merge [.delete "t" 1 (u64Size - 1) "b"], .call (.delete "t" 1)] = some t ∧
      decide (Causal t.events) = false :=
    Option.map_eq_some_iff.mp (by with_unfolding_all decide)
  exact of_decide_eq_false hevents (hall "a" t (Transition.reaches_of_runActions _ .refl ht))

end Trace

end VelociDB.Crdt
