/-
# Vacuum (`mvcc.rs`)

`vacuum` drops every version that was deleted before the oldest active snapshot was taken.
A snapshot still sees a version deleted before it was taken when the deleting transaction
was running at that time, so such a version must wait for that transaction:

    deleted by a transaction that is active     kept: that one's snapshot is older still
    deleted after the snapshot was taken        kept
    deleted before, by one that has ended       dropped, seen or not

A snapshot taken after the vacuum sees none of the dropped versions.
-/
import VelociDB.MvccReads

namespace VelociDB.Mvcc

/-- Not deleted, or not before the time. -/
def RecordVersion.Retained (time : Timestamp) (v : RecordVersion) : Prop :=
  v.versionInfo.deletedAt = 0 ∨ time ≤ v.versionInfo.deletedAt

instance (time : Timestamp) (v : RecordVersion) : Decidable (v.Retained time) :=
  inferInstanceAs (Decidable (_ ∨ _))

/-- `VersionedRecord::vacuum`. -/
def VersionedRecord.vacuum (r : VersionedRecord) (minActiveTimestamp : Timestamp) :
    VersionedRecord :=
  { r with versions := r.versions.filter fun v => v.Retained minActiveTimestamp }

namespace MvccManager

/-- The timestamp of the oldest active snapshot, or the current one. -/
def minActiveTimestamp (m : MvccManager) : Timestamp :=
  ((m.activeSnapshots.toList.map fun e => e.2.timestamp).min?).getD m.currentTimestamp

/-- The store without the versions deleted before `time`. -/
def vacuumStore (time : Timestamp)
    (store : Std.ExtTreeMap String (Std.ExtTreeMap Int64 VersionedRecord)) :
    Std.ExtTreeMap String (Std.ExtTreeMap Int64 VersionedRecord) :=
  store.map fun _ tableMap => tableMap.map fun _ record => record.vacuum time

/-- `vacuum`. -/
def vacuum (m : MvccManager) : MvccManager :=
  { m with
    committedTransactions :=
      m.committedTransactions.filter fun _ time => m.minActiveTimestamp ≤ time
    versionStore := vacuumStore m.minActiveTimestamp m.versionStore }

variable {m m' : MvccManager} {table : String} {key : Int64} {S : Snapshot} {time : Timestamp}

theorem minActiveTimestamp_le {t : TransactionId} (h : m.activeSnapshots[t]? = some S) :
    m.minActiveTimestamp ≤ S.timestamp := by
  have hmem : S.timestamp ∈ m.activeSnapshots.toList.map fun e => e.2.timestamp :=
    List.mem_map.mpr ⟨(t, S), Std.ExtTreeMap.mem_toList_iff_getElem?_eq_some.mpr h, rfl⟩
  rw [minActiveTimestamp]
  cases hmin : (m.activeSnapshots.toList.map fun e => e.2.timestamp).min? with
  | none =>
      rw [List.min?_eq_none_iff.mp hmin] at hmem
      cases hmem
  | some x => exact (List.min?_eq_some_iff.mp hmin).2 _ hmem

theorem versionsAt_vacuumStore (h : m'.versionStore = vacuumStore time m.versionStore)
    (table : String) (key : Int64) : m'.versionsAt table key =
      (m.versionsAt table key).filter fun v => v.Retained time := by
  unfold versionsAt tableStore
  rw [h, vacuumStore, Std.ExtTreeMap.getElem?_map]
  cases htable : m.versionStore[table]? with
  | none => simp
  | some tableMap =>
      simp only [Option.map_some, Option.getD_some, Std.ExtTreeMap.getElem?_map]
      cases hrecord : tableMap[key]? with
      | none => simp
      | some r => simp [VersionedRecord.vacuum]

/-- Dropping versions that a snapshot does not see. -/
theorem readVersion_retained
    (h : m'.versionsAt table key = (m.versionsAt table key).filter fun v => v.Retained time)
    (hkept : ∀ v ∈ m.versionsAt table key, v.isVisible S → v.Retained time) :
    m'.readVersion table key S = m.readVersion table key S := by
  rw [readVersion_eq, readVersion_eq, h]
  exact newest_filter fun v hv hvis => by simpa using hkept v hv hvis

theorem pairwise_scanTable (m : MvccManager) (table : String) (S : Snapshot) :
    (m.scanTable table S).Pairwise fun a b => compare a.1 b.1 = .lt := by
  unfold scanTable
  cases m.versionStore[table]? with
  | none => exact .nil
  | some tableMap =>
      refine List.Pairwise.filterMap _ ?_ Std.ExtTreeMap.ordered_keys_toList
      rintro ⟨k, r⟩ ⟨k', r'⟩ hlt b hb b' hb'
      obtain ⟨v, -, rfl⟩ := Option.map_eq_some_iff.mp hb
      obtain ⟨v', -, rfl⟩ := Option.map_eq_some_iff.mp hb'
      exact hlt

/-- A scan lists what the reads give, in the order of the keys. -/
theorem scanTable_congr
    (h : ∀ key, m'.readVersion table key S = m.readVersion table key S) :
    m'.scanTable table S = m.scanTable table S := by
  have hnodup : ∀ m : MvccManager, (m.scanTable table S).Nodup := fun m =>
    (pairwise_scanTable m table S).imp fun {a b} hlt heq => by
      rw [heq, Std.ReflOrd.compare_self] at hlt
      cases hlt
  have hperm : (m'.scanTable table S).Perm (m.scanTable table S) := by
    refine (List.perm_ext_iff_of_nodup (hnodup m') (hnodup m)).mpr ?_
    rintro ⟨key, data⟩
    rw [mem_scanTable, mem_scanTable, h key]
  refine hperm.eq_of_pairwise ?_ (pairwise_scanTable ..) (pairwise_scanTable ..)
  intro a b _ _ hab hba
  rw [Std.OrientedOrd.eq_swap, hab] at hba
  cases hba

end MvccManager

/-! ## Runs with vacuum -/

namespace Sys

open MvccManager

/-- The calls of a run, `vacuum` among them. -/
inductive Op where
  | call (a : Act)
  | vacuum

/-- The state after `vacuum`. -/
def vacuumed (s : Sys) : Sys := { s with mvcc := s.mvcc.vacuum }

def perform (s : Sys) : Op → Option Sys
  | .call a => s.step a
  | .vacuum => some s.vacuumed

variable {s s' : Sys} {a : Act} {op : Op} {table : String} {key : Int64}

theorem versionsAt_vacuumed (s : Sys) (table : String) (key : Int64) :
    s.vacuumed.mvcc.versionsAt table key =
      (s.mvcc.versionsAt table key).filter fun v => v.Retained s.mvcc.minActiveTimestamp :=
  versionsAt_vacuumStore rfl table key

theorem mem_vacuumed {v : RecordVersion} (hv : v ∈ s.vacuumed.mvcc.versionsAt table key) :
    v ∈ s.mvcc.versionsAt table key := by
  rw [versionsAt_vacuumed] at hv
  exact (List.mem_filter.mp hv).1

theorem Stamped.vacuumed (h : Stamped s) : Stamped s.vacuumed where
  pos := h.pos
  own := h.own
  seen := h.seen
  stamps table key v hv := h.stamps table key v (mem_vacuumed hv)
  writers := h.writers
  ended := h.ended

/-- What the clock keeps: snapshots are older than the present, and a mark is younger than
the snapshot of the transaction that made it. -/
structure Clocked (s : Sys) : Prop where
  began : ∀ (t : TransactionId) (S : Snapshot), s.mvcc.activeSnapshots[t]? = some S → S.timestamp < s.mvcc.currentTimestamp
  marked : ∀ table key, ∀ v ∈ s.mvcc.versionsAt table key,
    v.versionInfo.deletedAt ≠ 0 → v.versionInfo.xmax ≠ 0
  after : ∀ table key, ∀ v ∈ s.mvcc.versionsAt table key, ∀ S : Snapshot,
    s.mvcc.activeSnapshots[v.versionInfo.xmax]? = some S → S.timestamp < v.versionInfo.deletedAt

theorem clocked_init : Clocked init where
  began := by simp [init, MvccManager.new]
  marked := by simp [init, MvccManager.new, versionsAt, tableStore]
  after := by simp [init, MvccManager.new, versionsAt, tableStore]

theorem Clocked.vacuumed (h : Clocked s) : Clocked s.vacuumed where
  began := h.began
  marked table key v hv := h.marked table key v (mem_vacuumed hv)
  after table key v hv := h.after table key v (mem_vacuumed hv)

/-- Versions stay, transactions may end and time may pass. -/
theorem Clocked.mono (h : Clocked s)
    (hactive : ∀ (t : TransactionId) (S : Snapshot), s'.mvcc.activeSnapshots[t]? = some S → s.mvcc.activeSnapshots[t]? = some S)
    (htime : s.mvcc.currentTimestamp ≤ s'.mvcc.currentTimestamp)
    (hversions : ∀ table key, ∀ v ∈ s'.mvcc.versionsAt table key,
      v ∈ s.mvcc.versionsAt table key ∨ v.versionInfo.deletedAt = 0 ∧ v.versionInfo.xmax = 0 ∨
      v.versionInfo.xmax ≠ 0 ∧ v.versionInfo.deletedAt = s.mvcc.currentTimestamp)
    (hpos : ∀ (t : TransactionId) (S : Snapshot), s.mvcc.activeSnapshots[t]? = some S → t ≠ 0) : Clocked s' where
  began t S hS := lt_of_lt_of_le (h.began t S (hactive t S hS)) htime
  marked table key v hv hdel := by
    rcases hversions table key v hv with hold | ⟨hzero, -⟩ | ⟨hmax, -⟩
    · exact h.marked table key v hold hdel
    · exact absurd hzero hdel
    · exact hmax
  after table key v hv S hS := by
    have hS := hactive _ S hS
    rcases hversions table key v hv with hold | ⟨-, hmax⟩ | ⟨-, hnow⟩
    · exact h.after table key v hold S hS
    · exact absurd hmax (hpos _ S hS)
    · rw [hnow]
      exact h.began _ S hS

theorem Clocked.step (h : Clocked s) (hst : Stamped s) (hwrap : NoWrap s) (hx : Effect s a s') :
    Clocked s' := by
  have htick := tick_time hwrap
  have hlater : s.mvcc.currentTimestamp ≤ s.mvcc.tick.currentTimestamp := by
    rw [htick]
    exact Nat.le_succ _
  have hpos : ∀ (t : TransactionId) (S : Snapshot), s.mvcc.activeSnapshots[t]? = some S → t ≠ 0 := fun t S hS =>
    (hst.own t S hS).2.1.ne'
  cases hx with
  | begin =>
      refine ⟨fun t S hS => ?_, h.marked, fun table key v hv S hS => ?_⟩
      · show S.timestamp < s.mvcc.tick.currentTimestamp
        rcases getElem?_begin hS with ⟨-, rfl⟩ | hS
        · rw [htick]
          exact Nat.lt_succ_self _
        · exact lt_of_lt_of_le (h.began t S hS) hlater
      · rcases getElem?_begin hS with ⟨hnew, -⟩ | hS
        · exact absurd hnew (hst.stamps table key v hv).2.1.ne
        · exact h.after table key v hv S hS
  | elsewhere => exact h.mono (fun _ _ hS => hS) (Nat.le_refl _) (fun _ _ v hv => Or.inl hv) hpos
  | @insert t tb k data S hS =>
      refine h.mono (fun _ _ hS => hS) (Nat.le_refl _) (fun table key v hv => ?_) hpos
      replace hv : v ∈ (s.mvcc.insertVersion tb k data S).versionsAt table key := hv
      rw [versionsAt_insertVersion] at hv
      split at hv
      · rename_i heq
        obtain ⟨rfl, rfl⟩ := heq
        rcases List.mem_append.mp hv with hv | hv
        · exact Or.inl hv
        · obtain rfl := List.mem_singleton.mp hv
          exact Or.inr (Or.inl ⟨rfl, rfl⟩)
      · exact Or.inl hv
  | @delete t tb k S ws v m hS hvs hactive htime hset =>
      refine h.mono (fun u U hU => ?_) ?_ (fun table key w hw => ?_) hpos
      · rw [← hactive]
        exact hU
      · exact hlater.trans_eq htime.symm
      · replace hw : w ∈ m.versionsAt table key := hw
        rw [hset] at hw
        split at hw
        · rename_i heq
          obtain ⟨rfl, rfl⟩ := heq
          rw [hvs]
          rcases List.mem_append.mp hw with hw | hw
          · exact Or.inl (List.mem_append_left _ hw)
          · obtain rfl := List.mem_singleton.mp hw
            obtain ⟨hid, hpos, -⟩ := hst.own t S hS
            exact Or.inr (Or.inr ⟨hid.trans_ne hpos.ne', rfl⟩)
        · exact Or.inl hw
  | missing => exact h.mono (fun _ _ hS => hS) hlater (fun _ _ v hv => Or.inl hv) hpos
  | @commit t S hS =>
      refine h.mono (fun u U hU => ?_) hlater (fun _ _ v hv => Or.inl hv) hpos
      exact ((getElem?_erase_iff (s := s) rfl).mp hU).2
  | @abort t S hS =>
      refine h.mono (fun u U hU => ?_) (Nat.le_refl _) (fun _ _ v hv => Or.inl hv) hpos
      exact ((getElem?_erase_iff (s := s) rfl).mp hU).2

theorem stamped_clocked_step (hst : Stamped s) (hcl : Clocked s) (hwrap : NoWrap s)
    (hstep : s.perform op = some s') : Stamped s' ∧ Clocked s' := by
  cases op with
  | call a => exact ⟨hst.step hwrap (effect_of_step hstep), hcl.step hst hwrap (effect_of_step hstep)⟩
  | vacuum =>
      obtain rfl := Option.some.inj hstep
      exact ⟨hst.vacuumed, hcl.vacuumed⟩

/-- The invariants of runs with vacuum. -/
theorem stamped_clocked
    (hs : Transition.Reaches (Transition.Via perform) (fun s _ => NoWrap s) init s) :
    Stamped s ∧ Clocked s :=
  Transition.Reaches.invariant (I := fun s => Stamped s ∧ Clocked s)
    ⟨stamped_init, clocked_init⟩
    (fun _ _ _ h hwrap hstep => stamped_clocked_step h.1 h.2 hwrap hstep) hs

/-! ## A run with the vacuum beside one without -/

/-- Some active snapshot is no younger than the deletion of any deleted version that an
active snapshot sees. -/
def Pinned (s : Sys) : Prop :=
  ∀ (t : TransactionId) (S : Snapshot), s.mvcc.activeSnapshots[t]? = some S →
    ∀ table key, ∀ v ∈ s.mvcc.versionsAt table key, v.isVisible S → ¬ v.Live →
      ∃ (u : TransactionId) (U : Snapshot), s.mvcc.activeSnapshots[u]? = some U ∧
        U.timestamp ≤ v.versionInfo.deletedAt

/-- Nobody deletes a record whose newest version was deleted before the time. -/
def Spares (time : Timestamp) (s : Sys) : Op → Prop
  | .call (.delete _ table key) =>
      ∀ v ∈ (s.mvcc.versionsAt table key).getLast?, v.Retained time
  | _ => True

instance (time : Timestamp) (s : Sys) : (op : Op) → Decidable (Spares time s op)
  | .call (.delete _ table key) => inferInstanceAs (Decidable
      (∀ v ∈ (s.mvcc.versionsAt table key).getLast?, v.Retained time))
  | .call .begin | .call .elsewhere | .call (.insert _ _ _ _) | .call (.commit _)
  | .call (.abort _) | .vacuum => inferInstanceAs (Decidable True)

/-- The second state is the first without the versions deleted before the time. -/
structure Alike (time : Timestamp) (s₁ s₂ : Sys) : Prop where
  next : s₂.nextTxnId = s₁.nextTxnId
  clock : s₂.mvcc.currentTimestamp = s₁.mvcc.currentTimestamp
  active : s₂.mvcc.activeSnapshots = s₁.mvcc.activeSnapshots
  versions : ∀ table key, s₂.mvcc.versionsAt table key =
    (s₁.mvcc.versionsAt table key).filter fun v => v.Retained time

theorem alike_vacuumed (s : Sys) : Alike s.mvcc.minActiveTimestamp s s.vacuumed :=
  ⟨rfl, rfl, rfl, versionsAt_vacuumed s⟩

variable {time : Timestamp} {s₁ s₂ s₁' : Sys}

/-- The two runs delete alike. -/
theorem Alike.delete (h : Alike time s₁ s₂) (hclock : time ≤ s₁.mvcc.currentTimestamp)
    {t : TransactionId} {S : Snapshot} (hS : s₁.mvcc.activeSnapshots[t]? = some S)
    (hspared : ∀ v ∈ (s₁.mvcc.versionsAt table key).getLast?, v.Retained time)
    (hstep : s₁.step (.delete t table key) = some s₁') :
    ∃ s₂', s₂.step (.delete t table key) = some s₂' ∧ Alike time s₁' s₂' := by
  have hS₂ : s₂.mvcc.activeSnapshots[t]? = some S := by rw [h.active, hS]
  have htick : s₂.mvcc.tick.currentTimestamp = s₁.mvcc.tick.currentTimestamp := by
    simp only [tick, h.clock]
  simp only [Sys.step, hS, Option.bind_eq_bind, Option.bind_some] at hstep
  simp only [Sys.step, hS₂, Option.bind_eq_bind, Option.bind_some]
  rcases deleteVersion_cases s₁.mvcc table key S with ⟨hnone, e, heq⟩ |
    ⟨ws, v, m, hvs, heq, hactive, htime, hset⟩
  · rw [heq] at hstep
    obtain rfl := Option.some.inj hstep
    rcases deleteVersion_cases s₂.mvcc table key S with ⟨-, e', heq'⟩ | ⟨ws', v', -, hvs', -⟩
    · rw [heq']
      exact ⟨_, rfl, h.next, htick, h.active, h.versions⟩
    · rw [h.versions, hnone] at hvs'
      simp at hvs'
  · rw [heq] at hstep
    obtain rfl := Option.some.inj hstep
    have hkept : v.Retained time := hspared v (by simp [hvs])
    have hvs₂ : s₂.mvcc.versionsAt table key = (ws.filter fun v => v.Retained time) ++ [v] := by
      rw [h.versions, hvs]
      simp [hkept]
    rcases deleteVersion_cases s₂.mvcc table key S with ⟨hnone, -⟩ |
      ⟨ws', v', m', hvs', heq', hactive', htime', hset'⟩
    · rw [hvs₂] at hnone
      simp at hnone
    · obtain ⟨rfl, rfl⟩ : ws.filter (fun v => v.Retained time) = ws' ∧ v = v' := by
        rw [hvs₂] at hvs'
        simpa using List.append_inj' hvs' rfl
      rw [heq']
      refine ⟨_, rfl, h.next, ?_, ?_, fun tb k => ?_⟩
      · exact htime'.trans (htick.trans htime.symm)
      · exact hactive'.trans (h.active.trans hactive.symm)
      · show m'.versionsAt tb k = (m.versionsAt tb k).filter fun v => v.Retained time
        rw [hset, hset', h.clock]
        split
        · -- the mark is made now, not before the time
          have hmark : RecordVersion.Retained time
              ⟨v.versionInfo.markDeleted S.txnId s₁.mvcc.currentTimestamp, v.data⟩ := Or.inr hclock
          simp [hmark]
        · exact h.versions tb k

theorem Alike.step (h : Alike time s₁ s₂) (hclock : time ≤ s₁.mvcc.currentTimestamp)
    (hspared : Spares time s₁ op) (hstep : s₁.perform op = some s₁') :
    ∃ s₂', s₂.perform op = some s₂' ∧ Alike time s₁' s₂' := by
  have hget : ∀ {t : TransactionId} {S : Snapshot}, s₁.mvcc.activeSnapshots[t]? = some S →
      s₂.mvcc.activeSnapshots[t]? = some S := fun hS => by rw [h.active, hS]
  cases op with
  | vacuum =>
      obtain rfl := Option.some.inj hstep
      refine ⟨_, rfl, h.next, h.clock, h.active, fun table key => ?_⟩
      have hmin : s₂.mvcc.minActiveTimestamp = s₁.mvcc.minActiveTimestamp := by
        simp only [minActiveTimestamp, h.active, h.clock]
      rw [versionsAt_vacuumed, versionsAt_vacuumed, h.versions, hmin, List.filter_filter,
        List.filter_filter]
      exact List.filter_congr fun v _ => Bool.and_comm _ _
  | call a =>
      cases a with
      | begin =>
          obtain rfl := Option.some.inj hstep
          refine ⟨_, rfl, ?_, ?_, ?_, h.versions⟩
          · simp only [h.next]
          · simp only [beginTransaction, tick, h.clock]
          · simp only [beginTransaction, h.next, h.clock, h.active]
      | elsewhere =>
          obtain rfl := Option.some.inj hstep
          refine ⟨_, rfl, ?_, h.clock, h.active, h.versions⟩
          simp only [h.next]
      | insert t tb k data =>
          obtain ⟨S, hS, hstep⟩ := Option.bind_eq_some_iff.mp hstep
          obtain rfl := Option.some.inj hstep
          refine ⟨s₂.record (s₂.mvcc.insertVersion tb k data S) ⟨t, tb, k, some data⟩, ?_, h.next,
            h.clock, h.active, fun table key => ?_⟩
          · simp [perform, Sys.step, hget hS]
          · show (s₂.mvcc.insertVersion tb k data S).versionsAt table key =
              ((s₁.mvcc.insertVersion tb k data S).versionsAt table key).filter _
            rw [versionsAt_insertVersion, versionsAt_insertVersion, h.clock]
            split
            · have hnew : RecordVersion.Retained time
                  ⟨.new S.txnId s₁.mvcc.currentTimestamp, data⟩ := Or.inl rfl
              rw [h.versions]
              simp [hnew]
            · exact h.versions table key
      | delete t tb k =>
          obtain ⟨S, hS, -⟩ := Option.bind_eq_some_iff.mp hstep
          exact h.delete hclock hS hspared hstep
      | commit t =>
          obtain ⟨S, hS, hstep⟩ := Option.bind_eq_some_iff.mp hstep
          obtain rfl := Option.some.inj hstep
          refine ⟨{ s₂ with
            mvcc := s₂.mvcc.commitTransaction S
            history := { s₂.history with commits := s₂.history.commits ++ [t] } }, ?_, h.next, ?_,
            ?_, h.versions⟩
          · simp [perform, Sys.step, hget hS]
          · simp only [commitTransaction, tick, h.clock]
          · simp only [commitTransaction, h.active]
      | abort t =>
          obtain ⟨S, hS, hstep⟩ := Option.bind_eq_some_iff.mp hstep
          obtain rfl := Option.some.inj hstep
          refine ⟨{ s₂ with mvcc := s₂.mvcc.abortTransaction S }, ?_, h.next, h.clock, ?_, h.versions⟩
          · simp [perform, Sys.step, hget hS]
          · simp only [abortTransaction, h.active]

/-- The versions deleted before the time: the transactions that deleted them have ended, and
the snapshots of the transactions in `seers` see none of them. -/
structure Past (time : Timestamp) (seers : TransactionId → Prop) (s : Sys) : Prop where
  clock : time ≤ s.mvcc.currentTimestamp
  dead : ∀ table key, ∀ v ∈ s.mvcc.versionsAt table key, ¬ v.Retained time →
    0 < v.versionInfo.xmax ∧ v.versionInfo.xmax < s.nextTxnId ∧ ¬ s.Active v.versionInfo.xmax
  unseen : ∀ (t : TransactionId) (S : Snapshot), seers t → s.mvcc.activeSnapshots[t]? = some S →
    ∀ table key, ∀ v ∈ s.mvcc.versionsAt table key, ¬ v.Retained time → ¬ v.isVisible S

variable {seers : TransactionId → Prop}

/-- A snapshot taken now sees no version that was deleted before the time. -/
theorem Past.not_isVisible_begin (h : Past time seers s) {v : RecordVersion}
    (hv : v ∈ s.mvcc.versionsAt table key) (hold : ¬ v.Retained time) :
    ¬ v.isVisible (s.mvcc.beginTransaction s.nextTxnId).1 := by
  obtain ⟨hpos, hlt, hended⟩ := h.dead table key v hv hold
  have hkeys : v.versionInfo.xmax ∉ s.mvcc.activeSnapshots.keys := by
    rw [Std.ExtTreeMap.mem_keys]
    intro hmem
    exact hended ⟨_, Std.ExtTreeMap.getElem?_eq_some_getElem hmem⟩
  have hvisible : (s.mvcc.beginTransaction s.nextTxnId).1.isTransactionVisible
      v.versionInfo.xmax = true := by
    simp [Snapshot.isTransactionVisible, beginTransaction, hlt.ne, not_le.mpr hlt,
      hkeys]
  simp [RecordVersion.isVisible, VersionInfo.isVisible, hpos, hvisible]

theorem Past.mono (h : Past time seers s) (hnext : s.nextTxnId ≤ s'.nextTxnId)
    (hclock : s.mvcc.currentTimestamp ≤ s'.mvcc.currentTimestamp)
    (hactive : ∀ (t : TransactionId) (S : Snapshot), s'.mvcc.activeSnapshots[t]? = some S →
      s.mvcc.activeSnapshots[t]? = some S)
    (hversions : ∀ table key, ∀ v ∈ s'.mvcc.versionsAt table key, ¬ v.Retained time →
      v ∈ s.mvcc.versionsAt table key) : Past time seers s' where
  clock := h.clock.trans hclock
  dead table key v hv hold := by
    obtain ⟨hpos, hlt, hended⟩ := h.dead table key v (hversions table key v hv hold) hold
    refine ⟨hpos, lt_of_lt_of_le hlt hnext, ?_⟩
    rintro ⟨S, hS⟩
    exact hended ⟨S, hactive _ S hS⟩
  unseen t S ht hS table key v hv hold :=
    h.unseen t S ht (hactive t S hS) table key v (hversions table key v hv hold) hold

theorem Past.step (h : Past time seers s) (hwrap : NoWrap s) (hstep : s.perform op = some s') :
    Past time seers s' := by
  have hnext : (s.nextTxnId + 1) % u64Size = s.nextTxnId + 1 := Nat.mod_eq_of_lt hwrap.1
  have hlater : s.mvcc.currentTimestamp ≤ s.mvcc.tick.currentTimestamp := by
    rw [tick_time hwrap]
    exact Nat.le_succ _
  cases op with
  | vacuum =>
      obtain rfl := Option.some.inj hstep
      exact h.mono (Nat.le_refl _) (Nat.le_refl _) (fun _ _ hS => hS) fun _ _ v hv _ => mem_vacuumed hv
  | call a =>
      cases effect_of_step hstep with
      | begin =>
          rw [hnext]
          refine ⟨h.clock.trans hlater, fun table key v hv hold => ?_,
            fun t S ht hS table key v hv hold => ?_⟩
          · obtain ⟨hpos, hlt, hended⟩ := h.dead table key v hv hold
            refine ⟨hpos, hlt.trans (Nat.lt_succ_self _), ?_⟩
            rintro ⟨S, hS⟩
            rcases getElem?_begin hS with ⟨hnew, -⟩ | hS
            · exact absurd hnew hlt.ne
            · exact hended ⟨S, hS⟩
          · rcases getElem?_begin hS with ⟨-, rfl⟩ | hS
            · exact h.not_isVisible_begin hv hold
            · exact h.unseen t S ht hS table key v hv hold
      | elsewhere =>
          refine h.mono ?_ (Nat.le_refl _) (fun _ _ hS => hS) fun _ _ v hv _ => hv
          rw [hnext]
          exact Nat.le_succ _
      | @insert t tb k data S hS =>
          refine h.mono (Nat.le_refl _) (Nat.le_refl _) (fun _ _ hS => hS) fun table key v hv hold => ?_
          replace hv : v ∈ (s.mvcc.insertVersion tb k data S).versionsAt table key := hv
          rw [versionsAt_insertVersion] at hv
          split at hv
          · rename_i heq
            obtain ⟨rfl, rfl⟩ := heq
            refine (List.mem_append.mp hv).resolve_right fun hnew => hold ?_
            obtain rfl := List.mem_singleton.mp hnew
            exact Or.inl rfl
          · exact hv
      | @delete t tb k S ws v m hS hvs hactive htime hset =>
          refine h.mono (Nat.le_refl _) (hlater.trans_eq htime.symm) (fun u U hU => ?_)
            fun table key w hw hold => ?_
          · rw [← hactive]
            exact hU
          · replace hw : w ∈ m.versionsAt table key := hw
            rw [hset] at hw
            split at hw
            · rename_i heq
              obtain ⟨rfl, rfl⟩ := heq
              rw [hvs]
              refine List.mem_append_left _ ((List.mem_append.mp hw).resolve_right fun hnew => hold ?_)
              obtain rfl := List.mem_singleton.mp hnew
              exact Or.inr h.clock
            · exact hw
      | missing => exact h.mono (Nat.le_refl _) hlater (fun _ _ hS => hS) fun _ _ v hv _ => hv
      | @commit t S hS =>
          refine h.mono (Nat.le_refl _) hlater (fun u U hU => ?_) fun _ _ v hv _ => hv
          exact ((getElem?_erase_iff (s := s) rfl).mp hU).2
      | @abort t S hS =>
          refine h.mono (Nat.le_refl _) (Nat.le_refl _) (fun u U hU => ?_) fun _ _ v hv _ => hv
          exact ((getElem?_erase_iff (s := s) rfl).mp hU).2

/-- What `vacuum` drops belongs to the past: a transaction that is active made its marks
after its own snapshot, so not before the oldest one. -/
theorem past_minActive (hst : Stamped s) (hcl : Clocked s) :
    Past s.mvcc.minActiveTimestamp (fun t => s.nextTxnId ≤ t ∨ s.Pinned) s where
  clock := by
    rw [minActiveTimestamp]
    cases hmin : (s.mvcc.activeSnapshots.toList.map fun e => e.2.timestamp).min? with
    | none => exact Nat.le_refl _
    | some x =>
        obtain ⟨⟨t, S⟩, hmem, rfl⟩ := List.mem_map.mp (List.min?_mem hmin)
        exact (hcl.began t S (Std.ExtTreeMap.mem_toList_iff_getElem?_eq_some.mp hmem)).le
  dead table key v hv hold := by
    obtain ⟨hdeleted, hbefore⟩ := not_or.mp hold
    refine ⟨Nat.pos_of_ne_zero (hcl.marked table key v hv hdeleted),
      (hst.stamps table key v hv).2.1, ?_⟩
    rintro ⟨S, hS⟩
    have hafter := hcl.after table key v hv S hS
    exact hbefore ((minActiveTimestamp_le hS).trans hafter.le)
  unseen t S ht hS table key v hv hold hvis := by
    rcases ht with ht | hpinned
    · exact absurd (hst.own t S hS).2.2 (not_lt.mpr ht)
    · obtain ⟨hdeleted, hbefore⟩ := not_or.mp hold
      obtain ⟨u, U, hU, hle⟩ := hpinned t S hS table key v hv hvis
        (hcl.marked table key v hv hdeleted)
      exact hbefore ((minActiveTimestamp_le hU).trans hle)

/-- A run and the same run without the past. -/
theorem Alike.run : ∀ (ops : List Op) {s₁ s₂ : Sys}, Alike time s₁ s₂ → Past time seers s₁ →
    Transition.runActions perform (fun s op => NoWrap s ∧ Spares time s op) s₁ ops = some s₁' →
    ∃ s₂', Transition.runActions perform Transition.Any s₂ ops = some s₂' ∧
      Alike time s₁' s₂' ∧ Past time seers s₁'
  | [], s₁, s₂, h, hpast, hrun => by
      obtain rfl := Option.some.inj hrun
      exact ⟨s₂, rfl, h, hpast⟩
  | op :: ops, s₁, s₂, h, hpast, hrun => by
      simp only [Transition.runActions] at hrun
      split at hrun
      · rename_i hok
        obtain ⟨s₁'', hstep, hrun⟩ := Option.bind_eq_some_iff.mp hrun
        obtain ⟨s₂'', hstep₂, h''⟩ := h.step hpast.clock hok.2 hstep
        obtain ⟨s₂', hrun₂, hend⟩ := Alike.run ops h'' (hpast.step hok.1 hstep) hrun
        refine ⟨s₂', ?_, hend⟩
        rw [Transition.runActions, if_pos (show Transition.Any s₂ op from trivial), hstep₂]
        exact hrun₂
      · cases hrun

/-- A vacuum is invisible: whatever calls follow it, every snapshot reads and scans as it would
without the vacuum, if it is taken after the vacuum or the versions that active snapshots see
are pinned, and as long as nobody deletes again what was deleted before the vacuum. -/
theorem vacuum_invisible {s s₁ : Sys} {ops : List Op}
    (hs : Transition.Reaches (Transition.Via perform) (fun s _ => NoWrap s) init s)
    (hrun : Transition.runActions perform
      (fun s' op => NoWrap s' ∧ Spares s.mvcc.minActiveTimestamp s' op) s ops = some s₁) :
    ∃ s₂, Transition.runActions perform Transition.Any s.vacuumed ops = some s₂ ∧
      s₂.mvcc.activeSnapshots = s₁.mvcc.activeSnapshots ∧
      ∀ (t : TransactionId) (S : Snapshot), s₁.mvcc.activeSnapshots[t]? = some S →
        s.nextTxnId ≤ t ∨ s.Pinned →
        ∀ table, (∀ key, s₂.mvcc.readVersion table key S = s₁.mvcc.readVersion table key S) ∧
          s₂.mvcc.scanTable table S = s₁.mvcc.scanTable table S := by
  obtain ⟨hst, hcl⟩ := stamped_clocked hs
  obtain ⟨s₂, hrun₂, halike, hpast⟩ := (alike_vacuumed s).run ops (past_minActive hst hcl) hrun
  refine ⟨s₂, hrun₂, halike.active, fun t S hS hseer table => ?_⟩
  have hreads : ∀ key, s₂.mvcc.readVersion table key S = s₁.mvcc.readVersion table key S := by
    intro key
    refine readVersion_retained (halike.versions table key) fun v hv hvis => ?_
    by_contra hold
    exact hpast.unseen t S hseer hS table key v hv hold hvis
  exact ⟨hreads, scanTable_congr hreads⟩

/-- Every deleted version of the store is pinned, seen or not. -/
theorem pinned_of_marks (h : ∀ e ∈ s.mvcc.versionStore.toList, ∀ r ∈ e.2.toList,
    ∀ v ∈ r.2.versions, v.Live ∨ ∃ u ∈ s.mvcc.activeSnapshots.toList,
      u.2.timestamp ≤ v.versionInfo.deletedAt) : s.Pinned := by
  intro t S _ table key v hv _ hmarked
  simp only [versionsAt, tableStore] at hv
  cases htable : s.mvcc.versionStore[table]? with
  | none => simp [htable] at hv
  | some tableMap =>
      simp only [htable, Option.getD_some] at hv
      cases hrecord : tableMap[key]? with
      | none => simp [hrecord] at hv
      | some r =>
          simp only [hrecord, Option.map_some, Option.getD_some] at hv
          have hpin := h (table, tableMap) (Std.ExtTreeMap.mem_toList_iff_getElem?_eq_some.mpr htable)
            (key, r) (Std.ExtTreeMap.mem_toList_iff_getElem?_eq_some.mpr hrecord) v hv
          obtain ⟨⟨u, U⟩, hU, hle⟩ := hpin.resolve_left hmarked
          exact ⟨u, U, Std.ExtTreeMap.mem_toList_iff_getElem?_eq_some.mp hU, hle⟩

/-- A row that is deleted while a reader is active. -/
def deletedLater : List Op :=
  [.call .begin, .call (.insert 1 "t" 1 [.integer 7]), .call (.commit 1), .call .begin,
    .call .begin, .call (.delete 3 "t" 1), .call (.commit 3)]

/-- The reader still sees the row after a vacuum. -/
theorem vacuum_invisible_reader : ∃ (s : Sys) (S : Snapshot),
    Transition.runActions perform (fun s _ => NoWrap s) init deletedLater = some s ∧
    s.mvcc.activeSnapshots[2]? = some S ∧ s.Pinned ∧
    s.vacuumed.mvcc.readVersion "t" 1 S = some [.integer 7] := by
  obtain ⟨s, hs, hfacts⟩ : ∃ s, Transition.runActions perform (fun s _ => NoWrap s) init
      deletedLater = some s ∧
      (s.mvcc.activeSnapshots[2]?.map fun S => s.mvcc.readVersion "t" 1 S,
        decide (∀ e ∈ s.mvcc.versionStore.toList, ∀ r ∈ e.2.toList, ∀ v ∈ r.2.versions,
          v.Live ∨ ∃ u ∈ s.mvcc.activeSnapshots.toList, u.2.timestamp ≤ v.versionInfo.deletedAt)) =
        (some (some [.integer 7]), true) :=
    Option.map_eq_some_iff.mp (by with_unfolding_all decide)
  simp only [Prod.mk.injEq, decide_eq_true_eq] at hfacts
  obtain ⟨hread, hmarks⟩ := hfacts
  obtain ⟨S, hS, hread⟩ := Option.map_eq_some_iff.mp hread
  have hpinned := pinned_of_marks hmarks
  refine ⟨s, S, hs, hS, hpinned, ?_⟩
  obtain ⟨s₂, hrun, -, hsame⟩ := @vacuum_invisible s s []
    (Transition.reaches_of_runActions deletedLater .refl hs) rfl
  obtain rfl := Option.some.inj hrun
  rw [(hsame 2 S hS (Or.inr hpinned) "t").1 1, hread]

/-- A row whose deletion a reader does not see, as it was under way when the reader began. -/
def deletedBefore : List Op :=
  [.call .begin, .call (.insert 1 "t" 1 [.integer 7]), .call (.commit 1), .call .begin,
    .call (.delete 2 "t" 1), .call .begin, .call (.commit 2)]

/-- The vacuum takes the row from the reader. -/
theorem not_vacuum_invisible : ¬ ∀ s : Sys,
    Transition.Reaches (Transition.Via perform) (fun s _ => NoWrap s) init s →
    ∀ (t : TransactionId) (S : Snapshot), s.mvcc.activeSnapshots[t]? = some S →
      ∀ table key, s.vacuumed.mvcc.readVersion table key S = s.mvcc.readVersion table key S := by
  intro hall
  obtain ⟨s, hs, hread⟩ : ∃ s, Transition.runActions perform (fun s _ => NoWrap s) init
      deletedBefore = some s ∧
      (s.mvcc.activeSnapshots[3]?.map fun S =>
        (s.mvcc.readVersion "t" 1 S, s.vacuumed.mvcc.readVersion "t" 1 S)) =
        some (some [.integer 7], none) :=
    Option.map_eq_some_iff.mp (by with_unfolding_all decide)
  obtain ⟨S, hS, hread⟩ := Option.map_eq_some_iff.mp hread
  obtain ⟨hbefore, hafter⟩ := Prod.mk.inj hread
  have hsame := hall s (Transition.reaches_of_runActions deletedBefore .refl hs) 3 S hS "t" 1
  rw [hbefore, hafter] at hsame
  cases hsame

end Sys

end VelociDB.Mvcc
