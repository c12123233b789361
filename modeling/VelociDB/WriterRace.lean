/-
# Queries beside an auto-commit write (`storage.rs`, `executor.rs`)

`Database::execute` runs INSERT, UPDATE and DELETE in steps that queries can come between.
Writers are serialised by a mutex; a query takes a shared lock on its table:

    write   start    the writer mutex, `begin_group`, a transaction of its own
            lock     the exclusive lock on the table, or give up
            run      the body, which may fail halfway
            unlock   `release_all_locks`
            commit   `commit_group` succeeds
            fail     it fails, or the statement had: the tables are as before the statement
    query   start, lock, read, unlock

The lock is gone before the commit.  A query that reads the written table in between sees
rows that may never be committed; a query that does not, sees committed rows.
-/
import VelociDB.QuerySteps
import VelociDB.Lock

namespace VelociDB

open Multimap

namespace LockManager

/-- `release_lock` as one step. -/
def releaseLock (locks : LockTable) (resource : String) (txnId : TransactionId) : LockTable :=
  match releaseRetain locks resource txnId with
  | (locks, true) => locks.erase resource
  | (locks, false) => locks

/-- `release_all_locks` as one step. -/
def releaseAllLocks (locks : LockTable) (txnId : TransactionId) : LockTable :=
  locks.keys.foldl (fun locks resource => releaseLock locks resource txnId) locks

/-- A transaction has a lock of at least this strength. -/
def Holds (locks : LockTable) (resource : String) (t : TransactionId) (m : LockType) : Prop :=
  ∃ e ∈ locks[resource]?.getD [], e.txnId = t ∧ e.lockType.covers m = true

/-- Locks of different transactions go together. -/
def AllCompatible (locks : LockTable) : Prop := ∀ r : String, Compatible (locks[r]?.getD [])

variable {locks locks' : LockTable} {resource r : String} {t u : TransactionId} {m k : LockType}

theorem entries_releaseLock (locks : LockTable) (resource : String) (t : TransactionId) (r : String) :
    (releaseLock locks resource t)[r]?.getD [] =
      if r = resource then (locks[r]?.getD []).filter (fun e => e.txnId ≠ t)
      else locks[r]?.getD [] := by
  unfold releaseLock releaseRetain
  cases hentries : locks[resource]? with
  | none =>
      by_cases hr : r = resource
      · subst hr
        simp [hentries]
      · simp [hr]
  | some entries =>
      cases hempty : (entries.filter fun e => e.txnId ≠ t).isEmpty with
      | true =>
          have hnil := List.isEmpty_iff.mp hempty
          by_cases hr : r = resource
          · subst hr
            simp only [hentries, Option.getD_some, hnil, if_true]
            simp
          · have hne : resource ≠ r := fun h => hr h.symm
            simp only [hempty]
            simp [Std.ExtTreeMap.getElem?_erase, Std.ExtTreeMap.getElem?_insert, hne, hr]
      | false =>
          by_cases hr : r = resource
          · subst hr
            simp only [hempty]
            simp [hentries]
          · have hne : resource ≠ r := fun h => hr h.symm
            simp only [hempty]
            simp [Std.ExtTreeMap.getElem?_insert, hne, hr]

/-- A release takes away entries of its own transaction only. -/
theorem mem_foldl_releaseLock (t : TransactionId) (r : String) (e : LockEntry) :
    ∀ (keys : List String) (locks : LockTable),
      let locks' := keys.foldl (fun locks resource => releaseLock locks resource t) locks
      (e ∈ locks'[r]?.getD [] → e ∈ locks[r]?.getD []) ∧
        (e.txnId ≠ t → e ∈ locks[r]?.getD [] → e ∈ locks'[r]?.getD [])
  | [], _ => ⟨id, fun _ => id⟩
  | key :: keys, locks => by
      obtain ⟨hsub, hkeep⟩ := mem_foldl_releaseLock t r e keys (releaseLock locks key t)
      rw [entries_releaseLock] at hsub hkeep
      refine ⟨fun he => ?_, fun hne he => hkeep hne ?_⟩
      · have hmem := hsub he
        split at hmem
        · exact (List.mem_filter.mp hmem).1
        · exact hmem
      · split
        · exact List.mem_filter.mpr ⟨he, by simpa using hne⟩
        · exact he

theorem AllCompatible.releaseAll (h : AllCompatible locks) : AllCompatible (releaseAllLocks locks t) := by
  intro r e₁ h₁ e₂ h₂
  exact h r e₁ ((mem_foldl_releaseLock t r e₁ _ _).1 h₁) e₂ ((mem_foldl_releaseLock t r e₂ _ _).1 h₂)

theorem Holds.releaseAll (h : Holds locks r u m) (hne : u ≠ t) : Holds (releaseAllLocks locks t) r u m := by
  obtain ⟨e, he, rfl, hm⟩ := h
  exact ⟨e, (mem_foldl_releaseLock t r e _ _).2 hne he, rfl, hm⟩

/-- What a granted lock does to the table. -/
theorem acquire_ok (h : tryAcquireLockOnce locks resource t m = (.ok (), locks')) :
    ∃ entries', tryEntries (locks[resource]?.getD []) t m (locks[resource]?.getD []) = .ok entries' ∧
      ∀ r : String, locks'[r]?.getD [] = if r = resource then entries' else locks[r]?.getD [] := by
  unfold tryAcquireLockOnce at h
  dsimp only at h
  cases hx : tryEntries (locks[resource]?.getD []) t m (locks[resource]?.getD []) with
  | error e =>
      rw [hx] at h
      cases (Prod.mk.inj h).1
  | ok entries' =>
      rw [hx] at h
      obtain ⟨-, rfl⟩ := Prod.mk.inj h
      refine ⟨entries', rfl, fun r => ?_⟩
      by_cases hr : r = resource
      · simp [hr]
      · have hne : resource ≠ r := fun h => hr h.symm
        simp [Std.ExtTreeMap.getElem?_insert, hne, hr]

theorem AllCompatible.acquire (h : AllCompatible locks)
    (hx : tryAcquireLockOnce locks resource t m = (.ok (), locks')) : AllCompatible locks' := by
  obtain ⟨entries', hok, hset⟩ := acquire_ok hx
  intro r
  rw [hset r]
  split
  · exact compatible_of_ok (h resource) hok
  · exact h r

theorem Holds.acquire (h : Holds locks r u k)
    (hx : tryAcquireLockOnce locks resource t m = (.ok (), locks')) : Holds locks' r u k := by
  obtain ⟨entries', hok, hset⟩ := acquire_ok hx
  unfold Holds
  rw [hset r]
  split
  · rename_i hr
    subst hr
    exact covers_mono_of_ok hok h
  · exact h

theorem holds_of_acquire (hx : tryAcquireLockOnce locks resource t m = (.ok (), locks')) :
    Holds locks' resource t m := by
  obtain ⟨entries', hok, hset⟩ := acquire_ok hx
  unfold Holds
  rw [hset resource, if_pos rfl]
  exact covers_of_ok hok

/-- Nobody shares a table with an exclusive lock. -/
theorem AllCompatible.eq_of_exclusive (h : AllCompatible locks) (ht : Holds locks r t .exclusive)
    (hu : Holds locks r u .shared) : u = t := by
  obtain ⟨e, he, rfl, hexcl⟩ := ht
  obtain ⟨e', he', rfl, -⟩ := hu
  by_contra hne
  have hshared := (h r e' he' e he hne).2
  rw [hshared] at hexcl
  cases hexcl

end LockManager

/-! ## Writers and readers -/

/-- The table of an INSERT, UPDATE or DELETE. -/
def Statement.writes : Statement → Option String
  | .insert table _ _ | .update table _ _ | .delete table _ => some table
  | _ => none

/-- One of them, and the transaction it runs in. -/
structure WriteCall where
  stmt : Statement
  table : String
  txn : TransactionId

/-- Where the writer is; `ok` tells whether its body succeeded. -/
inductive WriterPhase where
  | idle
  | waiting (c : WriteCall)
  | locked (c : WriteCall)
  | refused
  | ran (c : WriteCall) (ok : Bool)
  | unlocked (c : WriteCall) (ok : Bool)

/-- Where a reader is. -/
inductive ReaderPhase where
  | idle
  | waiting (q : SelectQuery) (txn : TransactionId)
  | locked (q : SelectQuery) (txn : TransactionId)
  | read (q : SelectQuery) (txn : TransactionId) (result : Except Fault QueryResult)
  | done (q : SelectQuery) (result : Except Fault QueryResult)

namespace WriterPhase

/-- The table that may differ from the committed one. -/
def dirty : WriterPhase → Option String
  | .ran c _ | .unlocked c _ => some c.table
  | _ => none

/-- The transaction that is running. -/
def txn? : WriterPhase → Option TransactionId
  | .waiting c | .locked c | .ran c _ => some c.txn
  | _ => none

/-- The lock that is held. -/
def lock? : WriterPhase → Option (String × TransactionId)
  | .locked c | .ran c _ => some (c.table, c.txn)
  | _ => none

end WriterPhase

namespace ReaderPhase

/-- The transaction that is running. -/
def txn? : ReaderPhase → Option TransactionId
  | .waiting _ t | .locked _ t | .read _ t _ => some t
  | _ => none

/-- The lock that is held. -/
def lock? : ReaderPhase → Option (String × TransactionId)
  | .locked q t | .read q t _ => some (q.table, t)
  | _ => none

/-- What the query found. -/
def answer? : ReaderPhase → Option (SelectQuery × Except Fault QueryResult)
  | .read q _ r | .done q r => some (q, r)
  | _ => none

end ReaderPhase

/-- The tables in memory, the states that were committed (newest first), the locks, the
writer and the readers. -/
structure WriterRace where
  tables : Tables RowMap
  committed : List (Tables RowMap)
  locks : LockTable
  nextTxnId : TransactionId
  writer : WriterPhase
  readers : Nat → ReaderPhase

namespace WriterRace

/-- Whose turn it is. -/
inductive Act where
  | startQuery (i : Nat) (q : SelectQuery)
  | lockQuery (i : Nat)
  | refuseQuery (i : Nat)
  | read (i : Nat)
  | unlockQuery (i : Nat)
  | start (stmt : Statement)
  | lock
  | refuse
  | run
  | runFails (es : RowMap)
  | unlock
  | commit
  | fail

variable (ext : Externals) (vec : VectorFns)

/-- The steps.  A body that fails may leave any rows in its table. -/
inductive Step : WriterRace → Act → WriterRace → Prop
  | startQuery {s : WriterRace} {i : Nat} {q : SelectQuery} : (s.readers i).txn? = none →
      Step s (.startQuery i q) { s with
        nextTxnId := (s.nextTxnId + 1) % u64Size
        readers := Function.update s.readers i (.waiting q s.nextTxnId) }
  | lockQuery {s : WriterRace} {i : Nat} {q : SelectQuery} {t : TransactionId} {locks : LockTable} :
      s.readers i = .waiting q t →
      LockManager.tryAcquireLockOnce s.locks q.table t .shared = (.ok (), locks) →
      Step s (.lockQuery i) { s with
        locks := locks
        readers := Function.update s.readers i (.locked q t) }
  | refuseQuery {s : WriterRace} {i : Nat} {q : SelectQuery} {t : TransactionId} :
      s.readers i = .waiting q t →
      Step s (.refuseQuery i) { s with readers := Function.update s.readers i .idle }
  | read {s : WriterRace} {i : Nat} {q : SelectQuery} {t : TransactionId} :
      s.readers i = .locked q t →
      Step s (.read i) { s with
        readers := Function.update s.readers i (.read q t (q.run ext vec s.tables)) }
  | unlockQuery {s : WriterRace} {i : Nat} {q : SelectQuery} {t : TransactionId}
      {r : Except Fault QueryResult} : s.readers i = .read q t r →
      Step s (.unlockQuery i) { s with
        locks := LockManager.releaseAllLocks s.locks t
        readers := Function.update s.readers i (.done q r) }
  | start {s : WriterRace} {stmt : Statement} {table : String} : s.writer = .idle →
      stmt.writes = some table →
      Step s (.start stmt) { s with
        nextTxnId := (s.nextTxnId + 1) % u64Size
        writer := .waiting ⟨stmt, table, s.nextTxnId⟩ }
  | lock {s : WriterRace} {c : WriteCall} {locks : LockTable} : s.writer = .waiting c →
      LockManager.tryAcquireLockOnce s.locks c.table c.txn .exclusive = (.ok (), locks) →
      Step s .lock { s with locks := locks, writer := .locked c }
  | refuse {s : WriterRace} {c : WriteCall} : s.writer = .waiting c →
      Step s .refuse { s with writer := .refused }
  | run {s : WriterRace} {c : WriteCall} {tables : Tables RowMap} {changes : List StagedChange} :
      s.writer = .locked c → c.stmt.writes = some c.table →
      executeStatement ext multimaps s.tables c.stmt = .ok (tables, changes) →
      Step s .run { s with tables := tables, writer := .ran c true }
  | runFails {s : WriterRace} {c : WriteCall} {es : RowMap} : s.writer = .locked c →
      Step s (.runFails es) { s with
        tables := ⟨s.tables.schema, s.tables.btrees.insert c.table es⟩
        writer := .ran c false }
  | unlock {s : WriterRace} {c : WriteCall} {ok : Bool} : s.writer = .ran c ok →
      Step s .unlock { s with
        locks := LockManager.releaseAllLocks s.locks c.txn
        writer := .unlocked c ok }
  | commit {s : WriterRace} {c : WriteCall} : s.writer = .unlocked c true →
      Step s .commit { s with committed := s.tables :: s.committed, writer := .idle }
  | fail {s : WriterRace} {db : Tables RowMap} {older : List (Tables RowMap)} :
      (s.writer = .refused ∨ ∃ c ok, s.writer = .unlocked c ok) → s.committed = db :: older →
      Step s .fail { s with tables := db, writer := .idle }

/-- A database at rest. -/
def init (db : Tables RowMap) : WriterRace := ⟨db, [db], ∅, 1, .idle, fun _ => .idle⟩

/-- No query reads the written table after the writer has given up its lock and before it
has committed or failed; and the transaction ids do not wrap. -/
def Unread (s : WriterRace) : Act → Prop
  | .read i => ∀ q t c ok, s.readers i = .locked q t → s.writer = .unlocked c ok → c.table ≠ q.table
  | .startQuery _ _ | .start _ => s.nextTxnId + 1 < u64Size
  | _ => True

variable {ext vec} {s s' : WriterRace} {a : Act} {db : Tables RowMap}

/-- A body changes the rows of its own table. -/
theorem executeStatement_writes {stmt : Statement} {table : String} {db' : Tables RowMap}
    {changes : List StagedChange} (hw : stmt.writes = some table)
    (hx : executeStatement ext multimaps db stmt = .ok (db', changes)) :
    ∃ es, db' = ⟨db.schema, db.btrees.insert table es⟩ := by
  cases stmt with
  | createTable | dropTable | alterTable => cases hw
  | insert tb columns values =>
      obtain rfl := Option.some.inj hw
      obtain ⟨ts, es, pk, key, hi⟩ := executeInsert_ok hx
      exact ⟨_, hi.result⟩
  | update tb assignments clause =>
      obtain rfl := Option.some.inj hw
      obtain ⟨ts, es, pkIndex, rows, us, hu⟩ := executeUpdate_ok hx
      exact ⟨_, hu.result⟩
  | delete tb clause =>
      obtain rfl := Option.some.inj hw
      obtain ⟨ts, es, rows, -, -, -, hdb, -⟩ := executeDelete_ok hx
      exact ⟨_, hdb⟩

/-- Locks and transactions. -/
structure Locked (s : WriterRace) : Prop where
  compatible : LockManager.AllCompatible s.locks
  writer : ∀ table t, s.writer.lock? = some (table, t) →
    LockManager.Holds s.locks table t .exclusive
  readers : ∀ i table t, (s.readers i).lock? = some (table, t) →
    LockManager.Holds s.locks table t .shared
  apart : ∀ i t, (s.readers i).txn? = some t → s.writer.txn? ≠ some t
  distinct : ∀ i j t, (s.readers i).txn? = some t → (s.readers j).txn? = some t → i = j
  used : (∀ t, s.writer.txn? = some t → t < s.nextTxnId) ∧
    ∀ i t, (s.readers i).txn? = some t → t < s.nextTxnId

/-- The tables in memory are the committed ones but for the table being written, and every
answer comes from a committed state. -/
structure Inv (ext : Externals) (vec : VectorFns) (s : WriterRace) : Prop extends Locked s where
  clean : ∃ db older, s.committed = db :: older ∧ s.tables.schema = db.schema ∧
    ∀ name, s.writer.dirty ≠ some name → s.tables.btrees[name]? = db.btrees[name]?
  answers : ∀ i q r, (s.readers i).answer? = some (q, r) →
    ∃ db ∈ s.committed, r = q.run ext vec db

theorem inv_init : Inv ext vec (init db) where
  compatible r := by simp [init, LockManager.Compatible]
  writer _ _ h := by cases h
  readers _ _ _ h := by cases h
  apart _ _ h := by cases h
  distinct _ _ _ h := by cases h
  used := ⟨fun _ h => (by cases h), fun _ _ h => by cases h⟩
  clean := ⟨db, [], rfl, rfl, fun _ _ => rfl⟩
  answers _ _ _ h := by cases h

theorem ReaderPhase.txn_of_lock {pc : ReaderPhase} {table : String} {t : TransactionId}
    (h : pc.lock? = some (table, t)) : pc.txn? = some t := by
  cases pc with
  | idle | waiting | done => cases h
  | locked q t' | read q t' r =>
      obtain ⟨-, rfl⟩ := Prod.mk.inj (Option.some.inj h)
      rfl

theorem WriterPhase.txn_of_lock {pc : WriterPhase} {table : String} {t : TransactionId}
    (h : pc.lock? = some (table, t)) : pc.txn? = some t := by
  cases pc with
  | idle | waiting | refused | unlocked => cases h
  | locked c | ran c ok =>
      obtain ⟨-, rfl⟩ := Prod.mk.inj (Option.some.inj h)
      rfl

/-- One reader moves on in its transaction or ends it; nobody else loses a lock. -/
theorem Locked.reader (h : Locked s) {i : Nat} {pc : ReaderPhase} {locks : LockTable}
    (htxn : ∀ t, pc.txn? = some t → (s.readers i).txn? = some t)
    (hc : LockManager.AllCompatible locks)
    (hkeep : ∀ table t m, LockManager.Holds s.locks table t m → (s.readers i).txn? ≠ some t →
      LockManager.Holds locks table t m)
    (hown : ∀ table t, pc.lock? = some (table, t) → LockManager.Holds locks table t .shared) :
    Locked { s with locks := locks, readers := Function.update s.readers i pc } := by
  have hsame : ∀ j t, (Function.update s.readers i pc j).txn? = some t →
      (s.readers j).txn? = some t := by
    intro j t ht
    by_cases hj : j = i
    · subst hj
      rw [Function.update_self] at ht
      exact htxn t ht
    · rwa [Function.update_of_ne hj] at ht
  refine ⟨hc, fun table t hl => ?_, fun j table t hl => ?_, fun j t ht => h.apart j t (hsame j t ht),
    fun j k t hj hk => h.distinct j k t (hsame j t hj) (hsame k t hk),
    h.used.1, fun j t ht => h.used.2 j t (hsame j t ht)⟩
  · refine hkeep table t _ (h.writer table t hl) fun ht => ?_
    exact h.apart i t ht (WriterPhase.txn_of_lock hl)
  · dsimp only at hl
    by_cases hj : j = i
    · subst hj
      rw [Function.update_self] at hl
      exact hown table t hl
    · rw [Function.update_of_ne hj] at hl
      refine hkeep table t _ (h.readers j table t hl) fun ht => ?_
      exact hj (h.distinct j i t (ReaderPhase.txn_of_lock hl) ht)

/-- The same for the writer. -/
theorem Locked.writes (h : Locked s) {pc : WriterPhase} {locks : LockTable}
    {tables : Tables RowMap} {committed : List (Tables RowMap)}
    (htxn : ∀ t, pc.txn? = some t → s.writer.txn? = some t)
    (hc : LockManager.AllCompatible locks)
    (hkeep : ∀ table t m, LockManager.Holds s.locks table t m → s.writer.txn? ≠ some t →
      LockManager.Holds locks table t m)
    (hown : ∀ table t, pc.lock? = some (table, t) → LockManager.Holds locks table t .exclusive) :
    Locked { s with tables := tables, committed := committed, locks := locks, writer := pc } := by
  refine ⟨hc, hown, fun j table t hl => ?_, fun j t ht hw => h.apart j t ht (htxn t hw), h.distinct,
    fun t ht => h.used.1 t (htxn t ht), h.used.2⟩
  exact hkeep table t _ (h.readers j table t hl) (h.apart j t (ReaderPhase.txn_of_lock hl))

theorem Locked.startQuery (h : Locked s) {i : Nat} {q : SelectQuery} :
    Locked { s with
      nextTxnId := s.nextTxnId + 1
      readers := Function.update s.readers i (.waiting q s.nextTxnId) } := by
  have hcases : ∀ j t, (Function.update s.readers i (.waiting q s.nextTxnId) j).txn? = some t →
      (j = i ∧ t = s.nextTxnId) ∨ (j ≠ i ∧ (s.readers j).txn? = some t) := by
    intro j t ht
    by_cases hj : j = i
    · subst hj
      rw [Function.update_self] at ht
      exact Or.inl ⟨rfl, (Option.some.inj ht).symm⟩
    · rw [Function.update_of_ne hj] at ht
      exact Or.inr ⟨hj, ht⟩
  refine ⟨h.compatible, h.writer, fun j table t hl => ?_, fun j t ht => ?_, fun j k t hj hk => ?_,
    fun t ht => (h.used.1 t ht).trans (Nat.lt_succ_self _), fun j t ht => ?_⟩
  · dsimp only at hl
    by_cases hj : j = i
    · subst hj
      rw [Function.update_self] at hl
      cases hl
    · rw [Function.update_of_ne hj] at hl
      exact h.readers j table t hl
  · rcases hcases j t ht with ⟨-, rfl⟩ | ⟨-, ht⟩
    · exact fun hw => Nat.lt_irrefl _ (h.used.1 _ hw)
    · exact h.apart j t ht
  · rcases hcases j t hj with ⟨rfl, rfl⟩ | ⟨-, hold⟩
    · rcases hcases k _ hk with ⟨rfl, -⟩ | ⟨-, hold⟩
      · rfl
      · exact absurd (h.used.2 k _ hold) (Nat.lt_irrefl _)
    · rcases hcases k t hk with ⟨rfl, rfl⟩ | ⟨-, hold'⟩
      · exact absurd (h.used.2 j _ hold) (Nat.lt_irrefl _)
      · exact h.distinct j k t hold hold'
  · rcases hcases j t ht with ⟨-, rfl⟩ | ⟨-, ht⟩
    · exact Nat.lt_succ_self _
    · exact (h.used.2 j t ht).trans (Nat.lt_succ_self _)

theorem Locked.start (h : Locked s) {stmt : Statement} {table : String} :
    Locked { s with
      nextTxnId := s.nextTxnId + 1
      writer := .waiting ⟨stmt, table, s.nextTxnId⟩ } := by
  refine ⟨h.compatible, fun _ _ hl => (by cases hl), h.readers, fun j t ht hw => ?_, h.distinct,
    fun t ht => ?_, fun j t ht => (h.used.2 j t ht).trans (Nat.lt_succ_self _)⟩
  · obtain rfl := Option.some.inj hw
    exact Nat.lt_irrefl _ (h.used.2 j _ ht)
  · obtain rfl := Option.some.inj ht
    exact Nat.lt_succ_self _

/-- A reader moves on, and what it now answers was read from a committed state. -/
theorem Inv.reader (h : Inv ext vec s) {i : Nat} {pc : ReaderPhase} {locks : LockTable}
    {n : TransactionId}
    (hlocked : Locked { s with
      locks := locks, nextTxnId := n, readers := Function.update s.readers i pc })
    (hanswer : ∀ q r, pc.answer? = some (q, r) → ∃ db ∈ s.committed, r = q.run ext vec db) :
    Inv ext vec { s with
      locks := locks, nextTxnId := n, readers := Function.update s.readers i pc } := by
  refine ⟨hlocked, h.clean, fun j q r hr => ?_⟩
  dsimp only at hr
  by_cases hj : j = i
  · subst hj
    rw [Function.update_self] at hr
    exact hanswer q r hr
  · rw [Function.update_of_ne hj] at hr
    exact h.answers j q r hr

/-- The body has changed the rows of its table. -/
theorem Inv.clean_insert (h : Inv ext vec s) {c : WriteCall} {es : RowMap} {pc : WriterPhase}
    (hw : s.writer = .locked c) (hpc : pc.dirty = some c.table) :
    ∃ db older, s.committed = db :: older ∧ s.tables.schema = db.schema ∧
      ∀ name, pc.dirty ≠ some name → (s.tables.btrees.insert c.table es)[name]? = db.btrees[name]? := by
  obtain ⟨db, older, hcommitted, hschema, hrows⟩ := h.clean
  refine ⟨db, older, hcommitted, hschema, fun name hname => ?_⟩
  have hne : c.table ≠ name := fun heq => hname (hpc.trans (congrArg some heq))
  rw [Std.ExtTreeMap.getElem?_insert, if_neg (by simpa using hne)]
  refine hrows name ?_
  rw [hw]
  exact nofun

/-- Away from the table being written, a query reads committed rows. -/
theorem Inv.run_committed (h : Inv ext vec s) {q : SelectQuery} (hq : s.writer.dirty ≠ some q.table) :
    ∃ db ∈ s.committed, q.run ext vec s.tables = q.run ext vec db := by
  obtain ⟨db, older, hcommitted, hschema, hrows⟩ := h.clean
  refine ⟨db, by rw [hcommitted]; exact List.mem_cons_self, ?_⟩
  exact SelectQuery.run_congr (by rw [hschema]) (hrows q.table hq)

theorem Inv.step (h : Inv ext vec s) (hok : Unread s a) (hx : Step ext vec s a s') :
    Inv ext vec s' := by
  cases hx with
  | @startQuery i q _ =>
      rw [Nat.mod_eq_of_lt hok]
      exact h.reader h.toLocked.startQuery fun _ _ hr => by cases hr
  | @lockQuery i q t locks hi hlock =>
      refine h.reader (h.toLocked.reader (fun _ ht => ?_) (h.compatible.acquire hlock)
        (fun _ _ _ hold _ => hold.acquire hlock) fun table t' hl => ?_) fun _ _ hr => by cases hr
      · rw [hi]
        exact ht
      · obtain ⟨rfl, rfl⟩ := Prod.mk.inj (Option.some.inj hl)
        exact LockManager.holds_of_acquire hlock
  | @refuseQuery i q t hi =>
      exact h.reader (h.toLocked.reader (fun _ ht => (by cases ht)) h.compatible
        (fun _ _ _ hold _ => hold) fun _ _ hl => (by cases hl)) fun _ _ hr => by cases hr
  | @read i q t hi =>
      -- the reader's lock keeps a writer of the same table out
      have hclean : s.writer.dirty ≠ some q.table := by
        intro hdirty
        have hmine : LockManager.Holds s.locks q.table t .shared := h.readers i _ _ (by rw [hi]; rfl)
        cases hw : s.writer with
        | idle | waiting | locked | refused =>
            rw [hw] at hdirty
            cases hdirty
        | ran c ok =>
            rw [hw] at hdirty
            have htable : c.table = q.table := Option.some.inj hdirty
            have hhis := h.writer c.table c.txn (by rw [hw]; rfl)
            rw [htable] at hhis
            obtain rfl := h.compatible.eq_of_exclusive hhis hmine
            exact h.apart i _ (by rw [hi]; rfl) (by rw [hw]; rfl)
        | unlocked c ok =>
            rw [hw] at hdirty
            exact hok q t c ok hi hw (Option.some.inj hdirty)
      refine h.reader (h.toLocked.reader (fun _ ht => ?_) h.compatible (fun _ _ _ hold _ => hold)
        fun table t' hl => ?_) fun q' r hr => ?_
      · rw [hi]
        exact ht
      · refine h.readers i table t' ?_
        rw [hi]
        exact hl
      · obtain ⟨rfl, rfl⟩ := Prod.mk.inj (Option.some.inj hr)
        exact h.run_committed hclean
  | @unlockQuery i q t r hi =>
      refine h.reader (h.toLocked.reader (fun _ ht => (by cases ht)) h.compatible.releaseAll
        (fun table u m hold hne => hold.releaseAll fun heq => hne ?_) fun _ _ hl => (by cases hl))
        fun q' r' hr => ?_
      · rw [hi, heq]
        rfl
      · refine h.answers i q' r' ?_
        rw [hi]
        exact hr
  | @start stmt table hidle hw =>
      rw [Nat.mod_eq_of_lt hok]
      refine ⟨h.toLocked.start, ?_, h.answers⟩
      have hclean := h.clean
      rw [hidle] at hclean
      exact hclean
  | @lock c locks hw hlock =>
      refine ⟨h.toLocked.writes (fun _ ht => ?_) (h.compatible.acquire hlock)
        (fun _ _ _ hold _ => hold.acquire hlock) fun table t hl => ?_, ?_, h.answers⟩
      · rw [hw]
        exact ht
      · obtain ⟨rfl, rfl⟩ := Prod.mk.inj (Option.some.inj hl)
        exact LockManager.holds_of_acquire hlock
      · have hclean := h.clean
        rw [hw] at hclean
        exact hclean
  | @refuse c hw =>
      refine ⟨h.toLocked.writes (fun _ ht => (by cases ht)) h.compatible (fun _ _ _ hold _ => hold)
        fun _ _ hl => (by cases hl), ?_, h.answers⟩
      have hclean := h.clean
      rw [hw] at hclean
      exact hclean
  | @run c tables changes hw hwrites hx =>
      refine ⟨h.toLocked.writes (fun _ ht => ?_) h.compatible (fun _ _ _ hold _ => hold)
        fun table t hl => ?_, ?_, h.answers⟩
      · rw [hw]
        exact ht
      · refine h.writer table t ?_
        rw [hw]
        exact hl
      · obtain ⟨es, rfl⟩ := executeStatement_writes hwrites hx
        exact h.clean_insert hw rfl
  | @runFails c es hw =>
      refine ⟨h.toLocked.writes (fun _ ht => ?_) h.compatible (fun _ _ _ hold _ => hold)
        fun table t hl => ?_, h.clean_insert hw rfl, h.answers⟩
      · rw [hw]
        exact ht
      · refine h.writer table t ?_
        rw [hw]
        exact hl
  | @unlock c ok hw =>
      refine ⟨h.toLocked.writes (fun _ ht => (by cases ht)) h.compatible.releaseAll
        (fun table u m hold hne => hold.releaseAll fun heq => hne ?_) fun _ _ hl => (by cases hl),
        ?_, h.answers⟩
      · rw [hw, heq]
        rfl
      · have hclean := h.clean
        rw [hw] at hclean
        exact hclean
  | @commit c hw =>
      refine ⟨h.toLocked.writes (fun _ ht => (by cases ht)) h.compatible (fun _ _ _ hold _ => hold)
        fun _ _ hl => (by cases hl), ⟨s.tables, s.committed, rfl, rfl, fun _ _ => rfl⟩,
        fun i q r hr => ?_⟩
      obtain ⟨db, hdb, heq⟩ := h.answers i q r hr
      exact ⟨db, List.mem_cons_of_mem _ hdb, heq⟩
  | @fail db older hw hcommitted =>
      exact ⟨h.toLocked.writes (fun _ ht => (by cases ht)) h.compatible (fun _ _ _ hold _ => hold)
        fun _ _ hl => (by cases hl), ⟨db, older, hcommitted, rfl, fun _ _ => rfl⟩, h.answers⟩

/-- In every run in which no query reads a written table between the writer's unlock and its
commit or failure, every query answers from a committed state. -/
theorem readers_see_committed
    (hs : Transition.Reaches (Step ext vec) Unread (init db) s) {i : Nat} {q : SelectQuery}
    {result : Except Fault QueryResult} (hdone : s.readers i = .done q result) :
    ∃ db ∈ s.committed, result = q.run ext vec db := by
  have hinv : Inv ext vec s :=
    Transition.Reaches.invariant inv_init (fun _ _ _ h hok hx => h.step hok hx) hs
  refine hinv.answers i q result ?_
  rw [hdone]
  rfl

/-- `INSERT INTO t VALUES (2)`. -/
def insertTwo : Statement := .insert "t" none [.integer 2]

theorem acquire_free {r : String} {t : TransactionId} {m : LockType} :
    LockManager.tryAcquireLockOnce ∅ r t m = (.ok (), Std.ExtTreeMap.insert ∅ r [⟨t, m⟩]) := by
  simp [LockManager.tryAcquireLockOnce, LockManager.tryEntries]

theorem exists_acquire {locks : LockTable} {r : String} {t : TransactionId} {m : LockType}
    (h : (LockManager.tryAcquireLockOnce locks r t m).1.isOk = true) :
    ∃ locks', LockManager.tryAcquireLockOnce locks r t m = (.ok (), locks') := by
  cases hx : LockManager.tryAcquireLockOnce locks r t m with
  | mk answer locks' =>
      rw [hx] at h
      cases answer with
      | error e => cases h
      | ok u => exact ⟨locks', rfl⟩

/-- A query that reads while an INSERT waits for its lock. -/
theorem readers_see_committed_alone : ∃ s, Transition.Reaches (Step mute noVectors) Unread
    (init oneRow) s ∧ ∃ result, s.readers 0 = .done selectAll result ∧
      (∃ c, s.writer = .waiting c) ∧ ∃ db ∈ s.committed, result = selectAll.run mute noVectors db := by
  have h₁ : Transition.Reaches (Step mute noVectors) Unread (init oneRow) _ :=
    .tail (a := .startQuery 0 selectAll) .refl (by decide : _ < u64Size) (.startQuery rfl)
  have h₂ := h₁.tail (a := Act.lockQuery 0) trivial
    (.lockQuery rfl acquire_free)
  have h₃ := h₂.tail (a := Act.start insertTwo) (by decide : _ < u64Size) (.start rfl rfl)
  have h₄ := h₃.tail (a := Act.read 0) (fun _ _ _ _ _ h => by cases h)
    (.read rfl)
  have h₅ := h₄.tail (a := Act.unlockQuery 0) trivial (.unlockQuery rfl)
  refine ⟨_, h₅, selectAll.run mute noVectors oneRow, rfl, ⟨_, rfl⟩, ?_⟩
  exact readers_see_committed (i := 0) (q := selectAll) h₅ rfl

/-- A query that reads between the unlock and a commit that fails. -/
theorem not_readers_see_committed : ¬ ∀ (s : WriterRace) (i : Nat) (q : SelectQuery)
    (result : Except Fault QueryResult),
    Transition.Reaches (Step mute noVectors) Transition.Any (init oneRow) s →
    s.readers i = .done q result → ∃ db ∈ s.committed, result = q.run mute noVectors db := by
  intro hall
  obtain ⟨⟨tables, changes⟩, hrun⟩ :=
    exists_ok_of_isOk (x := executeStatement mute multimaps oneRow insertTwo) (by with_unfolding_all decide)
  have h₁ : Transition.Reaches (Step mute noVectors) Transition.Any (init oneRow) _ :=
    .tail (a := .start insertTwo) .refl trivial (.start rfl rfl)
  have h₂ := h₁.tail (a := Act.lock) trivial (.lock rfl acquire_free)
  have h₃ := h₂.tail (a := Act.run) trivial (.run rfl rfl hrun)
  have h₄ := h₃.tail (a := Act.unlock) trivial (.unlock rfl)
  have h₅ := h₄.tail (a := Act.startQuery 0 selectAll) trivial (.startQuery rfl)
  obtain ⟨locks, hlock⟩ : ∃ locks, LockManager.tryAcquireLockOnce (LockManager.releaseAllLocks
      (Std.ExtTreeMap.insert ∅ "t" [⟨1, .exclusive⟩]) 1) "t" 2 .shared = (.ok (), locks) :=
    exists_acquire (by with_unfolding_all decide)
  have h₆ := h₅.tail (a := Act.lockQuery 0) trivial (.lockQuery rfl hlock)
  have h₇ := h₆.tail (a := Act.read 0) trivial (.read rfl)
  have h₈ := h₇.tail (a := Act.unlockQuery 0) trivial (.unlockQuery rfl)
  have h₉ := h₈.tail (a := Act.fail) trivial (.fail (Or.inr ⟨_, _, rfl⟩) rfl)
  obtain ⟨db, hdb, heq⟩ := hall _ 0 selectAll _ h₉ rfl
  obtain rfl := List.mem_singleton.mp hdb
  have hcounts : ((executeStatement mute multimaps oneRow insertTwo).toOption.bind fun r =>
      (selectAll.run mute noVectors r.1).toOption.map fun r => r.rows.length) = some 2 ∧
      ((selectAll.run mute noVectors oneRow).toOption.map fun r => r.rows.length) = some 1 := by
    with_unfolding_all decide
  rw [hrun] at hcounts
  have htwo : ((selectAll.run mute noVectors tables).toOption.map fun r => r.rows.length) = some 2 :=
    hcounts.1
  rw [show selectAll.run mute noVectors tables = selectAll.run mute noVectors oneRow from heq,
    hcounts.2] at htwo
  cases htwo

end WriterRace

end VelociDB
