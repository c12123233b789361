/-
# Statements and explicit transactions (`executor.rs`, `transaction.rs`)

`Executor::with_table_lock`, `begin_transaction`, `commit_transaction` and
`rollback_transaction`, run by any number of threads over one lock manager and one
`TransactionManager`.  A thread is the program counter of one call; its steps are
the atomic ones the guards make:

    explicit branch   the read guard on `active_transaction` is a temporary of the
                      `if let`, so it lives to the end of the branch: acquire and
                      body run with it held
    otherwise         begin, each acquire attempt, body, end of the transaction,
                      the key collection of `release_all_locks`, each `retain` and
                      each `remove` are steps of their own
    BEGIN             one step under the write guard
    COMMIT, ROLLBACK  hold the write guard from `take()` to the last release step

A body is opaque here: it ends in success or failure.  An acquire attempt that is
`Busy` either retries or times out.

`no_leaks` is the result: once every call has returned and no explicit transaction
is open, no lock entry is left for any table and no transaction is active.  The
invariant behind it names, for every lock entry and for every active transaction,
who will remove it.  Transaction ids are `u64` and wrap; nothing below needs them
to be distinct.
-/
import VelociDB.Lock

namespace VelociDB

open Transition

/-- `TransactionState`. -/
inductive TransactionState where
  | active
  | committed
  | aborted
  deriving DecidableEq, Repr

/-- `Transaction`: the id and the atomic state. -/
structure Transaction where
  id : TransactionId
  state : TransactionState
  deriving DecidableEq, Repr

/-- `TransactionManager`: the id counter and the map of active transactions. -/
structure TransactionManager where
  nextTxnId : TransactionId
  active : Std.ExtTreeMap TransactionId Transaction

namespace TransactionManager

/-- `TransactionManager::new`. -/
def new : TransactionManager := ⟨1, ∅⟩

/-- `begin`: `fetch_add` wraps. -/
def begin (tm : TransactionManager) : Transaction × TransactionManager :=
  let txn : Transaction := ⟨tm.nextTxnId, .active⟩
  (txn, ⟨(tm.nextTxnId + 1) % u64Size, tm.active.insert txn.id txn⟩)

/-- The text of the error of `Transaction::commit` and `Transaction::abort`. -/
def notActive (state : TransactionState) : VelociError :=
  .transactionError <| "Transaction is not active, current state: " ++
    match state with
    | .active => "Active"
    | .committed => "Committed"
    | .aborted => "Aborted"

/-- The common body of `commit` and `abort`: the compare-exchange on the state
must find `Active`, then the id leaves the map. -/
def finish (tm : TransactionManager) (txn : Transaction) :
    Except VelociError Unit × TransactionManager :=
  match txn.state with
  | .active => (.ok (), { tm with active := tm.active.erase txn.id })
  | state => (.error (notActive state), tm)

/-- `commit`. -/
def commit (tm : TransactionManager) (txn : Transaction) :
    Except VelociError Unit × TransactionManager := tm.finish txn

/-- `abort`. -/
def abort (tm : TransactionManager) (txn : Transaction) :
    Except VelociError Unit × TransactionManager := tm.finish txn

/-- `active_count`. -/
def activeCount (tm : TransactionManager) : Nat := tm.active.size

end TransactionManager

/-! ## The threads -/

/-- The program counter of one call.  `returned` is a call that is over. -/
inductive CallPc where
  | returned
  /-- `with_table_lock`, before it reads `active_transaction`. -/
  | enter (table : String) (lock : LockType)
  /-- Explicit branch, read guard held, before an acquire attempt. -/
  | explicitAcquire (txnId : TransactionId) (table : String) (lock : LockType)
  /-- Explicit branch, read guard held, before `f()`. -/
  | explicitBody
  /-- No explicit transaction seen, before `transaction_manager.begin()`. -/
  | autoBegin (table : String) (lock : LockType)
  | autoAcquire (txn : Transaction) (table : String) (lock : LockType)
  /-- The acquire failed, before `transaction_manager.abort`. -/
  | autoTimedOut (txn : Transaction)
  | autoBody (txn : Transaction)
  /-- `f()` returned, before `commit` or `abort`. -/
  | autoEnd (txn : Transaction) (ok : Bool)
  /-- Before `release_all_locks`. -/
  | autoRelease (txnId : TransactionId)
  /-- `begin_transaction`, before the write guard. -/
  | beginTxn
  /-- `commit_transaction` or `rollback_transaction`, before the write guard. -/
  | endTxn (commit : Bool)
  /-- Write guard held, the transaction taken out. -/
  | endHeld (commit : Bool) (txn : Transaction)
  /-- Write guard held, before `release_all_locks`. -/
  | endRelease (txnId : TransactionId)
  /-- The key loop of `release_all_locks`; `guard` tells whether the write guard
  is held around it. -/
  | release (guard : Bool) (txnId : TransactionId) (keys : List String)
  /-- Past a `retain` that emptied `resource`, before `locks.remove`. -/
  | remove (guard : Bool) (txnId : TransactionId) (resource : String) (keys : List String)
  deriving DecidableEq, Repr

namespace CallPc

/-- The thread holds a read guard on `active_transaction`. -/
def holdsRead : CallPc → Bool
  | .explicitAcquire .. | .explicitBody => true
  | _ => false

/-- The thread holds the write guard on `active_transaction`. -/
def holdsWrite : CallPc → Bool
  | .endHeld .. | .endRelease .. => true
  | .release guard .. | .remove guard .. => guard
  | _ => false

/-- The thread will remove every entry of `txnId` on `resource`. -/
def owns (pc : CallPc) (txnId : TransactionId) (resource : String) : Prop :=
  match pc with
  | .autoBody txn | .autoEnd txn _ | .endHeld _ txn => txn.id = txnId
  | .autoRelease id | .endRelease id => id = txnId
  | .release _ id keys | .remove _ id _ keys => id = txnId ∧ resource ∈ keys
  | _ => False

/-- The thread will end transaction `txnId`. -/
def ends (pc : CallPc) (txnId : TransactionId) : Prop :=
  match pc with
  | .autoAcquire txn _ _ | .autoTimedOut txn | .autoBody txn | .autoEnd txn _
  | .endHeld _ txn => txn.id = txnId
  | _ => False

/-- The transaction object the thread carries. -/
def txn? : CallPc → Option Transaction
  | .autoAcquire txn _ _ | .autoTimedOut txn | .autoBody txn | .autoEnd txn _
  | .endHeld _ txn => some txn
  | _ => none

end CallPc

/-- The executor's shared state with all calls, in flight or returned. -/
structure Sessions where
  locks : LockTable
  manager : TransactionManager
  /-- `Executor::active_transaction`. -/
  activeTransaction : Option Transaction
  calls : List CallPc

/-- The actions: a new call, or one atomic step of call `i`.  `flag` is the
outcome the step is free to have (a body's success, a timeout after `Busy`). -/
inductive SessionAction where
  | statement (table : String) (lock : LockType)
  | beginTransaction
  | commitTransaction
  | rollbackTransaction
  | run (i : Nat) (flag : Bool)
  | collectKeys (i : Nat) (keys : List String)
  deriving DecidableEq, Repr

namespace Sessions

/-- `Executor::new`. -/
def init : Sessions := ⟨∅, .new, none, []⟩

/-- Some call holds a read guard. -/
def readLocked (s : Sessions) : Bool := s.calls.any CallPc.holdsRead

/-- Some call holds the write guard. -/
def writeLocked (s : Sessions) : Bool := s.calls.any CallPc.holdsWrite

/-- Call `i` moves to `pc`. -/
def goto (s : Sessions) (i : Nat) (pc : CallPc) : Sessions :=
  { s with calls := s.calls.set i pc }

/-- One atomic step of a call at `pc`, apart from the key collection. -/
def runCall (s : Sessions) (i : Nat) (flag : Bool) : CallPc → Option Sessions
  | .returned | .autoRelease _ | .endRelease _ => none
  | .enter table lock =>
      if s.writeLocked then none
      else match s.activeTransaction with
        | some txn => some (s.goto i (.explicitAcquire txn.id table lock))
        | none => some (s.goto i (.autoBegin table lock))
  | .explicitAcquire txnId table lock =>
      match LockManager.tryAcquireLockOnce s.locks table txnId lock with
      | (.ok (), locks) => some ({ s with locks }.goto i .explicitBody)
      | (.error _, locks) =>
          some ({ s with locks }.goto i
            (if flag then .returned else .explicitAcquire txnId table lock))
  | .explicitBody => some (s.goto i .returned)
  | .autoBegin table lock =>
      let (txn, manager) := s.manager.begin
      some ({ s with manager }.goto i (.autoAcquire txn table lock))
  | .autoAcquire txn table lock =>
      match LockManager.tryAcquireLockOnce s.locks table txn.id lock with
      | (.ok (), locks) => some ({ s with locks }.goto i (.autoBody txn))
      | (.error _, locks) =>
          some ({ s with locks }.goto i
            (if flag then .autoTimedOut txn else .autoAcquire txn table lock))
  | .autoTimedOut txn =>
      some ({ s with manager := (s.manager.abort txn).2 }.goto i .returned)
  | .autoBody txn => some (s.goto i (.autoEnd txn flag))
  | .autoEnd txn ok =>
      let ended := if ok then s.manager.commit txn else s.manager.abort txn
      some ({ s with manager := ended.2 }.goto i (.autoRelease txn.id))
  | .beginTxn =>
      if s.readLocked || s.writeLocked then none
      else match s.activeTransaction with
        | some _ => some (s.goto i .returned)
        | none =>
            let (txn, manager) := s.manager.begin
            some ({ s with manager, activeTransaction := some txn }.goto i .returned)
  | .endTxn commit =>
      if s.readLocked || s.writeLocked then none
      else match s.activeTransaction with
        | none => some (s.goto i .returned)
        | some txn => some ({ s with activeTransaction := none }.goto i (.endHeld commit txn))
  | .endHeld commit txn =>
      match if commit then s.manager.commit txn else s.manager.abort txn with
      | (.ok (), manager) => some ({ s with manager }.goto i (.endRelease txn.id))
      | (.error _, manager) => some ({ s with manager }.goto i .returned)
  | .release _ _ [] => some (s.goto i .returned)
  | .release guard txnId (r :: keys) =>
      let (locks, emptied) := LockManager.releaseRetain s.locks r txnId
      some ({ s with locks }.goto i
        (if emptied then .remove guard txnId r keys else .release guard txnId keys))
  | .remove guard txnId r keys =>
      some ({ s with locks := s.locks.erase r }.goto i (.release guard txnId keys))

/-- The step function. -/
def step (s : Sessions) : SessionAction → Option Sessions
  | .statement table lock => some { s with calls := s.calls ++ [.enter table lock] }
  | .beginTransaction => some { s with calls := s.calls ++ [.beginTxn] }
  | .commitTransaction => some { s with calls := s.calls ++ [.endTxn true] }
  | .rollbackTransaction => some { s with calls := s.calls ++ [.endTxn false] }
  | .run i flag => s.calls[i]?.bind (s.runCall i flag)
  | .collectKeys i keys =>
      if keys.isPerm s.locks.keys then
        match s.calls[i]? with
        | some (.autoRelease txnId) => some (s.goto i (.release false txnId keys))
        | some (.endRelease txnId) => some (s.goto i (.release true txnId keys))
        | _ => none
      else none

/-- No statement is in flight and no explicit transaction is open. -/
def Quiescent (s : Sessions) : Prop :=
  (∀ pc ∈ s.calls, pc = .returned) ∧ s.activeTransaction = none

/-- No lock entry is left for any table and no transaction is active. -/
def Clean (s : Sessions) : Prop :=
  (∀ (table : String) (e : LockEntry), e ∉ s.locks[table]?.getD []) ∧
    s.manager.activeCount = 0

end Sessions

/-! ## Who will remove it -/

namespace Sessions

/-- The explicit transaction's id is `txnId`. -/
def isExplicit (s : Sessions) (txnId : TransactionId) : Prop :=
  ∃ txn, s.activeTransaction = some txn ∧ txn.id = txnId

/-- The invariant.  Every lock entry and every active transaction is either the
explicit transaction's or is on the list of a call in flight. -/
structure Accounted (s : Sessions) : Prop where
  entry : ∀ (r : String) (e : LockEntry), e ∈ s.locks[r]?.getD [] →
    s.isExplicit e.txnId ∨ ∃ pc ∈ s.calls, pc.owns e.txnId r
  active : ∀ id ∈ s.manager.active, s.isExplicit id ∨ ∃ pc ∈ s.calls, pc.ends id
  /-- A statement in the explicit branch still sees the transaction it read. -/
  reader : ∀ id table lock, CallPc.explicitAcquire id table lock ∈ s.calls → s.isExplicit id
  explicitActive : ∀ txn, s.activeTransaction = some txn → txn.state = .active
  callActive : ∀ pc ∈ s.calls, ∀ txn, pc.txn? = some txn → txn.state = .active

theorem accounted_init : Accounted init where
  entry := fun r e h => by simp [init] at h
  active := fun id h => by simp [init, TransactionManager.new] at h
  reader := fun _ _ _ h => by simp [init] at h
  explicitActive := fun _ h => by simp [init] at h
  callActive := fun _ h => by simp [init] at h

/-- At quiescence nobody is left to remove anything, so nothing is there. -/
theorem Accounted.clean {s : Sessions} (h : Accounted s) (hq : s.Quiescent) : s.Clean := by
  obtain ⟨hcalls, hnone⟩ := hq
  have hexp : ∀ id, ¬ s.isExplicit id := by
    rintro id ⟨txn, htxn, -⟩
    rw [hnone] at htxn
    cases htxn
  constructor
  · intro r e he
    rcases h.entry r e he with hx | ⟨pc, hpc, hown⟩
    · exact hexp _ hx
    · rw [hcalls pc hpc] at hown
      exact hown
  · have hempty : ∀ id, id ∉ s.manager.active := by
      intro id hid
      rcases h.active id hid with hx | ⟨pc, hpc, hend⟩
      · exact hexp _ hx
      · rw [hcalls pc hpc] at hend
        exact hend
    have hsize : s.manager.active = ∅ :=
      Std.ExtTreeMap.eq_empty_iff_forall_not_mem.mpr hempty
    simp [TransactionManager.activeCount, hsize]

/-- Members of the call list after call `i` moved. -/
theorem mem_set {calls : List CallPc} {i : Nat} {old pc : CallPc} (new : CallPc)
    (hi : calls[i]? = some old) (h : pc ∈ calls) :
    pc ∈ calls.set i new ∨ pc = old := by
  obtain ⟨j, hj⟩ := List.mem_iff_getElem?.mp h
  by_cases hij : i = j
  · subst hij
    exact Or.inr (Option.some.inj (hj.symm.trans hi))
  · exact Or.inl (List.mem_iff_getElem?.mpr ⟨j, by rw [List.getElem?_set_ne hij]; exact hj⟩)

theorem mem_set_self {calls : List CallPc} {i : Nat} {old new : CallPc}
    (hi : calls[i]? = some old) : new ∈ calls.set i new := by
  have hlt : i < calls.length := (List.getElem?_eq_some_iff.mp hi).1
  exact List.mem_iff_getElem?.mpr ⟨i, by simp [hlt]⟩

theorem of_mem_set {calls : List CallPc} {i : Nat} {new pc : CallPc}
    (h : pc ∈ calls.set i new) : pc ∈ calls ∨ pc = new := List.mem_or_eq_of_mem_set h

/-- What a step of call `i` from `old` to `new` owes the invariant when the
explicit transaction stays: whatever `old` was to remove is gone or is still on
`new`'s list, and whatever is new is on `new`'s list or is the explicit
transaction's. -/
structure Moves (s s' : Sessions) (i : Nat) (old new : CallPc) : Prop where
  at_old : s.calls[i]? = some old
  calls : s'.calls = s.calls.set i new
  same : s'.activeTransaction = s.activeTransaction
  entry : ∀ (r : String) (e : LockEntry), e ∈ s'.locks[r]?.getD [] →
    (e ∈ s.locks[r]?.getD [] ∧ (old.owns e.txnId r → new.owns e.txnId r)) ∨
      s.isExplicit e.txnId ∨ new.owns e.txnId r
  active : ∀ id ∈ s'.manager.active,
    (id ∈ s.manager.active ∧ (old.ends id → new.ends id)) ∨ new.ends id
  reader : ∀ id table lock, new = .explicitAcquire id table lock → s.isExplicit id
  callActive : ∀ txn, new.txn? = some txn → txn.state = .active

theorem Accounted.moves {s s' : Sessions} (h : Accounted s) {i : Nat} {old new : CallPc}
    (hm : Moves s s' i old new) : Accounted s' := by
  have hexp : ∀ id, s'.isExplicit id ↔ s.isExplicit id := by
    intro id
    simp only [isExplicit, hm.same]
  have hnew : new ∈ s'.calls := by
    rw [hm.calls]
    exact mem_set_self hm.at_old
  -- a call other than `i` keeps its duty; call `i` hands its duty from `old` to `new`
  have hkeep : ∀ {P : CallPc → Prop}, (P old → P new) → (∃ pc ∈ s.calls, P pc) →
      ∃ pc ∈ s'.calls, P pc := by
    rintro P hon ⟨pc, hpc, hP⟩
    rcases mem_set new hm.at_old hpc with hpc' | rfl
    · exact ⟨pc, hm.calls ▸ hpc', hP⟩
    · exact ⟨new, hnew, hon hP⟩
  constructor
  · intro r e he
    rcases hm.entry r e he with ⟨hold, hon⟩ | hx | hx
    · rcases h.entry r e hold with hx | hx
      · exact Or.inl ((hexp _).mpr hx)
      · exact Or.inr (hkeep (P := fun pc => pc.owns e.txnId r) hon hx)
    · exact Or.inl ((hexp _).mpr hx)
    · exact Or.inr ⟨new, hnew, hx⟩
  · intro id hid
    rcases hm.active id hid with ⟨hold, hon⟩ | hx
    · rcases h.active id hold with hx | hx
      · exact Or.inl ((hexp _).mpr hx)
      · exact Or.inr (hkeep (P := fun pc => pc.ends id) hon hx)
    · exact Or.inr ⟨new, hnew, hx⟩
  · intro id table lock hmem
    rw [hm.calls] at hmem
    rcases of_mem_set hmem with hmem | hmem
    · exact (hexp _).mpr (h.reader id table lock hmem)
    · exact (hexp _).mpr (hm.reader id table lock hmem.symm)
  · intro txn htxn
    exact h.explicitActive txn (hm.same ▸ htxn)
  · intro pc hpc txn htxn
    rw [hm.calls] at hpc
    rcases of_mem_set hpc with hpc | rfl
    · exact h.callActive pc hpc txn htxn
    · exact hm.callActive txn htxn

/-- A new call starts with nothing to remove. -/
theorem Accounted.spawn {s : Sessions} (h : Accounted s) {pc : CallPc}
    (hacq : ∀ id table lock, pc ≠ .explicitAcquire id table lock) (htxn : pc.txn? = none) :
    Accounted { s with calls := s.calls ++ [pc] } := by
  constructor
  · intro r e he
    rcases h.entry r e he with hx | ⟨q, hq, hown⟩
    · exact Or.inl hx
    · exact Or.inr ⟨q, List.mem_append_left _ hq, hown⟩
  · intro id hid
    rcases h.active id hid with hx | ⟨q, hq, hend⟩
    · exact Or.inl hx
    · exact Or.inr ⟨q, List.mem_append_left _ hq, hend⟩
  · intro id table lock hmem
    rcases List.mem_append.mp hmem with hmem | hmem
    · exact h.reader id table lock hmem
    · exact absurd (List.mem_singleton.mp hmem).symm (hacq id table lock)
  · exact h.explicitActive
  · intro q hq txn hx
    rcases List.mem_append.mp hq with hq | hq
    · exact h.callActive q hq txn hx
    · rw [List.mem_singleton.mp hq, htxn] at hx
      cases hx

/-! ## What the lock manager's steps leave behind -/

/-- After an attempt, an entry was there before or belongs to the caller, and the
latter only when the answer was `Ok`. -/
theorem mem_tryAcquire {locks locks' : LockTable} {table : String} {id : TransactionId}
    {lock : LockType} {ans : Except VelociError Unit}
    (h : LockManager.tryAcquireLockOnce locks table id lock = (ans, locks'))
    (r : String) (e : LockEntry) (he : e ∈ locks'[r]?.getD []) :
    e ∈ locks[r]?.getD [] ∨ (e.txnId = id ∧ ans = .ok ()) := by
  simp only [LockManager.tryAcquireLockOnce] at h
  cases hx : LockManager.tryEntries (locks[table]?.getD []) id lock (locks[table]?.getD []) with
  | error err =>
      simp only [hx, Prod.mk.injEq] at h
      obtain ⟨-, rfl⟩ := h
      simp only [Std.ExtTreeMap.getElem?_insert, Std.compare_eq_iff_eq] at he
      split at he
      · rename_i hr
        subst hr
        exact Or.inl he
      · exact Or.inl he
  | ok entries' =>
      simp only [hx, Prod.mk.injEq] at h
      obtain ⟨rfl, rfl⟩ := h
      simp only [Std.ExtTreeMap.getElem?_insert, Std.compare_eq_iff_eq] at he
      split at he
      · rename_i hr
        subst hr
        rw [Option.getD_some] at he
        rcases LockManager.tryEntries_ok (List.Subset.refl _) hx with
          ⟨rfl, -⟩ | ⟨rfl, -, -⟩ | ⟨rfl, -⟩
        · exact Or.inl he
        · exact Or.inr ⟨by rw [List.mem_singleton.mp he], rfl⟩
        · rcases List.mem_append.mp he with he | he
          · exact Or.inl he
          · exact Or.inr ⟨by rw [List.mem_singleton.mp he], rfl⟩
      · exact Or.inl he

/-- After the `retain` of `id` on `resource`, no entry of `id` is left there. -/
theorem mem_releaseRetain {locks : LockTable} {resource : String} {id : TransactionId}
    (r : String) (e : LockEntry)
    (he : e ∈ (LockManager.releaseRetain locks resource id).1[r]?.getD []) :
    e ∈ locks[r]?.getD [] ∧ (r = resource → e.txnId ≠ id) := by
  unfold LockManager.releaseRetain at he
  cases hr : locks[resource]? with
  | none =>
      simp only [hr] at he
      refine ⟨he, ?_⟩
      rintro rfl
      rw [hr] at he
      exact absurd he List.not_mem_nil
  | some entries =>
      simp only [hr, Std.ExtTreeMap.getElem?_insert, Std.compare_eq_iff_eq] at he
      split at he
      · rename_i hres
        subst hres
        rw [Option.getD_some, List.mem_filter] at he
        refine ⟨by rw [hr]; exact he.1, fun _ => by simpa using he.2⟩
      · rename_i hres
        exact ⟨he, fun hx => absurd hx.symm hres⟩

theorem mem_erase {locks : LockTable} {resource : String} (r : String) (e : LockEntry)
    (he : e ∈ (locks.erase resource)[r]?.getD []) : e ∈ locks[r]?.getD [] := by
  simp only [Std.ExtTreeMap.getElem?_erase, Std.compare_eq_iff_eq] at he
  split at he
  · exact absurd he List.not_mem_nil
  · exact he

/-- A resource with an entry is a key of the map, so the collected keys have it. -/
theorem mem_keys_of_entry {locks : LockTable} {keys : List String}
    (hperm : keys.isPerm locks.keys = true) {r : String} {e : LockEntry}
    (he : e ∈ locks[r]?.getD []) : r ∈ keys := by
  rw [(List.isPerm_iff.mp hperm).mem_iff, Std.ExtTreeMap.mem_keys,
    Std.ExtTreeMap.mem_iff_isSome_getElem?]
  cases hr : locks[r]? with
  | none =>
      rw [hr] at he
      exact absurd he List.not_mem_nil
  | some _ => rfl

/-- Ending an active transaction takes its id off the map and touches no other. -/
theorem mem_finish (tm : TransactionManager) {txn : Transaction} (hact : txn.state = .active) :
    (tm.finish txn).1 = .ok () ∧
      ∀ id, id ∈ (tm.finish txn).2.active ↔ txn.id ≠ id ∧ id ∈ tm.active := by
  unfold TransactionManager.finish
  rw [hact]
  exact ⟨rfl, fun id => by simp [Std.ExtTreeMap.mem_erase]⟩

theorem mem_begin {tm : TransactionManager} {id : TransactionId}
    (h : id ∈ tm.begin.2.active) : tm.begin.1.id = id ∨ id ∈ tm.active := by
  simpa [TransactionManager.begin, Std.ExtTreeMap.mem_insert] using h

/-! ## Every step keeps the account -/

/-- A move that touches neither the lock table nor the manager. -/
theorem moves_goto {s : Sessions} {i : Nat} {old new : CallPc} (hi : s.calls[i]? = some old)
    (hown : ∀ id r, old.owns id r → new.owns id r) (hend : ∀ id, old.ends id → new.ends id)
    (hread : ∀ id table lock, new = .explicitAcquire id table lock → s.isExplicit id)
    (hact : ∀ txn, new.txn? = some txn → txn.state = .active) :
    Moves s (s.goto i new) i old new where
  at_old := hi
  calls := rfl
  same := rfl
  entry := fun r e he => Or.inl ⟨he, hown e.txnId r⟩
  active := fun id hid => Or.inl ⟨hid, hend id⟩
  reader := hread
  callActive := hact

/-- A move that only changes the lock table. -/
theorem moves_locks {s : Sessions} {i : Nat} {old new : CallPc} (locks : LockTable)
    (hi : s.calls[i]? = some old)
    (hentry : ∀ (r : String) (e : LockEntry), e ∈ locks[r]?.getD [] →
      (e ∈ s.locks[r]?.getD [] ∧ (old.owns e.txnId r → new.owns e.txnId r)) ∨
        s.isExplicit e.txnId ∨ new.owns e.txnId r)
    (hend : ∀ id, old.ends id → new.ends id)
    (hread : ∀ id table lock, new = .explicitAcquire id table lock → s.isExplicit id)
    (hact : ∀ txn, new.txn? = some txn → txn.state = .active) :
    Moves s ({ s with locks }.goto i new) i old new where
  at_old := hi
  calls := rfl
  same := rfl
  entry := hentry
  active := fun id hid => Or.inl ⟨hid, hend id⟩
  reader := hread
  callActive := hact

/-- A move that ends the transaction the call carries. -/
theorem moves_finish {s : Sessions} {i : Nat} {old new : CallPc} {txn : Transaction}
    (hi : s.calls[i]? = some old) (hact : txn.state = .active)
    (hold : ∀ id, old.ends id → txn.id = id)
    (hown : ∀ id r, old.owns id r → new.owns id r)
    (hread : ∀ id table lock, new ≠ .explicitAcquire id table lock) (hnone : new.txn? = none) :
    Moves s ({ s with manager := (s.manager.finish txn).2 }.goto i new) i old new where
  at_old := hi
  calls := rfl
  same := rfl
  entry := fun r e he => Or.inl ⟨he, hown e.txnId r⟩
  active := by
    intro id hid
    obtain ⟨hne, hid⟩ := ((mem_finish _ hact).2 id).mp hid
    exact Or.inl ⟨hid, fun hx => absurd (hold id hx) hne⟩
  reader := fun id table lock hx => absurd hx (hread id table lock)
  callActive := fun t ht => by rw [hnone] at ht; cases ht

/-- The explicit transaction is set or taken only when no statement is inside the
explicit branch. -/
theorem not_mem_of_not_readLocked {s : Sessions} (h : s.readLocked = false)
    (id : TransactionId) (table : String) (lock : LockType) :
    CallPc.explicitAcquire id table lock ∉ s.calls := by
  intro hmem
  have hall := List.any_eq_false.mp h _ hmem
  exact hall rfl

theorem Accounted.beginTxn {s : Sessions} (h : Accounted s) {i : Nat}
    (hi : s.calls[i]? = some .beginTxn) (hread : s.readLocked = false)
    (hnone : s.activeTransaction = none) :
    Accounted ({ s with
      manager := s.manager.begin.2
      activeTransaction := some s.manager.begin.1 }.goto i .returned) := by
  have hexp : ∀ id, ¬ s.isExplicit id := by
    rintro id ⟨txn, htxn, -⟩
    rw [hnone] at htxn
    cases htxn
  have hkeep : ∀ {P : CallPc → Prop}, ¬ P .beginTxn → (∃ pc ∈ s.calls, P pc) →
      ∃ pc ∈ s.calls.set i .returned, P pc := by
    rintro P hno ⟨pc, hpc, hP⟩
    rcases mem_set .returned hi hpc with hpc' | rfl
    · exact ⟨pc, hpc', hP⟩
    · exact absurd hP hno
  constructor
  · intro r e he
    rcases h.entry r e he with hx | hx
    · exact absurd hx (hexp _)
    · exact Or.inr (hkeep (P := fun pc => pc.owns e.txnId r) (fun hx => hx) hx)
  · intro id hid
    rcases mem_begin hid with hid | hid
    · exact Or.inl ⟨s.manager.begin.1, rfl, hid⟩
    · rcases h.active id hid with hx | hx
      · exact absurd hx (hexp _)
      · exact Or.inr (hkeep (P := fun pc => pc.ends id) (fun hx => hx) hx)
  · intro id table lock hmem
    rcases of_mem_set hmem with hmem | hmem
    · exact absurd hmem (not_mem_of_not_readLocked hread id table lock)
    · cases hmem
  · rintro txn htxn
    cases Option.some.inj htxn
    rfl
  · intro pc hpc txn htxn
    rcases of_mem_set hpc with hpc | rfl
    · exact h.callActive pc hpc txn htxn
    · cases htxn

theorem Accounted.takeTxn {s : Sessions} (h : Accounted s) {i : Nat} {commit : Bool}
    {txn : Transaction} (hi : s.calls[i]? = some (.endTxn commit))
    (hread : s.readLocked = false) (hsome : s.activeTransaction = some txn) :
    Accounted ({ s with activeTransaction := none }.goto i (.endHeld commit txn)) := by
  have hnew : CallPc.endHeld commit txn ∈ s.calls.set i (.endHeld commit txn) :=
    mem_set_self hi
  have hid : ∀ {id}, s.isExplicit id → txn.id = id := by
    rintro id ⟨t, ht, rfl⟩
    rw [hsome] at ht
    rw [Option.some.inj ht]
  have hkeep : ∀ {P : CallPc → Prop}, ¬ P (.endTxn commit) → (∃ pc ∈ s.calls, P pc) →
      ∃ pc ∈ s.calls.set i (.endHeld commit txn), P pc := by
    rintro P hno ⟨pc, hpc, hP⟩
    rcases mem_set (.endHeld commit txn) hi hpc with hpc' | rfl
    · exact ⟨pc, hpc', hP⟩
    · exact absurd hP hno
  constructor
  · intro r e he
    rcases h.entry r e he with hx | hx
    · exact Or.inr ⟨_, hnew, hid hx⟩
    · exact Or.inr (hkeep (P := fun pc => pc.owns e.txnId r) (fun hx => hx) hx)
  · intro id hmem
    rcases h.active id hmem with hx | hx
    · exact Or.inr ⟨_, hnew, hid hx⟩
    · exact Or.inr (hkeep (P := fun pc => pc.ends id) (fun hx => hx) hx)
  · intro id table lock hmem
    rcases of_mem_set hmem with hmem | hmem
    · exact absurd hmem (not_mem_of_not_readLocked hread id table lock)
    · cases hmem
  · intro t ht
    cases ht
  · intro pc hpc t ht
    rcases of_mem_set hpc with hpc | rfl
    · exact h.callActive pc hpc t ht
    · cases Option.some.inj ht
      exact h.explicitActive txn hsome

/-- One acquire attempt of a call: an `Ok` puts the entry on the list of `granted`
(or of the explicit transaction), a `Busy` changes nobody's duties. -/
theorem Accounted.attempt {s : Sessions} (h : Accounted s) {i : Nat}
    (granted : CallPc) {old refused : CallPc} {id : TransactionId} {table : String} {lock : LockType}
    (hi : s.calls[i]? = some old)
    (hnoown : ∀ t r, ¬ old.owns t r)
    (hgrant : s.isExplicit id ∨ ∀ r, granted.owns id r)
    (hend : ∀ t, old.ends t → granted.ends t ∧ refused.ends t)
    (hreadg : ∀ t tb l, granted = .explicitAcquire t tb l → s.isExplicit t)
    (hreadr : ∀ t tb l, refused = .explicitAcquire t tb l → s.isExplicit t)
    (hactg : ∀ txn, granted.txn? = some txn → txn.state = .active)
    (hactr : ∀ txn, refused.txn? = some txn → txn.state = .active) {s' : Sessions}
    (hs : (match LockManager.tryAcquireLockOnce s.locks table id lock with
      | (.ok (), locks) => some ({ s with locks }.goto i granted)
      | (.error _, locks) => some ({ s with locks }.goto i refused)) = some s') :
    Accounted s' := by
  split at hs
  · rename_i locks htry
    cases Option.some.inj hs
    refine h.moves (moves_locks _ hi ?_ (fun t ht => (hend t ht).1) hreadg hactg)
    intro r e he
    rcases mem_tryAcquire htry r e he with hx | ⟨rfl, -⟩
    · exact Or.inl ⟨hx, fun ho => absurd ho (hnoown _ _)⟩
    · rcases hgrant with hx | hx
      · exact Or.inr (Or.inl hx)
      · exact Or.inr (Or.inr (hx r))
  · rename_i err locks htry
    cases Option.some.inj hs
    refine h.moves (moves_locks _ hi ?_ (fun t ht => (hend t ht).2) hreadr hactr)
    intro r e he
    rcases mem_tryAcquire htry r e he with hx | ⟨-, hx⟩
    · exact Or.inl ⟨hx, fun ho => absurd ho (hnoown _ _)⟩
    · cases hx

theorem runCall_accounted {s s' : Sessions} (h : Accounted s) {i : Nat} {flag : Bool}
    {pc : CallPc} (hi : s.calls[i]? = some pc) (hs : s.runCall i flag pc = some s') :
    Accounted s' := by
  have hmem : pc ∈ s.calls := List.mem_iff_getElem?.mpr ⟨i, hi⟩
  cases pc with
  | returned => cases hs
  | autoRelease id => cases hs
  | endRelease id => cases hs
  | enter table lock =>
      simp only [runCall] at hs
      split at hs
      · cases hs
      · split at hs
        · rename_i txn htxn
          cases Option.some.inj hs
          refine h.moves (moves_goto hi (fun _ _ hx => hx.elim) (fun _ hx => hx.elim) ?_
            (fun _ hx => by cases hx))
          rintro id tb l hx
          cases hx
          exact ⟨txn, htxn, rfl⟩
        · cases Option.some.inj hs
          exact h.moves (moves_goto hi (fun _ _ hx => hx.elim) (fun _ hx => hx.elim)
            (fun _ _ _ hx => by cases hx) (fun _ hx => by cases hx))
  | explicitAcquire id table lock =>
      have hexp := h.reader id table lock hmem
      simp only [runCall] at hs
      refine h.attempt _ hi (fun _ _ hx => hx) (Or.inl hexp) (fun _ hx => hx.elim)
        (fun _ _ _ hx => by cases hx) ?_ (fun _ hx => by cases hx) ?_ hs
      · intro t tb l hx
        split at hx
        · cases hx
        · cases hx
          exact hexp
      · intro txn hx
        split at hx <;> cases hx
  | explicitBody =>
      cases Option.some.inj hs
      exact h.moves (moves_goto hi (fun _ _ hx => hx.elim) (fun _ hx => hx.elim)
        (fun _ _ _ hx => by cases hx) (fun _ hx => by cases hx))
  | autoBegin table lock =>
      cases Option.some.inj hs
      have hnew : _ = s.calls.set i (.autoAcquire s.manager.begin.1 table lock) := rfl
      refine h.moves ⟨hi, hnew, rfl, ?_, ?_, ?_, ?_⟩
      · exact fun r e he => Or.inl ⟨he, fun hx => hx.elim⟩
      · intro id hid
        rcases mem_begin hid with hx | hx
        · exact Or.inr hx
        · exact Or.inl ⟨hx, fun hy => hy.elim⟩
      · exact fun _ _ _ hx => by cases hx
      · intro txn hx
        cases Option.some.inj hx
        rfl
  | autoAcquire txn table lock =>
      have hact := h.callActive _ hmem txn rfl
      simp only [runCall] at hs
      refine h.attempt (.autoBody txn) hi (fun _ _ hx => hx)
        (Or.inr fun _ => rfl) ?_ (fun _ _ _ hx => by cases hx) ?_ ?_ ?_ hs
      · intro t ht
        refine ⟨ht, ?_⟩
        split <;> exact ht
      · intro t tb l hx
        split at hx <;> cases hx
      · intro t ht
        cases Option.some.inj ht
        exact hact
      · intro t ht
        split at ht <;> cases Option.some.inj ht <;> exact hact
  | autoTimedOut txn =>
      cases Option.some.inj hs
      exact h.moves (moves_finish hi (h.callActive _ hmem txn rfl) (fun _ hx => hx)
        (fun _ _ hx => hx.elim) (fun _ _ _ hx => by cases hx) rfl)
  | autoBody txn =>
      cases Option.some.inj hs
      exact h.moves (moves_goto hi (fun _ _ hx => hx) (fun _ hx => hx)
        (fun _ _ _ hx => by cases hx) (fun t ht => h.callActive _ hmem t ht))
  | autoEnd txn ok =>
      have hfin : (if ok then s.manager.commit txn else s.manager.abort txn)
          = s.manager.finish txn := by cases ok <;> rfl
      simp only [runCall, hfin] at hs
      cases Option.some.inj hs
      exact h.moves (moves_finish hi (h.callActive _ hmem txn rfl) (fun _ hx => hx)
        (fun _ _ hx => hx) (fun _ _ _ hx => by cases hx) rfl)
  | beginTxn =>
      simp only [runCall] at hs
      split at hs
      · cases hs
      · rename_i hfree
        have hread : s.readLocked = false := by
          cases hr : s.readLocked <;> simp_all
        split at hs
        · cases Option.some.inj hs
          exact h.moves (moves_goto hi (fun _ _ hx => hx.elim) (fun _ hx => hx.elim)
            (fun _ _ _ hx => by cases hx) (fun _ hx => by cases hx))
        · rename_i hnone
          cases Option.some.inj hs
          exact h.beginTxn hi hread hnone
  | endTxn commit =>
      simp only [runCall] at hs
      split at hs
      · cases hs
      · rename_i hfree
        have hread : s.readLocked = false := by
          cases hr : s.readLocked <;> simp_all
        split at hs
        · cases Option.some.inj hs
          exact h.moves (moves_goto hi (fun _ _ hx => hx.elim) (fun _ hx => hx.elim)
            (fun _ _ _ hx => by cases hx) (fun _ hx => by cases hx))
        · rename_i txn hsome
          cases Option.some.inj hs
          exact h.takeTxn hi hread hsome
  | endHeld commit txn =>
      have hact := h.callActive _ hmem txn rfl
      have hfin : (if commit then s.manager.commit txn else s.manager.abort txn)
          = (.ok (), (s.manager.finish txn).2) := by
        rw [← (mem_finish s.manager hact).1]
        cases commit <;> rfl
      simp only [runCall, hfin] at hs
      cases Option.some.inj hs
      exact h.moves (moves_finish hi hact (fun _ hx => hx) (fun _ _ hx => hx)
        (fun _ _ _ hx => by cases hx) rfl)
  | release guard id keys =>
      cases keys with
      | nil =>
          cases Option.some.inj hs
          refine h.moves (moves_goto hi ?_ (fun _ hx => hx.elim)
            (fun _ _ _ hx => by cases hx) (fun _ hx => by cases hx))
          exact fun _ _ hx => absurd hx.2 List.not_mem_nil
      | cons r keys =>
          simp only [runCall] at hs
          cases Option.some.inj hs
          refine h.moves (moves_locks _ hi ?_ (fun _ hx => hx.elim) ?_ ?_)
          · intro r' e he
            obtain ⟨hin, hgone⟩ := mem_releaseRetain r' e he
            refine Or.inl ⟨hin, ?_⟩
            rintro ⟨hid, hr'⟩
            rcases List.mem_cons.mp hr' with hr' | hr'
            · exact absurd hid.symm (hgone hr')
            · split <;> exact ⟨hid, hr'⟩
          · intro t tb l hx
            split at hx <;> cases hx
          · intro t ht
            split at ht <;> cases ht
  | remove guard id r keys =>
      cases Option.some.inj hs
      exact h.moves (moves_locks _ hi (fun r' e he => Or.inl ⟨mem_erase r' e he, fun hx => hx⟩)
        (fun _ hx => hx.elim) (fun _ _ _ hx => by cases hx) (fun _ hx => by cases hx))

theorem step_accounted (s : Sessions) (a : SessionAction) (s' : Sessions) (h : Accounted s)
    (_ : Any s a) (hs : Via step s a s') : Accounted s' := by
  cases a with
  | statement table lock =>
      cases Option.some.inj hs
      exact h.spawn (fun _ _ _ hx => by cases hx) rfl
  | beginTransaction =>
      cases Option.some.inj hs
      exact h.spawn (fun _ _ _ hx => by cases hx) rfl
  | commitTransaction =>
      cases Option.some.inj hs
      exact h.spawn (fun _ _ _ hx => by cases hx) rfl
  | rollbackTransaction =>
      cases Option.some.inj hs
      exact h.spawn (fun _ _ _ hx => by cases hx) rfl
  | run i flag =>
      obtain ⟨pc, hi, hrun⟩ := Option.bind_eq_some_iff.mp hs
      exact runCall_accounted h hi hrun
  | collectKeys i keys =>
      simp only [Via, step] at hs
      split at hs
      · rename_i hperm
        -- the collected keys name every resource with an entry, so nothing is missed
        split at hs
        · rename_i id hi
          cases Option.some.inj hs
          refine h.moves (moves_locks s.locks hi ?_ (fun _ hx => hx.elim)
            (fun _ _ _ hx => by cases hx) (fun _ hx => by cases hx))
          exact fun r e he => Or.inl ⟨he, fun hx => ⟨hx, mem_keys_of_entry hperm he⟩⟩
        · rename_i id hi
          cases Option.some.inj hs
          refine h.moves (moves_locks s.locks hi ?_ (fun _ hx => hx.elim)
            (fun _ _ _ hx => by cases hx) (fun _ hx => by cases hx))
          exact fun r e he => Or.inl ⟨he, fun hx => ⟨hx, mem_keys_of_entry hperm he⟩⟩
        · cases hs
      · cases hs

/-- Whatever the interleaving: when no statement is in flight and no explicit
transaction is open, no table has a lock entry and no transaction is active. -/
theorem no_leaks {s : Sessions} (h : Reaches (Via step) Any init s) (hq : s.Quiescent) : s.Clean :=
  (Reaches.invariant accounted_init step_accounted h).clean hq

/-- A statement in an explicit transaction, a concurrent one that times out on the
lock, then COMMIT, run to their ends. -/
def explicitRun : List SessionAction :=
  [.statement "users" .shared, .run 0 true, .run 0 true, .beginTransaction, .run 1 true,
    .statement "users" .exclusive, .run 2 true, .run 2 true, .run 0 true, .run 0 true,
    .run 2 true, .commitTransaction, .run 3 true, .run 3 true, .collectKeys 3 ["users"],
    .run 3 true, .run 3 true, .run 3 true]

/-- The hypotheses are met by `explicitRun`. -/
theorem no_leaks_explicitRun :
    (runActions step Any init explicitRun).elim False Clean := by
  have hq : ((runActions step Any init explicitRun).map fun s =>
      (s.calls, s.activeTransaction)) =
        some ([.returned, .returned, .returned, .returned], none) := by decide
  obtain ⟨s, hs, hx⟩ := Option.map_eq_some_iff.mp hq
  obtain ⟨hcalls, hnone⟩ := Prod.mk.inj hx
  rw [hs]
  refine no_leaks (reaches_of_runActions _ .refl hs) ⟨?_, hnone⟩
  rw [hcalls]
  decide

end Sessions

end VelociDB
