/-
# Multi-version concurrency control (`mvcc.rs`)

`MvccManager` keeps every version of a record, each stamped with the transaction that
created it (`xmin`) and the one that deleted it (`xmax`, 0 while it is live).  A snapshot
decides from the stamps which versions it sees.

`Sys` is a manager with the global transaction counter, which other managers may draw
from as well, and the history of what its transactions wrote and of which of them
committed.  A transaction works through the snapshot `begin_transaction` gave it, until it
commits or aborts.
-/
import VelociDB.Types
import VelociDB.Lib.Transition

namespace VelociDB.Mvcc

/-- `Timestamp = u64`. -/
abbrev Timestamp := Nat

/-- `Snapshot`. -/
structure Snapshot where
  timestamp : Timestamp
  txnId : TransactionId
  activeTransactions : List TransactionId
  deriving DecidableEq

/-- `is_transaction_visible`. -/
def Snapshot.isTransactionVisible (snapshot : Snapshot) (txnId : TransactionId) : Bool :=
  if txnId = snapshot.txnId then true
  else if snapshot.txnId ≤ txnId then false
  else !snapshot.activeTransactions.contains txnId

/-- `VersionInfo`. -/
structure VersionInfo where
  xmin : TransactionId
  xmax : TransactionId
  createdAt : Timestamp
  deletedAt : Timestamp
  deriving DecidableEq

namespace VersionInfo

/-- `VersionInfo::new`. -/
def new (xmin : TransactionId) (createdAt : Timestamp) : VersionInfo := ⟨xmin, 0, createdAt, 0⟩

/-- `VersionInfo::is_visible`. -/
def isVisible (info : VersionInfo) (snapshot : Snapshot) : Bool :=
  if snapshot.timestamp < info.createdAt then false
  else if !snapshot.isTransactionVisible info.xmin then false
  else if 0 < info.xmax && snapshot.isTransactionVisible info.xmax then false
  else true

/-- `VersionInfo::mark_deleted`. -/
def markDeleted (info : VersionInfo) (xmax : TransactionId) (deletedAt : Timestamp) :
    VersionInfo := { info with xmax := xmax, deletedAt := deletedAt }

end VersionInfo

/-- `RecordVersion`. -/
structure RecordVersion where
  versionInfo : VersionInfo
  data : List Value
  deriving DecidableEq

/-- `RecordVersion::is_visible`. -/
def RecordVersion.isVisible (v : RecordVersion) (snapshot : Snapshot) : Bool :=
  v.versionInfo.isVisible snapshot

/-- `VersionedRecord`, its versions from oldest to newest. -/
structure VersionedRecord where
  key : Int64
  versions : List RecordVersion
  deriving DecidableEq

namespace VersionedRecord

/-- `VersionedRecord::new`. -/
def new (key : Int64) : VersionedRecord := ⟨key, []⟩

/-- `add_version`. -/
def addVersion (r : VersionedRecord) (v : RecordVersion) : VersionedRecord :=
  { r with versions := r.versions ++ [v] }

/-- `get_visible_version`: the newest version the snapshot sees. -/
def getVisibleVersion (r : VersionedRecord) (snapshot : Snapshot) : Option RecordVersion :=
  r.versions.reverse.find? fun v => v.isVisible snapshot

/-- `mark_deleted`: only the newest version is marked. -/
def markDeleted (r : VersionedRecord) (xmax : TransactionId) (deletedAt : Timestamp) :
    Except VelociError VersionedRecord :=
  match r.versions.getLast? with
  | some v => .ok { r with versions := r.versions.dropLast ++
      [{ v with versionInfo := v.versionInfo.markDeleted xmax deletedAt }] }
  | none => .error (.notFound "No versions to delete")

end VersionedRecord

/-- `MvccManager`. -/
structure MvccManager where
  currentTimestamp : Timestamp
  activeSnapshots : Std.ExtTreeMap TransactionId Snapshot
  versionStore : Std.ExtTreeMap String (Std.ExtTreeMap Int64 VersionedRecord)
  committedTransactions : Std.ExtTreeMap TransactionId Timestamp

namespace MvccManager

/-- `MvccManager::new`. -/
def new : MvccManager := ⟨1, ∅, ∅, ∅⟩

/-- `current_timestamp.fetch_add(1)`: the new manager; the value was the old timestamp. -/
def tick (m : MvccManager) : MvccManager := { m with currentTimestamp := (m.currentTimestamp + 1) % u64Size }

/-- `begin_transaction`, with the id drawn from the global counter. -/
def beginTransaction (m : MvccManager) (txnId : TransactionId) : Snapshot × MvccManager :=
  let snapshot : Snapshot := ⟨m.currentTimestamp, txnId, m.activeSnapshots.keys⟩
  (snapshot, { m.tick with activeSnapshots := m.activeSnapshots.insert txnId snapshot })

/-- `commit_transaction`. -/
def commitTransaction (m : MvccManager) (snapshot : Snapshot) : MvccManager :=
  { m.tick with
    committedTransactions := m.committedTransactions.insert snapshot.txnId m.currentTimestamp
    activeSnapshots := m.activeSnapshots.erase snapshot.txnId }

/-- `abort_transaction`: nothing is undone. -/
def abortTransaction (m : MvccManager) (snapshot : Snapshot) : MvccManager :=
  { m with activeSnapshots := m.activeSnapshots.erase snapshot.txnId }

/-- The entry of a table, or an empty one. -/
def tableStore (m : MvccManager) (table : String) : Std.ExtTreeMap Int64 VersionedRecord :=
  (m.versionStore[table]?).getD ∅

/-- `insert_version`. -/
def insertVersion (m : MvccManager) (table : String) (key : Int64) (data : List Value)
    (snapshot : Snapshot) : MvccManager :=
  let version : RecordVersion := ⟨.new snapshot.txnId m.currentTimestamp, data⟩
  let record := ((m.tableStore table)[key]?).getD (.new key)
  { m with
    versionStore := m.versionStore.insert table
      ((m.tableStore table).insert key (record.addVersion version)) }

/-- `read_version`. -/
def readVersion (m : MvccManager) (table : String) (key : Int64) (snapshot : Snapshot) :
    Option (List Value) := do
  let tableMap ← m.versionStore[table]?
  let record ← tableMap[key]?
  let version ← record.getVisibleVersion snapshot
  some version.data

/-- `delete_version`. -/
def deleteVersion (m : MvccManager) (table : String) (key : Int64) (snapshot : Snapshot) :
    MvccManager × Except VelociError Unit :=
  match m.versionStore[table]? with
  | none => (m.tick, .error (.notFound s!"Record {key} not found"))
  | some tableMap =>
      match tableMap[key]? with
      | none => (m.tick, .error (.notFound s!"Record {key} not found"))
      | some record =>
          match record.markDeleted snapshot.txnId m.currentTimestamp with
          | .error e => (m.tick, .error e)
          | .ok record =>
              ({ m.tick with
                versionStore := m.versionStore.insert table (tableMap.insert key record) }, .ok ())

/-- `scan_table`. -/
def scanTable (m : MvccManager) (table : String) (snapshot : Snapshot) : List (Int64 × List Value) :=
  match m.versionStore[table]? with
  | some tableMap => tableMap.toList.filterMap fun (key, record) =>
      (record.getVisibleVersion snapshot).map fun v => (key, v.data)
  | none => []

end MvccManager

/-! ## Transactions -/

/-- A write that returned Ok: `some data` for an insert, `none` for a delete. -/
structure Write where
  txn : TransactionId
  table : String
  key : Int64
  effect : Option (List Value)

/-- The writes in the order they were made, and the transactions in the order they
committed. -/
structure History where
  writes : List Write
  commits : List TransactionId

namespace History

/-- The last write of a transaction to a record. -/
def lastWrite (h : History) (txn : TransactionId) (table : String) (key : Int64) :
    Option (Option (List Value)) :=
  (h.writes.reverse.find? fun w => w.txn = txn ∧ w.table = table ∧ w.key = key).map
    Write.effect

/-- The effect of the last write to a record in commit order among the committed
transactions. -/
def committedEffect (h : History) (table : String) (key : Int64) : Option (List Value) :=
  (h.commits.reverse.findSome? fun txn => h.lastWrite txn table key).join

/-- The transaction has written the record. -/
def Wrote (h : History) (txn : TransactionId) (table : String) (key : Int64) : Prop :=
  h.lastWrite txn table key ≠ none

instance (h : History) (txn : TransactionId) (table : String) (key : Int64) :
    Decidable (h.Wrote txn table key) := inferInstanceAs (Decidable (¬ _))

end History

/-- A manager, the global transaction counter and the history. -/
structure Sys where
  nextTxnId : TransactionId
  mvcc : MvccManager
  history : History

namespace Sys

/-- `GLOBAL_TXN_ID` starts at 1. -/
def init : Sys := ⟨1, .new, ⟨[], []⟩⟩

/-- The calls of a run; `elsewhere` is a transaction that begins on another manager. -/
inductive Act where
  | begin
  | elsewhere
  | insert (txn : TransactionId) (table : String) (key : Int64) (data : List Value)
  | delete (txn : TransactionId) (table : String) (key : Int64)
  | commit (txn : TransactionId)
  | abort (txn : TransactionId)

/-- A write of the history. -/
def record (s : Sys) (mvcc : MvccManager) (w : Write) : Sys :=
  { s with mvcc := mvcc, history := { s.history with writes := s.history.writes ++ [w] } }

/-- One call; only an active transaction makes one. -/
def step (s : Sys) : Act → Option Sys
  | .begin => some { s with
      nextTxnId := (s.nextTxnId + 1) % u64Size
      mvcc := (s.mvcc.beginTransaction s.nextTxnId).2 }
  | .elsewhere => some { s with nextTxnId := (s.nextTxnId + 1) % u64Size }
  | .insert txn table key data => do
      let snapshot ← s.mvcc.activeSnapshots[txn]?
      some (s.record (s.mvcc.insertVersion table key data snapshot) ⟨txn, table, key, some data⟩)
  | .delete txn table key => do
      let snapshot ← s.mvcc.activeSnapshots[txn]?
      match s.mvcc.deleteVersion table key snapshot with
      | (mvcc, .ok ()) => some (s.record mvcc ⟨txn, table, key, none⟩)
      | (mvcc, .error _) => some { s with mvcc := mvcc }
  | .commit txn => do
      let snapshot ← s.mvcc.activeSnapshots[txn]?
      some { s with
        mvcc := s.mvcc.commitTransaction snapshot
        history := { s.history with commits := s.history.commits ++ [txn] } }
  | .abort txn => do
      let snapshot ← s.mvcc.activeSnapshots[txn]?
      some { s with mvcc := s.mvcc.abortTransaction snapshot }

end Sys

end VelociDB.Mvcc
