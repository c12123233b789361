/-
# Replicated records (`crdt.rs`)

A `CrdtStore` keeps the records of its tables and the log of the operations it has applied,
its own and those merged from other replicas.  Every operation is stamped with a Lamport
timestamp and the node that issued it; the operation that is last in the order of the
stamps should decide what a record holds.

`applyTo` is what an operation does to the record it names: an insert replaces it, an
update replaces it if the update is later, and a delete marks a record that is there and
whose timestamp is smaller.  The values of a record stay when it is deleted.
-/
import VelociDB.Types
import VelociDB.Lib.Transition

namespace VelociDB.Crdt

/-- `LamportTimestamp = u64`. -/
abbrev LamportTimestamp := Nat

/-- `NodeId`. -/
abbrev NodeId := String

/-- `CrdtOperation`. -/
inductive CrdtOperation where
  | insert (table : String) (key : Int64) (values : List Value) (timestamp : LamportTimestamp)
      (nodeId : NodeId)
  | update (table : String) (key : Int64) (values : List Value) (timestamp : LamportTimestamp)
      (nodeId : NodeId)
  | delete (table : String) (key : Int64) (timestamp : LamportTimestamp) (nodeId : NodeId)
  deriving DecidableEq

namespace CrdtOperation

/-- `timestamp`. -/
def timestamp : CrdtOperation → LamportTimestamp
  | insert _ _ _ timestamp _ | update _ _ _ timestamp _ | delete _ _ timestamp _ => timestamp

/-- `node_id`. -/
def nodeId : CrdtOperation → NodeId
  | insert _ _ _ _ nodeId | update _ _ _ _ nodeId | delete _ _ _ nodeId => nodeId

/-- `table`. -/
def table : CrdtOperation → String
  | insert table _ _ _ _ | update table _ _ _ _ | delete table _ _ _ => table

/-- The record the operation is about. -/
def key : CrdtOperation → Int64
  | insert _ key _ _ _ | update _ key _ _ _ | delete _ key _ _ => key

/-- What the operation writes; a delete writes nothing. -/
def values : CrdtOperation → Option (List Value)
  | insert _ _ values _ _ | update _ _ values _ _ => some values
  | delete _ _ _ _ => none

/-- The order of last-write-wins: by timestamp, then by node. -/
def stamp (op : CrdtOperation) : LamportTimestamp ×ₗ NodeId := toLex (op.timestamp, op.nodeId)

end CrdtOperation

/-- `CrdtRecord`. -/
structure CrdtRecord where
  key : Int64
  values : List Value
  timestamp : LamportTimestamp
  nodeId : NodeId
  isDeleted : Bool
  deriving DecidableEq

namespace CrdtRecord

/-- `CrdtRecord::new`. -/
def new (key : Int64) (values : List Value) (timestamp : LamportTimestamp) (nodeId : NodeId) :
    CrdtRecord := ⟨key, values, timestamp, nodeId, false⟩

/-- `merge`: the record, and whether it was replaced. -/
def merge (self other : CrdtRecord) : CrdtRecord × Bool :=
  if self.timestamp < other.timestamp then
    ({ self with
      values := other.values
      timestamp := other.timestamp
      nodeId := other.nodeId
      isDeleted := other.isDeleted }, true)
  else if other.timestamp = self.timestamp then
    if self.nodeId < other.nodeId then
      ({ self with
        values := other.values
        nodeId := other.nodeId
        isDeleted := other.isDeleted }, true)
    else (self, false)
  else (self, false)

/-- `delete`: the values stay. -/
def delete (self : CrdtRecord) (timestamp : LamportTimestamp) (nodeId : NodeId) : CrdtRecord :=
  if self.timestamp < timestamp then
    { self with isDeleted := true, timestamp := timestamp, nodeId := nodeId }
  else self

/-- The stamp of the operation that wrote the record last. -/
def stamp (r : CrdtRecord) : LamportTimestamp ×ₗ NodeId := toLex (r.timestamp, r.nodeId)

end CrdtRecord

/-- `CrdtStore`. -/
structure CrdtStore where
  nodeId : NodeId
  state : Std.ExtTreeMap String (Std.ExtTreeMap Int64 CrdtRecord)
  operationLog : List CrdtOperation
  vectorClock : Std.ExtTreeMap NodeId LamportTimestamp
  lamportClock : LamportTimestamp

namespace CrdtStore

/-- `CrdtStore::new`. -/
def new (nodeId : NodeId) : CrdtStore :=
  ⟨nodeId, ∅, [], (∅ : Std.ExtTreeMap NodeId LamportTimestamp).insert nodeId 0, 1⟩

/-- `next_timestamp`: the old clock; the new one wraps. -/
def nextTimestamp (s : CrdtStore) : LamportTimestamp × CrdtStore :=
  (s.lamportClock, { s with lamportClock := (s.lamportClock + 1) % u64Size })

/-- `update_timestamp`. -/
def updateTimestamp (s : CrdtStore) (received : LamportTimestamp) : CrdtStore :=
  { s with lamportClock := (max received s.lamportClock + 1) % u64Size }

/-- The table, or an empty one. -/
def tableState (s : CrdtStore) (table : String) : Std.ExtTreeMap Int64 CrdtRecord :=
  (s.state[table]?).getD ∅

/-- Put a record into its table. -/
def setRecord (s : CrdtStore) (table : String) (key : Int64) (r : CrdtRecord) : CrdtStore :=
  { s with state := s.state.insert table ((s.tableState table).insert key r) }

/-- `apply_operation`; it never fails. -/
def applyOperation (s : CrdtStore) (op : CrdtOperation) : CrdtStore :=
  match op with
  | .insert table key values timestamp nodeId =>
      s.setRecord table key (.new key values timestamp nodeId)
  | .update table key values timestamp nodeId =>
      let newRecord : CrdtRecord := .new key values timestamp nodeId
      match (s.tableState table)[key]? with
      | some existing => s.setRecord table key (existing.merge newRecord).1
      | none => s.setRecord table key newRecord
  | .delete table key timestamp nodeId =>
      match (s.tableState table)[key]? with
      | some existing => s.setRecord table key (existing.delete timestamp nodeId)
      | none => { s with state := s.state.insert table (s.tableState table) }

/-- `update_vector_clock`: only the store's own entry is kept. -/
def updateVectorClock (s : CrdtStore) (timestamp : LamportTimestamp) : CrdtStore :=
  { s with
    vectorClock := s.vectorClock.insert s.nodeId
      (match s.vectorClock[s.nodeId]? with
      | some t => max t timestamp
      | none => timestamp) }

/-- A local call: the operation is stamped, applied and logged. -/
def issue (s : CrdtStore) (operation : LamportTimestamp → NodeId → CrdtOperation) : CrdtStore :=
  let (timestamp, s) := s.nextTimestamp
  let op := operation timestamp s.nodeId
  let s := s.applyOperation op
  { s with operationLog := s.operationLog ++ [op] }.updateVectorClock timestamp

/-- `insert`. -/
def insert (s : CrdtStore) (table : String) (key : Int64) (values : List Value) : CrdtStore :=
  s.issue (.insert table key values)

/-- `update`. -/
def update (s : CrdtStore) (table : String) (key : Int64) (values : List Value) : CrdtStore :=
  s.issue (.update table key values)

/-- `delete`. -/
def delete (s : CrdtStore) (table : String) (key : Int64) : CrdtStore :=
  s.issue (.delete table key)

/-- One operation of `merge_operations`. -/
def mergeOperation (s : CrdtStore) (op : CrdtOperation) : CrdtStore :=
  let s := (s.updateTimestamp op.timestamp).applyOperation op
  let present := s.operationLog.any fun o => o.timestamp = op.timestamp ∧ o.nodeId = op.nodeId
  let s := if present then s else { s with operationLog := s.operationLog ++ [op] }
  s.updateVectorClock op.timestamp

/-- `merge_operations`. -/
def mergeOperations (s : CrdtStore) (operations : List CrdtOperation) : CrdtStore :=
  operations.foldl mergeOperation s

/-- `get_operations_since`. -/
def getOperationsSince (s : CrdtStore) (timestamp : LamportTimestamp) : List CrdtOperation :=
  s.operationLog.filter fun op => timestamp < op.timestamp

/-- `get_record`. -/
def getRecord (s : CrdtStore) (table : String) (key : Int64) : Option CrdtRecord := do
  let t ← s.state[table]?
  t[key]?

end CrdtStore

/-- `SyncProtocol::generate_sync_message`. -/
def CrdtStore.generateSyncMessage (s : CrdtStore)
    (peerVectorClock : Std.ExtTreeMap NodeId LamportTimestamp) : List CrdtOperation :=
  let peerMinTimestamp := ((peerVectorClock.toList.map fun e => e.2).min?).getD 0
  s.getOperationsSince peerMinTimestamp

/-- `SyncProtocol::process_sync_message`. -/
def CrdtStore.processSyncMessage (s : CrdtStore) (operations : List CrdtOperation) : CrdtStore :=
  s.mergeOperations operations

/-! ## One record -/

/-- What an operation does to its record. -/
def CrdtOperation.applyTo : CrdtOperation → Option CrdtRecord → Option CrdtRecord
  | .insert _ key values timestamp nodeId, _ => some (.new key values timestamp nodeId)
  | .update _ key values timestamp nodeId, some existing =>
      some (existing.merge (.new key values timestamp nodeId)).1
  | .update _ key values timestamp nodeId, none => some (.new key values timestamp nodeId)
  | .delete _ _ timestamp nodeId, some existing => some (existing.delete timestamp nodeId)
  | .delete _ _ _ _, none => none

namespace CrdtStore

variable {s s' : CrdtStore} {op : CrdtOperation} {table : String} {key : Int64}

theorem getRecord_eq (s : CrdtStore) (table : String) (key : Int64) :
    s.getRecord table key = (s.tableState table)[key]? := by
  unfold getRecord tableState
  cases s.state[table]? with
  | none => simp
  | some t => rfl

theorem getRecord_insert {t : Std.ExtTreeMap Int64 CrdtRecord}
    (h : s'.state = s.state.insert table t) (tb : String) (k : Int64) :
    s'.getRecord tb k = if tb = table then t[k]? else s.getRecord tb k := by
  rw [getRecord_eq, getRecord_eq, tableState, tableState, h]
  by_cases htb : tb = table
  · subst htb
    simp
  · have hne : table ≠ tb := fun heq => htb heq.symm
    simp [Std.ExtTreeMap.getElem?_insert, hne, htb]

theorem getRecord_setRecord {f : Option CrdtRecord → Option CrdtRecord} {r : CrdtRecord}
    (hr : f (s.getRecord table key) = some r) (tb : String) (k : Int64) :
    (s.setRecord table key r).getRecord tb k =
      if tb = table ∧ k = key then f (s.getRecord tb k) else s.getRecord tb k := by
  rw [getRecord_insert rfl]
  by_cases htb : tb = table
  · subst htb
    by_cases hk : k = key
    · subst hk
      simp [hr]
    · have hne : key ≠ k := fun heq => hk heq.symm
      simp [Std.ExtTreeMap.getElem?_insert, hne, hk, getRecord_eq]
  · simp [htb]

/-- The operation changes its own record and nothing else. -/
theorem getRecord_applyOperation (s : CrdtStore) (op : CrdtOperation) (tb : String) (k : Int64) :
    (s.applyOperation op).getRecord tb k =
      if tb = op.table ∧ k = op.key then op.applyTo (s.getRecord tb k) else s.getRecord tb k := by
  cases op with
  | insert table key values timestamp nodeId => exact getRecord_setRecord rfl tb k
  | update table key values timestamp nodeId =>
      dsimp only [applyOperation, CrdtOperation.table, CrdtOperation.key]
      cases hr : (s.tableState table)[key]? with
      | none =>
          refine getRecord_setRecord ?_ tb k
          rw [getRecord_eq, hr]
          rfl
      | some existing =>
          refine getRecord_setRecord ?_ tb k
          rw [getRecord_eq, hr]
          rfl
  | delete table key timestamp nodeId =>
      dsimp only [applyOperation, CrdtOperation.table, CrdtOperation.key]
      cases hr : (s.tableState table)[key]? with
      | none =>
          rw [getRecord_insert rfl]
          by_cases htb : tb = table
          · subst htb
            rw [if_pos rfl, ← getRecord_eq]
            by_cases hk : k = key
            · subst hk
              rw [getRecord_eq, hr]
              simp [CrdtOperation.applyTo]
            · simp [hk]
          · simp [htb]
      | some existing =>
          refine getRecord_setRecord ?_ tb k
          rw [getRecord_eq, hr]
          rfl

theorem getRecord_congr (h : s'.state = s.state) : s'.getRecord = s.getRecord := by
  funext table key
  rw [getRecord, getRecord, h]

theorem applyOperation_frame (s : CrdtStore) (op : CrdtOperation) :
    (s.applyOperation op).nodeId = s.nodeId ∧
    (s.applyOperation op).operationLog = s.operationLog ∧
    (s.applyOperation op).vectorClock = s.vectorClock ∧
    (s.applyOperation op).lamportClock = s.lamportClock := by
  cases op with
  | insert => exact ⟨rfl, rfl, rfl, rfl⟩
  | update table key =>
      dsimp only [applyOperation]
      cases (s.tableState table)[key]? <;> exact ⟨rfl, rfl, rfl, rfl⟩
  | delete table key =>
      dsimp only [applyOperation]
      cases (s.tableState table)[key]? <;> exact ⟨rfl, rfl, rfl, rfl⟩

end CrdtStore

/-! ## Local calls -/

/-- The local calls of a store. -/
inductive LocalCall where
  | insert (table : String) (key : Int64) (values : List Value)
  | update (table : String) (key : Int64) (values : List Value)
  | delete (table : String) (key : Int64)

namespace LocalCall

/-- The operation a call issues. -/
def operation : LocalCall → LamportTimestamp → NodeId → CrdtOperation
  | insert table key values => .insert table key values
  | update table key values => .update table key values
  | delete table key => .delete table key

variable (c : LocalCall) (timestamp : LamportTimestamp) (nodeId : NodeId)

@[simp] theorem timestamp_operation : (c.operation timestamp nodeId).timestamp = timestamp := by
  cases c <;> rfl

@[simp] theorem nodeId_operation : (c.operation timestamp nodeId).nodeId = nodeId := by
  cases c <;> rfl

end LocalCall

namespace CrdtStore

/-- A local call. -/
def call (s : CrdtStore) : LocalCall → CrdtStore
  | .insert table key values => s.insert table key values
  | .update table key values => s.update table key values
  | .delete table key => s.delete table key

/-- The operation that a local call issues now. -/
def nextOperation (s : CrdtStore) (c : LocalCall) : CrdtOperation :=
  c.operation s.lamportClock s.nodeId

theorem call_eq (s : CrdtStore) (c : LocalCall) : s.call c = s.issue c.operation := by
  cases c <;> rfl

theorem updateVectorClock_congr {s s' : CrdtStore} (hvector : s'.vectorClock = s.vectorClock)
    (hnode : s'.nodeId = s.nodeId) (timestamp : LamportTimestamp) :
    (s'.updateVectorClock timestamp).vectorClock = (s.updateVectorClock timestamp).vectorClock := by
  simp only [updateVectorClock, hvector, hnode]

/-- What a local call does to the store but for its records. -/
theorem call_frame (s : CrdtStore) (c : LocalCall) :
    (s.call c).nodeId = s.nodeId ∧
    (s.call c).operationLog = s.operationLog ++ [s.nextOperation c] ∧
    (s.call c).lamportClock = (s.lamportClock + 1) % u64Size ∧
    (s.call c).vectorClock = (s.updateVectorClock s.lamportClock).vectorClock := by
  rw [call_eq]
  obtain ⟨hnode, hlog, hvector, hclock⟩ :=
    applyOperation_frame s.nextTimestamp.2 (s.nextOperation c)
  refine ⟨hnode, ?_, hclock, ?_⟩
  · show ((s.nextTimestamp.2.applyOperation (s.nextOperation c)).operationLog ++ _) = _
    rw [hlog]
    rfl
  · exact updateVectorClock_congr hvector hnode s.lamportClock

theorem getRecord_call (s : CrdtStore) (c : LocalCall) (tb : String) (k : Int64) :
    (s.call c).getRecord tb k =
      if tb = (s.nextOperation c).table ∧ k = (s.nextOperation c).key then
        (s.nextOperation c).applyTo (s.getRecord tb k)
      else s.getRecord tb k := by
  rw [call_eq]
  exact getRecord_applyOperation s.nextTimestamp.2 (s.nextOperation c) tb k

/-- What the merge of one operation does to the store but for its records. -/
theorem mergeOperation_frame (s : CrdtStore) (op : CrdtOperation) :
    (s.mergeOperation op).nodeId = s.nodeId ∧
    (s.mergeOperation op).operationLog =
      (if s.operationLog.any fun o => o.timestamp = op.timestamp ∧ o.nodeId = op.nodeId then
        s.operationLog else s.operationLog ++ [op]) ∧
    (s.mergeOperation op).lamportClock = (max op.timestamp s.lamportClock + 1) % u64Size ∧
    (s.mergeOperation op).vectorClock = (s.updateVectorClock op.timestamp).vectorClock := by
  obtain ⟨hnode, hlog, hvector, hclock⟩ :=
    applyOperation_frame (s.updateTimestamp op.timestamp) op
  unfold mergeOperation
  dsimp only
  rw [hlog]
  simp only [updateVectorClock, apply_ite nodeId, apply_ite operationLog, apply_ite lamportClock,
    apply_ite vectorClock, hnode, hlog, hvector, hclock, ite_self]
  exact ⟨rfl, rfl, rfl, rfl⟩

theorem getRecord_mergeOperation (s : CrdtStore) (op : CrdtOperation) (tb : String) (k : Int64) :
    (s.mergeOperation op).getRecord tb k =
      if tb = op.table ∧ k = op.key then op.applyTo (s.getRecord tb k) else s.getRecord tb k := by
  have hstate : (s.mergeOperation op).state =
      ((s.updateTimestamp op.timestamp).applyOperation op).state := by
    unfold mergeOperation
    dsimp only [updateVectorClock]
    rw [apply_ite state, ite_self]
  rw [getRecord_congr hstate]
  exact getRecord_applyOperation (s.updateTimestamp op.timestamp) op tb k

end CrdtStore

end VelociDB.Crdt
