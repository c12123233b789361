/-
# The pager (`storage.rs`)

`Pager` buffers the pages of the active write group in `pending`, keeps the pages of
committed groups in `committed` until a checkpoint copies them into the data file, and
serves reads from `pending`, the cache, `committed` and the file, in this order.

A method is a program over the two files that passes the pager along (`PagerM`).  Its
error result is a value beside the pager, not a failed program: `&mut self` keeps what
was assigned before the error, and so does the model.

The cache is a concurrent hash map and evicts the entry its iteration meets first.
That order is unspecified; the field `order` holds the choices still to be made, and
every result below is for all of them.
-/
import VelociDB.Wal

namespace VelociDB

open Bytes

/-- `Page`: `PAGE_SIZE` bytes. -/
@[ext] structure Page where
  data : Bytes
  size : data.length = pageSize
  deriving DecidableEq

/-- `Page::new`. -/
def Page.new : Page := ⟨List.replicate pageSize 0, List.length_replicate⟩

instance : Inhabited Page := ⟨Page.new⟩

/-- A hash map from page ids to pages. -/
abbrev PageMap := Std.ExtTreeMap Nat Page

/-- `CACHE_SIZE`. -/
def cacheSize : Nat := 1024

/-- `CHECKPOINT_WAL_BYTES`. -/
def checkpointWalBytes : Nat := 4 * 1024 * 1024

/-- `Savepoint`: the prior `pending` entry of every page written since it began. -/
structure Savepoint where
  undo : Std.ExtTreeMap Nat (Option Page)
  numPages : Nat

/-- `Pager`, without the file handles. -/
structure Pager where
  numPages : Nat
  cache : PageMap
  /-- The counter beside the cache. -/
  cacheSize : Nat
  /-- The choices the iteration order of the cache is going to make. -/
  order : Nat → Nat
  wal : WalManager
  activeGroup : Option Nat
  pending : PageMap
  committed : PageMap
  groupStartPages : Nat
  savepoint : Option Savepoint

/-! ## Methods -/

/-- A method of the pager: its result and the pager after it. -/
def PagerM (α : Type) := Pager → IoProg (Except VelociError α × Pager)

namespace PagerM

variable {α β : Type}

/-- Sequencing; an error ends the method with the pager as it is. -/
def bind (m : PagerM α) (f : α → PagerM β) : PagerM β := fun p =>
  (m p).bind fun
    | (.ok a, p') => f a p'
    | (.error e, p') => .ret (.error e, p')

instance : Monad PagerM where
  pure a := fun p => .ret (.ok a, p)
  bind := bind

instance : MonadStateOf Pager PagerM where
  get := fun p => .ret (.ok p, p)
  set p := fun _ => .ret (.ok (), p)
  modifyGet f := fun p => .ret (.ok (f p).1, (f p).2)

instance : MonadExceptOf VelociError PagerM where
  throw e := fun p => .ret (.error e, p)
  tryCatch m h := fun p => (m p).bind fun
    | (.ok a, p') => .ret (.ok a, p')
    | (.error e, p') => h e p'

/-- A file operation. -/
def file (op : DiskOp) : PagerM op.Ans := fun p =>
  (Prog.attempt (io op)).bind fun r => .ret (r, p)

/-- A method of the WAL that hands its manager back beside the result. -/
def wal (m : WalManager → IoProg (Except VelociError α × WalManager)) : PagerM α := fun p =>
  (m p.wal).bind fun (r, w) => .ret (r, { p with wal := w })

/-- Run a method against the files, nothing going wrong. -/
def exec (m : PagerM α) (p : Pager) (d : Disk) : Except VelociError α × Pager × Disk :=
  match (m p).run Disk.perform d with
  | (.ok (r, p'), d') => (r, p', d')
  | (.error e, d') => (.error e, p, d')

end PagerM

namespace Pager

variable (crc : Bytes → UInt32)

/-- `WalManager::truncate`; on an error the manager is unchanged. -/
def truncateWal : PagerM Unit :=
  PagerM.wal fun w => do
    match ← Prog.attempt w.truncate with
    | .ok w' => return (.ok (), w')
    | .error e => return (.error e, w)

/-- `write_page_raw`. -/
def writePageRaw (pageId : Nat) (data : Bytes) : PagerM Unit := do
  if data.length ≠ pageSize then
    throw (.storageError s!"write_page_raw: expected {pageSize} bytes, got {data.length}")
  let offset := pageId * pageSize % u64Size
  PagerM.file (.dataSeek offset)
  PagerM.file (.dataWrite offset data)
  modify fun p => { p with
    numPages := if p.numPages ≤ pageId then (pageId + 1) % u64Size else p.numPages }

/-- Write pages to the data file one after another. -/
def writePagesRaw : List (Nat × Bytes) → PagerM Unit
  | [] => pure ()
  | w :: ws => do
      writePageRaw w.1 w.2
      writePagesRaw ws

/-- The pages of a map in the order of their ids. -/
def sortedPages (m : PageMap) : List (Nat × Bytes) := m.toList.map fun e => (e.1, e.2.data)

/-- `recover`. -/
def recover : PagerM Unit := do
  if (← get).wal.len = 0 then return
  let groups : List CommittedGroup ← PagerM.wal fun w => do
    match ← Prog.attempt (w.readCommittedGroups crc) with
    | .ok r => return r
    | .error e => return (.error e, w)
  writePagesRaw (groups.flatMap CommittedGroup.writes)
  if groups ≠ [] then
    PagerM.file .dataSync
  truncateWal

/-- `checkpoint`.  The pages are taken out of `committed` and put back on an error. -/
def checkpoint : PagerM Unit := do
  let committed := (← get).committed
  if committed.isEmpty then return
  modify fun p => { p with committed := ∅ }
  try
    writePagesRaw (sortedPages committed)
    PagerM.file .dataSync
    truncateWal
  catch e =>
    modify fun p => { p with committed := committed }
    throw e

/-- The pager with a new group. -/
def begun (p : Pager) : Pager :=
  { p with
    wal := p.wal.allocateGroupId.2
    activeGroup := some p.wal.allocateGroupId.1
    groupStartPages := p.numPages }

/-- `begin_group`. -/
def beginGroup : PagerM Nat := do
  if (← get).activeGroup.isSome then
    throw (.transactionError "Write group already active")
  let id := (← get).wal.allocateGroupId.1
  modify begun
  return id

/-- `in_group`. -/
def inGroup (p : Pager) : Bool := p.activeGroup.isSome

/-- `fetch_add(1)` on the counter. -/
def fetchAdd (n : Nat) : Nat := (n + 1) % u64Size

/-- `fetch_sub(1)` on the counter. -/
def fetchSub (n : Nat) : Nat := (n + (u64Size - 1)) % u64Size

/-- `evict`, on the cache and its counter. -/
def evict (c : PageMap × Nat) (pageId : Nat) : PageMap × Nat :=
  if c.1.contains pageId then (c.1.erase pageId, fetchSub c.2) else c

/-- `evict` pages one after another. -/
def evictAll (ids : List Nat) (c : PageMap × Nat) : PageMap × Nat := ids.foldl evict c

/-- The pager without its group. -/
def aborted (p : Pager) : Pager :=
  { p with
    activeGroup := none
    savepoint := none
    pending := ∅
    cache := (evictAll p.pending.keys (p.cache, p.cacheSize)).1
    cacheSize := (evictAll p.pending.keys (p.cache, p.cacheSize)).2
    numPages := p.groupStartPages }

/-- `abort_group`. -/
def abortGroup : PagerM Unit := do
  if (← get).activeGroup.isNone then
    throw (.transactionError "No active write group to abort")
  modify aborted

/-- The pager once its group is in the WAL. -/
def logged (p : Pager) : Pager :=
  { p with
    activeGroup := none
    committed := p.committed ∪ p.pending
    pending := ∅ }

/-- `commit_group`. -/
def commitGroup : PagerM Unit := do
  let some groupId := (← get).activeGroup
    | throw (.transactionError "No active write group to commit")
  modify fun p => { p with savepoint := none }
  let pending := (← get).pending
  if pending.isEmpty then
    modify fun p => { p with activeGroup := none }
    return
  try
    PagerM.wal fun w => w.appendGroup crc ⟨groupId, sortedPages pending⟩
  catch e =>
    try abortGroup catch _ => pure ()
    throw e
  modify logged
  if checkpointWalBytes ≤ (← get).wal.len then
    try checkpoint catch _ => pure ()

/-- `begin_savepoint`. -/
def beginSavepoint : PagerM Unit := do
  if (← get).activeGroup.isNone then
    throw (.transactionError "Savepoint requires an active write group")
  if (← get).savepoint.isSome then
    throw (.transactionError "Savepoint already active")
  modify fun p => { p with savepoint := some ⟨∅, p.numPages⟩ }

/-- `release_savepoint`. -/
def releaseSavepoint : PagerM Unit := modify fun p => { p with savepoint := none }

/-- `pending` with the entries of `undo` put back. -/
def restore (undo : List (Nat × Option Page)) (pending : PageMap) : PageMap :=
  undo.foldl (fun m e => match e.2 with
    | some page => m.insert e.1 page
    | none => m.erase e.1) pending

/-- The pager taken back to a savepoint. -/
def undone (sp : Savepoint) (p : Pager) : Pager :=
  { p with
    savepoint := none
    pending := restore sp.undo.toList p.pending
    cache := (evictAll sp.undo.keys (p.cache, p.cacheSize)).1
    cacheSize := (evictAll sp.undo.keys (p.cache, p.cacheSize)).2
    numPages := sp.numPages }

/-- `rollback_to_savepoint`. -/
def rollbackToSavepoint : PagerM Unit := do
  let some sp := (← get).savepoint
    | throw (.transactionError "No active savepoint")
  modify (undone sp)

/-- The loop that makes room in the cache: as long as it is full, drop the entry its
iteration meets first.  The loop of `write_page` stops at the page about to be
written. -/
def makeRoom (keep : Option Nat) :
    Nat → PageMap × Nat → (Nat → Nat) → (PageMap × Nat) × (Nat → Nat)
  | 0, c, order => (c, order)
  | fuel + 1, c, order =>
      if c.1.size < VelociDB.cacheSize then (c, order)
      else
        match c.1.keys[order 0 % c.1.size]? with
        | none => (c, order)
        | some key =>
            if keep = some key then (c, fun n => order (n + 1))
            else makeRoom keep fuel (evict c key) fun n => order (n + 1)

/-- Insert into the cache after making room; every round of the loop drops an entry. -/
def cachePage (keep : Option Nat) (pageId : Nat) (page : Page) (p : Pager) : Pager :=
  let room := makeRoom keep p.cache.size (p.cache, p.cacheSize) p.order
  { p with
    cache := room.1.1.insert pageId page
    cacheSize := if room.1.1.contains pageId then room.1.2 else fetchAdd room.1.2
    order := room.2 }

/-- `read_page`. -/
def readPage (pageId : Nat) : PagerM Page := do
  let p ← get
  if let some page := p.pending[pageId]? then return page
  if let some page := p.cache[pageId]? then return page
  let page ← match p.committed[pageId]? with
    | some page => pure page
    | none => do
        if p.numPages ≤ pageId then
          throw (.notFound s!"Page {pageId} out of bounds")
        let offset := pageId * pageSize % u64Size
        PagerM.file (.dataSeek offset)
        let bytes : Bytes ← PagerM.file (.dataRead offset pageSize)
        if h : bytes.length = pageSize then pure ⟨bytes, h⟩ else throw Disk.unexpectedEof
  modify (cachePage none pageId page)
  return page

/-- Note the prior `pending` entry of a page in the savepoint, the first time it is
written. -/
def noteUndo (pageId : Nat) (p : Pager) : Pager :=
  { p with savepoint := p.savepoint.map fun sp =>
      if sp.undo.contains pageId then sp
      else { sp with undo := sp.undo.insert pageId p.pending[pageId]? } }

/-- What `write_page` does to the pager once a group is active. -/
def bufferPage (pageId : Nat) (page : Page) (p : Pager) : Pager :=
  let p := noteUndo pageId p
  let p := { p with pending := p.pending.insert pageId page }
  let p := cachePage (some pageId) pageId page p
  { p with numPages := if p.numPages ≤ pageId then (pageId + 1) % u64Size else p.numPages }

/-- `write_page`. -/
def writePage (pageId : Nat) (page : Page) : PagerM Unit := do
  let autoGroup := (← get).activeGroup.isNone
  if autoGroup then
    let _ ← beginGroup
  modify (bufferPage pageId page)
  if autoGroup then
    commitGroup crc

/-- `allocate_page`. -/
def allocatePage : PagerM Nat := do
  let pageId := (← get).numPages
  writePage crc pageId Page.new
  return pageId

/-- `flush`. -/
def flush : PagerM Unit := do
  if (← get).activeGroup.isSome then
    try abortGroup catch _ => pure ()
  checkpoint
  PagerM.file .dataSync

/-- The pager `new` builds before recovery. -/
def fresh (numPages : Nat) (wal : WalManager) (order : Nat → Nat) : Pager where
  numPages := numPages
  cache := ∅
  cacheSize := 0
  order := order
  wal := wal
  activeGroup := none
  pending := ∅
  committed := ∅
  groupStartPages := numPages
  savepoint := none

/-- `Pager::new`.  When recovery fails the half-built pager is dropped, which flushes
it. -/
def new (order : Nat → Nat) : IoProg (Except VelociError Pager) := do
  let fileSize : Nat ← io .dataLen
  let numPages := if fileSize = 0 then 0 else (fileSize + pageSize - 1) / pageSize
  let wal ← WalManager.openWal
  match ← recover crc (fresh numPages wal order) with
  | (.ok _, p) => return .ok p
  | (.error e, p) => do
      let _ ← flush p
      return .error e

end Pager

end VelociDB
