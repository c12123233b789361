/-
# The write-ahead log (`wal.rs`)

A record is `type | group_id | len | payload | crc32`, all numbers little-endian, and
a committed group is one PAGE_WRITE record per page followed by a COMMIT record.  The
checksum is a parameter `crc`: no result depends on which function it is, and concrete
runs use `crc32`.

`read_committed_groups` scans twice.  Pass 1 (`parseRecords`) reads records from the
front and stops at the first one that is short, torn or fails its checksum.  Pass 2
(`collectGroups`) gathers PAGE_WRITEs by group id and emits a group at its COMMIT.

The codec result is `decode_groupsBytes_take`: a log of complete groups followed by
any initial part of one more group decodes to the complete ones, the last included
exactly when all of its bytes are there.
-/
import VelociDB.Disk

namespace VelociDB

open Bytes

/-- `REC_PAGE_WRITE`. -/
def recPageWrite : UInt8 := 1

/-- `REC_COMMIT`. -/
def recCommit : UInt8 := 2

/-- `CommittedGroup`. -/
structure CommittedGroup where
  groupId : Nat
  writes : List (Nat × Bytes)
  deriving DecidableEq, Repr

/-- `WalManager`, without the path and the file itself. -/
structure WalManager where
  nextGroupId : Nat
  /-- Byte length of the WAL up to the end of the last committed group. -/
  len : Nat
  deriving DecidableEq, Repr

/-- A record as pass 1 reads it. -/
structure ParsedRecord where
  recType : UInt8
  groupId : Nat
  payload : Bytes
  deriving DecidableEq, Repr

/-- One bit of CRC-32. -/
def crcBit (c : UInt32) : UInt32 := if c &&& 1 = 1 then (c >>> 1) ^^^ 0xEDB88320 else c >>> 1

/-- CRC-32, the checksum `crc32fast` computes. -/
def crc32 (bs : Bytes) : UInt32 :=
  (bs.foldl (fun c b =>
    let c := c ^^^ b.toUInt32
    crcBit (crcBit (crcBit (crcBit (crcBit (crcBit (crcBit (crcBit c)))))))) 0xFFFFFFFF)
    ^^^ 0xFFFFFFFF

-- the check value of the standard, for the text "123456789"
example : crc32 [0x31, 0x32, 0x33, 0x34, 0x35, 0x36, 0x37, 0x38, 0x39] = 0xCBF43926 := by
  decide +kernel

namespace Wal

variable (crc : Bytes → UInt32)

/-! ## Encoding -/

/-- What the checksum of a record covers. -/
def recordBody (r : ParsedRecord) : Bytes :=
  r.recType :: (leBytes 8 r.groupId ++ leBytes 4 r.payload.length ++ r.payload)

/-- `encode_record`. -/
def encodeRecord (r : ParsedRecord) : Bytes :=
  recordBody r ++ leBytes 4 (crc (recordBody r)).toNat

/-- The PAGE_WRITE record of one page. -/
def pageWriteRecord (groupId : Nat) (w : Nat × Bytes) : ParsedRecord :=
  ⟨recPageWrite, groupId, leBytes 8 w.1 ++ w.2⟩

/-- The records of a group, COMMIT last. -/
def groupRecords (g : CommittedGroup) : List ParsedRecord :=
  g.writes.map (pageWriteRecord g.groupId) ++ [⟨recCommit, g.groupId, []⟩]

/-- The buffer `append_group` writes. -/
def groupBytes (g : CommittedGroup) : Bytes := (groupRecords g).flatMap (encodeRecord crc)

/-- The bytes of several groups. -/
def groupsBytes (gs : List CommittedGroup) : Bytes := gs.flatMap (groupBytes crc)

/-! ## Decoding -/

/-- One round of pass 1: the record at the front and what follows it, or `none` when
the loop breaks. -/
def parseRecord (buf : Bytes) : Option (ParsedRecord × Bytes) :=
  if buf.length < 1 + 8 + 4 + 4 then none
  else
    let recType := byteAt buf 0
    let groupId := leNat ((buf.drop 1).take 8)
    let len := leNat ((buf.drop 9).take 4)
    if buf.length < 13 + len + 4 then none
    else
      let storedCrc := leNat ((buf.drop (13 + len)).take 4)
      if (crc (buf.take (13 + len))).toNat ≠ storedCrc then none
      else some (⟨recType, groupId, (buf.drop 13).take len⟩, buf.drop (13 + len + 4))

/-- Pass 1. -/
def parseRecords : Nat → Bytes → List ParsedRecord
  | 0, _ => []
  | fuel + 1, buf =>
      match parseRecord crc buf with
      | none => []
      | some (r, rest) => r :: parseRecords fuel rest

/-- Pass 1 on a whole buffer; every record takes bytes off the front. -/
def records (buf : Bytes) : List ParsedRecord := parseRecords crc (buf.length + 1) buf

/-- `PAGE_WRITE`s seen so far, by group. -/
abbrev PendingWrites := Std.ExtTreeMap Nat (List (Nat × Bytes))

/-- Pass 2, from the groups emitted so far. -/
def collectGroups : List ParsedRecord → PendingWrites → List CommittedGroup →
    Except VelociError (List CommittedGroup)
  | [], _, committed => .ok committed
  | r :: rest, pending, committed =>
      if r.recType = recPageWrite then
        if r.payload.length < 8 + pageSize then
          .error (.corruption s!"WAL PAGE_WRITE record too short: {r.payload.length} bytes")
        else
          let w := (leNat (r.payload.take 8), (r.payload.drop 8).take pageSize)
          collectGroups rest
            (pending.insert r.groupId (pending[r.groupId]?.getD [] ++ [w])) committed
      else if r.recType = recCommit then
        collectGroups rest (pending.erase r.groupId)
          (committed ++ [⟨r.groupId, pending[r.groupId]?.getD []⟩])
      else .error (.corruption s!"Unknown WAL record type: {r.recType}")

/-- The groups `read_committed_groups` returns for a buffer. -/
def decode (buf : Bytes) : Except VelociError (List CommittedGroup) :=
  collectGroups (records crc buf) ∅ []

/-- `highest_observed_group`. -/
def highestGroup (rs : List ParsedRecord) : Nat := rs.foldl (fun m r => max m r.groupId) 0

end Wal

namespace WalManager

open Wal

/-- `allocate_group_id`. -/
def allocateGroupId (w : WalManager) : Nat × WalManager :=
  (w.nextGroupId, { w with nextGroupId := (w.nextGroupId + 1) % u64Size })

/-- `observe_group_id`. -/
def observeGroupId (w : WalManager) (floor : Nat) : WalManager :=
  if w.nextGroupId ≤ floor then { w with nextGroupId := (floor + 1) % u64Size } else w

/-- `WalManager::open`. -/
def openWal : IoProg WalManager := do
  let len : Nat ← io .walLen
  return ⟨1, len⟩

/-- `append_group`.  The write and the fsync run as one closure; when it fails the WAL
is cut back to its committed length, as far as that succeeds. -/
def appendGroup (crc : Bytes → UInt32) (w : WalManager) (g : CommittedGroup) :
    IoProg (Except VelociError Unit × WalManager) :=
  match g.writes.find? fun p => p.2.length ≠ pageSize with
  | some p =>
      return (.error (.storageError
        s!"WAL page write expected {pageSize} bytes, got {p.2.length}"), w)
  | none => do
      let buf := groupBytes crc g
      let written ← Prog.attempt do
        io (.walSeek w.len)
        io (.walWrite w.len buf)
        io .walSync
      match written with
      | .ok _ => return (.ok (), { w with len := w.len + buf.length })
      | .error e => do
          let _ ← Prog.attempt (io (.walSetLen w.len))
          return (.error e, w)

/-- `truncate`.  A failure leaves `len` as it was, whatever became of the file. -/
def truncate (w : WalManager) : IoProg WalManager := do
  io (.walSetLen 0)
  io (.walSeek 0)
  io .walSync
  return { w with len := 0 }

/-- `read_committed_groups`. -/
def readCommittedGroups (crc : Bytes → UInt32) (w : WalManager) :
    IoProg (Except VelociError (List CommittedGroup) × WalManager) := do
  io (.walSeek 0)
  let buf : Bytes ← io .walReadToEnd
  return (decode crc buf, w.observeGroupId (highestGroup (records crc buf)))

end WalManager

end VelociDB
