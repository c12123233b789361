/-
# The files under the pager and their operations

`Pager` owns two files: the data file, written in place one page at a time, and the
WAL, written at its end.  Every access is one of the operations below; a function of
the storage layer that does I/O is a program over them (`IoProg`).

`perform` is the file system when nothing goes wrong.  `Faulty` adds what the error
results allow: an operation that fails may have had its effect or not, and a failed
`write_all` may have written any initial part of its bytes.  Reads do not fail,
except at the end of the file (`read_exact`).
-/
import VelociDB.Lib.Disk
import VelociDB.Lib.Prog
import VelociDB.Types

namespace VelociDB

open Bytes

/-- `PAGE_SIZE`.  Irreducible, so that `q * pageSize` is never unfolded into sums. -/
@[irreducible] def pageSize : Nat := 4096

theorem pageSize_eq : pageSize = 4096 := by unfold pageSize; rfl

theorem pageSize_pos : 0 < pageSize := by rw [pageSize_eq]; decide

/-- The data file and the WAL. -/
structure Disk where
  data : DiskFile
  wal : DiskFile

/-- The file operations of `Pager` and `WalManager`. -/
inductive DiskOp where
  | dataLen
  | dataSeek (offset : Nat)
  | dataRead (offset len : Nat)
  | dataWrite (offset : Nat) (bytes : Bytes)
  | dataSync
  | walLen
  | walSeek (offset : Nat)
  | walReadToEnd
  | walWrite (offset : Nat) (bytes : Bytes)
  | walSync
  | walSetLen (len : Nat)

/-- What an operation answers with on success. -/
def DiskOp.Ans : DiskOp → Type
  | .dataLen | .walLen => Nat
  | .dataRead .. | .walReadToEnd => Bytes
  | _ => Unit

/-- A program over the two files. -/
abbrev IoProg (α : Type) := Prog DiskOp DiskOp.Ans VelociError α

/-- One file operation with `?` after it. -/
def io (op : DiskOp) : IoProg op.Ans := Prog.lift op

namespace Disk

/-- `read_exact` past the end of the file. -/
def unexpectedEof : VelociError := .io "failed to fill whole buffer"

/-- An operation without faults. -/
def perform : (op : DiskOp) → Disk → Except VelociError op.Ans × Disk
  | .dataLen, d => (.ok d.data.now.length, d)
  | .dataSeek _, d => (.ok (), d)
  | .dataRead offset len, d =>
      if offset + len ≤ d.data.now.length then (.ok (window d.data.now offset len), d)
      else (.error unexpectedEof, d)
  | .dataWrite offset bytes, d => (.ok (), { d with data := d.data.writeTorn offset bytes })
  | .dataSync, d => (.ok (), { d with data := d.data.sync })
  | .walLen, d => (.ok d.wal.now.length, d)
  | .walSeek _, d => (.ok (), d)
  | .walReadToEnd, d => (.ok d.wal.now, d)
  | .walWrite offset bytes, d => (.ok (), { d with wal := d.wal.writeOrdered offset bytes })
  | .walSync, d => (.ok (), { d with wal := d.wal.sync })
  | .walSetLen len, d => (.ok (), { d with wal := d.wal.setLen len })

/-- The outcomes when nothing fails. -/
def Sound (op : DiskOp) (d : Disk) (r : Except VelociError op.Ans) (d' : Disk) : Prop :=
  (r, d') = perform op d

/-- The outcomes when any seek, write, sync or `set_len` may fail, its effect
applied or not. -/
inductive Faulty : (op : DiskOp) → Disk → Except VelociError op.Ans → Disk → Prop
  | done (op : DiskOp) (d : Disk) : Faulty op d (perform op d).1 (perform op d).2
  | dataSeek (offset : Nat) (d : Disk) (kind : String) :
      Faulty (.dataSeek offset) d (.error (.io kind)) d
  | dataWrite (offset : Nat) (bytes : Bytes) (d : Disk) (n : Nat) (kind : String) :
      Faulty (.dataWrite offset bytes) d (.error (.io kind))
        { d with data := d.data.writeTorn offset (bytes.take n) }
  | dataSyncLost (d : Disk) (kind : String) : Faulty .dataSync d (.error (.io kind)) d
  | dataSyncDone (d : Disk) (kind : String) :
      Faulty .dataSync d (.error (.io kind)) { d with data := d.data.sync }
  | walSeek (offset : Nat) (d : Disk) (kind : String) :
      Faulty (.walSeek offset) d (.error (.io kind)) d
  | walWrite (offset : Nat) (bytes : Bytes) (d : Disk) (n : Nat) (kind : String) :
      Faulty (.walWrite offset bytes) d (.error (.io kind))
        { d with wal := d.wal.writeOrdered offset (bytes.take n) }
  | walSyncLost (d : Disk) (kind : String) : Faulty .walSync d (.error (.io kind)) d
  | walSyncDone (d : Disk) (kind : String) :
      Faulty .walSync d (.error (.io kind)) { d with wal := d.wal.sync }
  | walSetLenLost (len : Nat) (d : Disk) (kind : String) :
      Faulty (.walSetLen len) d (.error (.io kind)) d
  | walSetLenDone (len : Nat) (d : Disk) (kind : String) :
      Faulty (.walSetLen len) d (.error (.io kind)) { d with wal := d.wal.setLen len }

/-- The same, but an append never fails once all of its bytes are down: a `write_all`
that fails has stopped short of the last byte, and `sync` only fails on an empty WAL. -/
def ShortFaults : (op : DiskOp) → Disk → Except VelociError op.Ans → Disk → Prop
  | .walWrite offset bytes, d, r, d' =>
      (r = .ok () ∧ d' = { d with wal := d.wal.writeOrdered offset bytes }) ∨
        ∃ n < bytes.length, (∃ kind, r = .error (.io kind)) ∧
          d' = { d with wal := d.wal.writeOrdered offset (bytes.take n) }
  | .walSync, d, r, d' => Faulty .walSync d r d' ∧ (r = .ok () ∨ d.wal.now = [])
  | op, d, r, d' => Faulty op d r d'

theorem ShortFaults.faulty {op : DiskOp} {d d' : Disk} {r : Except VelociError op.Ans}
    (h : ShortFaults op d r d') : Faulty op d r d' := by
  cases op with
  | walWrite o bs =>
      rcases h with ⟨rfl, rfl⟩ | ⟨n, -, ⟨kind, rfl⟩, rfl⟩
      · exact .done (.walWrite o bs) d
      · exact .walWrite o bs d n kind
  | walSync => exact h.1
  | _ => exact h

theorem Sound.shortFaults {op : DiskOp} {d d' : Disk} {r : Except VelociError op.Ans}
    (h : Sound op d r d') : ShortFaults op d r d' := by
  obtain ⟨rfl, rfl⟩ := Prod.mk.inj h
  cases op with
  | walWrite o bs => exact Or.inl ⟨rfl, rfl⟩
  | walSync => exact ⟨.done .walSync d, Or.inl rfl⟩
  | _ => exact .done _ d

theorem Sound.faulty {op : DiskOp} {d d' : Disk} {r : Except VelociError op.Ans}
    (h : Sound op d r d') : Faulty op d r d' := by
  obtain ⟨rfl, rfl⟩ := Prod.mk.inj h
  exact Faulty.done op d

/-! What each operation can do, error or not. -/

section Outcomes

variable {d d' : Disk} {offset len : Nat} {bytes : Bytes}

theorem Faulty.of_dataSeek {r : Except VelociError Unit} (h : Faulty (.dataSeek offset) d r d') :
    d' = d := by
  cases h <;> rfl

theorem Faulty.of_walSeek {r : Except VelociError Unit} (h : Faulty (.walSeek offset) d r d') :
    d' = d := by
  cases h <;> rfl

theorem Faulty.of_dataWrite {r : Except VelociError Unit}
    (h : Faulty (.dataWrite offset bytes) d r d') :
    (r = .ok () ∧ d' = { d with data := d.data.writeTorn offset bytes }) ∨
      ∃ n, (∃ kind, r = .error (.io kind)) ∧
        d' = { d with data := d.data.writeTorn offset (bytes.take n) } := by
  cases h with
  | done => exact Or.inl ⟨rfl, rfl⟩
  | dataWrite _ _ _ n kind => exact Or.inr ⟨n, ⟨kind, rfl⟩, rfl⟩

theorem Faulty.of_dataSync {r : Except VelociError Unit} (h : Faulty .dataSync d r d') :
    d' = { d with data := d.data.sync } ∨ (d' = d ∧ ∃ kind, r = .error (.io kind)) := by
  cases h with
  | done => exact Or.inl rfl
  | dataSyncLost _ kind => exact Or.inr ⟨rfl, kind, rfl⟩
  | dataSyncDone => exact Or.inl rfl

theorem Faulty.of_walWrite {r : Except VelociError Unit}
    (h : Faulty (.walWrite offset bytes) d r d') :
    (r = .ok () ∧ d' = { d with wal := d.wal.writeOrdered offset bytes }) ∨
      ∃ n, (∃ kind, r = .error (.io kind)) ∧
        d' = { d with wal := d.wal.writeOrdered offset (bytes.take n) } := by
  cases h with
  | done => exact Or.inl ⟨rfl, rfl⟩
  | walWrite _ _ _ n kind => exact Or.inr ⟨n, ⟨kind, rfl⟩, rfl⟩

theorem Faulty.of_walSync {r : Except VelociError Unit} (h : Faulty .walSync d r d') :
    d' = { d with wal := d.wal.sync } ∨ (d' = d ∧ ∃ kind, r = .error (.io kind)) := by
  cases h with
  | done => exact Or.inl rfl
  | walSyncLost _ kind => exact Or.inr ⟨rfl, kind, rfl⟩
  | walSyncDone => exact Or.inl rfl

theorem Faulty.of_walSetLen {r : Except VelociError Unit} (h : Faulty (.walSetLen len) d r d') :
    d' = { d with wal := d.wal.setLen len } ∨ (d' = d ∧ ∃ kind, r = .error (.io kind)) := by
  cases h with
  | done => exact Or.inl rfl
  | walSetLenLost _ _ kind => exact Or.inr ⟨rfl, kind, rfl⟩
  | walSetLenDone => exact Or.inl rfl

end Outcomes

/-- After a crash, each file holds something its `after` allows. -/
def Crashed (d d' : Disk) : Prop :=
  ∃ f ∈ d.data.after, ∃ w ∈ d.wal.after, d' = ⟨.stable f, .stable w⟩

/-- What is read now is among what a crash may leave, for both files. -/
def Consistent (d : Disk) : Prop := d.data.now ∈ d.data.after ∧ d.wal.now ∈ d.wal.after

theorem Faulty.consistent {op : DiskOp} {d d' : Disk} {r : Except VelociError op.Ans}
    (h : Faulty op d r d') (hd : Consistent d) : Consistent d' := by
  have hwrite : ∀ o bs, (d.wal.writeOrdered o bs).now ∈ (d.wal.writeOrdered o bs).after :=
    fun o bs => Or.inr ⟨bs.length, by rw [List.take_length]; rfl⟩
  have hset : ∀ n, (d.wal.setLen n).now ∈ (d.wal.setLen n).after := fun n => Or.inr rfl
  cases h with
  | done =>
      cases op with
      | dataRead o n =>
          have hsame : (perform (.dataRead o n) d).2 = d := by
            rw [perform]
            split <;> rfl
          rw [hsame]
          exact hd
      | dataWrite o bs => exact ⟨DiskFile.writeTorn_consistent hd.1 o bs, hd.2⟩
      | dataSync => exact ⟨rfl, hd.2⟩
      | walWrite o bs => exact ⟨hd.1, hwrite o bs⟩
      | walSync => exact ⟨hd.1, rfl⟩
      | walSetLen n => exact ⟨hd.1, hset n⟩
      | _ => exact hd
  | dataWrite o bs _ n => exact ⟨DiskFile.writeTorn_consistent hd.1 o _, hd.2⟩
  | dataSyncDone => exact ⟨rfl, hd.2⟩
  | walWrite o bs _ n => exact ⟨hd.1, hwrite o _⟩
  | walSyncDone => exact ⟨hd.1, rfl⟩
  | walSetLenDone n => exact ⟨hd.1, hset n⟩
  | _ => exact hd

theorem Consistent.exec {H : (op : DiskOp) → Disk → Except VelociError op.Ans → Disk → Prop}
    (hH : ∀ op d r d', H op d r d' → Faulty op d r d') {α : Type} {m : IoProg α} {d d' : Disk}
    {o : Except VelociError α} (h : Prog.Exec H m d o d') (hd : Consistent d) :
    Consistent d' := by
  induction h with
  | ret a d => exact hd
  | fail e d => exact hd
  | call hop _ ih => exact ih ((hH _ _ _ _ hop).consistent hd)

/-- The crash that loses nothing. -/
def settled (d : Disk) : Disk := ⟨.stable d.data.now, .stable d.wal.now⟩

theorem Consistent.crashed {d : Disk} (h : Consistent d) : Crashed d d.settled :=
  ⟨_, h.1, _, h.2, rfl⟩

end Disk

end VelociDB
