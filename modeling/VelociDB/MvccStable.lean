/-
# Reads within a transaction

While a snapshot is active the other transactions change nothing it reads, with one
exception: `delete_version` writes over the mark of a version that is already deleted, and
a snapshot that saw the old mark does not see the new one.

A transaction does not read its own inserts: the version is stamped with the time of the
insert, which is later than the snapshot.  It reads its own deletes when the version it
marked was the only one it saw.

    INSERT    reads as before
    DELETE    reads the newest of the older versions it sees
    others    reads as before, unless they delete a version it sees as deleted
-/
import VelociDB.MvccVacuum

namespace VelociDB.Mvcc

namespace RecordVersion

/-- The snapshot sees the version and its deletion. -/
def SeenDeleted (S : Snapshot) (v : RecordVersion) : Prop :=
  v.versionInfo.createdAt ≤ S.timestamp ∧ S.isTransactionVisible v.versionInfo.xmin ∧
    0 < v.versionInfo.xmax ∧ S.isTransactionVisible v.versionInfo.xmax

instance (S : Snapshot) (v : RecordVersion) : Decidable (v.SeenDeleted S) :=
  inferInstanceAs (Decidable (_ ∧ _ ∧ _ ∧ _))

/-- A mark the snapshot does not see, on a version it does not see as deleted. -/
theorem isVisible_marked_unseen {S : Snapshot} {v : RecordVersion} {t : TransactionId}
    (time : Timestamp) (ht : S.isTransactionVisible t = false) (hv : ¬ v.SeenDeleted S) :
    RecordVersion.isVisible ⟨v.versionInfo.markDeleted t time, v.data⟩ S = v.isVisible S := by
  simp only [isVisible, VersionInfo.isVisible, VersionInfo.markDeleted, ht, Bool.and_false]
  by_cases hcreated : S.timestamp < v.versionInfo.createdAt
  · simp [hcreated]
  · cases hmin : S.isTransactionVisible v.versionInfo.xmin with
    | false => simp
    | true =>
        have hmark : (decide (0 < v.versionInfo.xmax) &&
            S.isTransactionVisible v.versionInfo.xmax) = false := by
          by_contra hseen
          simp only [Bool.not_eq_false, Bool.and_eq_true, decide_eq_true_eq] at hseen
          exact hv ⟨not_lt.mp hcreated, hmin, hseen.1, hseen.2⟩
        simp [hmark]

end RecordVersion

namespace Sys

open MvccManager

variable {s s' : Sys} {a : Act} {op : Op} {table : String} {key : Int64} {t u : TransactionId}
  {S U : Snapshot}

/-! ## The writes of others -/

/-- A snapshot sees nothing of another transaction that is active. -/
theorem Stamped.other_invisible (h : Stamped s) (hS : s.mvcc.activeSnapshots[t]? = some S)
    (hU : s.mvcc.activeSnapshots[u]? = some U) (hne : u ≠ t) :
    S.isTransactionVisible U.txnId = false := by
  obtain ⟨hid, -, -⟩ := h.own t S hS
  obtain ⟨hid', -, -⟩ := h.own u U hU
  rw [hid', Snapshot.isTransactionVisible, hid, if_neg hne]
  by_cases hle : t ≤ u
  · rw [if_pos hle]
  · have hseen := h.seen t S u hS ⟨U, hU⟩ (not_le.mp hle)
    rw [if_neg hle]
    simpa using hseen

/-- The transaction does not write the record and does not end. -/
def Others (t : TransactionId) (table : String) (key : Int64) : Act → Prop
  | .insert u tb k _ | .delete u tb k => tb = table → k = key → u ≠ t
  | .commit u | .abort u => u ≠ t
  | .begin | .elsewhere => True

/-- No delete of the record finds a version that the snapshot sees as deleted. -/
def NoRedelete (S : Snapshot) (table : String) (key : Int64) (s : Sys) : Act → Prop
  | .delete _ tb k => tb = table → k = key →
      ∀ v ∈ (s.mvcc.versionsAt table key).getLast?, ¬ v.SeenDeleted S
  | _ => True

/-- The snapshot is active and reads what it read. -/
structure Rereads (t : TransactionId) (S : Snapshot) (table : String) (key : Int64)
    (data : Option (List Value)) (s : Sys) : Prop where
  stamped : Stamped s
  active : s.mvcc.activeSnapshots[t]? = some S
  reads : s.mvcc.readVersion table key S = data

theorem Rereads.step {data : Option (List Value)} (h : Rereads t S table key data s)
    (hwrap : NoWrap s) (hothers : Others t table key a) (hok : NoRedelete S table key s a)
    (hx : Effect s a s') : Rereads t S table key data s' := by
  have hst := h.stamped.step hwrap hx
  have hreads := h.reads
  rw [readVersion_eq] at hreads
  cases hx with
  | begin =>
      refine ⟨hst, ?_, h.reads⟩
      show (s.mvcc.activeSnapshots.insert s.nextTxnId _)[t]? = some S
      have hne : s.nextTxnId ≠ t := (h.stamped.own t S h.active).2.2.ne'
      rw [Std.ExtTreeMap.getElem?_insert, if_neg (by simpa using hne)]
      exact h.active
  | elsewhere => exact ⟨hst, h.active, h.reads⟩
  | @insert u tb k value U hU =>
      refine ⟨hst, h.active, ?_⟩
      show (s.mvcc.insertVersion tb k value U).readVersion table key S = data
      rw [readVersion_eq, versionsAt_insertVersion]
      split
      · rename_i heq
        obtain ⟨rfl, rfl⟩ := heq
        have hunseen := h.stamped.other_invisible h.active hU (hothers rfl rfl)
        rw [newest_append_neg, hreads]
        simp [RecordVersion.isVisible, VersionInfo.isVisible, VersionInfo.new, hunseen]
      · exact hreads
  | @delete u tb k U ws v m hU hvs hactive htime hset =>
      refine ⟨hst, ?_, ?_⟩
      · show m.activeSnapshots[t]? = some S
        rw [hactive]
        exact h.active
      · show m.readVersion table key S = data
        rw [readVersion_eq, hset]
        split
        · rename_i heq
          obtain ⟨rfl, rfl⟩ := heq
          have hkept := hok rfl rfl v (by simp [hvs])
          have hsame := RecordVersion.isVisible_marked_unseen s.mvcc.currentTimestamp
            (h.stamped.other_invisible h.active hU (hothers rfl rfl)) hkept
          rw [hvs] at hreads
          by_cases hv : v.isVisible S
          · rw [newest_append_pos (by rw [hsame]; exact hv)]
            rw [newest_append_pos hv] at hreads
            exact hreads
          · rw [newest_append_neg (by rw [hsame]; exact hv)]
            rw [newest_append_neg hv] at hreads
            exact hreads
        · exact hreads
  | missing => exact ⟨hst, h.active, h.reads⟩
  | @commit u U hU | @abort u U hU =>
      refine ⟨hst, (getElem?_erase_iff (s := s) rfl).mpr ⟨?_, h.active⟩, h.reads⟩
      rw [(h.stamped.own u U hU).1]
      exact Ne.symm hothers

/-- Reads are repeatable: while other transactions begin, write, commit and abort, a snapshot
reads of a record what it read, as long as its own transaction does not write the record and
nobody deletes again a version of it that the snapshot sees as deleted. -/
theorem repeatable_read
    (hs : Transition.Reaches (Transition.Via perform) (fun s _ => NoWrap s) init s)
    (hS : s.mvcc.activeSnapshots[t]? = some S)
    (hrun : Transition.Reaches (Transition.Via step)
      (fun s' a => NoWrap s' ∧ Others t table key a ∧ NoRedelete S table key s' a) s s') :
    s'.mvcc.readVersion table key S = s.mvcc.readVersion table key S := by
  have hend : Rereads t S table key (s.mvcc.readVersion table key S) s' := by
    refine Transition.Reaches.invariant ⟨(stamped_clocked hs).1, hS, rfl⟩ ?_ hrun
    rintro s₁ a s₂ h ⟨hwrap, hothers, hok⟩ hstep
    exact h.step hwrap hothers hok (effect_of_step hstep)
  exact hend.reads

instance (t : TransactionId) (table : String) (key : Int64) :
    (a : Act) → Decidable (Others t table key a)
  | .insert u tb k _ | .delete u tb k =>
      inferInstanceAs (Decidable (tb = table → k = key → u ≠ t))
  | .commit u | .abort u => inferInstanceAs (Decidable (u ≠ t))
  | .begin | .elsewhere => inferInstanceAs (Decidable True)

instance (S : Snapshot) (table : String) (key : Int64) (s : Sys) :
    (a : Act) → Decidable (NoRedelete S table key s a)
  | .delete _ tb k => inferInstanceAs (Decidable (tb = table → k = key →
      ∀ v ∈ (s.mvcc.versionsAt table key).getLast?, ¬ v.SeenDeleted S))
  | .begin | .elsewhere | .insert _ _ _ _ | .commit _ | .abort _ =>
      inferInstanceAs (Decidable True)

/-- A committed row, and a reader that begins. -/
def readerBegins : List Op :=
  [.call .begin, .call (.insert 1 "t" 1 [.integer 7]), .call (.commit 1), .call .begin]

/-- The reader still reads the row after another transaction has replaced and deleted it. -/
theorem repeatable_read_replaced : ∃ (s s' : Sys) (S : Snapshot),
    Transition.runActions perform (fun s _ => NoWrap s) init readerBegins = some s ∧
    s.mvcc.activeSnapshots[2]? = some S ∧
    Transition.runActions step
      (fun s' a => NoWrap s' ∧ Others 2 "t" 1 a ∧ NoRedelete S "t" 1 s' a) s
      [.begin, .delete 3 "t" 1, .insert 3 "t" 1 [.integer 8], .delete 3 "t" 1, .commit 3] =
        some s' ∧
    s'.mvcc.readVersion "t" 1 S = some [.integer 7] := by
  obtain ⟨s, hs, hfacts⟩ : ∃ s, Transition.runActions perform (fun s _ => NoWrap s) init
      readerBegins = some s ∧
      (s.mvcc.activeSnapshots[2]?.map fun S => (s.mvcc.readVersion "t" 1 S,
        (Transition.runActions step
          (fun s' a => NoWrap s' ∧ Others 2 "t" 1 a ∧ NoRedelete S "t" 1 s' a) s
          [.begin, .delete 3 "t" 1, .insert 3 "t" 1 [.integer 8], .delete 3 "t" 1,
            .commit 3]).isSome)) = some (some [.integer 7], true) :=
    Option.map_eq_some_iff.mp (by with_unfolding_all decide)
  obtain ⟨S, hS, hfacts⟩ := Option.map_eq_some_iff.mp hfacts
  obtain ⟨hread, hrun⟩ := Prod.mk.inj hfacts
  obtain ⟨s', hs'⟩ := Option.isSome_iff_exists.mp hrun
  refine ⟨s, s', S, hs, hS, hs', ?_⟩
  rw [repeatable_read (Transition.reaches_of_runActions readerBegins .refl hs) hS
    (Transition.reaches_of_runActions _ .refl hs'), hread]

/-- A committed row, its committed deletion, and a reader that begins after it. -/
def readerBeginsLate : List Op :=
  [.call .begin, .call (.insert 1 "t" 1 [.integer 7]), .call (.commit 1), .call .begin,
    .call (.delete 2 "t" 1), .call (.commit 2), .call .begin]

/-- The row comes back when it is deleted once more. -/
theorem not_repeatable_read : ¬ ∀ (s s' : Sys) (t : TransactionId) (S : Snapshot) (table : String)
    (key : Int64), Transition.Reaches (Transition.Via perform) (fun s _ => NoWrap s) init s →
    s.mvcc.activeSnapshots[t]? = some S →
    Transition.Reaches (Transition.Via step) (fun s' a => NoWrap s' ∧ Others t table key a) s s' →
    s'.mvcc.readVersion table key S = s.mvcc.readVersion table key S := by
  intro hall
  obtain ⟨s, hs, hfacts⟩ : ∃ s, Transition.runActions perform (fun s _ => NoWrap s) init
      readerBeginsLate = some s ∧
      (s.mvcc.activeSnapshots[3]?.bind fun S => (Transition.runActions step
        (fun s' a => NoWrap s' ∧ Others 3 "t" 1 a) s [.begin, .delete 4 "t" 1]).map fun s' =>
          (s.mvcc.readVersion "t" 1 S, s'.mvcc.readVersion "t" 1 S)) =
        some (none, some [.integer 7]) :=
    Option.map_eq_some_iff.mp (by with_unfolding_all decide)
  obtain ⟨S, hS, hfacts⟩ := Option.bind_eq_some_iff.mp hfacts
  obtain ⟨s', hs', hfacts⟩ := Option.map_eq_some_iff.mp hfacts
  obtain ⟨hbefore, hafter⟩ := Prod.mk.inj hfacts
  have hsame := hall s s' 3 S "t" 1 (Transition.reaches_of_runActions readerBeginsLate .refl hs) hS
    (Transition.reaches_of_runActions _ .refl hs')
  rw [hbefore, hafter] at hsame
  cases hsame

/-! ## A transaction's own writes -/

/-- The call that makes a write. -/
def call (w : Write) : Act :=
  match w.effect with
  | some data => .insert w.txn w.table w.key data
  | none => .delete w.txn w.table w.key

/-- An insert repeats the values of the newest version the snapshot sees, and a delete finds
no version that it sees below the newest one. -/
def ReadsBack (s : Sys) (S : Snapshot) (w : Write) : Prop :=
  match w.effect with
  | some data =>
      newest (fun v => v.isVisible S) (s.mvcc.versionsAt w.table w.key) = some data
  | none => ∀ v ∈ (s.mvcc.versionsAt w.table w.key).dropLast, ¬ v.isVisible S

/-- Nobody writes the record, the transaction does not end, and a vacuum finds the versions
that active snapshots see pinned. -/
def Unwritten (t : TransactionId) (table : String) (key : Int64) (s : Sys) : Op → Prop
  | .call (.insert _ tb k _) | .call (.delete _ tb k) => ¬ (tb = table ∧ k = key)
  | .call (.commit u) | .call (.abort u) => u ≠ t
  | .call .begin | .call .elsewhere => True
  | .vacuum => s.Pinned

theorem Rereads.unwritten {data : Option (List Value)} (h : Rereads t S table key data s)
    (hcl : Clocked s) (hwrap : NoWrap s) (hok : Unwritten t table key s op)
    (hstep : s.perform op = some s') : Rereads t S table key data s' := by
  cases op with
  | vacuum =>
      obtain rfl := Option.some.inj hstep
      refine ⟨h.stamped.vacuumed, h.active, ?_⟩
      rw [← h.reads]
      refine readVersion_retained (versionsAt_vacuumed s table key) fun v hv hvis => ?_
      by_contra hold
      exact (past_minActive h.stamped hcl).unseen t S (Or.inr hok) h.active table key v hv hold hvis
  | call a =>
      refine h.step hwrap ?_ ?_ (effect_of_step hstep)
      · cases a with
        | insert | delete => exact fun htb hk => absurd ⟨htb, hk⟩ hok
        | commit | abort => exact hok
        | begin | elsewhere => trivial
      · cases a with
        | delete => exact fun htb hk => absurd ⟨htb, hk⟩ hok
        | insert | commit | abort | begin | elsewhere => trivial

/-- A transaction does not see what it inserts: it reads as before. -/
theorem readVersion_own_insert (hcl : Clocked s) (hS : s.mvcc.activeSnapshots[t]? = some S)
    (data : List Value) : (s.mvcc.insertVersion table key data S).readVersion table key S =
      newest (fun v => v.isVisible S) (s.mvcc.versionsAt table key) := by
  rw [readVersion_eq, versionsAt_insertVersion, if_pos ⟨rfl, rfl⟩, newest_append_neg]
  simp [RecordVersion.isVisible, VersionInfo.isVisible, VersionInfo.new, hcl.began t S hS]

/-- A transaction does not see what it has marked. -/
theorem not_isVisible_own_mark (v : RecordVersion) (time : Timestamp) (hpos : 0 < S.txnId) :
    ¬ RecordVersion.isVisible ⟨v.versionInfo.markDeleted S.txnId time, v.data⟩ S := by
  simp [RecordVersion.isVisible, VersionInfo.isVisible, VersionInfo.markDeleted, hpos,
    Snapshot.isTransactionVisible]

theorem activeSnapshots_call {w : Write} (hstep : s.step (call w) = some s') :
    s'.mvcc.activeSnapshots = s.mvcc.activeSnapshots := by
  obtain ⟨t, table, key, effect⟩ := w
  cases effect with
  | some data => cases effect_of_step hstep with
    | insert => rfl
  | none => cases effect_of_step hstep with
    | delete _ _ hactive => exact hactive
    | missing => rfl

/-- Right after a write. -/
theorem readsBack_iff {w : Write} (hst : Stamped s) (hcl : Clocked s)
    (hS : s.mvcc.activeSnapshots[w.txn]? = some S) (hstep : s.step (call w) = some s')
    (hmade : s'.history.writes = s.history.writes ++ [w]) :
    s'.mvcc.readVersion w.table w.key S = w.effect ↔ s.ReadsBack S w := by
  obtain ⟨t, table, key, effect⟩ := w
  cases effect with
  | some data =>
      cases effect_of_step hstep with
      | @insert _ _ _ _ S' hS' =>
          obtain rfl := Option.some.inj (hS.symm.trans hS')
          show (s.mvcc.insertVersion table key data S).readVersion table key S = some data ↔ _
          rw [readVersion_own_insert hcl hS]
          rfl
  | none =>
      cases effect_of_step hstep with
      | @delete _ _ _ S' ws v m hS' hvs hactive htime hset =>
          obtain rfl := Option.some.inj (hS.symm.trans hS')
          obtain ⟨hid, hpos, -⟩ := hst.own t S hS
          show m.readVersion table key S = none ↔
            ∀ v ∈ (s.mvcc.versionsAt table key).dropLast, ¬ v.isVisible S
          rw [readVersion_eq, hset, if_pos ⟨rfl, rfl⟩,
            newest_append_neg (not_isVisible_own_mark v _ (hid ▸ hpos)), hvs, List.dropLast_concat]
          exact newest_eq_none
      | missing =>
          -- a delete that fails is not in the history
          have hlength := congrArg List.length hmade
          simp at hlength

/-- A transaction that wrote a record reads its own write, until somebody writes the record
again, exactly when the write is one that it reads back. -/
theorem reads_own_write_iff {s₁ : Sys} {w : Write}
    (hs : Transition.Reaches (Transition.Via perform) (fun s _ => NoWrap s) init s)
    (hwrap : NoWrap s) (hS : s.mvcc.activeSnapshots[w.txn]? = some S)
    (hstep : s.step (call w) = some s₁) (hmade : s₁.history.writes = s.history.writes ++ [w])
    (hrun : Transition.Reaches (Transition.Via perform)
      (fun s' op => NoWrap s' ∧ Unwritten w.txn w.table w.key s' op) s₁ s') :
    s'.mvcc.readVersion w.table w.key S = w.effect ↔ s.ReadsBack S w := by
  obtain ⟨hst, hcl⟩ := stamped_clocked hs
  rw [← readsBack_iff hst hcl hS hstep hmade]
  have hperform : s.perform (.call (call w)) = some s₁ := hstep
  obtain ⟨hst₁, hcl₁⟩ := stamped_clocked_step hst hcl hwrap hperform
  have hactive : s₁.mvcc.activeSnapshots[w.txn]? = some S := by
    rw [activeSnapshots_call hstep]
    exact hS
  obtain ⟨-, hend⟩ : Clocked s' ∧
      Rereads w.txn S w.table w.key (s₁.mvcc.readVersion w.table w.key S) s' := by
    refine Transition.Reaches.invariant (I := fun s' => Clocked s' ∧
      Rereads w.txn S w.table w.key (s₁.mvcc.readVersion w.table w.key S) s')
      ⟨hcl₁, hst₁, hactive, rfl⟩ ?_ hrun
    rintro s₂ op s₃ ⟨hcl₂, h₂⟩ ⟨hwrap₂, hok⟩ hstep₂
    exact ⟨(stamped_clocked_step h₂.stamped hcl₂ hwrap₂ hstep₂).2,
      h₂.unwritten hcl₂ hwrap₂ hok hstep₂⟩
  rw [hend.reads]

/-- The reader deletes the row; another transaction begins, and the reader reads. -/
theorem reads_own_write_deleted : ∃ (s s₁ s' : Sys) (S : Snapshot),
    Transition.runActions perform (fun s _ => NoWrap s) init readerBegins = some s ∧
    s.mvcc.activeSnapshots[2]? = some S ∧ s.mvcc.readVersion "t" 1 S = some [.integer 7] ∧
    s.step (call ⟨2, "t", 1, none⟩) = some s₁ ∧ s₁.step .begin = some s' ∧
    s'.mvcc.readVersion "t" 1 S = none := by
  obtain ⟨s, hs, hfacts⟩ : ∃ s, Transition.runActions perform (fun s _ => NoWrap s) init
      readerBegins = some s ∧
      (s.mvcc.activeSnapshots[2]?.bind fun S => (s.step (call ⟨2, "t", 1, none⟩)).bind fun s₁ =>
        (s₁.step .begin).map fun _ => (s.mvcc.readVersion "t" 1 S,
          decide (∀ v ∈ (s.mvcc.versionsAt "t" 1).dropLast, ¬ v.isVisible S),
          decide (NoWrap s ∧ NoWrap s₁),
          decide (s₁.history.writes.length = s.history.writes.length + 1))) =
        some (some [.integer 7], true, true, true) :=
    Option.map_eq_some_iff.mp (by with_unfolding_all decide)
  obtain ⟨S, hS, hfacts⟩ := Option.bind_eq_some_iff.mp hfacts
  obtain ⟨s₁, hstep, hfacts⟩ := Option.bind_eq_some_iff.mp hfacts
  obtain ⟨s', hs', hfacts⟩ := Option.map_eq_some_iff.mp hfacts
  simp only [Prod.mk.injEq, decide_eq_true_eq] at hfacts
  obtain ⟨hread, hlone, ⟨hwrap, hwrap₁⟩, hlength⟩ := hfacts
  refine ⟨s, s₁, s', S, hs, hS, hread, hstep, hs', ?_⟩
  have hmade : s₁.history.writes = s.history.writes ++ [⟨2, "t", 1, none⟩] := by
    cases effect_of_step hstep with
    | delete => rfl
    | missing => simp at hlength
  have hok : NoWrap s₁ ∧ Unwritten 2 "t" 1 s₁ (.call .begin) := ⟨hwrap₁, trivial⟩
  exact (reads_own_write_iff (Transition.reaches_of_runActions readerBegins .refl hs) hwrap hS
    hstep hmade (.tail .refl hok hs')).mpr hlone

/-- A transaction does not read what it has just inserted. -/
theorem not_reads_own_write : ¬ ∀ (s s₁ : Sys) (S : Snapshot) (w : Write),
    Transition.Reaches (Transition.Via perform) (fun s _ => NoWrap s) init s → NoWrap s →
    s.mvcc.activeSnapshots[w.txn]? = some S → s.step (call w) = some s₁ →
    s₁.history.writes = s.history.writes ++ [w] →
    s₁.mvcc.readVersion w.table w.key S = w.effect := by
  intro hall
  obtain ⟨s, hs, hfacts⟩ : ∃ s, Transition.runActions perform (fun s _ => NoWrap s) init
      [.call .begin] = some s ∧
      (s.mvcc.activeSnapshots[1]?.bind fun S =>
        (s.step (call ⟨1, "t", 1, some [.integer 7]⟩)).map fun s₁ =>
          (decide (NoWrap s), s₁.mvcc.readVersion "t" 1 S)) = some (true, none) :=
    Option.map_eq_some_iff.mp (by with_unfolding_all decide)
  obtain ⟨S, hS, hfacts⟩ := Option.bind_eq_some_iff.mp hfacts
  obtain ⟨s₁, hstep, hfacts⟩ := Option.map_eq_some_iff.mp hfacts
  simp only [Prod.mk.injEq, decide_eq_true_eq] at hfacts
  obtain ⟨hwrap, hread⟩ := hfacts
  have hmade : s₁.history.writes = s.history.writes ++ [⟨1, "t", 1, some [.integer 7]⟩] := by
    cases effect_of_step hstep with
    | insert => rfl
  have hback := hall s s₁ S _ (Transition.reaches_of_runActions _ .refl hs) hwrap hS hstep hmade
  rw [hread] at hback
  cases hback

end Sys

end VelociDB.Mvcc
