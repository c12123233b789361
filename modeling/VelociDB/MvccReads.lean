/-
# Snapshots read the committed past

A snapshot taken while no transaction is active reads of every record the effect of the
last committed write, as long as

    DELETE   finds no live version of the record older than the newest one
    ABORT    leaves no live version of its own and no deletion mark on another's

and it goes on reading that while its own transaction does not write the record and nobody
deletes again a version that was deleted before the snapshot was taken.  `RecordInv` is
the invariant of one record; its lemmas say what one call does to it.
-/
import VelociDB.Mvcc

namespace VelociDB.Mvcc

/-! ## Versions of a record -/

namespace RecordVersion

/-- Not marked as deleted. -/
def Live (v : RecordVersion) : Prop := v.versionInfo.xmax = 0

instance (v : RecordVersion) : Decidable v.Live := inferInstanceAs (Decidable (_ = _))

end RecordVersion

/-- The data of the newest version with a property. -/
def newest (p : RecordVersion → Bool) (vs : List RecordVersion) : Option (List Value) :=
  (vs.filter p).getLast?.map RecordVersion.data

/-- The data of the newest live version. -/
abbrev lastLive (vs : List RecordVersion) : Option (List Value) := newest (fun v => v.Live) vs

variable {vs ws : List RecordVersion} {v : RecordVersion} {p : RecordVersion → Bool}

theorem newest_append_pos (h : p v) : newest p (vs ++ [v]) = some v.data := by
  simp [newest, h]

theorem newest_append_neg (h : ¬ p v) : newest p (vs ++ [v]) = newest p vs := by
  simp [newest, h]

theorem newest_eq_none : newest p vs = none ↔ ∀ v ∈ vs, ¬ p v := by
  simp [newest]

/-- Versions without the property do not count. -/
theorem newest_filter {q : RecordVersion → Bool} (h : ∀ v ∈ vs, p v → q v) :
    newest p (vs.filter q) = newest p vs := by
  rw [newest, List.filter_filter, newest]
  refine congrArg (fun l => l.getLast?.map RecordVersion.data) (List.filter_congr fun v hv => ?_)
  cases hp : p v with
  | false => simp
  | true => simp [h v hv hp]

/-! ## The invariant of a record

`active` are the running transactions, `last` the last write of each transaction to the
record, and `committed` the effect of the last committed one. -/

structure RecordInv (vs : List RecordVersion) (active : TransactionId → Prop)
    (last : TransactionId → Option (Option (List Value))) (committed : Option (List Value)) :
    Prop where
  authors : ∀ v ∈ vs, last v.versionInfo.xmin ≠ none
  single : ∀ t u, active t → active u → last t ≠ none → last u ≠ none → t = u
  idle : (∀ t, active t → last t = none) → lastLive vs = committed
  busy : ∀ t, active t → last t ≠ none → last t = some (lastLive vs) ∧
    ((∀ v ∈ vs, v.versionInfo.xmin ≠ t → v.versionInfo.xmax ≠ t) →
      lastLive (vs.filter fun v => v.versionInfo.xmin ≠ t) = committed)

namespace RecordInv

variable {active : TransactionId → Prop} {last : TransactionId → Option (Option (List Value))}
  {committed : Option (List Value)} {t : TransactionId}

/-- What is left without the versions of the only writer. -/
theorem others (h : RecordInv vs active last committed) (ht : active t)
    (honly : ∀ u, active u → u ≠ t → last u = none)
    (hmarks : ∀ v ∈ vs, v.versionInfo.xmin ≠ t → v.versionInfo.xmax ≠ t) :
    lastLive (vs.filter fun v => v.versionInfo.xmin ≠ t) = committed := by
  by_cases hwrote : last t = none
  · have hnone : ∀ v ∈ vs, v.versionInfo.xmin ≠ t := by
      rintro v hv rfl
      exact h.authors v hv hwrote
    rw [List.filter_eq_self.mpr fun v hv => by simpa using hnone v hv]
    refine h.idle fun u hu => ?_
    by_cases hut : u = t
    · rw [hut, hwrote]
    · exact honly u hu hut
  · exact (h.busy t ht hwrote).2 hmarks

theorem begin (h : RecordInv vs active last committed) (ht : last t = none) :
    RecordInv vs (fun u => u = t ∨ active u) last committed where
  authors := h.authors
  single u w hu hw hlu hlw := by
    rcases hu with rfl | hu
    · exact absurd ht hlu
    · rcases hw with rfl | hw
      · exact absurd ht hlw
      · exact h.single u w hu hw hlu hlw
  idle hno := h.idle fun u hu => hno u (Or.inr hu)
  busy u hu hlu := by
    rcases hu with rfl | hu
    · exact absurd ht hlu
    · exact h.busy u hu hlu

/-- After a write of `t`, the only writer that is active. -/
theorem written {vs' : List RecordVersion} {effect : Option (List Value)}
    (h : RecordInv vs active last committed) (ht : active t)
    (honly : ∀ u, active u → u ≠ t → last u = none)
    (hauthors : ∀ v ∈ vs', v.versionInfo.xmin = t ∨ ∃ w ∈ vs, w.versionInfo.xmin = v.versionInfo.xmin)
    (heffect : lastLive vs' = effect)
    (hothers : (∀ v ∈ vs', v.versionInfo.xmin ≠ t → v.versionInfo.xmax ≠ t) →
      lastLive (vs'.filter fun v => v.versionInfo.xmin ≠ t) = committed) :
    RecordInv vs' active (Function.update last t (some effect)) committed := by
  have hself : Function.update last t (some effect) t = some effect := Function.update_self ..
  have hwriter : ∀ u, active u → Function.update last t (some effect) u ≠ none → u = t := by
    intro u hu hlu
    by_contra hne
    rw [Function.update_of_ne hne] at hlu
    exact hlu (honly u hu hne)
  refine ⟨fun v hv => ?_, fun u w hu hw hlu hlw => ?_, fun hno => ?_, fun u hu hlu => ?_⟩
  · by_cases hvt : v.versionInfo.xmin = t
    · rw [hvt, hself]
      simp
    · obtain ⟨w, hw, heq⟩ := (hauthors v hv).resolve_left hvt
      rw [Function.update_of_ne hvt, ← heq]
      exact h.authors w hw
  · exact (hwriter u hu hlu).trans (hwriter w hw hlw).symm
  · have hbad := hno t ht
    rw [hself] at hbad
    cases hbad
  · obtain rfl := hwriter u hu hlu
    rw [hself, heffect]
    exact ⟨rfl, hothers⟩

theorem insert (h : RecordInv vs active last committed) (ht : active t)
    (honly : ∀ u, active u → u ≠ t → last u = none) (hmin : v.versionInfo.xmin = t) (hlive : v.Live) :
    RecordInv (vs ++ [v]) active (Function.update last t (some (some v.data))) committed := by
  refine h.written ht honly (fun w hw => ?_) (newest_append_pos (by simpa using hlive)) fun hmarks => ?_
  · rcases List.mem_append.mp hw with hw | hw
    · exact Or.inr ⟨w, hw, rfl⟩
    · obtain rfl := List.mem_singleton.mp hw
      exact Or.inl hmin
  · have hdrop : (vs ++ [v]).filter (fun v => v.versionInfo.xmin ≠ t) =
        vs.filter fun v => v.versionInfo.xmin ≠ t := by simp [hmin]
    rw [hdrop]
    exact h.others ht honly fun w hw => hmarks w (List.mem_append_left _ hw)

/-- The newest version is marked, and no older one is live. -/
theorem delete {v' : RecordVersion} (h : RecordInv (ws ++ [v]) active last committed)
    (ht : active t) (hpos : t ≠ 0) (honly : ∀ u, active u → u ≠ t → last u = none)
    (hmin : v'.versionInfo.xmin = v.versionInfo.xmin) (hmax : v'.versionInfo.xmax = t)
    (hdead : ∀ w ∈ ws, ¬ w.Live) :
    RecordInv (ws ++ [v']) active (Function.update last t (some none)) committed := by
  have hmarked : ¬ v'.Live := by
    rw [RecordVersion.Live, hmax]
    exact hpos
  refine h.written ht honly (fun w hw => ?_) (newest_eq_none.mpr fun w hw => ?_) fun hmarks => ?_
  · rcases List.mem_append.mp hw with hw | hw
    · exact Or.inr ⟨w, List.mem_append_left _ hw, rfl⟩
    · obtain rfl := List.mem_singleton.mp hw
      exact Or.inr ⟨v, by simp, hmin.symm⟩
  · rcases List.mem_append.mp hw with hw | hw
    · simpa using hdead w hw
    · obtain rfl := List.mem_singleton.mp hw
      simpa using hmarked
  · -- the mark is on a version of its own, which does not count here
    have hown : v.versionInfo.xmin = t := by
      by_contra hne
      exact hmarks v' (by simp) (by rwa [hmin]) hmax
    have hsame : (ws ++ [v']).filter (fun v => v.versionInfo.xmin ≠ t) =
        (ws ++ [v]).filter fun v => v.versionInfo.xmin ≠ t := by simp [hmin, hown]
    rw [hsame]
    refine h.others ht honly fun w hw => ?_
    rcases List.mem_append.mp hw with hw | hw
    · exact hmarks w (List.mem_append_left _ hw)
    · obtain rfl := List.mem_singleton.mp hw
      exact fun hne => absurd hown hne

theorem commit (h : RecordInv vs active last committed) (ht : active t) :
    RecordInv vs (fun u => u ≠ t ∧ active u) last ((last t).getD committed) where
  authors := h.authors
  single u w hu hw := h.single u w hu.2 hw.2
  idle hno := by
    by_cases hwrote : last t = none
    · rw [hwrote]
      refine h.idle fun u hu => ?_
      by_cases hut : u = t
      · rw [hut, hwrote]
      · exact hno u ⟨hut, hu⟩
    · rw [(h.busy t ht hwrote).1]
      rfl
  busy u hu hlu := by
    have hnone : last t = none := by
      by_contra hwrote
      exact hu.1 (h.single u t hu.2 ht hlu hwrote)
    rw [hnone]
    exact h.busy u hu.2 hlu

/-- An abort that leaves nothing behind. -/
theorem abort (h : RecordInv vs active last committed) (ht : active t)
    (hown : ∀ v ∈ vs, v.versionInfo.xmin = t → ¬ v.Live)
    (hmarks : ∀ v ∈ vs, v.versionInfo.xmin ≠ t → v.versionInfo.xmax ≠ t) :
    RecordInv vs (fun u => u ≠ t ∧ active u) last committed where
  authors := h.authors
  single u w hu hw := h.single u w hu.2 hw.2
  idle hno := by
    by_cases hwrote : last t = none
    · refine h.idle fun u hu => ?_
      by_cases hut : u = t
      · rw [hut, hwrote]
      · exact hno u ⟨hut, hu⟩
    · rw [← (h.busy t ht hwrote).2 hmarks]
      refine (newest_filter fun v hv hlive => ?_).symm
      by_contra hmin
      exact hown v hv (by simpa using hmin) (by simpa using hlive)
  busy u hu hlu := h.busy u hu.2 hlu

end RecordInv

/-! ## The store, record by record -/

namespace MvccManager

variable {m : MvccManager} {table : String} {key : Int64} {snapshot : Snapshot}

/-- The versions of a record. -/
def versionsAt (m : MvccManager) (table : String) (key : Int64) : List RecordVersion :=
  ((m.tableStore table)[key]?.map VersionedRecord.versions).getD []

/-- Putting a record into the store. -/
def setRecord (m : MvccManager) (table : String) (key : Int64) (r : VersionedRecord) :
    Std.ExtTreeMap String (Std.ExtTreeMap Int64 VersionedRecord) :=
  m.versionStore.insert table ((m.tableStore table).insert key r)

theorem versionsAt_setRecord {m' : MvccManager} {r : VersionedRecord}
    (hstore : m'.versionStore = m.setRecord table key r) (tb : String) (k : Int64) :
    m'.versionsAt tb k = if tb = table ∧ k = key then r.versions else m.versionsAt tb k := by
  by_cases htb : tb = table
  · subst htb
    by_cases hk : k = key
    · subst hk
      simp [versionsAt, tableStore, hstore, setRecord]
    · have hne : key ≠ k := fun h => hk h.symm
      simp [versionsAt, tableStore, hstore, setRecord, hk, Std.ExtTreeMap.getElem?_insert, hne]
  · have hne : table ≠ tb := fun h => htb h.symm
    simp [versionsAt, tableStore, hstore, setRecord, htb, Std.ExtTreeMap.getElem?_insert, hne]

theorem versionsAt_insertVersion (data : List Value) (tb : String) (k : Int64) :
    (m.insertVersion table key data snapshot).versionsAt tb k =
      if tb = table ∧ k = key then
        m.versionsAt table key ++ [⟨.new snapshot.txnId m.currentTimestamp, data⟩]
      else m.versionsAt tb k := by
  have hstore : (m.insertVersion table key data snapshot).versionStore =
      m.setRecord table key (((m.tableStore table)[key]?.getD (.new key)).addVersion
        ⟨.new snapshot.txnId m.currentTimestamp, data⟩) := rfl
  rw [versionsAt_setRecord hstore]
  cases hr : (m.tableStore table)[key]? with
  | none => simp [versionsAt, hr, VersionedRecord.addVersion, VersionedRecord.new]
  | some r => simp [versionsAt, hr, VersionedRecord.addVersion]

/-- DELETE finds no version and fails, or marks the newest one. -/
theorem deleteVersion_cases (m : MvccManager) (table : String) (key : Int64) (snapshot : Snapshot) :
    (m.versionsAt table key = [] ∧
      ∃ e, m.deleteVersion table key snapshot = (m.tick, .error e)) ∨
    ∃ ws v m', m.versionsAt table key = ws ++ [v] ∧
      m.deleteVersion table key snapshot = (m', .ok ()) ∧
      m'.activeSnapshots = m.activeSnapshots ∧ m'.currentTimestamp = m.tick.currentTimestamp ∧
      ∀ tb k, m'.versionsAt tb k =
        if tb = table ∧ k = key then
          ws ++ [⟨v.versionInfo.markDeleted snapshot.txnId m.currentTimestamp, v.data⟩]
        else m.versionsAt tb k := by
  unfold deleteVersion
  cases htable : m.versionStore[table]? with
  | none =>
      refine Or.inl ⟨?_, _, rfl⟩
      simp [versionsAt, tableStore, htable]
  | some tableMap =>
      have hstore : m.tableStore table = tableMap := by simp [tableStore, htable]
      dsimp only
      cases hrecord : tableMap[key]? with
      | none =>
          refine Or.inl ⟨?_, _, rfl⟩
          simp [versionsAt, hstore, hrecord]
      | some r =>
          have hvs : m.versionsAt table key = r.versions := by simp [versionsAt, hstore, hrecord]
          dsimp only [VersionedRecord.markDeleted]
          cases hlast : r.versions.getLast? with
          | none => exact Or.inl ⟨hvs.trans (List.getLast?_eq_none_iff.mp hlast), _, rfl⟩
          | some v =>
              have hsplit : r.versions = r.versions.dropLast ++ [v] :=
                (List.dropLast_append_getLast? v (by simp [hlast])).symm
              refine Or.inr ⟨r.versions.dropLast, v, _, hvs.trans hsplit, rfl, rfl, rfl,
                fun tb k => ?_⟩
              refine versionsAt_setRecord (r := ⟨r.key, _⟩) ?_ tb k
              rw [setRecord, hstore]

theorem readVersion_eq : m.readVersion table key snapshot =
    newest (fun v => v.isVisible snapshot) (m.versionsAt table key) := by
  unfold readVersion versionsAt tableStore newest
  cases htable : m.versionStore[table]? with
  | none => simp
  | some tableMap =>
      cases hrecord : tableMap[key]? with
      | none => simp [hrecord]
      | some r =>
          simp only [hrecord, Option.bind_eq_bind, Option.bind_some, Option.getD_some, Option.map_some,
            VersionedRecord.getVisibleVersion]
          rw [← List.head?_filter, List.filter_reverse, List.head?_reverse]
          cases (r.versions.filter fun v => v.isVisible snapshot).getLast? <;> rfl

/-- A scan returns the keys that can be read, with what a read gives. -/
theorem mem_scanTable {data : List Value} : (key, data) ∈ m.scanTable table snapshot ↔
    m.readVersion table key snapshot = some data := by
  unfold scanTable readVersion
  cases htable : m.versionStore[table]? with
  | none => simp
  | some tableMap =>
      simp only [List.mem_filterMap, Option.map_eq_some_iff, Prod.mk.injEq, Prod.exists,
        Std.ExtTreeMap.mem_toList_iff_getElem?_eq_some, Option.bind_eq_bind, Option.bind_some,
        Option.bind_eq_some_iff, Option.some.injEq]
      constructor
      · rintro ⟨k, r, hr, v, hv, rfl, rfl⟩
        exact ⟨r, hr, v, hv, rfl⟩
      · rintro ⟨r, hr, v, hv, rfl⟩
        exact ⟨key, r, hr, v, hv, rfl, rfl⟩

end MvccManager

/-! ## Histories -/

namespace History

variable {h : History} {w : Write} {t u : TransactionId} {table : String} {key : Int64}

theorem lastWrite_append (h : History) (w : Write) (u : TransactionId) (table : String) (key : Int64) :
    History.lastWrite { h with writes := h.writes ++ [w] } u table key =
      if w.txn = u ∧ w.table = table ∧ w.key = key then some w.effect
      else h.lastWrite u table key := by
  simp only [lastWrite, List.reverse_append, List.reverse_singleton, List.singleton_append,
    List.find?_cons]
  split_ifs with hw <;> simp [hw]

theorem lastWrite_commit (h : History) (commits : List TransactionId) :
    History.lastWrite { h with commits := commits } = h.lastWrite := rfl

theorem findSome?_congr {α β : Type} {f g : α → Option β} : ∀ {l : List α},
    (∀ a ∈ l, f a = g a) → l.findSome? f = l.findSome? g
  | [], _ => rfl
  | a :: l, h => by
      rw [List.findSome?_cons, List.findSome?_cons, h a List.mem_cons_self,
        findSome?_congr fun b hb => h b (List.mem_cons_of_mem _ hb)]

/-- A write of a transaction that has not committed changes nothing for the others. -/
theorem committedEffect_append (hno : w.txn ∉ h.commits) (table : String) (key : Int64) :
    History.committedEffect { h with writes := h.writes ++ [w] } table key =
      h.committedEffect table key := by
  unfold committedEffect
  refine congrArg Option.join (findSome?_congr fun u hu => ?_)
  have hne : w.txn ≠ u := fun heq => hno (heq ▸ List.mem_reverse.mp hu)
  rw [lastWrite_append, if_neg fun hw => hne hw.1]

theorem committedEffect_commit (h : History) (t : TransactionId) (table : String) (key : Int64) :
    History.committedEffect { h with commits := h.commits ++ [t] } table key =
      (h.lastWrite t table key).getD (h.committedEffect table key) := by
  simp only [committedEffect, List.reverse_append, List.reverse_singleton, List.singleton_append,
    List.findSome?_cons, lastWrite_commit]
  cases h.lastWrite t table key <;> rfl

end History

/-! ## What a call does -/

namespace Sys

open MvccManager

/-- The transaction has begun and has neither committed nor aborted. -/
def Active (s : Sys) (t : TransactionId) : Prop := ∃ S, s.mvcc.activeSnapshots[t]? = some S

/-- The calls, with what they do to the versions of every record. -/
inductive Effect (s : Sys) : Act → Sys → Prop
  | begin : Effect s .begin { s with
      nextTxnId := (s.nextTxnId + 1) % u64Size
      mvcc := (s.mvcc.beginTransaction s.nextTxnId).2 }
  | elsewhere : Effect s .elsewhere { s with nextTxnId := (s.nextTxnId + 1) % u64Size }
  | insert {t : TransactionId} {table : String} {key : Int64} {data : List Value} {S : Snapshot} :
      s.mvcc.activeSnapshots[t]? = some S →
      Effect s (.insert t table key data)
        (s.record (s.mvcc.insertVersion table key data S) ⟨t, table, key, some data⟩)
  | delete {t : TransactionId} {table : String} {key : Int64} {S : Snapshot}
      {ws : List RecordVersion} {v : RecordVersion} {m : MvccManager} :
      s.mvcc.activeSnapshots[t]? = some S →
      s.mvcc.versionsAt table key = ws ++ [v] →
      m.activeSnapshots = s.mvcc.activeSnapshots →
      m.currentTimestamp = s.mvcc.tick.currentTimestamp →
      (∀ tb k, m.versionsAt tb k =
        if tb = table ∧ k = key then
          ws ++ [⟨v.versionInfo.markDeleted S.txnId s.mvcc.currentTimestamp, v.data⟩]
        else s.mvcc.versionsAt tb k) →
      Effect s (.delete t table key) (s.record m ⟨t, table, key, none⟩)
  | missing {t : TransactionId} {table : String} {key : Int64} :
      Effect s (.delete t table key) { s with mvcc := s.mvcc.tick }
  | commit {t : TransactionId} {S : Snapshot} : s.mvcc.activeSnapshots[t]? = some S →
      Effect s (.commit t) { s with
        mvcc := s.mvcc.commitTransaction S
        history := { s.history with commits := s.history.commits ++ [t] } }
  | abort {t : TransactionId} {S : Snapshot} : s.mvcc.activeSnapshots[t]? = some S →
      Effect s (.abort t) { s with mvcc := s.mvcc.abortTransaction S }

variable {s s' : Sys} {a : Act}

theorem effect_of_step (h : s.step a = some s') : Effect s a s' := by
  cases a with
  | begin =>
      obtain rfl := Option.some.inj h
      exact .begin
  | elsewhere =>
      obtain rfl := Option.some.inj h
      exact .elsewhere
  | insert t table key data =>
      obtain ⟨S, hS, h⟩ := Option.bind_eq_some_iff.mp h
      obtain rfl := Option.some.inj h
      exact .insert hS
  | delete t table key =>
      obtain ⟨S, hS, h⟩ := Option.bind_eq_some_iff.mp h
      rcases deleteVersion_cases s.mvcc table key S with ⟨-, e, heq⟩ |
        ⟨ws, v, m, hvs, heq, hactive, htime, hset⟩
      · rw [heq] at h
        obtain rfl := Option.some.inj h
        exact .missing
      · rw [heq] at h
        obtain rfl := Option.some.inj h
        exact .delete hS hvs hactive htime hset
  | commit t =>
      obtain ⟨S, hS, h⟩ := Option.bind_eq_some_iff.mp h
      obtain rfl := Option.some.inj h
      exact .commit hS
  | abort t =>
      obtain ⟨S, hS, h⟩ := Option.bind_eq_some_iff.mp h
      obtain rfl := Option.some.inj h
      exact .abort hS

/-- Neither counter is about to wrap. -/
def NoWrap (s : Sys) : Prop :=
  s.nextTxnId + 1 < u64Size ∧ s.mvcc.currentTimestamp + 1 < u64Size

/-- What the stamps of versions and the ids of transactions keep. -/
structure Stamped (s : Sys) : Prop where
  pos : 0 < s.nextTxnId
  own : ∀ t S, s.mvcc.activeSnapshots[t]? = some S → S.txnId = t ∧ 0 < t ∧ t < s.nextTxnId
  seen : ∀ t S u, s.mvcc.activeSnapshots[t]? = some S → s.Active u → u < t →
    u ∈ S.activeTransactions
  stamps : ∀ table key, ∀ v ∈ s.mvcc.versionsAt table key, v.versionInfo.xmin < s.nextTxnId ∧
    v.versionInfo.xmax < s.nextTxnId ∧ v.versionInfo.createdAt ≤ s.mvcc.currentTimestamp
  writers : ∀ t table key, s.history.lastWrite t table key ≠ none → t < s.nextTxnId
  ended : ∀ t ∈ s.history.commits, ¬ s.Active t ∧ t < s.nextTxnId

theorem stamped_init : Stamped init where
  pos := by decide
  own := by simp [init, MvccManager.new]
  seen := by simp [init, MvccManager.new]
  stamps := by simp [init, MvccManager.new, versionsAt, tableStore]
  writers := by simp [init, History.lastWrite]
  ended := by simp [init]

theorem active_insert {m : MvccManager} {S : Snapshot} {t n : TransactionId} {hist : History}
    (h : m.activeSnapshots = s.mvcc.activeSnapshots.insert t S) :
    Active ⟨n, m, hist⟩ = fun u => u = t ∨ s.Active u := by
  funext u
  refine propext ?_
  simp only [Active, h]
  by_cases hut : u = t
  · simp [hut]
  · have hne : t ≠ u := fun h => hut h.symm
    simp [Std.ExtTreeMap.getElem?_insert, hne, hut]

theorem getElem?_begin {S : Snapshot} {u : TransactionId}
    (hS : (s.mvcc.beginTransaction s.nextTxnId).2.activeSnapshots[u]? = some S) :
    (u = s.nextTxnId ∧ S = (s.mvcc.beginTransaction s.nextTxnId).1) ∨
      s.mvcc.activeSnapshots[u]? = some S := by
  have hactive : (s.mvcc.beginTransaction s.nextTxnId).2.activeSnapshots =
    s.mvcc.activeSnapshots.insert s.nextTxnId (s.mvcc.beginTransaction s.nextTxnId).1 := rfl
  rw [hactive, Std.ExtTreeMap.getElem?_insert] at hS
  split at hS
  · rename_i heq
    exact Or.inl ⟨(Std.compare_eq_iff_eq.mp heq).symm, (Option.some.inj hS).symm⟩
  · exact Or.inr hS

theorem getElem?_erase_iff {m : MvccManager} {S : Snapshot} {t u : TransactionId}
    (h : m.activeSnapshots = s.mvcc.activeSnapshots.erase t) :
    m.activeSnapshots[u]? = some S ↔ u ≠ t ∧ s.mvcc.activeSnapshots[u]? = some S := by
  rw [h]
  by_cases hut : u = t
  · simp [hut]
  · have hne : t ≠ u := fun h => hut h.symm
    simp [Std.ExtTreeMap.getElem?_erase, hne, hut]

theorem active_erase {m : MvccManager} {t n : TransactionId} {hist : History}
    (h : m.activeSnapshots = s.mvcc.activeSnapshots.erase t) :
    Active ⟨n, m, hist⟩ = fun u => u ≠ t ∧ s.Active u := by
  funext u
  refine propext ?_
  simp only [Active, getElem?_erase_iff h, exists_and_left]

/-- Transactions end: stamps and versions stay. -/
theorem Stamped.end (h : Stamped s) {m : MvccManager} {commits : List TransactionId}
    {t : TransactionId} (hactive : m.activeSnapshots = s.mvcc.activeSnapshots.erase t)
    (hstore : m.versionStore = s.mvcc.versionStore)
    (htime : s.mvcc.currentTimestamp ≤ m.currentTimestamp) (ht : s.Active t)
    (hcommits : ∀ u ∈ commits, u = t ∨ u ∈ s.history.commits) :
    Stamped ⟨s.nextTxnId, m, ⟨s.history.writes, commits⟩⟩ where
  pos := h.pos
  own u S hS := h.own u S ((getElem?_erase_iff hactive).mp hS).2
  seen u S w hS hw := by
    obtain ⟨S', hS'⟩ := hw
    exact h.seen u S w ((getElem?_erase_iff hactive).mp hS).2
      ⟨S', ((getElem?_erase_iff hactive).mp hS').2⟩
  stamps table key v hv := by
    have hsame : m.versionsAt table key = s.mvcc.versionsAt table key := by
      simp only [versionsAt, tableStore, hstore]
    rw [hsame] at hv
    obtain ⟨hmin, hmax, hcreated⟩ := h.stamps table key v hv
    exact ⟨hmin, hmax, hcreated.trans htime⟩
  writers := h.writers
  ended u hu := by
    rcases hcommits u hu with rfl | hu
    · refine ⟨?_, ?_⟩
      · rintro ⟨S, hS⟩
        exact ((getElem?_erase_iff hactive).mp hS).1 rfl
      · obtain ⟨S, hS⟩ := ht
        exact (h.own u S hS).2.2
    · refine ⟨?_, (h.ended u hu).2⟩
      rintro ⟨S, hS⟩
      exact (h.ended u hu).1 ⟨S, ((getElem?_erase_iff hactive).mp hS).2⟩

/-- A write: some versions of one record change. -/
theorem Stamped.write (h : Stamped s) {m : MvccManager} {w : Write} {S : Snapshot}
    (hS : s.mvcc.activeSnapshots[w.txn]? = some S)
    (hactive : m.activeSnapshots = s.mvcc.activeSnapshots)
    (htime : s.mvcc.currentTimestamp ≤ m.currentTimestamp)
    (hversions : ∀ table key, ∀ v ∈ m.versionsAt table key, v ∈ s.mvcc.versionsAt table key ∨
      (v.versionInfo.xmin < s.nextTxnId ∧ v.versionInfo.xmax < s.nextTxnId ∧
        v.versionInfo.createdAt ≤ s.mvcc.currentTimestamp)) :
    Stamped (s.record m w) where
  pos := h.pos
  own u S' hS' := h.own u S' (by rwa [← hactive])
  seen u S' x hS' hx := by
    obtain ⟨Sx, hSx⟩ := hx
    exact h.seen u S' x (by rwa [← hactive]) ⟨Sx, by rwa [← hactive]⟩
  stamps table key v hv := by
    rcases hversions table key v hv with hold | ⟨hmin, hmax, hcreated⟩
    · obtain ⟨hmin, hmax, hcreated⟩ := h.stamps table key v hold
      exact ⟨hmin, hmax, hcreated.trans htime⟩
    · exact ⟨hmin, hmax, hcreated.trans htime⟩
  writers u table key hlast := by
    simp only [record, History.lastWrite_append] at hlast
    split at hlast
    · rename_i hw
      rw [← hw.1]
      exact (h.own _ S hS).2.2
    · exact h.writers u table key hlast
  ended u hu := by
    refine ⟨?_, (h.ended u hu).2⟩
    rintro ⟨S', hS'⟩
    exact (h.ended u hu).1 ⟨S', by rwa [← hactive]⟩

theorem tick_time (hwrap : NoWrap s) :
    s.mvcc.tick.currentTimestamp = s.mvcc.currentTimestamp + 1 := Nat.mod_eq_of_lt hwrap.2

theorem Stamped.step (h : Stamped s) (hwrap : NoWrap s) (hx : Effect s a s') : Stamped s' := by
  have hnext : (s.nextTxnId + 1) % u64Size = s.nextTxnId + 1 := Nat.mod_eq_of_lt hwrap.1
  have htick := tick_time hwrap
  cases hx with
  | begin =>
      rw [hnext]
      refine ⟨Nat.succ_pos _, fun u S hS => ?_, fun u S w hS hw hlt => ?_, fun table key v hv => ?_,
        fun u table key hlast => (h.writers u table key hlast).trans (Nat.lt_succ_self _),
        fun u hu => ?_⟩
      · rcases getElem?_begin hS with ⟨rfl, rfl⟩ | hS
        · exact ⟨rfl, h.pos, Nat.lt_succ_self _⟩
        · obtain ⟨hid, hpos, hlt⟩ := h.own u S hS
          exact ⟨hid, hpos, hlt.trans (Nat.lt_succ_self _)⟩
      · obtain ⟨Sw, hSw⟩ := hw
        rcases getElem?_begin hSw with ⟨rfl, rfl⟩ | hSw
        · rcases getElem?_begin hS with ⟨rfl, rfl⟩ | hS
          · exact absurd hlt (Nat.lt_irrefl _)
          · exact absurd ((h.own u S hS).2.2) (Nat.lt_asymm hlt)
        · rcases getElem?_begin hS with ⟨rfl, rfl⟩ | hS
          · refine Std.ExtTreeMap.mem_keys.mpr ?_
            exact Std.ExtTreeMap.isSome_getElem?_iff_mem.mp (by simp [hSw])
          · exact h.seen u S w hS ⟨Sw, hSw⟩ hlt
      · obtain ⟨hmin, hmax, hcreated⟩ := h.stamps table key v hv
        refine ⟨hmin.trans (Nat.lt_succ_self _), hmax.trans (Nat.lt_succ_self _), ?_⟩
        exact hcreated.trans (le_of_le_of_eq (Nat.le_succ _) htick.symm)
      · obtain ⟨hno, hlt⟩ := h.ended u hu
        refine ⟨?_, hlt.trans (Nat.lt_succ_self _)⟩
        rintro ⟨S, hS⟩
        rcases getElem?_begin hS with ⟨rfl, rfl⟩ | hS
        · exact Nat.lt_irrefl _ hlt
        · exact hno ⟨S, hS⟩
  | elsewhere =>
      rw [hnext]
      have hlt : ∀ {t}, t < s.nextTxnId → t < s.nextTxnId + 1 := fun h => h.trans (Nat.lt_succ_self _)
      refine ⟨Nat.succ_pos _, fun u S hS => ?_, h.seen, fun table key v hv => ?_,
        fun u table key hlast => hlt (h.writers u table key hlast),
        fun u hu => ⟨(h.ended u hu).1, hlt (h.ended u hu).2⟩⟩
      · obtain ⟨hid, hpos, hu⟩ := h.own u S hS
        exact ⟨hid, hpos, hlt hu⟩
      · obtain ⟨hmin, hmax, hcreated⟩ := h.stamps table key v hv
        exact ⟨hlt hmin, hlt hmax, hcreated⟩
  | @insert t table key data S hS =>
      refine h.write hS rfl (Nat.le_refl _) fun tb k v hv => ?_
      rw [versionsAt_insertVersion] at hv
      split at hv
      · rename_i heq
        obtain ⟨rfl, rfl⟩ := heq
        rcases List.mem_append.mp hv with hv | hv
        · exact Or.inl hv
        · obtain rfl := List.mem_singleton.mp hv
          obtain ⟨hid, hpos, hlt⟩ := h.own t S hS
          refine Or.inr ⟨?_, h.pos, Nat.le_refl _⟩
          rw [← hid] at hlt
          exact hlt
      · exact Or.inl hv
  | @delete t table key S ws v m hS hvs hactive htime hset =>
      refine h.write hS hactive (by rw [htime, htick]; exact Nat.le_succ _) fun tb k w hw => ?_
      rw [hset] at hw
      split at hw
      · rename_i heq
        obtain ⟨rfl, rfl⟩ := heq
        rw [hvs]
        rcases List.mem_append.mp hw with hw | hw
        · exact Or.inl (List.mem_append_left _ hw)
        · obtain rfl := List.mem_singleton.mp hw
          obtain ⟨hid, hpos, hlt⟩ := h.own t S hS
          obtain ⟨hmin, -, hcreated⟩ := h.stamps tb k v (by rw [hvs]; simp)
          rw [← hid] at hlt
          exact Or.inr ⟨hmin, hlt, hcreated⟩
      · exact Or.inl hw
  | missing =>
      refine ⟨h.pos, h.own, h.seen, fun table key v hv => ?_, h.writers, h.ended⟩
      obtain ⟨hmin, hmax, hcreated⟩ := h.stamps table key v hv
      exact ⟨hmin, hmax, hcreated.trans (le_of_le_of_eq (Nat.le_succ _) htick.symm)⟩
  | @commit t S hS =>
      obtain ⟨hid, -, -⟩ := h.own t S hS
      refine h.end (t := t) ?_ rfl (le_of_le_of_eq (Nat.le_succ _) htick.symm) ⟨S, hS⟩ fun u hu => ?_
      · rw [← hid]
        rfl
      · rcases List.mem_append.mp hu with hu | hu
        · exact Or.inr hu
        · exact Or.inl (List.mem_singleton.mp hu)
  | @abort t S hS =>
      obtain ⟨hid, -, -⟩ := h.own t S hS
      refine h.end (t := t) ?_ rfl (Nat.le_refl _) ⟨S, hS⟩ fun u hu => Or.inr hu
      rw [← hid]
      rfl

/-! ## Runs up to the snapshot -/

/-- A transaction that had ended when another, which is active, began. -/
def EndedBefore (s : Sys) (u t : TransactionId) : Prop :=
  ∀ S, s.mvcc.activeSnapshots[t]? = some S → u < t ∧ u ∉ S.activeTransactions

/-- No two concurrent transactions write the record: every other transaction that wrote it
had ended when the one that writes it now began. -/
def NoConflict (table : String) (key : Int64) (s : Sys) : Act → Prop
  | .insert t tb k _ | .delete t tb k => tb = table → k = key →
      ∀ u, u ≠ t → s.history.Wrote u table key → s.EndedBefore u t
  | _ => True

/-- A delete finds no live version older than the newest one, and a transaction that aborts
leaves no live version of its own and no mark on a version of another. -/
def Clean (table : String) (key : Int64) (s : Sys) : Act → Prop
  | .delete _ tb k => tb = table → k = key →
      ∀ v ∈ (s.mvcc.versionsAt table key).dropLast, ¬ v.Live
  | .abort t => ∀ v ∈ s.mvcc.versionsAt table key,
      (v.versionInfo.xmin = t → ¬ v.Live) ∧ (v.versionInfo.xmin ≠ t → v.versionInfo.xmax ≠ t)
  | _ => True

variable {table : String} {key : Int64}

/-- The invariant of a record in a state. -/
def Committed (table : String) (key : Int64) (s : Sys) : Prop :=
  RecordInv (s.mvcc.versionsAt table key) s.Active (fun t => s.history.lastWrite t table key)
    (s.history.committedEffect table key)

theorem committed_init : Committed table key init where
  authors := by simp [init, MvccManager.new, versionsAt, tableStore]
  single := by simp [init, History.lastWrite]
  idle _ := rfl
  busy := by simp [init, History.lastWrite]

/-- Under no conflict the other active transactions have not written the record. -/
theorem only_writer (h : Stamped s) {t : TransactionId} {S : Snapshot}
    (hS : s.mvcc.activeSnapshots[t]? = some S)
    (hno : ∀ u, u ≠ t → s.history.Wrote u table key → s.EndedBefore u t) :
    ∀ u, s.Active u → u ≠ t → s.history.lastWrite u table key = none := by
  intro u hu hut
  by_contra hwrote
  obtain ⟨hlt, hnot⟩ := hno u hut hwrote S hS
  exact hnot (h.seen t S u hS hu hlt)

/-- A write to the record, or to another one. -/
theorem Committed.write (h : Committed table key s) (hst : Stamped s) {m : MvccManager} {w : Write}
    {vs : List RecordVersion} (ht : s.Active w.txn) (hactive : m.activeSnapshots = s.mvcc.activeSnapshots)
    (hset : ∀ tb k, m.versionsAt tb k =
      if tb = w.table ∧ k = w.key then vs else s.mvcc.versionsAt tb k)
    (hwrite : w.table = table → w.key = key →
      RecordInv vs s.Active
        (Function.update (fun t => s.history.lastWrite t table key) w.txn (some w.effect))
        (s.history.committedEffect table key)) :
    Committed table key (s.record m w) := by
  have hrunning : (s.record m w).Active = s.Active := by
    funext u
    simp only [Active, record, hactive]
  have hcommitted : (s.record m w).history.committedEffect table key =
      s.history.committedEffect table key :=
    History.committedEffect_append (fun hmem => (hst.ended _ hmem).1 ht) table key
  have hlast : ∀ u, (s.record m w).history.lastWrite u table key =
      if w.txn = u ∧ w.table = table ∧ w.key = key then some w.effect
      else s.history.lastWrite u table key := fun u => History.lastWrite_append _ _ _ _ _
  unfold Committed
  rw [hrunning, hcommitted]
  by_cases hhere : w.table = table ∧ w.key = key
  · have hupdate : (fun u => (s.record m w).history.lastWrite u table key) =
        Function.update (fun t => s.history.lastWrite t table key) w.txn (some w.effect) := by
      funext u
      rw [hlast u]
      by_cases hu : w.txn = u
      · rw [if_pos ⟨hu, hhere⟩, ← hu, Function.update_self]
      · rw [if_neg fun h => hu h.1, Function.update_of_ne (Ne.symm hu)]
    rw [hupdate]
    show RecordInv (m.versionsAt table key) _ _ _
    rw [hset, if_pos ⟨hhere.1.symm, hhere.2.symm⟩]
    exact hwrite hhere.1 hhere.2
  · have hsame : (fun u => (s.record m w).history.lastWrite u table key) =
        fun u => s.history.lastWrite u table key := by
      funext u
      rw [hlast u, if_neg fun h => hhere h.2]
    rw [hsame]
    show RecordInv (m.versionsAt table key) _ _ _
    rw [hset, if_neg fun h => hhere ⟨h.1.symm, h.2.symm⟩]
    exact h

theorem Committed.step (h : Committed table key s) (hst : Stamped s)
    (hno : NoConflict table key s a) (hclean : Clean table key s a) (hx : Effect s a s') :
    Committed table key s' := by
  cases hx with
  | begin =>
      have hnew : s.history.lastWrite s.nextTxnId table key = none := by
        by_contra hwrote
        exact Nat.lt_irrefl _ (hst.writers _ _ _ hwrote)
      unfold Committed
      rw [active_insert rfl]
      exact RecordInv.begin h hnew
  | elsewhere => exact h
  | @insert t tb k data S hS =>
      refine h.write hst ⟨S, hS⟩ rfl (versionsAt_insertVersion data) ?_
      rintro rfl rfl
      refine RecordInv.insert h ⟨S, hS⟩ (only_writer hst hS (hno rfl rfl)) ?_ rfl
      exact (hst.own t S hS).1
  | @delete t tb k S ws v m hS hvs hactive htime hset =>
      refine h.write hst ⟨S, hS⟩ hactive hset ?_
      rintro rfl rfl
      have hdead := hclean rfl rfl
      rw [hvs, List.dropLast_concat] at hdead
      have hrec : RecordInv (ws ++ [v]) s.Active (fun t => s.history.lastWrite t tb k)
          (s.history.committedEffect tb k) := by
        rw [← hvs]
        exact h
      obtain ⟨hid, hpos, -⟩ := hst.own t S hS
      exact hrec.delete ⟨S, hS⟩ hpos.ne' (only_writer hst hS (hno rfl rfl)) rfl hid hdead
  | missing => exact h
  | @commit t S hS =>
      obtain ⟨rfl, -, -⟩ := hst.own t S hS
      unfold Committed
      rw [active_erase rfl, History.committedEffect_commit]
      exact RecordInv.commit h ⟨S, hS⟩
  | @abort t S hS =>
      obtain ⟨rfl, -, -⟩ := hst.own t S hS
      unfold Committed
      rw [active_erase rfl]
      exact RecordInv.abort h ⟨S, hS⟩ (fun v hv => (hclean v hv).1) fun v hv => (hclean v hv).2

/-! ## Reads of a snapshot -/

/-- The record is not written by the snapshot's own transaction, and a version that was
deleted before the snapshot was taken is not deleted again. -/
def Undisturbed (S : Snapshot) (table : String) (key : Int64) (s : Sys) : Act → Prop
  | .insert t tb k _ => tb = table → k = key → t ≠ S.txnId
  | .delete t tb k => tb = table → k = key → t ≠ S.txnId ∧
      ∀ v ∈ (s.mvcc.versionsAt table key).getLast?, v.Live ∨ S.txnId < v.versionInfo.xmax
  | _ => True

/-- When no transaction is active, a new snapshot sees the live versions. -/
theorem isVisible_begin (h : Stamped s) (hquiet : s.mvcc.activeSnapshots = ∅) {v : RecordVersion}
    (hv : v ∈ s.mvcc.versionsAt table key) :
    v.isVisible (s.mvcc.beginTransaction s.nextTxnId).1 = decide v.Live := by
  obtain ⟨hmin, hmax, hcreated⟩ := h.stamps table key v hv
  have hvisible : ∀ t, t < s.nextTxnId →
      (s.mvcc.beginTransaction s.nextTxnId).1.isTransactionVisible t = true := by
    intro t ht
    simp [Snapshot.isTransactionVisible, beginTransaction, hquiet, ht.ne, not_le.mpr ht]
  have htime : ¬ (s.mvcc.beginTransaction s.nextTxnId).1.timestamp < v.versionInfo.createdAt :=
    not_lt.mpr hcreated
  simp only [RecordVersion.isVisible, VersionInfo.isVisible, htime, hvisible _ hmin,
    hvisible _ hmax, RecordVersion.Live]
  rcases Nat.eq_zero_or_pos v.versionInfo.xmax with h0 | hpos
  · simp [h0]
  · simp [hpos, hpos.ne']

theorem not_isTransactionVisible {S : Snapshot} {t : TransactionId} (h : S.txnId < t) :
    S.isTransactionVisible t = false := by
  simp [Snapshot.isTransactionVisible, h.ne', h.le]

/-- A later transaction's mark does not hide a version. -/
theorem isVisible_marked {S : Snapshot} {v : RecordVersion} {t : TransactionId} (time : Timestamp)
    (ht : S.txnId < t) (hv : v.Live ∨ S.txnId < v.versionInfo.xmax) :
    RecordVersion.isVisible ⟨v.versionInfo.markDeleted t time, v.data⟩ S = v.isVisible S := by
  have hbefore : (decide (0 < v.versionInfo.xmax) && S.isTransactionVisible v.versionInfo.xmax) =
      false := by
    rcases hv with hlive | hlater
    · rw [show v.versionInfo.xmax = 0 from hlive]
      rfl
    · rw [not_isTransactionVisible hlater, Bool.and_false]
  simp only [RecordVersion.isVisible, VersionInfo.isVisible, VersionInfo.markDeleted,
    not_isTransactionVisible ht, Bool.and_false, hbefore]

/-- What holds after a snapshot has been taken while no transaction was active: every other
transaction is younger, and the snapshot reads what it read. -/
structure Reading (S : Snapshot) (table : String) (key : Int64) (data : Option (List Value))
    (s : Sys) : Prop where
  stamped : Stamped s
  next : S.txnId < s.nextTxnId
  younger : ∀ t, s.Active t → S.txnId ≤ t
  reads : s.mvcc.readVersion table key S = data

theorem Reading.step {S : Snapshot} {data : Option (List Value)} (h : Reading S table key data s)
    (hwrap : NoWrap s) (hok : Undisturbed S table key s a) (hx : Effect s a s') :
    Reading S table key data s' := by
  have hst := h.stamped.step hwrap hx
  have hnext : (s.nextTxnId + 1) % u64Size = s.nextTxnId + 1 := Nat.mod_eq_of_lt hwrap.1
  have hreads := h.reads
  rw [readVersion_eq] at hreads
  cases hx with
  | begin =>
      refine ⟨hst, ?_, fun t ht => ?_, h.reads⟩
      · rw [hnext]
        exact h.next.trans (Nat.lt_succ_self _)
      · rw [active_insert rfl] at ht
        rcases ht with rfl | ht
        · exact h.next.le
        · exact h.younger t ht
  | elsewhere =>
      refine ⟨hst, ?_, h.younger, h.reads⟩
      rw [hnext]
      exact h.next.trans (Nat.lt_succ_self _)
  | @insert t tb k value S' hS' =>
      refine ⟨hst, h.next, h.younger, ?_⟩
      show (s.mvcc.insertVersion tb k value S').readVersion table key S = data
      rw [readVersion_eq, versionsAt_insertVersion]
      split
      · rename_i heq
        obtain ⟨rfl, rfl⟩ := heq
        have hlater : S.txnId < S'.txnId := by
          rw [(h.stamped.own t S' hS').1]
          exact lt_of_le_of_ne (h.younger t ⟨S', hS'⟩) (Ne.symm (hok rfl rfl))
        rw [newest_append_neg, hreads]
        simp [RecordVersion.isVisible, VersionInfo.isVisible, VersionInfo.new,
          not_isTransactionVisible hlater]
      · exact hreads
  | @delete t tb k S' ws v m hS' hvs hactive htime hset =>
      refine ⟨hst, h.next, fun u hu => h.younger u ?_, ?_⟩
      · obtain ⟨Su, hSu⟩ := hu
        exact ⟨Su, by rwa [← hactive]⟩
      · show m.readVersion table key S = data
        rw [readVersion_eq, hset]
        split
        · rename_i heq
          obtain ⟨rfl, rfl⟩ := heq
          obtain ⟨hother, hlast⟩ := hok rfl rfl
          rw [hvs] at hlast hreads
          have hlater : S.txnId < S'.txnId := by
            rw [(h.stamped.own t S' hS').1]
            exact lt_of_le_of_ne (h.younger t ⟨S', hS'⟩) (Ne.symm hother)
          have hsame := isVisible_marked s.mvcc.currentTimestamp hlater
            (hlast v (by simp))
          by_cases hv : v.isVisible S
          · rw [newest_append_pos (by rw [hsame]; exact hv)]
            rw [newest_append_pos hv] at hreads
            exact hreads
          · rw [newest_append_neg (by rw [hsame]; exact hv)]
            rw [newest_append_neg hv] at hreads
            exact hreads
        · exact hreads
  | missing => exact ⟨hst, h.next, h.younger, h.reads⟩
  | @commit t S' hS' =>
      refine ⟨hst, h.next, fun u hu => ?_, h.reads⟩
      rw [active_erase rfl] at hu
      exact h.younger u hu.2
  | @abort t S' hS' =>
      refine ⟨hst, h.next, fun u hu => ?_, h.reads⟩
      rw [active_erase rfl] at hu
      exact h.younger u hu.2

/-- The state after `begin_transaction`. -/
def begun (s : Sys) : Sys :=
  { s with
    nextTxnId := (s.nextTxnId + 1) % u64Size
    mvcc := (s.mvcc.beginTransaction s.nextTxnId).2 }

/-- The snapshot `begin_transaction` returns. -/
def taken (s : Sys) : Snapshot := (s.mvcc.beginTransaction s.nextTxnId).1

/-- In every run that meets the conditions, a snapshot taken while no transaction is active
reads of a record, from then on, the effect of the last write in commit order among the
transactions committed when it was taken; and a scan returns the keys that can be read. -/
theorem snapshot_reads_committed {s' : Sys}
    (hs : Transition.Reaches (Transition.Via step)
      (fun s a => NoWrap s ∧ NoConflict table key s a ∧ Clean table key s a) init s)
    (hquiet : s.mvcc.activeSnapshots = ∅) (hwrap : NoWrap s)
    (hlater : Transition.Reaches (Transition.Via step)
      (fun s' a => NoWrap s' ∧ Undisturbed s.taken table key s' a) s.begun s') :
    s'.mvcc.readVersion table key s.taken = s.history.committedEffect table key ∧
      ∀ k data, (k, data) ∈ s'.mvcc.scanTable table s.taken ↔
        s'.mvcc.readVersion table k s.taken = some data := by
  refine ⟨?_, fun k data => mem_scanTable⟩
  obtain ⟨hst, hrec⟩ : Stamped s ∧ Committed table key s := by
    refine Transition.Reaches.invariant (I := fun s => Stamped s ∧ Committed table key s)
      ⟨stamped_init, committed_init⟩ ?_ hs
    rintro s a s' ⟨hst, hrec⟩ ⟨hwrap, hno, hclean⟩ hstep
    exact ⟨hst.step hwrap (effect_of_step hstep), hrec.step hst hno hclean (effect_of_step hstep)⟩
  have hnobody : ∀ t, ¬ s.Active t := by
    rintro t ⟨S, hS⟩
    rw [hquiet] at hS
    simp at hS
  have hstart : Reading s.taken table key (s.history.committedEffect table key) s.begun := by
    refine ⟨hst.step hwrap .begin, ?_, fun t ht => ?_, ?_⟩
    · show s.nextTxnId < (s.nextTxnId + 1) % u64Size
      rw [Nat.mod_eq_of_lt hwrap.1]
      exact Nat.lt_succ_self _
    · rw [begun, active_insert rfl] at ht
      rcases ht with rfl | ht
      · exact Nat.le_refl _
      · exact absurd ht (hnobody t)
    · rw [readVersion_eq, ← hrec.idle fun t ht => absurd ht (hnobody t)]
      refine congrArg (fun l => l.getLast?.map RecordVersion.data) (List.filter_congr fun v hv => ?_)
      exact isVisible_begin hst hquiet hv
  have hreading : Reading s.taken table key (s.history.committedEffect table key) s' := by
    refine Transition.Reaches.invariant
      (I := Reading s.taken table key (s.history.committedEffect table key)) hstart ?_ hlater
    rintro s₁ a s₂ hr ⟨hwrap, hok⟩ hstep
    exact hr.step hwrap hok (effect_of_step hstep)
  exact hreading.reads

/-- A run in which one transaction writes one record, once. -/
def OneWrite (s : Sys) : Act → Prop
  | .insert _ _ _ _ => NoWrap s ∧ s.history.writes = []
  | .delete _ _ _ => False
  | _ => NoWrap s

instance (s : Sys) : Decidable (NoWrap s) := inferInstanceAs (Decidable (_ ∧ _))

instance (s : Sys) : (a : Act) → Decidable (OneWrite s a)
  | .insert _ _ _ _ => inferInstanceAs (Decidable (NoWrap s ∧ s.history.writes = []))
  | .delete _ _ _ => inferInstanceAs (Decidable False)
  | .begin | .elsewhere | .commit _ | .abort _ => inferInstanceAs (Decidable (NoWrap s))

theorem OneWrite.noConflict (h : OneWrite s a) : NoWrap s ∧ ∀ table key, NoConflict table key s a := by
  cases a with
  | insert t tb k data =>
      refine ⟨h.1, fun table key _ _ u _ hwrote => ?_⟩
      exact absurd (by simp [History.lastWrite, h.2]) hwrote
  | delete => exact h.elim
  | begin | elsewhere | commit | abort => exact ⟨h, fun _ _ => trivial⟩

instance (table : String) (key : Int64) (s : Sys) : (a : Act) → Decidable (Clean table key s a)
  | .delete _ tb k => inferInstanceAs (Decidable (tb = table → k = key →
      ∀ v ∈ (s.mvcc.versionsAt table key).dropLast, ¬ v.Live))
  | .abort t => inferInstanceAs (Decidable (∀ v ∈ s.mvcc.versionsAt table key,
      (v.versionInfo.xmin = t → ¬ v.Live) ∧ (v.versionInfo.xmin ≠ t → v.versionInfo.xmax ≠ t)))
  | .begin | .elsewhere | .insert _ _ _ _ | .commit _ => inferInstanceAs (Decidable True)

instance (S : Snapshot) (table : String) (key : Int64) (s : Sys) :
    (a : Act) → Decidable (Undisturbed S table key s a)
  | .insert t tb k _ => inferInstanceAs (Decidable (tb = table → k = key → t ≠ S.txnId))
  | .delete t tb k => inferInstanceAs (Decidable (tb = table → k = key → t ≠ S.txnId ∧
      ∀ v ∈ (s.mvcc.versionsAt table key).getLast?, v.Live ∨ S.txnId < v.versionInfo.xmax))
  | .begin | .elsewhere | .commit _ | .abort _ => inferInstanceAs (Decidable True)

/-- A committed insert, which another transaction deletes after the snapshot was taken. -/
theorem snapshot_reads_committed_deleted : ∃ s s' : Sys,
    Transition.runActions step (fun s a => OneWrite s a ∧ Clean "t" 1 s a) init
      [.begin, .insert 1 "t" 1 [.integer 7], .commit 1] = some s ∧
    Transition.runActions step (fun s' a => NoWrap s' ∧ Undisturbed s.taken "t" 1 s' a) s.begun
      [.begin, .delete 3 "t" 1, .commit 3] = some s' ∧
    s'.mvcc.readVersion "t" 1 s.taken = some [.integer 7] := by
  obtain ⟨s, hs, hfacts⟩ : ∃ s, Transition.runActions step (fun s a => OneWrite s a ∧ Clean "t" 1 s a)
      init [.begin, .insert 1 "t" 1 [.integer 7], .commit 1] = some s ∧
      (s.mvcc.activeSnapshots.isEmpty, decide (NoWrap s), s.history.committedEffect "t" 1,
        (Transition.runActions step (fun s' a => NoWrap s' ∧ Undisturbed s.taken "t" 1 s' a) s.begun
          [.begin, .delete 3 "t" 1, .commit 3]).isSome) = (true, true, some [.integer 7], true) :=
    Option.map_eq_some_iff.mp (by with_unfolding_all decide)
  simp only [Prod.mk.injEq, decide_eq_true_eq] at hfacts
  obtain ⟨hempty, hwrap, hcommitted, hrun⟩ := hfacts
  obtain ⟨s', hs'⟩ := Option.isSome_iff_exists.mp hrun
  refine ⟨s, s', hs, hs', ?_⟩
  have hreach := (Transition.reaches_of_runActions _ .refl hs).mono
    fun s a (h : OneWrite s a ∧ Clean "t" 1 s a) =>
      (⟨h.1.noConflict.1, h.1.noConflict.2 "t" 1, h.2⟩ :
        NoWrap s ∧ NoConflict "t" 1 s a ∧ Clean "t" 1 s a)
  have hreads := snapshot_reads_committed hreach (Std.ExtTreeMap.isEmpty_iff.mp hempty) hwrap
    (Transition.reaches_of_runActions _ .refl hs')
  rw [hreads.1, hcommitted]

/-- An insert by a transaction that then aborts. -/
def abortedInsert : List Act := [.begin, .insert 1 "t" 1 [.integer 7], .abort 1]

/-- An aborted transaction's insert is read. -/
theorem not_snapshot_reads_committed : ¬ ∀ (table : String) (key : Int64) (s : Sys),
    Transition.Reaches (Transition.Via step)
      (fun s a => NoWrap s ∧ ∀ table key, NoConflict table key s a) init s →
    s.mvcc.activeSnapshots = ∅ → NoWrap s →
    s.begun.mvcc.readVersion table key s.taken = s.history.committedEffect table key := by
  intro hall
  obtain ⟨s, hs, hread⟩ : ∃ s, Transition.runActions step OneWrite init abortedInsert = some s ∧
      (s.mvcc.activeSnapshots.isEmpty, decide (NoWrap s),
        s.begun.mvcc.readVersion "t" 1 s.taken, s.history.committedEffect "t" 1) =
        (true, true, some [.integer 7], none) :=
    Option.map_eq_some_iff.mp (by with_unfolding_all decide)
  simp only [Prod.mk.injEq, decide_eq_true_eq] at hread
  obtain ⟨hempty, hwrap, hread, hcommitted⟩ := hread
  have hreach := (Transition.reaches_of_runActions abortedInsert .refl hs).mono
    fun s a => OneWrite.noConflict
  have heq := hall "t" 1 s hreach (Std.ExtTreeMap.isEmpty_iff.mp hempty) hwrap
  rw [hread, hcommitted] at heq
  cases heq

end Sys

end VelociDB.Mvcc
