/-
# The lock manager (`transaction.rs`, `LockManager`)

`locks: DashMap<String, Vec<LockEntry>>` is a finite map from resource names to
entry lists.  Every method touches it through DashMap guards, and a guard is one
atomic step:

    try_acquire_lock_once   one step: `entry().or_default()` to the final push
    release_lock            one step for the `retain` under `get_mut`, and, when
                            that empties the list, a SECOND step for `remove`
    release_all_locks       one step that collects the keys, then `release_lock`
                            for each of them

A transaction is a sequential process: it is idle between calls (and may then try
to acquire), or it is inside a release call, waiting to take the next step of it.
`LockSys` is the shared map with the program counter of every transaction and a
ghost record `held` of what each transaction believes it holds: from the step
that answered `Ok` until its own release begins.

The two steps of `release_lock` leave a window.  Between them the entry is an
empty list that is still in the map; a transaction that acquires there pushes
into it, and the delayed `remove` throws that entry away.  `not_locks_exclude` is
the shortest such run, and `locks_exclude` shows that nothing else goes wrong: as
long as every `remove` finds its entry still empty, exclusion holds in every
state of every interleaving.
-/
import VelociDB.Lib.Transition
import VelociDB.Types

namespace VelociDB

open Transition

/-- `LockType`. -/
inductive LockType where
  | shared
  | exclusive
  deriving DecidableEq, Repr

/-- `a` is at least as strong as `b`. -/
def LockType.covers : LockType → LockType → Bool
  | .exclusive, _ => true
  | .shared, .shared => true
  | .shared, .exclusive => false

/-- Two modes conflict when at least one of them is exclusive. -/
def LockType.conflicts (a b : LockType) : Bool :=
  a == .exclusive || b == .exclusive

/-- `LockEntry`. -/
structure LockEntry where
  txnId : TransactionId
  lockType : LockType
  deriving DecidableEq, Repr

/-- The map behind `LockManager::locks`. -/
abbrev LockTable := Std.ExtTreeMap String (List LockEntry)

namespace LockManager

/-- The loop of `try_acquire_lock_once` over the entries still to be looked at,
with the answer it returns: the new entry list, or `Busy`.  The upgrade arm is
the source's `retain` and `break`, which fall through to the push. -/
def tryEntries (entries : List LockEntry) (txnId : TransactionId) (lockType : LockType) :
    List LockEntry → Except VelociError (List LockEntry)
  | [] => .ok (entries ++ [⟨txnId, lockType⟩])
  | existing :: rest =>
      if existing.txnId = txnId then
        match existing.lockType, lockType with
        | .shared, .exclusive =>
            if entries.any (fun e => e.txnId ≠ txnId) then .error .busy
            else .ok (entries.filter (fun e => e.txnId ≠ txnId) ++ [⟨txnId, lockType⟩])
        | .exclusive, .shared => .ok entries
        | .shared, .shared => .ok entries
        | .exclusive, .exclusive => .ok entries
      else
        match lockType, existing.lockType with
        | .shared, .shared => tryEntries entries txnId lockType rest
        | .exclusive, _ => .error .busy
        | _, .exclusive => .error .busy

/-- `try_acquire_lock_once`.  `entry().or_default()` leaves an entry list in the
map even when the answer is `Busy`. -/
def tryAcquireLockOnce (locks : LockTable) (resource : String) (txnId : TransactionId)
    (lockType : LockType) : Except VelociError Unit × LockTable :=
  let entries := locks[resource]?.getD []
  match tryEntries entries txnId lockType entries with
  | .ok entries' => (.ok (), locks.insert resource entries')
  | .error e => (.error e, locks.insert resource entries)

/-- The `retain` of `release_lock`, under the `get_mut` guard.  The flag tells
whether the list was emptied, so that `locks.remove` follows. -/
def releaseRetain (locks : LockTable) (resource : String) (txnId : TransactionId) :
    LockTable × Bool :=
  match locks[resource]? with
  | none => (locks, false)
  | some entries =>
      let kept := entries.filter (fun e => e.txnId ≠ txnId)
      (locks.insert resource kept, kept.isEmpty)

end LockManager

/-! ## Interleavings -/

/-- Where a transaction stands: between calls, in the key loop of a release, or
past a `retain` that emptied `resource` and before the `remove`. -/
inductive TxnPc where
  | idle
  | release (keys : List String)
  | remove (resource : String) (keys : List String)
  deriving DecidableEq, Repr

/-- The lock table, every transaction's program counter, and the ghost record of
the locks each transaction holds. -/
structure LockSys where
  locks : LockTable
  pc : TransactionId → TxnPc
  held : TransactionId → String → Option LockType

/-- The atomic steps. -/
inductive LockAction where
  | tryAcquire (txnId : TransactionId) (resource : String) (lockType : LockType)
  | releaseLock (txnId : TransactionId) (resource : String)
  | releaseAllLocks (txnId : TransactionId) (keys : List String)
  | advance (txnId : TransactionId)
  deriving DecidableEq, Repr

namespace LockSys

/-- No lock, no transaction inside a call. -/
def init : LockSys := ⟨∅, fun _ => .idle, fun _ _ => none⟩

/-- The mode a transaction holds after an `Ok`: a second acquire never weakens
what it already has. -/
def strongest : Option LockType → LockType → LockType
  | some .exclusive, _ => .exclusive
  | _, m => m

/-- One attempt of `acquire_lock`.  `Busy` leaves the caller to retry or time out,
which is another action or none. -/
def acquire (s : LockSys) (t : TransactionId) (r : String) (m : LockType) : LockSys :=
  match LockManager.tryAcquireLockOnce s.locks r t m with
  | (.ok (), locks) =>
      { s with
        locks
        held := Function.update s.held t
          (Function.update (s.held t) r (some (strongest (s.held t r) m))) }
  | (.error _, locks) => { s with locks }

/-- The next atomic step of the release call transaction `t` is in. -/
def advanceRelease (s : LockSys) (t : TransactionId) : Option LockSys :=
  match s.pc t with
  | .idle => none
  | .release [] => some { s with pc := Function.update s.pc t .idle }
  | .release (r :: keys) =>
      let (locks, emptied) := LockManager.releaseRetain s.locks r t
      some { s with
        locks
        pc := Function.update s.pc t (if emptied then .remove r keys else .release keys) }
  | .remove r keys =>
      some { s with locks := s.locks.erase r, pc := Function.update s.pc t (.release keys) }

/-- The step function.  `release_all_locks` collects the keys in the map's own
order, which is any order. -/
def step (s : LockSys) : LockAction → Option LockSys
  | .tryAcquire t r m => if s.pc t = .idle then some (s.acquire t r m) else none
  | .releaseLock t r =>
      if s.pc t = .idle then
        some { s with
          pc := Function.update s.pc t (.release [r])
          held := Function.update s.held t (Function.update (s.held t) r none) }
      else none
  | .releaseAllLocks t keys =>
      if s.pc t = .idle ∧ keys.isPerm s.locks.keys then
        some { s with
          pc := Function.update s.pc t (.release keys)
          held := Function.update s.held t fun _ => none }
      else none
  | .advance t => s.advanceRelease t

/-- Mutual exclusion: no two different transactions hold conflicting locks on one
resource. -/
def Excludes (s : LockSys) : Prop :=
  ∀ r t₁ t₂ m₁ m₂, t₁ ≠ t₂ → s.held t₁ r = some m₁ → s.held t₂ r = some m₂ →
    m₁.conflicts m₂ = false

/-- The condition on a step: a `locks.remove` finds its entry list still empty
(or already gone), that is, nobody acquired the resource inside the window. -/
def RemovesEmpty (s : LockSys) : LockAction → Prop
  | .advance t =>
      match s.pc t with
      | .remove r _ => s.locks[r]?.getD [] = []
      | _ => True
  | _ => True

instance (s : LockSys) (a : LockAction) : Decidable (RemovesEmpty s a) := by
  unfold RemovesEmpty
  split
  · split <;> infer_instance
  · infer_instance

end LockSys

/-! ## What an `Ok` of `try_acquire_lock_once` means -/

namespace LockManager

/-- Entries of different transactions are all shared. -/
def Compatible (entries : List LockEntry) : Prop :=
  ∀ e₁ ∈ entries, ∀ e₂ ∈ entries, e₁.txnId ≠ e₂.txnId →
    e₁.lockType = .shared ∧ e₂.lockType = .shared

/-- The three ways to `Ok`: already covered, upgraded as the only owner, or
pushed beside shared entries of others. -/
theorem tryEntries_ok {all : List LockEntry} {t : TransactionId} {m : LockType} :
    ∀ {rest entries' : List LockEntry}, rest ⊆ all →
      tryEntries all t m rest = .ok entries' →
      (entries' = all ∧ ∃ e ∈ all, e.txnId = t ∧ e.lockType.covers m = true) ∨
      (entries' = [⟨t, m⟩] ∧ m = .exclusive ∧ ∀ e ∈ all, e.txnId = t) ∨
      (entries' = all ++ [⟨t, m⟩] ∧
        ∀ e ∈ rest, e.txnId ≠ t ∧ e.lockType = .shared ∧ m = .shared)
  | [], _, _, h => by
      simp only [tryEntries, Except.ok.injEq] at h
      exact Or.inr (Or.inr ⟨h.symm, fun _ he => absurd he List.not_mem_nil⟩)
  | e :: rest, entries', hsub, h => by
      have he : e ∈ all := hsub List.mem_cons_self
      have hrest : rest ⊆ all := fun x hx => hsub (List.mem_cons_of_mem _ hx)
      by_cases ht : e.txnId = t
      · cases hty : e.lockType with
        | exclusive =>
            have hall : entries' = all := by
              cases m <;> simp_all [tryEntries]
            exact Or.inl ⟨hall, e, he, ht, by rw [hty]; rfl⟩
        | shared =>
            cases m with
            | shared =>
                have hall : entries' = all := by simp_all [tryEntries]
                exact Or.inl ⟨hall, e, he, ht, by rw [hty]; rfl⟩
            | exclusive =>
                simp only [tryEntries, if_pos ht, hty] at h
                split at h
                · cases h
                · rename_i hany
                  have hown : ∀ x ∈ all, x.txnId = t := by simpa using hany
                  have hnone : all.filter (fun x => x.txnId ≠ t) = [] := by
                    simpa [List.filter_eq_nil_iff] using hown
                  refine Or.inr (Or.inl ⟨?_, rfl, hown⟩)
                  rw [hnone] at h
                  exact (Except.ok.inj h).symm
      · cases hm : m with
        | exclusive => simp [tryEntries, ht, hm] at h
        | shared =>
            cases hty : e.lockType with
            | exclusive => simp [tryEntries, ht, hm, hty] at h
            | shared =>
                simp only [tryEntries, if_neg ht, hm, hty] at h
                rcases tryEntries_ok hrest h with h1 | h1 | ⟨h1, h2⟩
                · exact Or.inl h1
                · exact Or.inr (Or.inl h1)
                · refine Or.inr (Or.inr ⟨h1, ?_⟩)
                  intro x hx
                  rcases List.mem_cons.mp hx with rfl | hx
                  · exact ⟨ht, hty, rfl⟩
                  · exact h2 x hx

/-- A grant keeps the entry list compatible. -/
theorem compatible_of_ok {entries entries' : List LockEntry} {t : TransactionId}
    {m : LockType} (hc : Compatible entries)
    (h : tryEntries entries t m entries = .ok entries') : Compatible entries' := by
  rcases tryEntries_ok (List.Subset.refl _) h with ⟨rfl, -⟩ | ⟨rfl, -, -⟩ | ⟨rfl, hshared⟩
  · exact hc
  · intro e₁ h₁ e₂ h₂ hne
    rw [List.mem_singleton.mp h₁, List.mem_singleton.mp h₂] at hne
    exact absurd rfl hne
  · intro e₁ h₁ e₂ h₂ hne
    -- the pushed entry meets only shared entries, and is shared itself beside any
    have key : ∀ e ∈ entries, e.lockType = .shared ∧ m = .shared :=
      fun e he => (hshared e he).2
    simp only [List.mem_append, List.mem_singleton] at h₁ h₂
    rcases h₁ with h₁ | rfl <;> rcases h₂ with h₂ | rfl
    · exact hc e₁ h₁ e₂ h₂ hne
    · exact key e₁ h₁
    · exact (key e₂ h₂).symm
    · exact absurd rfl hne

/-- A grant leaves the caller with an entry at least as strong as it asked for. -/
theorem covers_of_ok {entries entries' : List LockEntry} {t : TransactionId}
    {m : LockType} (h : tryEntries entries t m entries = .ok entries') :
    ∃ e ∈ entries', e.txnId = t ∧ e.lockType.covers m = true := by
  have hself : m.covers m = true := by cases m <;> rfl
  rcases tryEntries_ok (List.Subset.refl _) h with ⟨rfl, hx⟩ | ⟨rfl, -, -⟩ | ⟨rfl, -⟩
  · exact hx
  · exact ⟨_, List.mem_singleton.mpr rfl, rfl, hself⟩
  · exact ⟨_, List.mem_append_right _ (List.mem_singleton.mpr rfl), rfl, hself⟩

/-- Whatever an entry covered before a grant is covered after it, for every
transaction: an entry is only ever replaced by a stronger one of the same owner. -/
theorem covers_mono_of_ok {entries entries' : List LockEntry} {t u : TransactionId}
    {m k : LockType} (h : tryEntries entries t m entries = .ok entries')
    (hu : ∃ e ∈ entries, e.txnId = u ∧ e.lockType.covers k = true) :
    ∃ e ∈ entries', e.txnId = u ∧ e.lockType.covers k = true := by
  obtain ⟨e, he, hid, hk⟩ := hu
  rcases tryEntries_ok (List.Subset.refl _) h with ⟨rfl, -⟩ | ⟨rfl, rfl, hown⟩ | ⟨rfl, -⟩
  · exact ⟨e, he, hid, hk⟩
  · exact ⟨_, List.mem_singleton.mpr rfl, (hown e he).symm.trans hid, rfl⟩
  · exact ⟨e, List.mem_append_left _ he, hid, hk⟩

end LockManager

/-! ## Exclusion -/

namespace LockSys

open LockManager

/-- The invariant: entry lists are compatible, and every lock a transaction
believes it holds is backed by an entry at least as strong. -/
structure Backed (s : LockSys) : Prop where
  compatible : ∀ (r : String) entries, s.locks[r]? = some entries → Compatible entries
  entry : ∀ t (r : String) m, s.held t r = some m → ∃ entries, s.locks[r]? = some entries ∧
    ∃ e ∈ entries, e.txnId = t ∧ e.lockType.covers m = true

theorem backed_init : Backed init where
  compatible := fun r entries h => by simp [init] at h
  entry := fun t r m h => by simp [init] at h

/-- Backed locks exclude: two entries of one compatible list with different
owners are both shared. -/
theorem Backed.excludes {s : LockSys} (h : Backed s) : s.Excludes := by
  intro r t₁ t₂ m₁ m₂ hne h₁ h₂
  obtain ⟨es, hes, e₁, he₁, hid₁, hk₁⟩ := h.entry t₁ r m₁ h₁
  obtain ⟨es', hes', e₂, he₂, hid₂, hk₂⟩ := h.entry t₂ r m₂ h₂
  obtain rfl : es = es' := Option.some.inj (hes.symm.trans hes')
  have hids : e₁.txnId ≠ e₂.txnId := by rw [hid₁, hid₂]; exact hne
  obtain ⟨hs₁, hs₂⟩ := h.compatible r es hes e₁ he₁ e₂ he₂ hids
  rw [hs₁] at hk₁
  rw [hs₂] at hk₂
  cases m₁ <;> cases m₂ <;> simp_all [LockType.covers, LockType.conflicts]

/-- Replacing the list of `r` by one that is compatible and still backs every
holder keeps the invariant. -/
theorem Backed.replace {s : LockSys} (h : Backed s) {r : String} {entries : List LockEntry}
    {pc : TransactionId → TxnPc} {held : TransactionId → String → Option LockType}
    (hc : Compatible entries)
    (hr : ∀ t m, held t r = some m → ∃ e ∈ entries, e.txnId = t ∧ e.lockType.covers m = true)
    (hother : ∀ t r' m, r' ≠ r → held t r' = some m → s.held t r' = some m) :
    Backed ⟨s.locks.insert r entries, pc, held⟩ where
  compatible := by
    intro r' entries' h'
    simp only [Std.ExtTreeMap.getElem?_insert, Std.compare_eq_iff_eq] at h'
    split at h'
    · exact Option.some.inj h' ▸ hc
    · exact h.compatible r' entries' h'
  entry := by
    intro t r' m hm
    simp only [Std.ExtTreeMap.getElem?_insert, Std.compare_eq_iff_eq]
    by_cases hr' : r = r'
    · subst hr'
      exact ⟨entries, if_pos rfl, hr t m hm⟩
    · simp only [if_neg hr']
      exact h.entry t r' m (hother t r' m (fun e => hr' e.symm) hm)

/-- The entry list of a resource, empty when the map has none. -/
theorem Backed.compatible_getD {s : LockSys} (h : Backed s) (r : String) :
    Compatible (s.locks[r]?.getD []) := by
  cases hr : s.locks[r]? with
  | none => exact fun e he => absurd he (by simp)
  | some entries => exact h.compatible r entries hr

theorem Backed.entry_getD {s : LockSys} (h : Backed s) {t : TransactionId} {r : String}
    {m : LockType} (hm : s.held t r = some m) :
    ∃ e ∈ s.locks[r]?.getD [], e.txnId = t ∧ e.lockType.covers m = true := by
  obtain ⟨entries, hes, hx⟩ := h.entry t r m hm
  simpa only [hes, Option.getD_some] using hx

/-- Two entries of one owner: the stronger covers what either covers. -/
theorem exists_covers_both {entries : List LockEntry} {t : TransactionId}
    {m : LockType} {old : Option LockType}
    (hm : ∃ e ∈ entries, e.txnId = t ∧ e.lockType.covers m = true)
    (hold : ∀ k, old = some k → ∃ e ∈ entries, e.txnId = t ∧ e.lockType.covers k = true) :
    ∃ e ∈ entries, e.txnId = t ∧ e.lockType.covers (strongest old m) = true := by
  cases old with
  | none => exact hm
  | some k =>
      cases k with
      | exclusive => exact hold _ rfl
      | shared => exact hm

theorem Backed.acquire {s : LockSys} (h : Backed s) (t : TransactionId) (r : String)
    (m : LockType) : Backed (s.acquire t r m) := by
  simp only [LockSys.acquire, tryAcquireLockOnce]
  cases hx : tryEntries (s.locks[r]?.getD []) t m (s.locks[r]?.getD []) with
  | error e =>
      exact h.replace (h.compatible_getD r) (fun _ _ hm => h.entry_getD hm)
        (fun _ _ _ _ hm => hm)
  | ok entries' =>
      refine h.replace (compatible_of_ok (h.compatible_getD r) hx) ?_ ?_
      · intro u k hk
        by_cases hut : u = t
        · subst hut
          simp only [Function.update_self, Option.some.injEq] at hk
          subst hk
          exact exists_covers_both (covers_of_ok hx)
            (fun k hk => covers_mono_of_ok hx (h.entry_getD hk))
        · rw [Function.update_of_ne hut] at hk
          exact covers_mono_of_ok hx (h.entry_getD hk)
      · intro u r' k hr' hk
        by_cases hut : u = t
        · subst hut
          rwa [Function.update_self, Function.update_of_ne hr'] at hk
        · rwa [Function.update_of_ne hut] at hk

/-- Forgetting held locks keeps the invariant. -/
theorem Backed.forget {s : LockSys} (h : Backed s) {pc : TransactionId → TxnPc}
    {held : TransactionId → String → Option LockType}
    (hsub : ∀ t r m, held t r = some m → s.held t r = some m) :
    Backed ⟨s.locks, pc, held⟩ where
  compatible := h.compatible
  entry := fun t r m hm => h.entry t r m (hsub t r m hm)

/-- A transaction inside a release holds nothing on the resources it has still to
release: its record was cleared when the release began, and it cannot acquire
before it ends. -/
def Releasing (s : LockSys) : Prop :=
  ∀ t keys, (s.pc t = .release keys ∨ ∃ r, s.pc t = .remove r keys) →
    ∀ r ∈ keys, s.held t r = none

theorem Releasing.update {s : LockSys} (h : Releasing s) {locks : LockTable}
    {t : TransactionId} {pc : TxnPc}
    (hpc : ∀ keys, (pc = .release keys ∨ ∃ r, pc = .remove r keys) →
      ∀ r ∈ keys, s.held t r = none) :
    Releasing ⟨locks, Function.update s.pc t pc, s.held⟩ := by
  intro u keys hu r hr
  by_cases hut : u = t
  · subst hut
    simp only [Function.update_self] at hu
    exact hpc keys hu r hr
  · simp only [Function.update_of_ne hut] at hu
    exact h u keys hu r hr

/-- The `retain` of transaction `t` on `r` drops only entries of `t`, and `t` no
longer holds `r`. -/
theorem Backed.retain {s : LockSys} (h : Backed s) {t : TransactionId} {r : String}
    (hnone : s.held t r = none) (pc : TransactionId → TxnPc) :
    Backed ⟨(releaseRetain s.locks r t).1, pc, s.held⟩ := by
  unfold releaseRetain
  cases hr : s.locks[r]? with
  | none => exact h.forget fun _ _ _ hm => hm
  | some entries =>
      have hc := h.compatible r entries hr
      refine h.replace ?_ ?_ (fun _ _ _ _ hm => hm)
      · intro e₁ h₁ e₂ h₂ hne
        exact hc e₁ (List.mem_filter.mp h₁).1 e₂ (List.mem_filter.mp h₂).1 hne
      · intro u m hm
        obtain ⟨es, hes, e, he, hid, hk⟩ := h.entry u r m hm
        obtain rfl : entries = es := Option.some.inj (hr.symm.trans hes)
        have hut : u ≠ t := by
          rintro rfl
          rw [hnone] at hm
          cases hm
        refine ⟨e, List.mem_filter.mpr ⟨he, ?_⟩, hid, hk⟩
        simpa [hid] using hut

/-- Removing an entry that is empty or absent takes nobody's lock. -/
theorem Backed.remove {s : LockSys} (h : Backed s) {r : String}
    (hempty : s.locks[r]?.getD [] = []) (pc : TransactionId → TxnPc) :
    Backed ⟨s.locks.erase r, pc, s.held⟩ where
  compatible := by
    intro r' entries h'
    simp only [Std.ExtTreeMap.getElem?_erase, Std.compare_eq_iff_eq] at h'
    split at h'
    · cases h'
    · exact h.compatible r' entries h'
  entry := by
    intro t r' m hm
    obtain ⟨entries, hes, hx⟩ := h.entry t r' m hm
    have hr : r ≠ r' := by
      rintro rfl
      obtain ⟨e, he, -⟩ := hx
      rw [hes, Option.getD_some] at hempty
      rw [hempty] at he
      exact absurd he List.not_mem_nil
    refine ⟨entries, ?_, hx⟩
    simpa only [Std.ExtTreeMap.getElem?_erase, Std.compare_eq_iff_eq, if_neg hr] using hes

theorem held_acquire_of_ne {s : LockSys} {t u : TransactionId} (hut : u ≠ t) (r : String)
    (m : LockType) : (s.acquire t r m).held u = s.held u := by
  unfold LockSys.acquire
  split
  · exact Function.update_of_ne hut _ _
  · rfl

theorem pc_acquire (s : LockSys) (t : TransactionId) (r : String) (m : LockType) :
    (s.acquire t r m).pc = s.pc := by
  unfold LockSys.acquire
  split <;> rfl

/-- One step that meets the condition keeps both halves of the invariant. -/
theorem step_backed (s : LockSys) (a : LockAction) (s' : LockSys)
    (h : Backed s ∧ Releasing s) (hok : RemovesEmpty s a) (hs : Via step s a s') :
    Backed s' ∧ Releasing s' := by
  obtain ⟨hb, hrel⟩ := h
  cases a with
  | tryAcquire t r m =>
      simp only [Via, step] at hs
      split at hs
      · rename_i hidle
        cases Option.some.inj hs
        refine ⟨hb.acquire t r m, ?_⟩
        intro u keys hu r' hr'
        rw [pc_acquire] at hu
        have hut : u ≠ t := by
          rintro rfl
          rw [hidle] at hu
          rcases hu with hu | ⟨_, hu⟩ <;> cases hu
        rw [held_acquire_of_ne hut]
        exact hrel u keys hu r' hr'
      · cases hs
  | releaseLock t r =>
      simp only [Via, step] at hs
      split at hs
      · cases Option.some.inj hs
        refine ⟨hb.forget ?_, ?_⟩
        · intro u r' m hm
          by_cases hut : u = t
          · subst hut
            simp only [Function.update_self] at hm
            by_cases hr : r' = r
            · subst hr
              simp at hm
            · rwa [Function.update_of_ne hr] at hm
          · rwa [Function.update_of_ne hut] at hm
        · intro u keys hu r' hr'
          by_cases hut : u = t
          · subst hut
            simp only [Function.update_self] at hu ⊢
            rcases hu with hu | ⟨_, hu⟩ <;> cases hu
            obtain rfl := List.mem_singleton.mp hr'
            simp
          · simp only [Function.update_of_ne hut] at hu ⊢
            exact hrel u keys hu r' hr'
      · cases hs
  | releaseAllLocks t keys =>
      simp only [Via, step] at hs
      split at hs
      · cases Option.some.inj hs
        refine ⟨hb.forget ?_, ?_⟩
        · intro u r' m hm
          by_cases hut : u = t
          · subst hut
            simp at hm
          · rwa [Function.update_of_ne hut] at hm
        · intro u keys' hu r' hr'
          by_cases hut : u = t
          · subst hut
            simp
          · simp only [Function.update_of_ne hut] at hu ⊢
            exact hrel u keys' hu r' hr'
      · cases hs
  | advance t =>
      simp only [Via, step, advanceRelease] at hs
      split at hs
      · cases hs
      · cases Option.some.inj hs
        exact ⟨hb.forget fun _ _ _ hm => hm, hrel.update (by simp)⟩
      · rename_i r keys hpc
        cases Option.some.inj hs
        have hkeys : ∀ r' ∈ r :: keys, s.held t r' = none := hrel t _ (Or.inl hpc)
        refine ⟨hb.retain (hkeys r List.mem_cons_self) _, hrel.update ?_⟩
        intro keys' hk r' hr'
        refine hkeys r' (List.mem_cons_of_mem _ ?_)
        split at hk <;> simp_all
      · rename_i r keys hpc
        cases Option.some.inj hs
        simp only [RemovesEmpty, hpc] at hok
        refine ⟨hb.remove hok _, hrel.update ?_⟩
        intro keys' hk r' hr'
        refine hrel t keys (Or.inr ⟨r, hpc⟩) r' ?_
        simp_all

/-- In every interleaving in which each `locks.remove` finds its entry still
empty, no two transactions ever hold conflicting locks on one resource. -/
theorem locks_exclude {s : LockSys} (h : Reaches (Via step) RemovesEmpty init s) : s.Excludes := by
  have hinv : Backed s ∧ Releasing s := by
    refine Reaches.invariant (I := fun s => Backed s ∧ Releasing s) ⟨backed_init, ?_⟩
      step_backed h
    intro t keys hu
    rcases hu with hu | ⟨_, hu⟩ <;> cases hu
  exact hinv.1.excludes

/-- The condition is met by a run that takes, releases and retakes a lock. -/
theorem locks_exclude_reacquire :
    ((runActions step RemovesEmpty init [.tryAcquire 1 "users" .exclusive,
      .releaseLock 1 "users", .advance 1, .advance 1, .advance 1,
      .tryAcquire 2 "users" .exclusive]).elim False Excludes) := by
  have hsome : (runActions step RemovesEmpty init [.tryAcquire 1 "users" .exclusive,
      .releaseLock 1 "users", .advance 1, .advance 1, .advance 1,
      .tryAcquire 2 "users" .exclusive]).isSome = true := by decide
  obtain ⟨s, hs⟩ := Option.isSome_iff_exists.mp hsome
  rw [hs]
  exact locks_exclude (reaches_of_runActions _ .refl hs)

/-- Transaction 1 takes and releases `users`; transaction 2 acquires it in the
window before 1's `remove`, and transaction 3 right after that `remove`. -/
def windowRun : List LockAction :=
  [.tryAcquire 1 "users" .exclusive, .releaseLock 1 "users", .advance 1,
    .tryAcquire 2 "users" .exclusive, .advance 1, .tryAcquire 3 "users" .exclusive]

/-- Transactions 2 and 3 hold `users` exclusively at the same time. -/
theorem not_locks_exclude : ¬ ∀ s : LockSys, Reaches (Via step) Any init s → s.Excludes := by
  intro hall
  have hrun : ((runActions step Any init windowRun).map fun s =>
      (s.held 2 "users", s.held 3 "users")) = some (some .exclusive, some .exclusive) := by
    decide
  obtain ⟨s, hs, hheld⟩ := Option.map_eq_some_iff.mp hrun
  obtain ⟨h₂, h₃⟩ := Prod.mk.inj hheld
  have hx := hall s (reaches_of_runActions windowRun .refl hs) "users" 2 3 _ _ (by decide) h₂ h₃
  exact absurd hx (by decide)

end LockSys

end VelociDB
