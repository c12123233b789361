/-
# Lock grants are exact (`transaction.rs`, `LockManager`)

Calls that come one after another, each run to its end: `try_acquire_lock_once`,
`release_lock` and `release_all_locks`.  Then every entry list is `Exact`: a transaction
stands in it once, and an exclusive entry stands in it alone.  On such a list the loop of
`try_acquire_lock_once`, which looks at one entry after the other and may leave early,
answers what a look at all of them answers.

    entriesOf locks r t   the entries of `t` on `r`, at most one
    mode locks r t        the mode in which `t` holds `r`
    Blocked es t m        an entry of another transaction conflicts with `m`
-/
import VelociDB.WriterRace

namespace VelociDB

open Transition

namespace LockManager

/-- The entry list of `r`; empty when the map has none. -/
def entries (locks : LockTable) (r : String) : List LockEntry := locks[r]?.getD []

/-- The entries of `t` on `r`. -/
def entriesOf (locks : LockTable) (r : String) (t : TransactionId) : List LockEntry :=
  (entries locks r).filter fun e => e.txnId = t

/-- The mode in which `t` holds `r`. -/
def mode (locks : LockTable) (r : String) (t : TransactionId) : Option LockType :=
  (entriesOf locks r t).head?.map LockEntry.lockType

/-- An entry of another transaction conflicts with `m`. -/
def Blocked (es : List LockEntry) (t : TransactionId) (m : LockType) : Prop :=
  ∃ e ∈ es, e.txnId ≠ t ∧ e.lockType.conflicts m = true

/-- What every entry list is like between two calls. -/
structure Exact (es : List LockEntry) : Prop where
  /-- a transaction has one entry at most -/
  once : (es.map LockEntry.txnId).Nodup
  /-- an exclusive entry is the only one -/
  alone : ∀ e ∈ es, e.lockType = .exclusive → es = [e]

variable {locks locks' : LockTable} {es es' rest : List LockEntry} {r : String}
  {t u : TransactionId} {m : LockType} {x : LockEntry}

theorem exact_nil : Exact [] where
  once := List.nodup_nil
  alone := fun _ he => absurd he List.not_mem_nil

theorem exact_singleton (x : LockEntry) : Exact [x] where
  once := List.nodup_singleton _
  alone := by
    intro e he _
    rw [List.mem_singleton.mp he]

/-- A release keeps exact lists exact. -/
theorem Exact.filter (h : Exact es) (p : LockEntry → Bool) : Exact (es.filter p) where
  once := h.once.sublist (List.filter_sublist.map _)
  alone := by
    intro e he hty
    obtain ⟨hmem, hp⟩ := List.mem_filter.mp he
    rw [h.alone e hmem hty, List.filter_cons_of_pos hp, List.filter_nil]

/-- The one entry of its transaction. -/
theorem Exact.filter_eq (h : Exact es) (hx : x ∈ es) :
    es.filter (fun e => e.txnId = x.txnId) = [x] := by
  have honce := h.once
  obtain ⟨pre, post, rfl⟩ := List.append_of_mem hx
  rw [List.map_append, List.map_cons, List.nodup_append, List.nodup_cons] at honce
  obtain ⟨-, ⟨hpost, -⟩, hdisjoint⟩ := honce
  have hnone : ∀ e ∈ pre ++ post, ¬ decide (e.txnId = x.txnId) = true := by
    intro e he heq
    have hid := of_decide_eq_true heq
    rcases List.mem_append.mp he with hpre | hin
    · exact hdisjoint _ (List.mem_map_of_mem hpre) _ List.mem_cons_self hid
    · exact hpost (hid ▸ List.mem_map_of_mem hin)
  rw [List.filter_append, List.filter_cons_of_pos (by simp),
    List.filter_eq_nil_iff.mpr fun e he => hnone e (List.mem_append_left _ he),
    List.filter_eq_nil_iff.mpr fun e he => hnone e (List.mem_append_right _ he), List.nil_append]

/-! ## One attempt -/

/-- `Busy` is the only error, and it has a reason. -/
theorem tryEntries_error {all : List LockEntry} {e : VelociError} (hsub : rest ⊆ all)
    (h : tryEntries all t m rest = .error e) : e = .busy ∧ Blocked all t m := by
  induction rest with
  | nil => cases h
  | cons x rest ih =>
      have hx : x ∈ all := hsub List.mem_cons_self
      unfold tryEntries at h
      split at h
      · split at h
        · split at h
          · rename_i hany
            obtain ⟨y, hy, hyt⟩ := List.any_eq_true.mp hany
            refine ⟨(Except.error.inj h).symm, y, hy, of_decide_eq_true hyt, ?_⟩
            cases y.lockType <;> rfl
          · cases h
        · cases h
        · cases h
        · cases h
      · rename_i hxt
        split at h
        · exact ih (fun y hy => hsub (List.mem_cons_of_mem _ hy)) h
        · refine ⟨(Except.error.inj h).symm, x, hx, hxt, ?_⟩
          cases x.lockType <;> rfl
        · rename_i hty
          refine ⟨(Except.error.inj h).symm, x, hx, hxt, ?_⟩
          rw [hty]
          rfl

/-- What is granted is not blocked. -/
theorem Exact.not_blocked (h : Exact es) (hok : tryEntries es t m es = .ok es') :
    ¬ Blocked es t m := by
  rintro ⟨x, hx, hxt, hconf⟩
  rcases tryEntries_ok (List.Subset.refl _) hok with ⟨-, e, he, rfl, hcov⟩ | ⟨-, -, hown⟩ |
    ⟨-, hshared⟩
  · -- one of the two entries is exclusive, and would stand alone
    have hex : x.lockType = .exclusive ∨ e.lockType = .exclusive := by
      revert hconf hcov
      cases x.lockType <;> cases e.lockType <;> cases m <;> simp [LockType.covers, LockType.conflicts]
    rcases hex with hex | hex
    · rw [h.alone x hx hex] at he
      exact hxt (List.mem_singleton.mp he ▸ rfl)
    · rw [h.alone e he hex] at hx
      exact hxt (List.mem_singleton.mp hx ▸ rfl)
  · exact hxt (hown x hx)
  · obtain ⟨-, hty, rfl⟩ := hshared x hx
    rw [hty] at hconf
    cases hconf

/-- The decision of the loop. -/
theorem Exact.tryEntries_cases (h : Exact es) (t : TransactionId) (m : LockType) :
    (Blocked es t m ∧ tryEntries es t m es = .error .busy) ∨
      (¬ Blocked es t m ∧ ∃ es', tryEntries es t m es = .ok es') := by
  cases hx : tryEntries es t m es with
  | ok es' => exact Or.inr ⟨h.not_blocked hx, es', rfl⟩
  | error e =>
      obtain ⟨rfl, hblocked⟩ := tryEntries_error (List.Subset.refl _) hx
      exact Or.inl ⟨hblocked, rfl⟩

/-- A grant keeps the list exact. -/
theorem Exact.of_ok (h : Exact es) (hok : tryEntries es t m es = .ok es') : Exact es' := by
  rcases tryEntries_ok (List.Subset.refl _) hok with ⟨rfl, -⟩ | ⟨rfl, -, -⟩ | ⟨rfl, hshared⟩
  · exact h
  · exact exact_singleton _
  · constructor
    · rw [List.map_append, List.nodup_append]
      refine ⟨h.once, List.nodup_singleton _, ?_⟩
      intro a ha b hb
      obtain ⟨e, he, rfl⟩ := List.mem_map.mp ha
      rw [List.mem_singleton.mp hb]
      exact (hshared e he).1
    · intro e he hty
      rcases List.mem_append.mp he with he | he
      · rw [(hshared e he).2.1] at hty
        cases hty
      · obtain rfl := List.mem_singleton.mp he
        -- beside any other entry the pushed one would be shared
        have hnil : es = [] := by
          refine List.eq_nil_iff_forall_not_mem.mpr fun y hy => ?_
          have hm := (hshared y hy).2.2
          rw [hm] at hty
          cases hty
        rw [hnil, List.nil_append]

/-- A grant touches no entry of another transaction. -/
theorem filter_of_ok_of_ne (hok : tryEntries es t m es = .ok es') (hu : u ≠ t) :
    es'.filter (fun e => e.txnId = u) = es.filter fun e => e.txnId = u := by
  rcases tryEntries_ok (List.Subset.refl _) hok with ⟨rfl, -⟩ | ⟨rfl, -, hown⟩ | ⟨rfl, -⟩
  · rfl
  · have hnone : es.filter (fun e => e.txnId = u) = [] := by
      refine List.filter_eq_nil_iff.mpr fun e he heq => hu ?_
      rw [← of_decide_eq_true heq, hown e he]
    rw [hnone, List.filter_cons_of_neg (by simpa using hu.symm), List.filter_nil]
  · rw [List.filter_append, List.filter_cons_of_neg (by simpa using hu.symm), List.filter_nil,
      List.append_nil]

/-- After a grant the caller has one entry: the stronger of what it had and what it asked for. -/
theorem Exact.filter_of_ok (h : Exact es) (hok : tryEntries es t m es = .ok es') :
    es'.filter (fun e => e.txnId = t) =
      [⟨t, LockSys.strongest ((es.filter fun e => e.txnId = t).head?.map LockEntry.lockType) m⟩] := by
  rcases tryEntries_ok (List.Subset.refl _) hok with ⟨rfl, e, he, rfl, hcov⟩ | ⟨rfl, rfl, hown⟩ |
    ⟨rfl, hshared⟩
  · rw [h.filter_eq he, List.head?_cons, Option.map_some]
    have hstrong : LockSys.strongest (some e.lockType) m = e.lockType := by
      revert hcov
      cases e.lockType <;> cases m <;> simp [LockType.covers, LockSys.strongest]
    rw [hstrong]
  · rw [List.filter_cons_of_pos (by simp), List.filter_nil]
    have hstrong : ∀ o, LockSys.strongest o .exclusive = .exclusive := by
      intro o
      rcases o with _ | _ | _ <;> rfl
    rw [hstrong]
  · have hnone : es.filter (fun e => e.txnId = t) = [] :=
      List.filter_eq_nil_iff.mpr fun e he heq => (hshared e he).1 (of_decide_eq_true heq)
    rw [List.filter_append, hnone, List.nil_append, List.filter_cons_of_pos (by simp)]
    rfl

/-! ## The table -/

theorem entries_acquire (locks : LockTable) (resource : String) (t : TransactionId)
    (m : LockType) (hx : tryAcquireLockOnce locks resource t m = (.ok (), locks')) :
    ∃ es', tryEntries (entries locks resource) t m (entries locks resource) = .ok es' ∧
      entries locks' resource = es' ∧ ∀ r, r ≠ resource → entries locks' r = entries locks r := by
  obtain ⟨es', hok, hset⟩ := acquire_ok hx
  refine ⟨es', hok, ?_, fun r hr => ?_⟩
  · exact (hset resource).trans (if_pos rfl)
  · exact (hset r).trans (if_neg hr)

/-- A refused attempt puts the list back that was there. -/
theorem acquire_error (h : Exact (entries locks r)) (hb : Blocked (entries locks r) t m) :
    tryAcquireLockOnce locks r t m = (.error .busy, locks) := by
  have htry : tryEntries (entries locks r) t m (entries locks r) = .error .busy := by
    rcases h.tryEntries_cases t m with ⟨-, herr⟩ | ⟨hnot, -⟩
    · exact herr
    · exact absurd hb hnot
  have hsame : locks.insert r (entries locks r) = locks := by
    obtain ⟨x, hx, -⟩ := hb
    refine Std.ExtTreeMap.ext_getElem? fun r' => ?_
    rw [Std.ExtTreeMap.getElem?_insert]
    split
    · rename_i heq
      obtain rfl := Std.LawfulEqCmp.eq_of_compare heq
      unfold entries at hx ⊢
      cases hr : locks[r]? with
      | none =>
          rw [hr] at hx
          exact absurd hx List.not_mem_nil
      | some es => rfl
    · rfl
  have hdef : tryAcquireLockOnce locks r t m = (.error .busy, locks.insert r (entries locks r)) := by
    unfold entries at htry
    unfold tryAcquireLockOnce
    dsimp only
    rw [htry]
    rfl
  rw [hdef, hsame]

/-- The two outcomes of an attempt. -/
theorem acquire_cases (h : Exact (entries locks r)) (t : TransactionId) (m : LockType) :
    (Blocked (entries locks r) t m ∧ tryAcquireLockOnce locks r t m = (.error .busy, locks)) ∨
      (¬ Blocked (entries locks r) t m ∧
        ∃ locks', tryAcquireLockOnce locks r t m = (.ok (), locks')) := by
  rcases h.tryEntries_cases t m with ⟨hb, -⟩ | ⟨hnot, es', hok⟩
  · exact Or.inl ⟨hb, acquire_error h hb⟩
  · refine Or.inr ⟨hnot, locks.insert r es', ?_⟩
    unfold entries at hok
    unfold tryAcquireLockOnce
    dsimp only
    rw [hok]

theorem entries_release (locks : LockTable) (resource : String) (t : TransactionId) (r : String) :
    entries (releaseLock locks resource t) r =
      if r = resource then (entries locks r).filter (fun e => e.txnId ≠ t) else entries locks r :=
  entries_releaseLock locks resource t r

/-! ## Complete calls -/

/-- A call and its arguments.  `release_all_locks` visits the keys in the map's own order,
which is any order. -/
inductive Call where
  | tryAcquireLockOnce (resource : String) (txnId : TransactionId) (lockType : LockType)
  | releaseLock (resource : String) (txnId : TransactionId)
  | releaseAllLocks (txnId : TransactionId) (keys : List String)
  deriving DecidableEq, Repr

/-- The transaction that calls. -/
def Call.txnId : Call → TransactionId
  | .tryAcquireLockOnce _ t _ | .releaseLock _ t | .releaseAllLocks t _ => t

/-- The table after the call. -/
def Call.run (locks : LockTable) : Call → Option LockTable
  | .tryAcquireLockOnce resource t m => some (LockManager.tryAcquireLockOnce locks resource t m).2
  | .releaseLock resource t => some (LockManager.releaseLock locks resource t)
  | .releaseAllLocks t keys =>
      if keys.isPerm locks.keys then
        some (keys.foldl (fun locks key => LockManager.releaseLock locks key t) locks)
      else none

/-- The table can be so between two calls. -/
def Sound (locks : LockTable) : Prop := ∀ r, Exact (entries locks r)

/-- The entries of everyone but `t` are where they were. -/
def Spares (t : TransactionId) (locks locks' : LockTable) : Prop :=
  ∀ r u, u ≠ t → entriesOf locks' r u = entriesOf locks r u

theorem sound_release (h : Sound locks) (resource : String) (t : TransactionId) :
    Sound (releaseLock locks resource t) := by
  intro r
  rw [entries_release]
  split
  · exact (h r).filter _
  · exact h r

theorem spares_release (locks : LockTable) (resource : String) (t : TransactionId) :
    Spares t locks (releaseLock locks resource t) := by
  intro r u hu
  unfold entriesOf
  rw [entries_release]
  split
  · rw [List.filter_filter]
    refine List.filter_congr fun e _ => ?_
    by_cases he : e.txnId = u
    · simp [he, hu]
    · simp [he]
  · rfl

theorem Spares.trans {locks₁ locks₂ locks₃ : LockTable} (h : Spares t locks₁ locks₂)
    (h' : Spares t locks₂ locks₃) : Spares t locks₁ locks₃ := by
  intro r u hu
  rw [h' r u hu, h r u hu]

theorem sound_releases (keys : List String) (h : Sound locks) (t : TransactionId) :
    Sound (keys.foldl (fun locks key => releaseLock locks key t) locks) := by
  induction keys generalizing locks with
  | nil => exact h
  | cons key keys ih => exact ih (sound_release h key t)

theorem spares_releases (keys : List String) (locks : LockTable) (t : TransactionId) :
    Spares t locks (keys.foldl (fun locks key => releaseLock locks key t) locks) := by
  induction keys generalizing locks with
  | nil => exact fun _ _ _ => rfl
  | cons key keys ih => exact (spares_release locks key t).trans (ih _)

theorem sound_acquire (h : Sound locks) (resource : String) (t : TransactionId) (m : LockType) :
    Sound (tryAcquireLockOnce locks resource t m).2 := by
  rcases acquire_cases (h resource) t m with ⟨-, hx⟩ | ⟨-, locks', hx⟩
  · rw [hx]
    exact h
  · rw [hx]
    obtain ⟨es', hok, hset, hother⟩ := entries_acquire locks resource t m hx
    intro r
    rcases eq_or_ne r resource with rfl | hr
    · exact hset ▸ (h r).of_ok hok
    · exact hother r hr ▸ h r

theorem spares_acquire (h : Sound locks) (resource : String) (t : TransactionId) (m : LockType) :
    Spares t locks (tryAcquireLockOnce locks resource t m).2 := by
  intro r u hu
  rcases acquire_cases (h resource) t m with ⟨-, hx⟩ | ⟨-, locks', hx⟩
  · rw [hx]
  · rw [hx]
    obtain ⟨es', hok, hset, hother⟩ := entries_acquire locks resource t m hx
    unfold entriesOf
    rcases eq_or_ne r resource with rfl | hr
    · rw [hset]
      exact filter_of_ok_of_ne hok hu
    · rw [hother r hr]

/-- One call keeps the table sound and spares the others. -/
theorem run_sound {call : Call} (h : Sound locks) (hrun : call.run locks = some locks') :
    Sound locks' ∧ Spares call.txnId locks locks' := by
  cases call with
  | tryAcquireLockOnce resource t m =>
      cases hrun
      exact ⟨sound_acquire h resource t m, spares_acquire h resource t m⟩
  | releaseLock resource t =>
      cases hrun
      exact ⟨sound_release h resource t, spares_release locks resource t⟩
  | releaseAllLocks t keys =>
      dsimp only [Call.run] at hrun
      split at hrun
      · cases hrun
        exact ⟨sound_releases keys h t, spares_releases keys locks t⟩
      · cases hrun

theorem sound_of_reaches (h : Reaches (Via Call.run) Any ∅ locks) : Sound locks := by
  refine Reaches.invariant ?_ ?_ h
  · intro r
    exact exact_nil
  · intro locks call locks' hsound _ hrun
    exact (run_sound hsound hrun).1

/-- After any calls, every entry list is exact; an attempt succeeds if and only if no other
transaction's entry conflicts, and then the caller has the stronger of the two modes; a
refused attempt changes nothing; and no call touches another transaction's entries. -/
theorem grants_exact (h : Reaches (Via Call.run) Any ∅ locks) :
    (∀ r, Exact (entries locks r)) ∧
    (∀ r t m,
      ((tryAcquireLockOnce locks r t m).1 = .ok () ↔
        ∀ e ∈ entries locks r, e.txnId ≠ t → e.lockType.conflicts m = false) ∧
      ((tryAcquireLockOnce locks r t m).1 = .ok () →
        entriesOf (tryAcquireLockOnce locks r t m).2 r t =
          [⟨t, LockSys.strongest (mode locks r t) m⟩]) ∧
      ((tryAcquireLockOnce locks r t m).1 ≠ .ok () →
        tryAcquireLockOnce locks r t m = (.error .busy, locks))) ∧
    ∀ call locks', Call.run locks call = some locks' → Spares call.txnId locks locks' := by
  have hsound := sound_of_reaches h
  refine ⟨hsound, fun r t m => ?_, fun call locks' hrun => (run_sound hsound hrun).2⟩
  have hblocked : (∀ e ∈ entries locks r, e.txnId ≠ t → e.lockType.conflicts m = false) ↔
      ¬ Blocked (entries locks r) t m := by
    simp [Blocked]
  rw [hblocked]
  rcases acquire_cases (hsound r) t m with ⟨hb, hx⟩ | ⟨hnot, locks', hx⟩
  · rw [hx]
    have hbusy : (Except.error .busy : Except VelociError Unit) ≠ .ok () := by
      intro hok
      cases hok
    exact ⟨⟨fun hok => absurd hok hbusy, fun hnot => absurd hb hnot⟩,
      fun hok => absurd hok hbusy, fun _ => rfl⟩
  · rw [hx]
    obtain ⟨es', hok, hset, -⟩ := entries_acquire locks r t m hx
    refine ⟨⟨fun _ => hnot, fun _ => rfl⟩, fun _ => ?_, fun hno => absurd rfl hno⟩
    unfold mode entriesOf
    rw [hset]
    exact (hsound r).filter_of_ok hok

/-- Two readers, of whom one leaves and the other upgrades. -/
def upgradeCalls : List Call :=
  [.tryAcquireLockOnce "table1" 1 .shared, .tryAcquireLockOnce "table1" 2 .shared,
    .tryAcquireLockOnce "table1" 1 .exclusive, .releaseLock "table1" 2,
    .tryAcquireLockOnce "table1" 1 .exclusive]

theorem grants_exact_upgrade :
    (runActions Call.run Any ∅ upgradeCalls).elim False fun locks =>
      entriesOf (tryAcquireLockOnce locks "table1" 1 .shared).2 "table1" 1 =
        [⟨1, LockSys.strongest (mode locks "table1" 1) .shared⟩] := by
  have hrun : ((runActions Call.run Any ∅ upgradeCalls).map fun locks =>
      (tryAcquireLockOnce locks "table1" 1 .shared).1) = some (.ok ()) := by
    decide
  obtain ⟨locks, hs, hok⟩ := Option.map_eq_some_iff.mp hrun
  rw [hs]
  exact ((grants_exact (reaches_of_runActions _ .refl hs)).2.1 "table1" 1 .shared).2.1 hok

end LockManager
end VelociDB
