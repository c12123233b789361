/-
# Reasoning about pager methods

The program logic of `Lib.Prog`, one rule for each way a method of the pager is put
together (`PagerM.wp`), and the equations of the methods that touch no file.
-/
import VelociDB.Pager

namespace VelociDB

open Bytes

namespace PagerM

variable {H : (op : DiskOp) → Disk → Except VelociError op.Ans → Disk → Prop}
  {J : Disk → Prop} {α β : Type}

/-- After every outcome of the method `Q` holds of its result, the pager and the files,
and `J` holds of the files wherever the machine may stop on the way. -/
def wp (H : (op : DiskOp) → Disk → Except VelociError op.Ans → Disk → Prop) (J : Disk → Prop)
    (m : PagerM α) (p : Pager) (d : Disk) (Q : Except VelociError α → Pager → Disk → Prop) :
    Prop :=
  Prog.wp H J (m p) d fun o d' => match o with
    | .ok (r, p') => Q r p' d'
    | .error _ => False

theorem wp_ret {m : PagerM α} {p p' : Pager} {d : Disk} {r : Except VelociError α}
    {Q : Except VelociError α → Pager → Disk → Prop} (hm : m p = .ret (r, p')) (hJ : J d)
    (hQ : Q r p' d) : wp H J m p d Q := by
  rw [wp, hm]
  exact ⟨hJ, hQ⟩

theorem wp_bind {m : PagerM α} {f : α → PagerM β} {p : Pager} {d : Disk}
    {Q : Except VelociError β → Pager → Disk → Prop}
    (h : wp H J m p d fun r p' d' => match r with
      | .ok a => wp H J (f a) p' d' Q
      | .error e => Q (.error e) p' d') : wp H J (m >>= f) p d Q := by
  refine Prog.wp_bind (Prog.wp_mono h ?_)
  intro o d' hJ ho
  match o, ho with
  | .ok (.ok a, p'), ho => exact ho
  | .ok (.error e, p'), ho => exact ⟨hJ, ho⟩

theorem wp_get {f : Pager → PagerM β} {p : Pager} {d : Disk}
    {Q : Except VelociError β → Pager → Disk → Prop} (h : wp H J (f p) p d Q) :
    wp H J (get >>= f) p d Q := h

theorem wp_modify {g : Pager → Pager} {f : Unit → PagerM β} {p : Pager} {d : Disk}
    {Q : Except VelociError β → Pager → Disk → Prop} (h : wp H J (f ()) (g p) d Q) :
    wp H J (modify g >>= f) p d Q := h

theorem wp_tryCatch {m : PagerM α} {c : VelociError → PagerM α} {p : Pager} {d : Disk}
    {Q : Except VelociError α → Pager → Disk → Prop}
    (h : wp H J m p d fun r p' d' => match r with
      | .ok a => Q (.ok a) p' d'
      | .error e => wp H J (c e) p' d' Q) : wp H J (tryCatch m c) p d Q := by
  refine Prog.wp_bind (Prog.wp_mono h ?_)
  intro o d' hJ ho
  match o, ho with
  | .ok (.ok a, p'), ho => exact ⟨hJ, ho⟩
  | .ok (.error e, p'), ho => exact ho

theorem wp_mono {m : PagerM α} {p : Pager} {d : Disk}
    {Q Q' : Except VelociError α → Pager → Disk → Prop} (h : wp H J m p d Q)
    (hQ : ∀ r p' d', J d' → Q r p' d' → Q' r p' d') : wp H J m p d Q' := by
  refine Prog.wp_mono h ?_
  intro o d' hJ ho
  match o, ho with
  | .ok (r, p'), ho => exact hQ r p' d' hJ ho

theorem wp_file {op : DiskOp} {p : Pager} {d : Disk}
    {Q : Except VelociError op.Ans → Pager → Disk → Prop} (hJ : J d)
    (h : ∀ r d', H op d r d' → J d' ∧ Q r p d') : wp H J (file op) p d Q := by
  refine Prog.wp_bind (Prog.wp_attempt (Prog.wp_lift hJ ?_))
  intro r d' hH
  exact ⟨(h r d' hH).1, h r d' hH⟩

theorem wp_wal {m : WalManager → IoProg (Except VelociError α × WalManager)} {p : Pager}
    {d : Disk} {Q : Except VelociError α → Pager → Disk → Prop}
    (h : Prog.wp H J (m p.wal) d fun o d' => match o with
      | .ok (r, w) => Q r { p with wal := w } d'
      | .error _ => False) : wp H J (wal m) p d Q := by
  refine Prog.wp_bind (Prog.wp_mono h ?_)
  intro o d' hJ ho
  match o, ho with
  | .ok (r, w), ho => exact ⟨hJ, ho⟩

/-- What a run of the method ends in meets the postcondition. -/
theorem wp_exec {m : PagerM α} {p : Pager} {d d' : Disk}
    {Q : Except VelociError α → Pager → Disk → Prop} (h : wp H J m p d Q)
    {o : Except VelociError (Except VelociError α × Pager)} (hx : Prog.Exec H (m p) d o d') :
    ∃ r p', o = .ok (r, p') ∧ Q r p' d' := by
  have ho := Prog.wp_exec hx h
  match o, ho with
  | .ok (r, p'), ho => exact ⟨r, p', rfl, ho⟩

end PagerM

namespace Pager

/-! ## Methods without I/O -/

section Pure

variable {p : Pager}

theorem beginGroup_eq (h : p.activeGroup = none) :
    beginGroup p = .ret (.ok p.wal.nextGroupId, begun p) := by
  simp only [beginGroup, bind, PagerM.bind, get, getThe, MonadStateOf.get, Prog.bind, h]
  rfl

theorem abortGroup_eq (h : p.activeGroup ≠ none) : abortGroup p = .ret (.ok (), aborted p) := by
  obtain ⟨id, hid⟩ := Option.ne_none_iff_exists'.mp h
  simp only [abortGroup, bind, PagerM.bind, get, getThe, MonadStateOf.get, Prog.bind, hid]
  rfl

theorem abortGroup_idle (h : p.activeGroup = none) :
    abortGroup p = .ret (.error (.transactionError "No active write group to abort"), p) := by
  simp only [abortGroup, bind, PagerM.bind, get, getThe, MonadStateOf.get, Prog.bind, h]
  rfl

theorem beginGroup_busy {id : Nat} (h : p.activeGroup = some id) :
    beginGroup p = .ret (.error (.transactionError "Write group already active"), p) := by
  simp only [beginGroup, bind, PagerM.bind, get, getThe, MonadStateOf.get, Prog.bind, h]
  rfl

theorem beginSavepoint_eq :
    beginSavepoint p = .ret (if p.activeGroup = none then
        (.error (.transactionError "Savepoint requires an active write group"), p)
      else if p.savepoint ≠ none then
        (.error (.transactionError "Savepoint already active"), p)
      else (.ok (), { p with savepoint := some ⟨∅, p.numPages⟩ })) := by
  obtain ⟨numPages, cache, size, order, wal, activeGroup, pending, committed, start, savepoint⟩ := p
  cases activeGroup <;> cases savepoint <;> rfl

theorem rollbackToSavepoint_eq :
    rollbackToSavepoint p = .ret (match p.savepoint with
      | none => (.error (.transactionError "No active savepoint"), p)
      | some sp => (.ok (), undone sp p)) := by
  simp only [rollbackToSavepoint, bind, PagerM.bind, get, getThe, MonadStateOf.get, Prog.bind]
  cases p.savepoint <;> rfl

theorem commitGroup_idle {crc : Bytes → UInt32} (h : p.activeGroup = none) :
    commitGroup crc p =
      .ret (.error (.transactionError "No active write group to commit"), p) := by
  simp only [commitGroup, bind, PagerM.bind, get, getThe, MonadStateOf.get, Prog.bind, h]
  rfl

theorem commitGroup_empty {crc : Bytes → UInt32} {id : Nat} (h : p.activeGroup = some id)
    (he : p.pending.isEmpty) :
    commitGroup crc p = .ret (.ok (), { p with savepoint := none, activeGroup := none }) := by
  simp only [commitGroup, bind, PagerM.bind, get, getThe, MonadStateOf.get, Prog.bind, h]
  simp only [modify, modifyGet, MonadStateOf.modifyGet, Prog.bind, he, if_true]
  rfl

end Pure

/-! ## The cache -/

theorem evict_getElem? (c : PageMap × Nat) (id q : Nat) :
    (evict c id).1[q]? = if q = id then none else c.1[q]? := by
  unfold evict
  by_cases hc : c.1.contains id = true
  · rw [if_pos hc, Std.ExtTreeMap.getElem?_erase]
    by_cases hq : q = id
    · simp [hq]
    · simp [hq, Ne.symm hq]
  · rw [if_neg hc]
    by_cases hq : q = id
    · have hno : c.1[id]? = none := Std.ExtTreeMap.getElem?_eq_none (by simpa using hc)
      rw [hq, hno, if_pos rfl]
    · rw [if_neg hq]

theorem evictAll_getElem? (ids : List Nat) (c : PageMap × Nat) (q : Nat) :
    (evictAll ids c).1[q]? = if q ∈ ids then none else c.1[q]? := by
  induction ids generalizing c with
  | nil => simp [evictAll]
  | cons i ids ih =>
      rw [evictAll, List.foldl_cons, ← evictAll, ih, evict_getElem?]
      by_cases hq : q ∈ ids
      · simp [hq]
      · by_cases hi : q = i
        · simp [hi]
        · simp [hq, hi]

/-- Making room only drops entries. -/
theorem makeRoom_getElem? {keep : Option Nat} {q : Nat} {page : Page} :
    ∀ {fuel : Nat} {c : PageMap × Nat} {order : Nat → Nat},
      (makeRoom keep fuel c order).1.1[q]? = some page → c.1[q]? = some page
  | 0, _, _, h => h
  | fuel + 1, c, order, h => by
      rw [makeRoom] at h
      split at h
      · exact h
      · split at h
        · exact h
        · split at h
          · exact h
          · have h' := makeRoom_getElem? h
            rw [evict_getElem?] at h'
            split at h'
            · cases h'
            · exact h'

theorem cachePage_getElem? {keep : Option Nat} {id q : Nat} {page page' : Page}
    {p : Pager} (h : (cachePage keep id page p).cache[q]? = some page') :
    (q = id ∧ page' = page) ∨ (q ≠ id ∧ p.cache[q]? = some page') := by
  simp only [cachePage] at h
  rw [Std.ExtTreeMap.getElem?_insert] at h
  split at h
  · rename_i hq
    exact Or.inl ⟨(Std.compare_eq_iff_eq.mp hq).symm, (Option.some.inj h).symm⟩
  · rename_i hq
    exact Or.inr ⟨fun heq => hq (Std.compare_eq_iff_eq.mpr heq.symm), makeRoom_getElem? h⟩

/-! ## Maps of pages -/

theorem nodup_keys {β : Type} (m : Std.ExtTreeMap Nat β) : (m.toList.map Prod.fst).Nodup := by
  rw [Std.ExtTreeMap.map_fst_toList_eq_keys]
  exact Std.ExtTreeMap.nodup_keys

theorem lookup_toList {β : Type} (m : Std.ExtTreeMap Nat β) (q : Nat) :
    m.toList.lookup q = m[q]? := by
  have hmem : ∀ v, m.toList.lookup q = some v ↔ m[q]? = some v := by
    intro v
    rw [← Std.ExtTreeMap.mem_toList_iff_getElem?_eq_some]
    constructor
    · intro h
      obtain ⟨l₁, l₂, heq, -⟩ := List.lookup_eq_some_iff.mp h
      rw [heq]
      simp
    · intro h
      obtain ⟨l₁, l₂, heq⟩ := List.append_of_mem h
      refine List.lookup_eq_some_iff.mpr ⟨l₁, l₂, heq, ?_⟩
      intro x hx
      have hnd := nodup_keys m
      rw [heq, List.map_append, List.map_cons, List.nodup_append] at hnd
      have hne := hnd.2.2 x.1 (List.mem_map_of_mem hx) q List.mem_cons_self
      simpa using Ne.symm hne
  cases hl : m.toList.lookup q with
  | some v => exact ((hmem v).mp hl).symm
  | none =>
      cases hm : m[q]? with
      | none => rfl
      | some v =>
          rw [(hmem v).mpr hm] at hl
          cases hl

/-! ## Savepoints -/

/-- Where `undo` has an entry it decides, elsewhere `pending` stays. -/
theorem restore_getElem? {undo : List (Nat × Option Page)}
    (hnd : (undo.map Prod.fst).Nodup) (pending : PageMap) (q : Nat) :
    (restore undo pending)[q]? = ((undo.lookup q).getD pending[q]?) := by
  induction undo generalizing pending with
  | nil => simp [restore]
  | cons e undo ih =>
      rw [List.map_cons, List.nodup_cons] at hnd
      rw [restore, List.foldl_cons, ← restore, ih hnd.2, List.lookup_cons]
      by_cases hq : q = e.1
      · subst hq
        have hno : undo.lookup e.1 = none := by
          rw [List.lookup_eq_none_iff]
          intro x hx
          have : x.1 ≠ e.1 := fun heq => hnd.1 (heq ▸ List.mem_map_of_mem hx)
          simpa using Ne.symm this
        rw [hno, Option.getD_none]
        cases e.2 with
        | none => simp
        | some page => simp
      · have hbeq : (q == e.1) = false := by simpa using hq
        rw [hbeq]
        have hne : compare e.1 q ≠ .eq := fun h => hq (Std.compare_eq_iff_eq.mp h).symm
        cases e.2 with
        | none => simp [Std.ExtTreeMap.getElem?_erase, Ne.symm hq]
        | some page => simp [Std.ExtTreeMap.getElem?_insert, Ne.symm hq]

/-- The pending pages as a rollback would leave them. -/
def rolledBack (sp : Savepoint) (pending : PageMap) : PageMap := restore sp.undo.toList pending

theorem rolledBack_getElem? (sp : Savepoint) (pending : PageMap) (q : Nat) :
    (rolledBack sp pending)[q]? = (sp.undo[q]?).getD pending[q]? := by
  rw [rolledBack, restore_getElem? (nodup_keys sp.undo), lookup_toList]

theorem rolledBack_empty (n : Nat) (pending : PageMap) : rolledBack ⟨∅, n⟩ pending = pending := by
  apply Std.ExtTreeMap.ext_getElem?
  intro q
  rw [rolledBack_getElem?]
  simp

/-- Writing a page under a savepoint does not change what a rollback restores. -/
theorem rolledBack_noteUndo {p : Pager} {sp sp' : Savepoint} {id : Nat} (page : Page)
    (h : p.savepoint = some sp) (h' : (noteUndo id p).savepoint = some sp') :
    sp'.numPages = sp.numPages ∧
      rolledBack sp' (p.pending.insert id page) = rolledBack sp p.pending := by
  simp only [noteUndo, h, Option.map_some, Option.some.injEq] at h'
  subst h'
  refine ⟨by split <;> rfl, ?_⟩
  apply Std.ExtTreeMap.ext_getElem?
  intro q
  rw [rolledBack_getElem?, rolledBack_getElem?]
  by_cases hq : id = q
  · subst hq
    split
    · rename_i hc
      obtain ⟨v, hv⟩ := Option.isSome_iff_exists.mp
        (Std.ExtTreeMap.isSome_getElem?_iff_mem.mpr hc)
      rw [hv]
      rfl
    · rename_i hc
      have hn : sp.undo[id]? = none := Std.ExtTreeMap.getElem?_eq_none (by simpa using hc)
      simp [hn]
  · split <;> simp [Std.ExtTreeMap.getElem?_insert, hq]

end Pager

end VelociDB
