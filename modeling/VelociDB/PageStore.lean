/-
# The pager as the database sees it

What `num_pages` and `read_page` answer (`view`), what they answered when the active group
began (`group`) and when the savepoint did (`savepoint`).  Ending a group keeps the view,
aborting it puts the old one back; a failed commit aborts.

`perform` is a call without I/O errors.  `Faulty` adds the errors: a read may fail, a
write or an allocation outside a group (which commits by itself), a commit and a flush.
-/
import VelociDB.Database
import VelociDB.PagerSys

namespace VelociDB

/-- A snapshot once a page has been written. -/
def Snapshot.write (v : Snapshot) (pageId : Nat) (page : Page) : Snapshot :=
  v.plus ((∅ : PageMap).insert pageId page)

theorem Snapshot.sortedPages_single (pageId : Nat) (page : Page) :
    Pager.sortedPages ((∅ : PageMap).insert pageId page) = [(pageId, page.data)] := by
  have hlen : ((∅ : PageMap).insert pageId page).toList.length = 1 := by
    rw [Std.ExtTreeMap.length_toList, Std.ExtTreeMap.size_insert]
    simp
  obtain ⟨e, he⟩ := List.length_eq_one_iff.mp hlen
  have hmem : (pageId, page) ∈ ((∅ : PageMap).insert pageId page).toList :=
    Std.ExtTreeMap.mem_toList_iff_getElem?_eq_some.mpr Std.ExtTreeMap.getElem?_insert_self
  rw [he, List.mem_singleton] at hmem
  rw [Pager.sortedPages, he, ← hmem]
  rfl

theorem Snapshot.write_numPages (v : Snapshot) (pageId : Nat) (page : Page) :
    (v.write pageId page).numPages = max v.numPages (pageId + 1) := by
  show pagesAfter v.numPages (Pager.sortedPages _) = _
  rw [sortedPages_single]
  rfl

theorem Snapshot.write_page_self (v : Snapshot) (pageId : Nat) (page : Page) :
    (v.write pageId page).page pageId = .ok page :=
  plus_page_some Std.ExtTreeMap.getElem?_insert_self

/-- The pager's state, as far as its answers tell. -/
structure PageStore where
  view : Snapshot
  group : Option Snapshot
  savepoint : Option Snapshot

namespace PageStore

/-- The store without its group. -/
def undo (v : Snapshot) : PageStore := ⟨v, none, none⟩

/-- What the pages are without the active group. -/
def base (s : PageStore) : Snapshot := s.group.getD s.view

/-- `VelociError::TransactionError`. -/
def refused (msg : String) : Fault := .error (.transactionError msg)

/-- A call without I/O errors. -/
def perform : (c : PagerCall) → PageStore → Except Fault c.Ans × PageStore
  | .page .numPages, s => (.ok s.view.numPages, s)
  | .page (.read pageId), s => ((s.view.page pageId).mapError .error, s)
  | .page (.write pageId page), s => (.ok (), { s with view := s.view.write pageId page })
  | .page .allocate, s =>
      (.ok s.view.numPages, { s with view := s.view.write s.view.numPages Page.new })
  | .inGroup, s => (.ok s.group.isSome, s)
  | .beginGroup, s =>
      match s.group with
      | none => (.ok (), { s with group := some s.view })
      | some _ => (.error (refused "Write group already active"), s)
  | .commitGroup, s =>
      match s.group with
      | none => (.error (refused "No active write group to commit"), s)
      | some _ => (.ok (), { s with group := none, savepoint := none })
  | .abortGroup, s =>
      match s.group with
      | none => (.error (refused "No active write group to abort"), s)
      | some v => (.ok (), undo v)
  | .beginSavepoint, s =>
      match s.group, s.savepoint with
      | none, _ => (.error (refused "Savepoint requires an active write group"), s)
      | some _, some _ => (.error (refused "Savepoint already active"), s)
      | some _, none => (.ok (), { s with savepoint := some s.view })
  | .releaseSavepoint, s => (.ok (), { s with savepoint := none })
  | .rollbackToSavepoint, s =>
      match s.savepoint with
      | none => (.error (refused "No active savepoint"), s)
      | some v => (.ok (), { s with view := v, savepoint := none })
  | .flush, s =>
      match s.group with
      | none => (.ok (), s)
      | some v => (.ok (), undo v)

/-- A call with its I/O errors. -/
inductive Faulty : (c : PagerCall) → PageStore → Except Fault c.Ans → PageStore → Prop
  | done (c : PagerCall) (s : PageStore) : Faulty c s (perform c s).1 (perform c s).2
  | read (pageId : Nat) (s : PageStore) (e : VelociError) :
      Faulty (.page (.read pageId)) s (.error (.error e)) s
  | write (pageId : Nat) (page : Page) (s : PageStore) (e : VelociError) :
      s.group = none → Faulty (.page (.write pageId page)) s (.error (.error e)) s
  | allocate (s : PageStore) (e : VelociError) :
      s.group = none → Faulty (.page .allocate) s (.error (.error e)) s
  | commitGroup (s : PageStore) (v : Snapshot) (e : VelociError) :
      s.group = some v → Faulty .commitGroup s (.error (.error e)) (undo v)
  | flush (s : PageStore) (e : VelociError) :
      Faulty .flush s (.error (.error e)) (perform .flush s).2

/-- What holds at the end of a program, I/O errors included. -/
abbrev Ends {α : Type} (p : DbProg α) (s : PageStore) (Q : Except Fault α → PageStore → Prop) :
    Prop := Prog.wp Faulty (fun _ => True) p s Q

variable {α β : Type} {s s' : PageStore}

theorem ends_call {c : PagerCall} {Q : Except Fault c.Ans → PageStore → Prop}
    (h : ∀ r s', Faulty c s r s' → Q r s') : Ends (onPager c) s Q :=
  Prog.wp_lift trivial fun r s' hc => ⟨trivial, h r s' hc⟩

theorem ends_attempt_call {c : PagerCall} {f : Except Fault c.Ans → DbProg β}
    {Q : Except Fault β → PageStore → Prop}
    (h : ∀ r s', Faulty c s r s' → Ends (f r) s' Q) :
    Ends ((Prog.attempt (onPager c)).bind f) s Q :=
  Prog.wp_bind (Prog.wp_attempt (ends_call h))

/-- Page operations stay inside the group and the savepoint. -/
theorem Faulty.page {op : PageOp} {r : Except Fault op.Ans} (h : Faulty (.page op) s r s') :
    s'.group = s.group ∧ s'.savepoint = s.savepoint := by
  cases h with
  | done => cases op <;> exact ⟨rfl, rfl⟩
  | read | write | allocate => exact ⟨rfl, rfl⟩

/-! ### What a call has done -/

theorem Faulty.of_beginGroup {r : Except Fault Unit} (h : Faulty .beginGroup s r s')
    (hr : r = .ok ()) : s.group = none ∧ s' = { s with group := some s.view } := by
  cases h with
  | done =>
      cases hg : s.group with
      | none => simp [perform, hg]
      | some v => simp [perform, hg] at hr

theorem Faulty.of_beginSavepoint {r : Except Fault Unit} (h : Faulty .beginSavepoint s r s')
    (hr : r = .ok ()) : s'.savepoint = some s.view := by
  cases h with
  | done =>
      cases hg : s.group with
      | none => simp [perform, hg] at hr
      | some v =>
          cases hsp : s.savepoint with
          | none => simp [perform, hg, hsp]
          | some w => simp [perform, hg, hsp] at hr

/-- A commit that fails leaves the pages as they are without the group. -/
theorem Faulty.commit_failed {r : Except Fault Unit} (h : Faulty .commitGroup s r s')
    (hr : r ≠ .ok ()) : s'.view = s.base := by
  cases h with
  | commitGroup s v e hg => simp [undo, base, hg]
  | done =>
      cases hg : s.group with
      | none => simp [perform, base, hg]
      | some v =>
          have hok : (perform .commitGroup s).1 = .ok () := by simp only [perform, hg]
          exact absurd hok hr

theorem Faulty.abort_ok {r : Except Fault Unit} (h : Faulty .abortGroup s r s')
    (hr : r = .ok ()) : s'.view = s.base := by
  cases h with
  | done =>
      cases hg : s.group with
      | none => simp [perform, hg] at hr
      | some v => simp [perform, undo, base, hg]

theorem Faulty.commit_ok {r : Except Fault Unit} (h : Faulty .commitGroup s r s')
    (hr : r = .ok ()) : s'.view = s.view := by
  cases h with
  | commitGroup s v e hg => cases hr
  | done =>
      cases hg : s.group with
      | none => simp [perform, hg] at hr
      | some v => simp [perform, hg]

theorem Faulty.of_allocate {r : Except Fault Nat} (h : Faulty (.page .allocate) s r s')
    (hr : r.isOk) : s'.view = s.view.write s.view.numPages Page.new := by
  cases h with
  | done => rfl
  | allocate => cases hr

theorem Faulty.of_rollbackToSavepoint {r : Except Fault Unit} {v : Snapshot}
    (h : Faulty .rollbackToSavepoint s r s') (hv : s.savepoint = some v) : s'.view = v := by
  cases h with
  | done => simp [perform, hv]

/-- The statement in progress began with these pages. -/
def Marked (inTransaction : Bool) (v : Snapshot) (s : PageStore) : Prop :=
  (if inTransaction then s.savepoint else s.group) = some v

theorem ends_beginStatement (inTransaction : Bool) :
    Ends (Database.beginStatement inTransaction) s fun o s' =>
      o = .ok () → s'.Marked inTransaction s.view := by
  cases inTransaction with
  | true => exact ends_call fun r s' h hr => h.of_beginSavepoint hr
  | false =>
      refine ends_call fun r s' h hr => ?_
      obtain ⟨-, rfl⟩ := h.of_beginGroup hr
      rfl

theorem ends_undoStatement {inTransaction : Bool} {v : Snapshot} (hv : s.Marked inTransaction v) :
    Ends (Database.undoStatement inTransaction) s fun o s' => o = .ok () → s'.view = v := by
  cases inTransaction with
  | true => exact ends_call fun r s' h _ => h.of_rollbackToSavepoint hv
  | false =>
      refine ends_call fun r s' h hr => ?_
      have hgroup : s.group = some v := hv
      rw [h.abort_ok hr, base, hgroup]
      rfl

theorem Faulty.of_numPages {r : Except Fault Nat} (h : Faulty (.page .numPages) s r s') :
    r = .ok s.view.numPages ∧ s' = s := by
  cases h with
  | done => exact ⟨rfl, rfl⟩

theorem Faulty.of_read {q : Nat} {r : Except Fault Page} (h : Faulty (.page (.read q)) s r s') :
    s' = s ∧ ∀ page, r = .ok page → s.view.page q = .ok page := by
  cases h with
  | read _ _ e => exact ⟨rfl, by rintro _ ⟨⟩⟩
  | done =>
      refine ⟨rfl, fun page hpage => ?_⟩
      have hp : (s.view.page q).mapError Fault.error = .ok page := hpage
      cases hv : s.view.page q with
      | ok page' =>
          rw [hv] at hp
          exact congrArg Except.ok (Except.ok.inj hp)
      | error e =>
          rw [hv] at hp
          cases hp

/-- What holds at the end of a page program. -/
abbrev PageEnds (p : PageProg α) (s : PageStore) (Q : Except Fault α → PageStore → Prop) : Prop :=
  Prog.wp (fun op => Faulty (.page op)) (fun _ => True) p s Q

theorem ends_of_pageEnds {p : PageProg α} {Q : Except Fault α → PageStore → Prop}
    (h : PageEnds p s Q) : Ends (onPages p) s Q := by
  induction p generalizing s with
  | ret a => exact h
  | fail e => exact h
  | call op k ih => exact ⟨trivial, fun r s₁ hc => ih r (h.2 r s₁ hc)⟩

theorem pageEnds_bind_op {op : PageOp} {f : op.Ans → PageProg β}
    {Q : Except Fault β → PageStore → Prop}
    (hok : ∀ a s', Faulty (.page op) s (.ok a) s' → PageEnds (f a) s' Q)
    (herr : ∀ e s', Faulty (.page op) s (.error e) s' → Q (.error e) s') :
    PageEnds ((onPage op).bind f) s Q := by
  refine Prog.wp_bind (Prog.wp_lift trivial fun r s' hc => ⟨trivial, ?_⟩)
  cases r with
  | ok a => exact hok a s' hc
  | error e => exact herr e s' hc

/-- What a page program leaves: its results, and the group it ran in. -/
theorem ends_onPages {p : PageProg α} {P : α → Prop} (hp : p.Always P) :
    Ends (onPages p) s fun o s' => (∀ a, o = .ok a → P a) ∧ s'.group = s.group ∧
      s'.savepoint = s.savepoint := by
  induction p generalizing s with
  | ret a => exact ⟨trivial, by rintro _ ⟨⟩; exact hp, rfl, rfl⟩
  | fail e => exact ⟨trivial, by rintro _ ⟨⟩, rfl, rfl⟩
  | call op k ih =>
      refine ⟨trivial, fun r s₁ hc => ?_⟩
      obtain ⟨hgroup, hsave⟩ := hc.page
      refine Prog.wp_mono (ih r (hp r)) fun o s₂ _ h => ?_
      exact ⟨h.1, h.2.1.trans hgroup, h.2.2.trans hsave⟩

end PageStore

end VelociDB
