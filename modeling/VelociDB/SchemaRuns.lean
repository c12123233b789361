/-
# Schemas stay well formed

Runs of the database over its pages: statements that succeed or fail, transactions, reloads
after a failure, closing, crashes and reopening.  The tables stay well formed if every CREATE
TABLE declares one PRIMARY KEY column and distinct names, and if the schema pages still hold
what was saved whenever they are read back.

The state remembers what `save_schema` last wrote, so that the second condition can be
stated: a schema longer than one page lies over the pages that follow, which are not its own.
-/
import VelociDB.SchemaInv

namespace VelociDB

open Bytes SchemaCodec PageStore Transition

/-! ## The methods -/

section Methods

variable {ext : Externals} {trees : TreeOps (fun α => PageProg α) Nat} {keys : KeyOrder}
  {stmt : Statement} {db : Database} {s : PageStore} {saved : Option (List TableEntry)}

theorem reload_fails (e : Fault) (db : Database) :
    (Database.reload e db).Always fun out => out.2 ≠ .ok () := by
  refine Prog.always_bind (Prog.always_true _) fun r _ => ?_
  obtain ⟨tables, loaded⟩ := r
  cases loaded with
  | error e => exact fun h => by cases h
  | ok u => exact fun h => by cases h

/-- A method that succeeds, or read an intact schema, leaves well-formed tables. -/
def LeavesWell (v : Snapshot) (saved : Option (List TableEntry))
    (o : Except Fault Database.Outcome) : Prop :=
  ∀ out, o = .ok out → (out.2 = .ok () ∨ Intact v saved) → out.1.tables.WellFormed

theorem leavesWell_of {v : Snapshot} {out : Database.Outcome} (h : out.1.tables.WellFormed) :
    LeavesWell v saved (.ok out) := by
  rintro _ ⟨⟩ -
  exact h

theorem ends_reload (e : Fault) (db : Database) (hsaved : SavedWell saved) :
    Ends (Database.reload e db) s fun o _ => LeavesWell s.view saved o := by
  by_cases hI : Intact s.view saved
  · refine Prog.wp_bind (Prog.wp_mono (ends_reloadSchema hI hsaved) fun o s' _ hload => ?_)
    cases o with
    | error e => rintro _ ⟨⟩
    | ok r => exact ⟨trivial, leavesWell_of (hload r rfl)⟩
  · refine Prog.wp_of_always (reload_fails e db) ?_ ?_
    · rintro a _ ha _ ⟨⟩ (hok | hI')
      · exact absurd hok ha
      · exact absurd hI' hI
    · rintro _ _ _ ⟨⟩

theorem runStatement_wellFormed (h : db.tables.WellFormed) (hdecl : stmt.Declares)
    (hparsed : stmt.Parsed) (htype : stmt.Typed) :
    (Database.runStatement ext trees keys stmt db).Always fun r => r.1.WellFormed := by
  refine Prog.always_bind (executeStatement_wellFormed h hdecl hparsed htype) fun r hr => ?_
  obtain ⟨tables, changes⟩ := r
  dsimp only
  split
  · exact Prog.always_bind (Prog.always_true _) fun _ _ => hr
  · exact hr

theorem ends_execute (h : db.tables.WellFormed) (hdecl : stmt.Declares) (hparsed : stmt.Parsed)
    (htype : stmt.Typed) (hsaved : SavedWell saved) :
    Ends (Database.execute ext trees keys stmt db) s fun o _ => LeavesWell s.view saved o := by
  refine Prog.wp_bind (Prog.wp_attempt (Prog.wp_mono (ends_beginStatement _) ?_))
  intro o s₁ _ hmark
  cases o with
  | error e => exact ⟨trivial, leavesWell_of h⟩
  | ok u =>
  refine Prog.wp_bind (Prog.wp_attempt (Prog.wp_mono
    (ends_onPages (runStatement_wellFormed h hdecl hparsed htype)) ?_))
  rintro o s₂ - ⟨hwell, hgroup, hsave⟩
  have hmark₂ : s₂.Marked db.inTransaction s.view := by
    rw [Marked, hgroup, hsave]
    exact hmark rfl
  cases o with
  | ok r =>
      have hr := hwell r rfl
      obtain ⟨tables, changes⟩ := r
      dsimp only
      split
      · refine Prog.wp_bind (ends_call fun r s₃ _ => ?_)
        cases r with
        | error e => rintro _ ⟨⟩
        | ok u => exact ⟨trivial, leavesWell_of hr⟩
      · rename_i htxn
        refine ends_attempt_call fun r s₃ hcommit => ?_
        cases r with
        | ok u => exact ⟨trivial, leavesWell_of hr⟩
        | error e =>
            -- a failed commit takes the group back
            have hview : s₃.view = s.view := by
              rw [Marked, if_neg htxn] at hmark₂
              rw [hcommit.commit_failed (fun hok => nomatch hok), base, hmark₂]
              rfl
            rw [← hview]
            exact ends_reload _ _ hsaved
  | error e =>
      cases e with
      | panic => exact ⟨trivial, by rintro _ ⟨⟩⟩
      | error e =>
          refine Prog.wp_bind (Prog.wp_attempt (Prog.wp_mono (ends_undoStatement hmark₂) ?_))
          intro o s₃ _ hundo
          cases o with
          | error e => exact ⟨trivial, leavesWell_of h⟩
          | ok u =>
              rw [← hundo rfl]
              exact ends_reload _ _ hsaved

theorem ends_begin (h : db.tables.WellFormed) :
    Ends (Database.begin db) s fun o _ => ∀ out, o = .ok out → out.1.tables.WellFormed := by
  unfold Database.begin
  split
  · exact ⟨trivial, by rintro _ ⟨⟩; exact h⟩
  · refine ends_attempt_call fun r s₁ _ => ?_
    cases r with
    | error e => exact ⟨trivial, by rintro _ ⟨⟩; exact h⟩
    | ok u => exact ⟨trivial, by rintro _ ⟨⟩; exact h⟩

theorem ends_close (h : db.tables.WellFormed) :
    Ends (Database.close db) s fun o _ => ∀ out, o = .ok out → out.1.tables.WellFormed := by
  refine ends_attempt_call fun r s₁ _ => ?_
  cases r with
  | error e => exact ⟨trivial, by rintro _ ⟨⟩; exact h⟩
  | ok u => exact ⟨trivial, by rintro _ ⟨⟩; exact h⟩

theorem ends_commit (h : db.tables.WellFormed) (hsaved : SavedWell saved) :
    Ends (Database.commit db) s fun o _ => LeavesWell s.base saved o := by
  unfold Database.commit
  split
  · exact ⟨trivial, leavesWell_of h⟩
  · refine ends_attempt_call fun r s₁ hcommit => ?_
    cases r with
    | ok u => exact ⟨trivial, leavesWell_of h⟩
    | error e =>
        have hview : s₁.view = s.base := hcommit.commit_failed (fun hok => nomatch hok)
        rw [← hview]
        exact ends_reload _ _ hsaved

theorem ends_rollback (h : db.tables.WellFormed) (hI : Intact s.base saved)
    (hsaved : SavedWell saved) :
    Ends (Database.rollback db) s fun o _ => ∀ out, o = .ok out → out.1.tables.WellFormed := by
  unfold Database.rollback
  split
  · exact ⟨trivial, by rintro _ ⟨⟩; exact h⟩
  · refine ends_attempt_call fun r s₁ habort => ?_
    cases r with
    | error e => exact ⟨trivial, by rintro _ ⟨⟩; exact h⟩
    | ok u =>
        have hview : s₁.view = s.base := habort.abort_ok rfl
        rw [← hview] at hI
        refine Prog.wp_bind (Prog.wp_mono (ends_reloadSchema hI hsaved) fun o s' _ hload => ?_)
        cases o with
        | error e => rintro _ ⟨⟩
        | ok r =>
            have hr := hload r rfl
            obtain ⟨tables, loaded⟩ := r
            cases loaded with
            | error e => exact ⟨trivial, by rintro _ ⟨⟩; exact hr⟩
            | ok u => exact ⟨trivial, by rintro _ ⟨⟩; exact hr⟩

end Methods

/-! ## Opening -/

theorem chunkPage_nil : chunkPage [] = Page.new := by
  refine Page.ext ?_
  show resize (leBytes 4 0 ++ []) pageSize = List.replicate pageSize 0
  have hpage := pageSize_eq
  rw [List.append_nil, leBytes_zero, resize, List.length_replicate, List.take_replicate,
    ← List.replicate_add]
  congr 1
  omega

/-- The pages of a new file are an empty schema. -/
theorem intact_new (v : Snapshot) (h : v.numPages = 0) :
    Intact ((v.write 0 Page.new).write 1 Page.new) none := by
  have hchain : chainPages (savedBuffer none) = [Page.new] := by
    rw [savedBuffer, chainPages_short (Nat.zero_le _), chunkPage_nil]
  refine ⟨?_, ?_, by rintro _ ⟨⟩, by rintro _ _ ⟨⟩⟩
  · rw [hchain, Snapshot.write_numPages, Snapshot.write_numPages, h]
    decide
  · rw [hchain]
    intro i page hi
    cases i with
    | zero =>
        obtain rfl := Option.some.inj hi
        exact Snapshot.write_page_self _ _ _
    | succ i => cases hi

section Open

variable {s : PageStore} {saved : Option (List TableEntry)}

/-- The schema pages of a new file, or of one that is intact. -/
def Readable (v : Snapshot) (saved : Option (List TableEntry)) : Prop :=
  (v.numPages = 0 ∧ saved = none) ∨ Intact v saved

theorem ends_initialPages (h : s.view.numPages = 0) :
    Ends Database.initialPages s fun o s' => o = .ok () → Intact s'.view none := by
  refine Prog.wp_bind (ends_call fun r s₁ hbegin => ?_)
  cases r with
  | error e => exact fun hok => nomatch hok
  | ok u =>
  obtain ⟨-, rfl⟩ := hbegin.of_beginGroup rfl
  have hpages : PageEnds (allocatePages 2) { s with group := some s.view } fun o s' =>
      ∀ u, o = .ok u → s'.view = (s.view.write 0 Page.new).write 1 Page.new := by
    refine pageEnds_bind_op (fun a s₁ h₁ => ?_) (fun e s₁ _ => fun _ hok => nomatch hok)
    have hview₁ : s₁.view = s.view.write 0 Page.new := by
      rw [h₁.of_allocate rfl, h]
    refine pageEnds_bind_op (fun b s₂ h₂ => ?_) (fun e s₂ _ => fun _ hok => nomatch hok)
    refine ⟨trivial, fun u _ => ?_⟩
    rw [h₂.of_allocate rfl, hview₁, Snapshot.write_numPages, h]
    rfl
  refine Prog.wp_bind (Prog.wp_attempt (Prog.wp_mono (ends_of_pageEnds hpages) ?_))
  intro o s₂ _ hview
  cases o with
  | ok u =>
      refine ends_call fun r s₃ hcommit hok => ?_
      rw [hcommit.commit_ok hok, hview u rfl]
      exact intact_new s.view h
  | error e => exact ends_attempt_call fun r s₃ _ => ⟨trivial, fun hok => nomatch hok⟩

/-- What `openDb` makes of the tables it loaded. -/
def opened (r : Tables Nat × Except Fault Unit) : DbProg Database :=
  match r.2 with
  | .error e => throw e
  | .ok _ => return ⟨r.1, false, .withCapacity 65536⟩

theorem ends_openDb (h : Readable s.view saved) (hsaved : SavedWell saved) :
    Ends Database.openDb s fun o _ => ∀ db, o = .ok db → db.tables.WellFormed := by
  have hload : ∀ {s' : PageStore}, Intact s'.view saved →
      Ends ((loadSchema .empty).bind opened) s' fun o _ =>
        ∀ db : Database, o = .ok db → db.tables.WellFormed := by
    intro s' hI
    refine Prog.wp_bind (Prog.wp_mono (ends_reloadSchema hI hsaved) fun o s' _ hload => ?_)
    cases o with
    | error e => exact fun _ hok => nomatch hok
    | ok r =>
        have hr := hload r rfl
        obtain ⟨tables, loaded⟩ := r
        cases loaded with
        | error e => exact ⟨trivial, fun _ hok => nomatch hok⟩
        | ok u => exact ⟨trivial, by rintro _ ⟨⟩; exact hr⟩
  refine Prog.wp_bind (ends_call fun r s₁ hn => ?_)
  obtain ⟨hn, rfl⟩ := hn.of_numPages
  subst hn
  dsimp only
  split
  · rename_i hzero
    have hnew : saved = none := by
      rcases h with ⟨-, hsave⟩ | hI
      · exact hsave
      · have hsize := hI.size
        have hz : s₁.view.numPages = 0 := hzero
        omega
    subst hnew
    refine Prog.wp_bind (Prog.wp_mono (ends_initialPages hzero) fun o s₂ _ hI => ?_)
    cases o with
    | error e => exact fun _ hok => nomatch hok
    | ok u => exact hload (hI rfl)
  · rename_i hpos
    rcases h with ⟨hzero, -⟩ | hI
    · exact absurd hzero hpos
    · exact hload hI

end Open

/-! ## Runs -/

/-- The database while it is open, its pages, what `save_schema` last wrote to them, and
what it had written when the active group began. -/
structure DbSys where
  db : Option Database
  store : PageStore
  saved : Option (List TableEntry)
  savedGroup : Option (Option (List TableEntry))

namespace DbSys

/-- A new file, not opened yet. -/
def init : DbSys := ⟨none, ⟨.empty, none, none⟩, none, none⟩

/-- What was saved, without the active group. -/
def savedBase (s : DbSys) : Option (List TableEntry) := s.savedGroup.getD s.saved

/-- The calls of a run, and whether they failed.  `shutdown` is the end of the process, a
crash included: the pages without the active group remain. -/
inductive Act where
  | openDb
  | execute (keys : KeyOrder) (stmt : Statement) (failed : Bool)
  | begin (failed : Bool)
  | commit (failed : Bool)
  | rollback
  | close
  | shutdown

/-- The call failed. -/
def Failed (failed : Bool) (out : Database.Outcome) : Prop := failed = false ↔ out.2 = .ok ()

/-- The state without the active group. -/
def undone (s : DbSys) (db : Option Database) (store : PageStore) : DbSys :=
  ⟨db, store, s.savedBase, none⟩

variable (ext : Externals) (trees : TreeOps (fun α => PageProg α) Nat)

/-- What the calls do. -/
inductive Step : DbSys → Act → DbSys → Prop
  | openDb {s : DbSys} {o : Except Fault Database} {store : PageStore} : s.db = none →
      Prog.Exec Faulty Database.openDb s.store o store →
      Step s .openDb { s with db := o.toOption, store := store }
  | execute {s : DbSys} {db : Database} {keys : KeyOrder} {stmt : Statement} {failed : Bool}
      {out : Database.Outcome} {store : PageStore} : s.db = some db → stmt.Parsed → stmt.Typed →
      Prog.Exec Faulty (Database.execute ext trees keys stmt db) s.store (.ok out) store →
      Failed failed out →
      Step s (.execute keys stmt failed) { s with
        db := some out.1
        store := store
        saved :=
          if failed = false ∧ Database.saves stmt db.tables out.1.tables then
            some (out.1.tables.entries (keys.order out.1.tables.schema.keys))
          else s.saved }
  | begin {s : DbSys} {db : Database} {failed : Bool} {out : Database.Outcome}
      {store : PageStore} : s.db = some db →
      Prog.Exec Faulty (Database.begin db) s.store (.ok out) store → Failed failed out →
      Step s (.begin failed) { s with
        db := some out.1
        store := store
        savedGroup := if failed then s.savedGroup else some s.saved }
  | commit {s : DbSys} {db : Database} {out : Database.Outcome} {store : PageStore} :
      s.db = some db → Prog.Exec Faulty (Database.commit db) s.store (.ok out) store →
      Failed false out → Step s (.commit false) ⟨some out.1, store, s.saved, none⟩
  | commitFailed {s : DbSys} {db : Database} {out : Database.Outcome} {store : PageStore} :
      s.db = some db → Prog.Exec Faulty (Database.commit db) s.store (.ok out) store →
      Failed true out → Step s (.commit true) (s.undone (some out.1) store)
  | rollback {s : DbSys} {db : Database} {out : Database.Outcome} {store : PageStore} :
      s.db = some db → Prog.Exec Faulty (Database.rollback db) s.store (.ok out) store →
      Step s .rollback (s.undone (some out.1) store)
  | close {s : DbSys} {db : Database} {out : Database.Outcome} {store : PageStore} :
      s.db = some db → Prog.Exec Faulty (Database.close db) s.store (.ok out) store →
      Step s .close (s.undone (some out.1) store)
  | shutdown {s : DbSys} : Step s .shutdown (s.undone none (PageStore.undo s.store.base))

/-- CREATE TABLE declares one PRIMARY KEY column and distinct names; and where the schema is
read back, its pages hold what was saved. -/
def Meets (s : DbSys) : Act → Prop
  | .openDb => Readable s.store.view s.saved
  | .execute _ stmt failed => stmt.Declares ∧ (failed = true → Intact s.store.view s.saved)
  | .commit failed => failed = true → Intact s.store.base s.savedBase
  | .rollback => Intact s.store.base s.savedBase
  | _ => True

/-- Well-formed tables, in memory and saved. -/
structure Inv (s : DbSys) : Prop where
  tables : ∀ db, s.db = some db → db.tables.WellFormed
  saved : SavedWell s.saved
  base : SavedWell s.savedBase

theorem inv_init : Inv init := ⟨by simp [init], by rintro _ _ ⟨⟩, by rintro _ _ ⟨⟩⟩

theorem savedWell_entries {db : Tables Nat} (h : db.WellFormed) (names : List String) :
    SavedWell (some (db.entries names)) := by
  rintro _ e ⟨⟩ he
  obtain ⟨name, -, hname⟩ := List.mem_filterMap.mp he
  obtain ⟨ts, hts, rfl⟩ := Option.map_eq_some_iff.mp hname
  obtain ⟨-, hwf⟩ := h.table name ts hts
  exact ⟨hwf.oneKey, hwf.distinct, hwf.typed⟩

theorem Inv.undone {s : DbSys} (h : Inv s) {db : Option Database} {store : PageStore}
    (hdb : ∀ d, db = some d → d.tables.WellFormed) : Inv (s.undone db store) :=
  ⟨hdb, h.base, h.base⟩

variable {ext trees}

/-- The step lemma. -/
theorem Inv.step {s s' : DbSys} {a : Act} (h : Inv s) (hok : Meets s a)
    (hstep : Step ext trees s a s') : Inv s' := by
  cases hstep with
  | @openDb o store hnone hx =>
      refine ⟨fun db hdb => ?_, h.saved, h.base⟩
      have hwell := Prog.wp_exec hx (ends_openDb hok h.saved)
      cases o with
      | error e => cases hdb
      | ok db' =>
          obtain rfl := Option.some.inj hdb
          exact hwell db' rfl
  | @execute db keys stmt failed out store hdb hparsed htype hx hfail =>
      have hwell : out.1.tables.WellFormed := by
        refine Prog.wp_exec hx (ends_execute (h.tables db hdb) hok.1 hparsed htype h.saved) out rfl ?_
        cases failed with
        | false => exact Or.inl (hfail.mp rfl)
        | true => exact Or.inr (hok.2 rfl)
      have hsaved : SavedWell (if failed = false ∧ Database.saves stmt db.tables out.1.tables then
          some (out.1.tables.entries (keys.order out.1.tables.schema.keys)) else s.saved) := by
        split
        · exact savedWell_entries hwell _
        · exact h.saved
      refine ⟨by rintro _ ⟨⟩; exact hwell, hsaved, ?_⟩
      cases hgroup : s.savedGroup with
      | none => exact hsaved
      | some v =>
          have hbase := h.base
          rw [savedBase, hgroup] at hbase
          exact hbase
  | @begin db failed out store hdb hx hfail =>
      have hwell := Prog.wp_exec hx (ends_begin (h.tables db hdb)) out rfl
      refine ⟨by rintro _ ⟨⟩; exact hwell, h.saved, ?_⟩
      cases failed with
      | true => exact h.base
      | false => exact h.saved
  | @commit db out store hdb hx hfail =>
      have hwell := Prog.wp_exec hx (ends_commit (h.tables db hdb) h.base) out rfl
        (Or.inl (hfail.mp rfl))
      exact ⟨by rintro _ ⟨⟩; exact hwell, h.saved, h.saved⟩
  | @commitFailed db out store hdb hx hfail =>
      have hwell := Prog.wp_exec hx (ends_commit (h.tables db hdb) h.base) out rfl
        (Or.inr (hok rfl))
      exact h.undone (by rintro _ ⟨⟩; exact hwell)
  | @rollback db out store hdb hx =>
      have hwell := Prog.wp_exec hx (ends_rollback (h.tables db hdb) hok h.base) out rfl
      exact h.undone (by rintro _ ⟨⟩; exact hwell)
  | @close db out store hdb hx =>
      have hwell := Prog.wp_exec hx (ends_close (h.tables db hdb)) out rfl
      exact h.undone (by rintro _ ⟨⟩; exact hwell)
  | shutdown => exact h.undone (fun _ hnone => nomatch hnone)

/-- In every state of a run whose steps meet the condition, every table has one PRIMARY KEY
column, distinct column names, and a handle under its name. -/
theorem tables_well_formed {s : DbSys} (h : Reaches (Step ext trees) Meets init s)
    {db : Database} (hdb : s.db = some db) {name : String} {ts : TableSchema}
    (hts : db.tables.schema[name]? = some ts) :
    ts.columns.countP Column.primaryKey = 1 ∧ ts.columns ≠ [] ∧
      (ts.columns.map Column.name).Nodup ∧ ts.name = name ∧ name ∈ db.tables.btrees := by
  have hinv : Inv s := Reaches.invariant inv_init (fun _ _ _ hi hok hs => hi.step hok hs) h
  have hwell := hinv.tables db hdb
  obtain ⟨hname, hwf⟩ := hwell.table name ts hts
  have hne : ts.columns ≠ [] := by
    intro hnil
    have hone := hwf.oneKey
    rw [hnil] at hone
    cases hone
  have hmem : name ∈ db.tables.schema :=
    Std.ExtTreeMap.mem_iff_isSome_getElem?.mpr (by simp [hts])
  exact ⟨hwf.oneKey, hne, hwf.distinct, hname, hwell.handle name hmem⟩

end DbSys

/-! ## Runs without I/O errors -/

section Concrete

/-- A page operation without I/O errors. -/
def performPage (op : PageOp) (s : PageStore) : Except Fault op.Ans × PageStore :=
  perform (.page op) s

theorem run_onPages {α : Type} (p : PageProg α) (s : PageStore) :
    (onPages p).run perform s = p.run performPage s := by
  induction p generalizing s with
  | ret a => rfl
  | fail e => rfl
  | call op k ih => exact ih _ _

theorem run_allocatePages : ∀ (n : Nat) (s : PageStore), ∃ s',
    (allocatePages n).run performPage s = (.ok (), s') ∧ s'.group = s.group
  | 0, s => ⟨s, rfl, rfl⟩
  | n + 1, s => by
      obtain ⟨s', hrun, hgroup⟩ := run_allocatePages n (performPage .allocate s).2
      exact ⟨s', hrun, hgroup⟩

theorem run_writePages : ∀ (pages : List Page) (q : Nat) (s : PageStore), ∃ s',
    (writePages q pages).run performPage s = (.ok (), s') ∧ s'.group = s.group
  | [], q, s => ⟨s, rfl, rfl⟩
  | page :: pages, q, s => by
      obtain ⟨s', hrun, hgroup⟩ := run_writePages pages (q + 1) (performPage (.write q page) s).2
      exact ⟨s', hrun, hgroup⟩

/-- Saving the schema fails only by I/O errors. -/
theorem run_saveSchema (keys : KeyOrder) (db : Tables Nat) (s : PageStore) : ∃ s',
    (saveSchema keys db).run performPage s = (.ok (), s') ∧ s'.group = s.group := by
  obtain ⟨s₁, h₁, hg₁⟩ := run_allocatePages (1 + (chainPages (encode
    (db.entries (keys.order db.schema.keys)))).length - s.view.numPages) s
  obtain ⟨s₂, h₂, hg₂⟩ := run_writePages (chainPages (encode
    (db.entries (keys.order db.schema.keys)))) 1 s₁
  have hn : (onPage .numPages).run performPage s = (.ok s.view.numPages, s) := rfl
  refine ⟨s₂, ?_, hg₂.trans hg₁⟩
  refine (Prog.run_bind_ok hn).trans ?_
  exact (Prog.run_bind_ok h₁).trans h₂

/-- The trees of a database in which nothing but CREATE TABLE runs. -/
def rootsOnly : TreeOps (fun α => PageProg α) Nat where
  create := createRoot
  search _ _ := pure none
  scan _ := pure []
  insert tree _ _ := pure tree
  delete tree _ := pure (false, tree)

variable {ext : Externals} {keys : KeyOrder} {name : String} {columns : List Column}
  {db : Database} {s : PageStore}

/-- The tables after CREATE TABLE. -/
def withTable (db : Tables Nat) (name : String) (columns : List Column) (root : Nat) : Tables Nat :=
  ⟨db.schema.insert name ⟨name, columns⟩, db.btrees.insert name root⟩

theorem run_runStatement (hnew : name ∉ db.tables.schema) : ∃ s',
    (Database.runStatement ext rootsOnly keys (.createTable name columns) db).run performPage s =
      (.ok (withTable db.tables name columns s.view.numPages, []), s') ∧ s'.group = s.group := by
  have herr : (errIf (name ∈ db.tables.schema)
      (.constraintViolation s!"Table '{name}' already exists") : PageProg Unit) = .ret () := by
    rw [errIf, if_neg hnew]
    rfl
  have hexec : (executeStatement ext rootsOnly db.tables (.createTable name columns)).run
      performPage s = (.ok (withTable db.tables name columns s.view.numPages, []),
        (performPage (.write s.view.numPages leafPage) (performPage .allocate s).2).2) := by
    simp only [executeStatement, executeCreateTable, rootsOnly, createTable, herr]
    rfl
  obtain ⟨s', hsave, hgroup⟩ := run_saveSchema keys
    (withTable db.tables name columns s.view.numPages)
    (performPage (.write s.view.numPages leafPage) (performPage .allocate s).2).2
  refine ⟨s', ?_, hgroup⟩
  refine (Prog.run_bind_ok hexec).trans ?_
  have hsaves : Database.saves (.createTable name columns) db.tables
      (withTable db.tables name columns s.view.numPages) := Or.inl rfl
  dsimp only
  rw [if_pos hsaves]
  exact Prog.run_bind_ok hsave

theorem run_createTable (hgroup : s.group = none) (htxn : db.inTransaction = false)
    (hnew : name ∉ db.tables.schema) : ∃ db' s',
    (Database.execute ext rootsOnly keys (.createTable name columns) db).run perform s =
      (.ok (db', .ok ()), s') ∧ db'.tables = withTable db.tables name columns s.view.numPages := by
  have hbegin : (Prog.attempt (Database.beginStatement db.inTransaction)).run perform s =
      (.ok (.ok ()), { s with group := some s.view }) := by
    rw [Prog.run_attempt, htxn]
    simp [Database.beginStatement, onPager, Prog.run_lift, perform, hgroup]
  obtain ⟨s₂, hrun, hg₂⟩ : ∃ s₂,
      (Database.runStatement ext rootsOnly keys (.createTable name columns) db).run performPage
        { s with group := some s.view } =
        (.ok (withTable db.tables name columns s.view.numPages, []), s₂) ∧
        s₂.group = some s.view := run_runStatement hnew
  have hstmt : (Prog.attempt (onPages (Database.runStatement ext rootsOnly keys
      (.createTable name columns) db))).run perform { s with group := some s.view } =
      (.ok (.ok (withTable db.tables name columns s.view.numPages, [])), s₂) := by
    rw [Prog.run_attempt, run_onPages, hrun]
  have hcommit : (Prog.attempt (onPager .commitGroup)).run perform s₂ =
      (.ok (.ok ()), { s₂ with group := none, savepoint := none }) := by
    rw [Prog.run_attempt, onPager, Prog.run_lift]
    simp [perform, hg₂]
  refine ⟨⟨withTable db.tables name columns s.view.numPages, db.inTransaction,
    (db.cdc.stageAll []).publishStaged⟩, { s₂ with group := none, savepoint := none }, ?_, rfl⟩
  refine (Prog.run_bind_ok hbegin).trans ((Prog.run_bind_ok hstmt).trans ?_)
  dsimp only
  rw [if_neg (by simp [htxn])]
  exact Prog.run_bind_ok hcommit

theorem run_readSchemaPages (hn : s.view.numPages = 2) (hp : s.view.page 1 = .ok Page.new) :
    readSchemaPages.run performPage s = (.ok [], s) := by
  have hcount : (onPage .numPages).run performPage s = (.ok 2, s) := by
    rw [onPage, Prog.run_lift, performPage, perform, hn]
  have hread : (onPage (.read 1)).run performPage s = (.ok Page.new, s) := by
    rw [onPage, Prog.run_lift, performPage, perform, hp]
    rfl
  have hlen : leNat (Page.new.data.take 4) = 0 := by
    rw [Page.new, List.take_replicate, leNat_replicate_zero]
  have hsize := usableSize_eq
  refine (Prog.run_bind_ok hcount).trans ((Prog.run_bind_ok hcount).trans ?_)
  rw [if_neg (by decide)]
  refine (Prog.run_bind_ok hread).trans ?_
  dsimp only
  rw [hlen, if_pos (by omega)]
  rfl

/-- The pages of a new file. -/
def newFile : PageStore := ⟨(Snapshot.empty.write 0 Page.new).write 1 Page.new, none, none⟩

/-- A new file opens. -/
theorem run_openDb : ∃ s, Database.openDb.run perform DbSys.init.store =
    (.ok ⟨.empty, false, .withCapacity 65536⟩, s) ∧ s.group = none := by
  have hn₁ : (Snapshot.empty.write 0 Page.new).numPages = 1 := Snapshot.write_numPages ..
  have hcount : (onPager (.page .numPages)).run perform DbSys.init.store =
      (.ok 0, DbSys.init.store) := rfl
  have hpages : (Prog.attempt (onPages (allocatePages 2))).run perform
      ⟨.empty, some .empty, none⟩ = (.ok (.ok ()),
        ⟨(Snapshot.empty.write 0 Page.new).write 1 Page.new, some .empty, none⟩) := by
    rw [Prog.run_attempt, run_onPages, ← hn₁]
    rfl
  have hinit : Database.initialPages.run perform DbSys.init.store =
      (.ok (), newFile) := by
    have hbegin : (onPager .beginGroup).run perform DbSys.init.store =
        (.ok (), ⟨.empty, some .empty, none⟩) := rfl
    refine (Prog.run_bind_ok hbegin).trans ((Prog.run_bind_ok hpages).trans ?_)
    rfl
  refine ⟨newFile, ?_, rfl⟩
  have hread : readSchemaPages.run performPage newFile = (.ok [], newFile) :=
    run_readSchemaPages (by rw [newFile, Snapshot.write_numPages, hn₁]; rfl)
      (Snapshot.write_page_self _ _ _)
  have hload : (loadSchema .empty).run perform newFile = (.ok (.empty, .ok ()), newFile) := by
    have hdata : (Prog.attempt (onPages readSchemaPages)).run perform newFile =
        (.ok (.ok []), newFile) := by
      rw [Prog.run_attempt, run_onPages, hread]
    exact Prog.run_bind_ok hdata
  refine (Prog.run_bind_ok hcount).trans ?_
  rw [if_pos rfl]
  exact (Prog.run_bind_ok hinit).trans (Prog.run_bind_ok hload)
end Concrete

namespace DbSys

theorem exec_of_run {α : Type} {p : DbProg α} {s s' : PageStore} {o : Except Fault α}
    (h : p.run perform s = (o, s')) : Prog.Exec Faulty p s o s' := by
  have hx := Prog.exec_run perform p s
  rw [h] at hx
  refine hx.mono fun c s r s' heq => ?_
  obtain ⟨rfl, rfl⟩ := Prod.mk.inj heq
  exact .done c s

/-- A new file, opened. -/
def started (store : PageStore) : DbSys :=
  { init with db := some ⟨.empty, false, .withCapacity 65536⟩, store := store }

/-- A new file with one table. -/
theorem created_reaches {ok : DbSys → Act → Prop} (keys : KeyOrder) {columns : List Column}
    (hopen : ok init .openDb) (htype : (Statement.createTable "t" columns).Typed)
    (hcreate : ∀ s, ok s (.execute keys (.createTable "t" columns) false)) :
    ∃ s db, Reaches (Step mute rootsOnly) ok init s ∧ s.db = some db ∧
      db.tables.schema["t"]? = some ⟨"t", columns⟩ := by
  obtain ⟨store, hrun, hgroup⟩ := run_openDb
  have hopened : Step mute rootsOnly init .openDb (started store) :=
    Step.openDb rfl (exec_of_run hrun)
  obtain ⟨db, store', hrun', htables⟩ : ∃ db' s', (Database.execute mute rootsOnly keys
      (.createTable "t" columns) ⟨.empty, false, .withCapacity 65536⟩).run perform store =
      (.ok (db', .ok ()), s') ∧ db'.tables = withTable .empty "t" columns store.view.numPages :=
    run_createTable hgroup rfl (by simp [Tables.empty])
  have hcreated : Step mute rootsOnly (started store) (.execute keys (.createTable "t" columns) false)
      _ := Step.execute rfl (show Statement.Parsed (.createTable "t" columns) from trivial) htype
        (exec_of_run hrun') ⟨fun _ => rfl, fun _ => rfl⟩
  refine ⟨_, db, (Reaches.refl.tail hopen hopened).tail (hcreate _) hcreated, rfl, ?_⟩
  rw [htables]
  exact Std.ExtTreeMap.getElem?_insert_self

/-- The order in which the tables come. -/
def asListed : KeyOrder := ⟨id, fun _ => .refl _⟩

theorem tables_well_formed_created : ∃ (s : DbSys) (db : Database) (ts : TableSchema),
    Reaches (Step mute rootsOnly) Meets init s ∧ s.db = some db ∧
      db.tables.schema["t"]? = some ts ∧ ts.columns.countP Column.primaryKey = 1 ∧
      ts.columns ≠ [] ∧ (ts.columns.map Column.name).Nodup ∧ ts.name = "t" ∧
      "t" ∈ db.tables.btrees := by
  obtain ⟨s, db, hreach, hdb, hts⟩ : ∃ s db, Reaches (Step mute rootsOnly) Meets init s ∧
      s.db = some db ∧
      db.tables.schema["t"]? = some ⟨"t", [⟨"id", .integer, true, true, false⟩]⟩ :=
    created_reaches asListed (Or.inl ⟨rfl, rfl⟩) (by simp [Statement.Typed])
      fun s => ⟨by simp [Statement.Declares], by simp⟩
  exact ⟨s, db, _, hreach, hdb, hts, tables_well_formed hreach hdb hts⟩

/-- CREATE TABLE t (a INTEGER) makes a table without a primary key. -/
theorem not_tables_well_formed : ¬ ∀ (ext : Externals) (trees : TreeOps (fun α => PageProg α) Nat)
    (s : DbSys) (db : Database) (name : String) (ts : TableSchema),
    Reaches (Step ext trees) Any init s → s.db = some db → db.tables.schema[name]? = some ts →
    ts.columns.countP Column.primaryKey = 1 ∧ ts.columns ≠ [] ∧
      (ts.columns.map Column.name).Nodup ∧ name ∈ db.tables.btrees := by
  intro hall
  obtain ⟨s, db, hreach, hdb, hts⟩ : ∃ s db, Reaches (Step mute rootsOnly) Any init s ∧
      s.db = some db ∧
      db.tables.schema["t"]? = some ⟨"t", [⟨"a", .integer, false, false, false⟩]⟩ :=
    created_reaches asListed trivial (by simp [Statement.Typed]) fun _ => trivial
  have hone := (hall mute rootsOnly s db "t" _ hreach hdb hts).1
  simp at hone

end DbSys

end VelociDB
