/-
# Row width over whole runs

Runs of the methods of `TreeDb`, each call with any of its failures.  What the invariant
says of the memory, of the file, and of the copy the active group holds:

    Part   the tables in memory are some of those saved: all, unless a reload failed
    Fit    the saved tables have roots of their own, and their maps are `Rowed`

A statement that succeeds is one on the maps (`sim_executeStatement`); one that fails goes
back to the copy it began with, whatever it has done to the file.
-/
import VelociDB.RowWidth

namespace VelociDB

open Multimap FileStore Transition

variable {ext : Externals} {f : TreeFile} {db saved : Tables Nat}

/-- Roots of their own, and maps as wide as the tables. -/
structure TreeFile.Fit (f : TreeFile) (db : Tables Nat) : Prop where
  owns : f.Owns db
  rowed : (f.view db).All Rowed

/-- Some of the tables, each with its handle. -/
def Tables.Part (db saved : Tables Nat) : Prop :=
  ∀ name : String,
    (db.schema[name]? = saved.schema[name]? ∧ db.btrees[name]? = saved.btrees[name]?) ∨
      (db.schema[name]? = none ∧ db.btrees[name]? = none)

theorem Tables.Part.refl (db : Tables Nat) : db.Part db := fun _ => Or.inl ⟨rfl, rfl⟩

theorem Tables.part_keep (db : Tables Nat) (keep : String → Bool) : (db.keep keep).Part db := by
  intro name
  have hschema : (db.keep keep).schema[name]? = db.schema[name]?.filter fun _ => keep name :=
    Std.ExtTreeMap.getElem?_filter'
  have hbtrees : (db.keep keep).btrees[name]? = db.btrees[name]?.filter fun _ => keep name :=
    Std.ExtTreeMap.getElem?_filter'
  rw [hschema, hbtrees]
  cases hk : keep name with
  | false => exact Or.inr ⟨by cases db.schema[name]? <;> rfl, by cases db.btrees[name]? <;> rfl⟩
  | true => exact Or.inl ⟨by cases db.schema[name]? <;> rfl, by cases db.btrees[name]? <;> rfl⟩

theorem Tables.Part.btree (h : db.Part saved) {name : String} {root : Nat}
    (hroot : db.btrees[name]? = some root) :
    db.schema[name]? = saved.schema[name]? ∧ saved.btrees[name]? = some root := by
  rcases h name with ⟨hschema, hbtrees⟩ | ⟨-, hnone⟩
  · exact ⟨hschema, hbtrees.symm.trans hroot⟩
  · rw [hnone] at hroot
    cases hroot

/-- What a file is for the saved tables it is for some of them. -/
theorem TreeFile.Fit.part (h : f.Fit saved) (hp : db.Part saved) : f.Fit db where
  owns := {
    used := fun name root hroot => h.owns.used name root (hp.btree hroot).2
    apart := fun name name' root hroot hroot' =>
      h.owns.apart name name' root (hp.btree hroot).2 (hp.btree hroot').2 }
  rowed := by
    have hnames : ∀ name : String, name ∈ saved.schema ↔ name ∈ (f.view saved).btrees :=
      h.rowed.names
    constructor
    · intro name
      have hname := hnames name
      rw [Std.ExtTreeMap.mem_iff_isSome_getElem?, Std.ExtTreeMap.mem_iff_isSome_getElem?,
        TreeFile.view_btrees] at hname ⊢
      rw [TreeFile.view_schema]
      rcases hp name with ⟨hschema, hbtrees⟩ | ⟨hschema, hbtrees⟩
      · rw [hschema, hbtrees]
        exact hname
      · rw [hschema, hbtrees]
        rfl
    · intro name ts es hts hes
      rw [TreeFile.view_btrees] at hes
      obtain ⟨root, hroot, rfl⟩ := Option.map_eq_some_iff.mp hes
      obtain ⟨hschema, hsaved⟩ := hp.btree hroot
      exact h.rowed.each name ts _ (hschema.symm.trans hts) (by simp [hsaved])

/-! ## A statement -/

section Statement

variable {s s' : FileStore} {stmt : Statement} {r : Tables Nat × List StagedChange}
  {v : Tables RowMap × List StagedChange}

/-- A statement that is not saved has left the tables in memory. -/
theorem same_of_not_saves (hx : executeStatement ext maps (s.view.view db) stmt = .ok v)
    (hv : Viewed db s s' r v) (hsaves : ¬ Database.saves stmt db r.1) : r.1 = db := by
  have hbtrees : db.btrees = r.1.btrees := by
    by_contra hne
    exact hsaves (Or.inr fun heq => hne (Std.ExtTreeMap.toList_inj.mp heq))
  have hschema : v.1.schema = db.schema := by
    cases stmt with
    | createTable => exact absurd (Or.inl rfl) hsaves
    | dropTable => exact absurd (Or.inl rfl) hsaves
    | alterTable => exact absurd (Or.inl rfl) hsaves
    | insert =>
        obtain ⟨ts, es, pk, key, hi⟩ := executeInsert_ok hx
        rw [hi.result]
        rfl
    | update =>
        obtain ⟨ts, es, pkIndex, rows, us, hu⟩ := executeUpdate_ok hx
        rw [hu.result]
        rfl
    | delete =>
        obtain ⟨ts, es, rows, -, -, -, hdb, -⟩ := executeDelete_ok hx
        rw [hdb]
        rfl
  rw [hv.view] at hschema
  obtain ⟨⟨schema, btrees⟩, changes⟩ := r
  exact Tables.mk.injEq .. ▸ ⟨hschema, hbtrees.symm⟩

/-- The tables a statement leaves fit the file it leaves. -/
theorem TreeFile.Fit.statement (h : s.view.Fit db)
    (hx : executeStatement ext maps (s.view.view db) stmt = .ok v) (hv : Viewed db s s' r v) :
    s'.view.Fit r.1 where
  owns := hv.owns
  rowed := by
    rw [← hv.view]
    have hx' : executeStatement ext maps (s.view.view db) stmt = .ok (v.1, v.2) := hx
    exact (keeps_rowed ext fun _ _ => True).all_statement h.rowed trivial hx'

/-- And so do those saved before, where the statement is not saved. -/
theorem TreeFile.Fit.unsaved (h : s.view.Fit saved) (hp : db.Part saved)
    (hv : Viewed db s s' r v) (hfit : s'.view.Fit db) : s'.view.Fit saved where
  owns := ⟨fun name root hroot => (h.owns.used name root hroot).trans_le hv.free, h.owns.apart⟩
  rowed := by
    constructor
    · intro name
      have hname := h.rowed.names name
      rw [Std.ExtTreeMap.mem_iff_isSome_getElem?, Std.ExtTreeMap.mem_iff_isSome_getElem?,
        TreeFile.view_btrees, TreeFile.view_schema, Option.isSome_map] at hname ⊢
      exact hname
    · intro name ts es hts hes
      rw [TreeFile.view_btrees] at hes
      obtain ⟨root, hroot, rfl⟩ := Option.map_eq_some_iff.mp hes
      rw [TreeFile.view_schema] at hts
      rcases hp name with ⟨hschema, hbtrees⟩ | ⟨-, hnone⟩
      · have hmine : db.btrees[name]? = some root := hbtrees.trans hroot
        exact hfit.rowed.each name ts _ (hschema.trans hts) (by simp [hmine])
      · -- the root belongs to no table in memory
        have hframe : s'.view.trees root = s.view.trees root := by
          refine hv.frame root (h.owns.used name root hroot) fun name' hname' => ?_
          obtain rfl := h.owns.apart name name' root hroot (hp.btree hname').2
          rw [hnone] at hname'
          cases hname'
        rw [hframe]
        exact h.rowed.each name ts _ hts (by simp [hroot])

end Statement

/-! ## The methods -/

namespace TreeDb

/-- Memory, file and the copy of the active group. -/
structure Inv (d : TreeDb) (s : FileStore) : Prop where
  part : d.tables.Part s.view.saved
  fit : s.view.Fit s.view.saved
  group : ∀ v, s.group = some v → v.Fit v.saved

/-- A method returns, and leaves the invariant. -/
def Leaves (o : Except Fault Outcome) (s : FileStore) : Prop := ∃ out, o = .ok out ∧ Inv out.1 s

section Methods

variable {d : TreeDb} {s s' : FileStore} {stmt : Statement} {α β : Type}

theorem ends_call {c : FileCall} {Q : Except Fault c.Ans → FileStore → Prop}
    (h : ∀ r s', Faulty c s r s' → Q r s') : Ends (onFile c) s Q :=
  Prog.wp_lift trivial fun r s' hc => ⟨trivial, h r s' hc⟩

theorem ends_attempt_call {c : FileCall} {f : Except Fault c.Ans → FileProg β}
    {Q : Except Fault β → FileStore → Prop}
    (h : ∀ r s', Faulty c s r s' → Ends (f r) s' Q) :
    Ends ((Prog.attempt (onFile c)).bind f) s Q :=
  Prog.wp_bind (Prog.wp_attempt (ends_call h))

/-- Loading leaves the file, and some of the saved tables. -/
theorem load_of {r : Except Fault (Tables Nat × Except Fault Unit)}
    (h : Faulty .loadSchema s r s') : s' = s ∧ ∃ t, r = .ok t ∧ t.1.Part s.view.saved := by
  cases h with
  | done => exact ⟨rfl, _, rfl, .refl _⟩
  | loadSchema _ keep e => exact ⟨rfl, _, rfl, Tables.part_keep _ keep⟩

theorem ends_reload (e : Fault) (d : TreeDb) (hfit : s.view.Fit s.view.saved)
    (hgroup : ∀ v, s.group = some v → v.Fit v.saved) :
    Ends (reload e d) s fun o s' => ∃ out, o = .ok out ∧ Inv out.1 s' ∧ out.2 ≠ .ok () := by
  refine Prog.wp_bind (ends_call fun r s' h => ?_)
  obtain ⟨rfl, ⟨tables, loaded⟩, rfl, hpart⟩ := load_of h
  refine ⟨trivial, _, rfl, ⟨hpart, hfit, hgroup⟩, ?_⟩
  cases loaded with
  | ok u => exact fun h => by cases h
  | error e => exact fun h => by cases h

/-- The copy a statement goes back to. -/
def Marked (inTransaction : Bool) (v : TreeFile) (s : FileStore) : Prop :=
  (if inTransaction then s.savepoint else s.group) = some v

theorem ends_beginStatement (inTransaction : Bool) :
    Ends (beginStatement inTransaction) s fun o s' => s'.view = s.view ∧
      (∀ v, s'.group = some v → s.group = some v ∨ v = s.view) ∧
        (o = .ok () → Marked inTransaction s.view s') := by
  cases inTransaction with
  | true =>
      refine ends_call fun r s' h => ?_
      cases h with
      | done =>
          cases hg : s.group with
          | none => simp [perform, hg]
          | some v =>
              cases hsp : s.savepoint with
              | none => simp [perform, hg, hsp, Marked]
              | some w => simp [perform, hg, hsp]
  | false =>
      refine ends_call fun r s' h => ?_
      cases h with
      | done =>
          cases hg : s.group with
          | none => simp [perform, hg, Marked]
          | some v => simp [perform, hg]

theorem ends_undoStatement {inTransaction : Bool} {v : TreeFile} (hv : Marked inTransaction v s) :
    Ends (undoStatement inTransaction) s fun o s' => o = .ok () ∧ s'.view = v ∧
      ∀ w, s'.group = some w → s.group = some w := by
  cases inTransaction with
  | true =>
      refine ends_call fun r s' h => ?_
      have hsp : s.savepoint = some v := hv
      cases h with
      | done => simp [perform, hsp]
  | false =>
      refine ends_call fun r s' h => ?_
      have hg : s.group = some v := hv
      cases h with
      | done => simp [perform, hg]

/-- What the body of a statement leaves where it ends well. -/
structure Body (ext : Externals) (stmt : Statement) (d : TreeDb) (s s' : FileStore)
    (tables : Tables Nat) : Prop where
  part : tables.Part s'.view.saved
  fit : s'.view.Fit s'.view.saved
  result : ∃ v, executeStatement ext maps (s.view.view d.tables) stmt = .ok v ∧
    v.1 = s'.view.view tables

theorem ends_runStatement (h : Inv d s) :
    Ends (runStatement ext stmt d) s fun o s' => s'.group = s.group ∧
      s'.savepoint = s.savepoint ∧ o ≠ .error .panic ∧
        ∀ tables, o = .ok tables → Body ext stmt d s s' tables := by
  have hfit : s.view.Fit d.tables := h.fit.part h.part
  refine Prog.wp_bind (Prog.wp_mono (sim_executeStatement hfit.owns stmt) fun o s₁ _ hsim => ?_)
  obtain ⟨hgroup, hsave, hsim⟩ := hsim
  cases o with
  | error e =>
      refine ⟨hgroup, hsave, ?_, by rintro _ ⟨⟩⟩
      rintro ⟨⟩
      exact safe_executeStatement hfit.rowed stmt hsim
  | ok r =>
  obtain ⟨v, hv, hviewed⟩ := hsim
  have hnew : s₁.view.Fit r.1 := hfit.statement hv hviewed
  obtain ⟨tables, changes⟩ := r
  dsimp only
  split
  · rename_i hsaves
    refine Prog.wp_bind (ends_call fun r s₂ hc => ?_)
    cases hc with
    | done =>
        refine ⟨trivial, hgroup, hsave, by rintro ⟨⟩, ?_⟩
        rintro _ ⟨⟩
        exact ⟨.refl _, ⟨⟨hnew.owns.used, hnew.owns.apart⟩, hnew.rowed⟩, v, hv, hviewed.view⟩
    | saveSchema _ _ e w => exact ⟨hgroup, hsave, by rintro ⟨⟩, by rintro _ ⟨⟩⟩
  · rename_i hsaves
    have hsame : tables = d.tables := same_of_not_saves hv hviewed hsaves
    subst hsame
    refine ⟨trivial, hgroup, hsave, by rintro ⟨⟩, ?_⟩
    rintro _ ⟨⟩
    refine ⟨?_, ?_, v, hv, hviewed.view⟩
    · rw [hviewed.saved]
      exact h.part
    · rw [hviewed.saved]
      exact h.fit.unsaved h.part hviewed hnew

/-- A statement that succeeds is one on the maps. -/
def Does (ext : Externals) (stmt : Statement) (d : TreeDb) (s : FileStore) (out : Outcome)
    (s' : FileStore) : Prop :=
  out.2 = .ok () → ∃ v, executeStatement ext maps (s.view.view d.tables) stmt = .ok v ∧
    v.1 = s'.view.view out.1.tables

/-- The step of a statement. -/
theorem ends_execute (h : Inv d s) : Ends (execute ext stmt d) s fun o s' =>
    ∃ out, o = .ok out ∧ Inv out.1 s' ∧ Does ext stmt d s out s' := by
  refine Prog.wp_bind (Prog.wp_attempt (Prog.wp_mono (ends_beginStatement _) ?_))
  rintro o s₁ - ⟨hview, hgroup₁, hmark⟩
  have hfit₁ : ∀ v, s₁.group = some v → v.Fit v.saved := by
    intro v hv
    rcases hgroup₁ v hv with hold | rfl
    · exact h.group v hold
    · exact h.fit
  have hinv₁ : Inv d s₁ := ⟨hview ▸ h.part, hview ▸ h.fit, hfit₁⟩
  cases o with
  | error e => exact ⟨trivial, _, rfl, hinv₁, by rintro ⟨⟩⟩
  | ok u =>
  refine Prog.wp_bind (Prog.wp_attempt (Prog.wp_mono (ends_runStatement hinv₁) ?_))
  rintro o s₂ - ⟨hgroup₂, hsave₂, hpanic, hbody⟩
  have hfit₂ : ∀ v, s₂.group = some v → v.Fit v.saved := hgroup₂ ▸ hfit₁
  have hmark₂ : Marked d.inTransaction s.view s₂ := by
    have hmark₁ := hmark rfl
    rw [Marked, hgroup₂, hsave₂]
    exact hmark₁
  cases o with
  | ok tables =>
      obtain ⟨hpart, hfit, hresult⟩ := hbody tables rfl
      rw [hview] at hresult
      dsimp only
      split
      · refine Prog.wp_bind (ends_call fun r s₃ hc => ?_)
        cases hc with
        | done => exact ⟨trivial, _, rfl, ⟨hpart, hfit, hfit₂⟩, fun _ => hresult⟩
      · rename_i htxn
        rw [Marked, if_neg htxn] at hmark₂
        refine ends_attempt_call fun r s₃ hc => ?_
        cases hc with
        | done =>
            simp only [perform, hmark₂]
            exact ⟨trivial, _, rfl, ⟨hpart, hfit, by rintro _ ⟨⟩⟩, fun _ => hresult⟩
        | commitGroup _ v e hv =>
            -- a failed commit takes the group back
            obtain rfl := Option.some.inj (hmark₂.symm.trans hv)
            refine Prog.wp_mono (ends_reload _ _ h.fit (by rintro _ ⟨⟩)) fun o s₄ _ hout => ?_
            obtain ⟨out, rfl, hinv, hno⟩ := hout
            exact ⟨out, rfl, hinv, fun hok => absurd hok hno⟩
  | error e =>
      cases e with
      | panic => exact absurd rfl hpanic
      | error e =>
          refine Prog.wp_bind (Prog.wp_attempt (Prog.wp_mono (ends_undoStatement hmark₂) ?_))
          rintro o s₃ - ⟨rfl, hview₃, hgroup₃⟩
          have hfit₃ : s₃.view.Fit s₃.view.saved := hview₃ ▸ h.fit
          refine Prog.wp_mono (ends_reload _ _ hfit₃ fun v hv => hfit₂ v (hgroup₃ v hv))
            fun o s₄ _ hout => ?_
          obtain ⟨out, rfl, hinv, hno⟩ := hout
          exact ⟨out, rfl, hinv, fun hok => absurd hok hno⟩

theorem ends_begin (h : Inv d s) : Ends (begin d) s Leaves := by
  unfold begin
  split
  · exact ⟨trivial, _, rfl, h⟩
  · refine ends_attempt_call fun r s₁ hc => ?_
    cases hc with
    | done =>
        cases hg : s.group with
        | none =>
            simp only [perform, hg]
            refine ⟨trivial, _, rfl, h.part, h.fit, ?_⟩
            rintro _ ⟨⟩
            exact h.fit
        | some v =>
            simp only [perform, hg]
            exact ⟨trivial, _, rfl, h⟩

theorem ends_commit (h : Inv d s) : Ends (commit d) s Leaves := by
  unfold commit
  split
  · exact ⟨trivial, _, rfl, h⟩
  · refine ends_attempt_call fun r s₁ hc => ?_
    cases hc with
    | done =>
        cases hg : s.group with
        | none =>
            simp only [perform, hg]
            refine Prog.wp_mono (ends_reload _ _ h.fit h.group) fun o s₂ _ hout => ?_
            obtain ⟨out, rfl, hinv, -⟩ := hout
            exact ⟨out, rfl, hinv⟩
        | some v =>
            simp only [perform, hg]
            exact ⟨trivial, _, rfl, h.part, h.fit, by rintro _ ⟨⟩⟩
    | commitGroup _ v e hv =>
        have hfit := h.group v hv
        refine Prog.wp_mono (ends_reload _ _ hfit (by rintro _ ⟨⟩)) fun o s₂ _ hout => ?_
        obtain ⟨out, rfl, hinv, -⟩ := hout
        exact ⟨out, rfl, hinv⟩

theorem ends_rollback (h : Inv d s) : Ends (rollback d) s Leaves := by
  unfold rollback
  split
  · exact ⟨trivial, _, rfl, h⟩
  · refine ends_attempt_call fun r s₁ hc => ?_
    cases hc with
    | done =>
        cases hg : s.group with
        | none =>
            simp only [perform, hg]
            exact ⟨trivial, _, rfl, h⟩
        | some v =>
            simp only [perform, hg]
            have hfit := h.group v hg
            refine Prog.wp_bind (ends_call fun r s₂ hload => ?_)
            obtain ⟨rfl, ⟨tables, loaded⟩, rfl, hpart⟩ := load_of hload
            have hinv : ∀ b, Inv ⟨tables, b⟩ ⟨v, none, none⟩ := fun b =>
              ⟨hpart, hfit, by rintro _ ⟨⟩⟩
            cases loaded with
            | error e => exact ⟨trivial, _, rfl, hinv _⟩
            | ok u => exact ⟨trivial, _, rfl, hinv _⟩

end Methods

end TreeDb

/-! ## Runs -/

/-- Memory and file. -/
structure TreeSys where
  db : TreeDb
  store : FileStore

namespace TreeSys

/-- A new file. -/
def init : TreeSys := ⟨⟨.empty, false⟩, ⟨⟨fun _ => [], 0, .empty⟩, none, none⟩⟩

/-- The methods. -/
inductive Act where
  | execute (stmt : Statement)
  | begin
  | commit
  | rollback

variable (ext : Externals)

/-- What a method runs. -/
def Act.run (d : TreeDb) : Act → FileProg TreeDb.Outcome
  | .execute stmt => TreeDb.execute ext stmt d
  | .begin => d.begin
  | .commit => d.commit
  | .rollback => d.rollback

/-- A method that returns, Ok or Err. -/
def Step (s : TreeSys) (a : Act) (s' : TreeSys) : Prop :=
  ∃ result, Prog.Exec Faulty (a.run ext s.db) s.store (.ok (s'.db, result)) s'.store

/-- The tables as maps. -/
def tables (s : TreeSys) : Tables RowMap := s.store.view.view s.db.tables

variable {ext}

theorem ends_run {d : TreeDb} {s : FileStore} (h : d.Inv s) (a : Act) :
    Ends (a.run ext d) s TreeDb.Leaves := by
  cases a with
  | execute stmt =>
      refine Prog.wp_mono (TreeDb.ends_execute h) fun o s' _ hout => ?_
      obtain ⟨out, ho, hinv, -⟩ := hout
      exact ⟨out, ho, hinv⟩
  | begin => exact TreeDb.ends_begin h
  | commit => exact TreeDb.ends_commit h
  | rollback => exact TreeDb.ends_rollback h

theorem inv_init : init.db.Inv init.store := by
  have hempty : (TreeFile.view ⟨fun _ => [], 0, .empty⟩ .empty).All Rowed :=
    ⟨by simp [TreeFile.view, Tables.empty], by simp [TreeFile.view, Tables.empty]⟩
  refine ⟨.refl _, ⟨⟨?_, ?_⟩, hempty⟩, by rintro _ ⟨⟩⟩
  · simp [init, Tables.empty]
  · simp [init, Tables.empty]

theorem inv_reaches {s : TreeSys} (h : Reaches (Step ext) Any init s) : s.db.Inv s.store := by
  refine Reaches.invariant (I := fun s : TreeSys => s.db.Inv s.store) inv_init ?_ h
  rintro s a s' hinv - ⟨result, hx⟩
  obtain ⟨out, ho, hinv'⟩ := Prog.wp_exec hx (ends_run hinv a)
  obtain rfl := Except.ok.inj ho
  exact hinv'

/-- In every state of a run, whatever failed on the way: every stored row is as wide as its
table; no method and no SELECT panics, so no index is out of range, and a row about to be
inserted has the UNIQUE columns it is checked for; and once ADD COLUMN has returned Ok for a
column that is no key, nothing refuses to drop it, and a DROP COLUMN that returns Ok leaves
the tables as they were, columns and rows. -/
theorem row_width {s : TreeSys} (h : Reaches (Step ext) Any init s) :
    (∀ (name : String) (ts : TableSchema) (root : Nat), s.db.tables.schema[name]? = some ts →
      s.db.tables.btrees[name]? = some root →
      ∀ e ∈ s.store.view.trees root, e.2.values.length = ts.columns.length) ∧
    (∀ (a : Act) (o : Except Fault TreeDb.Outcome) (store : FileStore),
      Prog.Exec Faulty (a.run ext s.db) s.store o store → o ≠ .error .panic) ∧
    (∀ vec table columns clause order limit,
      executeSelect ext vec maps table columns clause order limit s.tables ≠ .error .panic) ∧
    (∀ (ts : TableSchema) columns values, ∀ i ∈ uniqueColumns ts,
      i < (insertedRow ts columns values).values.length) ∧
    ∀ (table : String) (column : Column) (d : TreeDb) (store : FileStore),
      column.primaryKey = false →
      Prog.Exec Faulty (TreeDb.execute ext (.alterTable table (.addColumn column)) s.db) s.store
        (.ok (d, .ok ())) store →
      executeStatement ext maps (store.view.view d.tables)
          (.alterTable table (.dropColumn column.name)) = .ok (s.tables, []) ∧
        ∀ d' store', Prog.Exec Faulty
            (TreeDb.execute ext (.alterTable table (.dropColumn column.name)) d) store
            (.ok (d', .ok ())) store' →
          store'.view.view d'.tables = s.tables := by
  have hinv := inv_reaches h
  have hfit := hinv.fit.part hinv.part
  refine ⟨fun name ts root hts hroot => ?_, fun a o store hx hpanic => ?_,
    fun vec table columns clause order limit =>
      safe_executeSelect hfit.rowed columns clause order limit,
    fun ts columns values i hi => ?_, fun table column d store hpk hadd => ?_⟩
  · exact (hfit.rowed.each name ts _ hts (by simp [hroot])).width
  · obtain ⟨out, ho, -⟩ := Prog.wp_exec hx (ends_run hinv a)
    rw [ho] at hpanic
    cases hpanic
  · rw [insertedRow, fillRow_length, List.length_replicate]
    exact List.mem_range.mp (List.mem_of_mem_filter hi)
  · obtain ⟨out, ho, hinv', hdoes⟩ := Prog.wp_exec hadd (TreeDb.ends_execute hinv)
    obtain rfl := Except.ok.inj ho
    obtain ⟨v, hv, hview⟩ := hdoes rfl
    obtain ⟨db₁, halter, hpair⟩ := bind_ok.mp hv
    obtain rfl := pure_ok.mp hpair
    have hback : executeAlterTable maps table (.dropColumn column.name) db₁ = .ok s.tables :=
      drop_added hfit.rowed hpk halter
    have hdrop : executeStatement ext maps (store.view.view d.tables)
        (.alterTable table (.dropColumn column.name)) = .ok (s.tables, []) := by
      rw [← hview]
      exact bind_ok.mpr ⟨_, hback, rfl⟩
    refine ⟨hdrop, fun d' store' hx => ?_⟩
    obtain ⟨out', ho', -, hdoes'⟩ := Prog.wp_exec hx (TreeDb.ends_execute hinv')
    obtain rfl := Except.ok.inj ho'
    obtain ⟨v', hv', hview'⟩ := hdoes' rfl
    obtain rfl := Except.ok.inj (hv'.symm.trans hdrop)
    exact hview'.symm

/-! ### A run in which nothing fails -/

/-- The method, where no call fails by itself. -/
def next (ext : Externals) (s : TreeSys) (a : Act) : Option TreeSys :=
  match (a.run ext s.db).run perform s.store with
  | (.ok out, store) => some ⟨out.1, store⟩
  | (.error _, _) => none

theorem step_next {s s' : TreeSys} {a : Act} (h : next ext s a = some s') : Step ext s a s' := by
  have hx := (Prog.exec_run perform (a.run ext s.db) s.store).mono fun c s r s' heq => by
    obtain ⟨rfl, rfl⟩ := Prod.mk.inj heq
    exact Faulty.done c s
  unfold next at h
  split at h
  · rename_i out store hrun
    rw [hrun] at hx
    obtain rfl := Option.some.inj h
    exact ⟨out.2, hx⟩
  · cases h

theorem reaches_next : ∀ {acts : List Act} {s s' : TreeSys}, Reaches (Step ext) Any init s →
    acts.foldlM (next ext) s = some s' → Reaches (Step ext) Any init s'
  | [], _, _, hr, h => by
      obtain rfl := Option.some.inj h
      exact hr
  | a :: acts, s, _, hr, h => by
      rw [List.foldlM_cons] at h
      obtain ⟨s₁, hnext, hrest⟩ := Option.bind_eq_some_iff.mp h
      exact reaches_next (hr.tail trivial (step_next hnext)) hrest

theorem row_width_inserted : ∃ s : TreeSys, Reaches (Step mute) Any init s ∧
    s.store.view.trees 0 = [(2, ⟨[.integer 2]⟩)] ∧
      ∀ e ∈ s.store.view.trees 0, e.2.values.length = 1 := by
  have hrun : ([.execute createKeyed, .execute (insertKey 2)].foldlM (next mute) init).map
      (fun s => (s.db.tables.schema["t"]?, s.db.tables.btrees["t"]?, s.store.view.trees 0)) =
        some (some ⟨"t", [⟨"id", .integer, true, true, false⟩]⟩, some 0,
          [(2, ⟨[.integer 2]⟩)]) := by with_unfolding_all decide
  obtain ⟨s, hs, hview⟩ := Option.map_eq_some_iff.mp hrun
  obtain ⟨hts, hview⟩ := Prod.mk.inj hview
  obtain ⟨hroot, hes⟩ := Prod.mk.inj hview
  have hreach := reaches_next .refl hs
  exact ⟨s, hreach, hes, (row_width hreach).1 "t" _ 0 hts hroot⟩

end TreeSys

end VelociDB
