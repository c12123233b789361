/-
# Statements on a file do what they do on lists

`Sim` relates a program on a file to the same code on the maps themselves: where the program
ends well so does the code, with related results; it panics only where the code does; and an
error tells nothing but that group and savepoint are untouched.  `sim_executeStatement` is
the relation for the executor: the tables in memory, seen through the file (`TreeFile.view`),
become what the statement makes of them.
-/
import VelociDB.TreeFile

namespace VelociDB

open Multimap FileStore

variable {α β γ δ : Type} {s s' : FileStore} {root : Nat} {es : RowMap} {ext : Externals}
  {ts : TableSchema}

/-- How the end of a program compares with the result of the code. -/
def Agrees (s : FileStore) (y : Except Fault β) (R : FileStore → α → β → Prop)
    (o : Except Fault α) (s' : FileStore) : Prop :=
  s'.group = s.group ∧ s'.savepoint = s.savepoint ∧
    match o with
    | .ok a => ∃ b, y = .ok b ∧ R s' a b
    | .error .panic => y = .error .panic
    | .error (.error _) => True

/-- The program compares so at every end. -/
abbrev Sim (x : FileProg α) (s : FileStore) (y : Except Fault β) (R : FileStore → α → β → Prop) :
    Prop := Ends x s (Agrees s y R)

/-- The file is as before, and the results are the same. -/
def Same (s : FileStore) (s' : FileStore) (a b : α) : Prop := s' = s ∧ a = b

/-- The map under the root is now `es`. -/
def FileStore.set (s : FileStore) (root : Nat) (es : RowMap) : FileStore :=
  { s with view := s.view.set root es }

/-- The map under the root is the result of the code. -/
def Moved (s : FileStore) (root : Nat) (s' : FileStore) (root' : Nat) (es : RowMap) : Prop :=
  s' = s.set root es ∧ root = root'

@[simp] theorem FileStore.set_trees_self : (s.set root es).view.trees root = es :=
  Function.update_self _ _ _

theorem FileStore.set_set {es' : RowMap} : (s.set root es).set root es' = s.set root es' := by
  simp only [FileStore.set, TreeFile.set, Function.update_idem]

theorem FileStore.set_self : s.set root (s.view.trees root) = s := by
  simp only [FileStore.set, TreeFile.set, Function.update_eq_self]

namespace Sim

variable {R : FileStore → α → β → Prop} {R' : FileStore → γ → δ → Prop}

theorem ret {a : α} {b : β} (h : R s a b) : Sim (.ret a) s (.ok b) R :=
  ⟨trivial, rfl, rfl, b, rfl, h⟩

theorem error {e : VelociError} {y : Except Fault β} : Sim (fail e) s y R :=
  ⟨trivial, rfl, rfl, trivial⟩

theorem bind {x : FileProg α} {y : Except Fault β} {f : α → FileProg γ}
    {g : β → Except Fault δ} (hx : Sim x s y R)
    (hf : ∀ a b s', R s' a b → Sim (f a) s' (g b) R') : Sim (x.bind f) s (y >>= g) R' := by
  refine Prog.wp_bind (Prog.wp_mono hx fun o s' _ h => ?_)
  obtain ⟨hgroup, hsave, h⟩ := h
  cases o with
  | ok a =>
      obtain ⟨b, rfl, hR⟩ := h
      refine Prog.wp_mono (hf a b s' hR) fun o' s'' _ h' => ?_
      exact ⟨h'.1.trans hgroup, h'.2.1.trans hsave, h'.2.2⟩
  | error e =>
      refine ⟨hgroup, hsave, ?_⟩
      cases e with
      | error e => exact trivial
      | panic =>
          have hy : y = .error .panic := h
          rw [hy]
          rfl

theorem mono {x : FileProg α} {y : Except Fault β} {Q : FileStore → α → β → Prop}
    (hx : Sim x s y R) (hQ : ∀ s' a b, R s' a b → Q s' a b) : Sim x s y Q := by
  refine Prog.wp_mono hx fun o s' _ h => ⟨h.1, h.2.1, ?_⟩
  cases o with
  | ok a =>
      obtain ⟨b, hy, hR⟩ := h.2.2
      exact ⟨b, hy, hQ s' a b hR⟩
  | error e => cases e <;> exact h.2.2

/-- Code that calls no tree does the same in both. -/
theorem ofResult (y : Except Fault α) : Sim (ofResult y) s (ofResult y) (Same s) := by
  cases y with
  | ok a => exact ret ⟨rfl, rfl⟩
  | error e =>
      refine ⟨trivial, rfl, rfl, ?_⟩
      cases e with
      | error e => exact trivial
      | panic => rfl

theorem errIf (c : Prop) [Decidable c] (e : VelociError) :
    Sim (errIf c e) s (errIf c e) (Same s) := by
  unfold VelociDB.errIf
  split
  · exact error
  · exact ret ⟨rfl, rfl⟩

theorem getTable {schema : Std.ExtTreeMap String TableSchema} {name : String} :
    Sim (getTable schema name) s (getTable schema name)
      fun s' a b => Same s s' a b ∧ schema[name]? = some a := by
  unfold VelociDB.getTable
  cases h : schema[name]? with
  | none => exact error
  | some ts => exact ret ⟨⟨rfl, rfl⟩, rfl⟩

theorem createTable {schema : Std.ExtTreeMap String TableSchema} :
    Sim (createTable schema ts) s (createTable schema ts) (Same s) := by
  unfold VelociDB.createTable
  refine bind (errIf _ _) ?_
  rintro _ _ _ ⟨rfl, -⟩
  exact ret ⟨rfl, rfl⟩

/-- A call on a tree that does what it does on lists. -/
theorem tree {op : TreeCall} {y : Except Fault β} {R : FileStore → op.Ans → β → Prop} {b : β}
    (hy : y = .ok b) (h : R { s with view := (op.perform s.view).2 } (op.perform s.view).1 b) :
    Sim (onFile (.tree op)) s y R := by
  refine Prog.wp_lift trivial fun r s' hc => ⟨trivial, ?_⟩
  cases hc with
  | done => exact ⟨rfl, rfl, b, hy, h⟩
  | tree => exact ⟨rfl, rfl, trivial⟩

theorem create : Sim treeCalls.create s maps.create fun s' root es =>
    root = s.view.free ∧ es = [] ∧
      s' = { s with view := { s.view.set root es with free := s.view.free + 1 } } :=
  tree rfl ⟨rfl, rfl, rfl⟩

theorem search (key : Int64) :
    Sim (treeCalls.search root key) s (maps.search (s.view.trees root) key) (Same s) :=
  tree rfl ⟨rfl, rfl⟩

theorem scan : Sim (treeCalls.scan root) s (maps.scan (s.view.trees root)) (Same s) :=
  tree rfl ⟨rfl, rfl⟩

theorem insert (key : Int64) (row : Row) :
    Sim (treeCalls.insert root key row) s (maps.insert (s.view.trees root) key row)
      (Moved s root) := tree rfl ⟨rfl, rfl⟩

theorem delete (key : Int64) :
    Sim (treeCalls.delete root key) s (maps.delete (s.view.trees root) key)
      fun s' a b => a.1 = b.1 ∧ Moved s root s' a.2 b.2 := tree rfl ⟨rfl, rfl, rfl⟩

end Sim

/-! ## The functions of the executor -/

section Functions

theorem sim_candidateRows (clause : Option WhereClause) :
    Sim (candidateRows treeCalls root clause ts) s (candidateRows maps (s.view.trees root) clause ts)
      (Same s) := by
  unfold candidateRows
  dsimp only
  split
  · refine Sim.bind (Sim.search _) ?_
    rintro found _ _ ⟨rfl, rfl⟩
    exact Sim.ret ⟨rfl, rfl⟩
  · exact Sim.scan

theorem sim_checkInsertUnique (row : Row) :
    Sim (checkInsertUnique ext treeCalls ts root row) s
      (checkInsertUnique ext maps ts (s.view.trees root) row) (Same s) := by
  unfold checkInsertUnique
  dsimp only
  split
  · exact Sim.ret ⟨rfl, rfl⟩
  · refine Sim.bind Sim.scan ?_
    rintro rows _ _ ⟨rfl, rfl⟩
    cases rows.findSome? fun e => findDuplicate ext _ e.2 row with
    | none => exact Sim.ret ⟨rfl, rfl⟩
    | some d => exact Sim.error

theorem sim_checkUnique (rows : List Row) : ∀ cols : List Nat,
    Sim (checkUnique ext ts rows cols) s (checkUnique ext ts rows cols) (Same s)
  | [] => Sim.ret ⟨rfl, rfl⟩
  | i :: cols => by
      rw [checkUnique, checkUnique]
      cases adjacentDuplicate ext _ with
      | none => exact sim_checkUnique rows cols
      | some v => exact Sim.error

theorem sim_rewriteRows (f : Row → Row) : ∀ {rows : List (Int64 × Row)} {s : FileStore},
    Sim (rewriteRows treeCalls f root rows) s (rewriteRows maps f (s.view.trees root) rows)
      (Moved s root)
  | [], s => Sim.ret ⟨FileStore.set_self.symm, rfl⟩
  | (key, row) :: rest, s => by
      rw [rewriteRows, rewriteRows]
      refine Sim.bind (Sim.delete key) ?_
      rintro ⟨-, _⟩ ⟨-, es⟩ _ ⟨-, rfl, rfl⟩
      dsimp only
      have hes : (s.set root es).view.trees root = es := FileStore.set_trees_self
      nth_rewrite 2 [← hes]
      refine Sim.bind (Sim.insert key (f row)) ?_
      rintro _ es' _ ⟨rfl, rfl⟩
      have hes' : ((s.set root es).set root es').view.trees root = es' := FileStore.set_trees_self
      nth_rewrite 2 [← hes']
      refine (sim_rewriteRows f).mono ?_
      rintro _ _ es'' ⟨rfl, rfl⟩
      exact ⟨by rw [FileStore.set_set, FileStore.set_set], rfl⟩

theorem sim_applyUpdates : ∀ {us : List RowUpdate} {s : FileStore},
    Sim (applyUpdates treeCalls root us) s (applyUpdates maps (s.view.trees root) us)
      (Moved s root)
  | [], s => Sim.ret ⟨FileStore.set_self.symm, rfl⟩
  | u :: us, s => by
      rw [applyUpdates, applyUpdates]
      refine Sim.bind (Sim.delete u.key) ?_
      rintro ⟨-, _⟩ ⟨-, es⟩ _ ⟨-, rfl, rfl⟩
      dsimp only
      have hes : (s.set root es).view.trees root = es := FileStore.set_trees_self
      nth_rewrite 2 [← hes]
      refine Sim.bind (Sim.insert u.newKey u.updated) ?_
      rintro _ es' _ ⟨rfl, rfl⟩
      have hes' : ((s.set root es).set root es').view.trees root = es' := FileStore.set_trees_self
      nth_rewrite 2 [← hes']
      refine sim_applyUpdates.mono ?_
      rintro _ _ es'' ⟨rfl, rfl⟩
      exact ⟨by rw [FileStore.set_set, FileStore.set_set], rfl⟩

theorem sim_deleteRows : ∀ {rows : List (Int64 × Row)} {s : FileStore},
    Sim (deleteRows treeCalls root rows) s (deleteRows maps (s.view.trees root) rows)
      (Moved s root)
  | [], s => Sim.ret ⟨FileStore.set_self.symm, rfl⟩
  | e :: rest, s => by
      rw [deleteRows, deleteRows]
      refine Sim.bind (Sim.delete e.1) ?_
      rintro ⟨-, _⟩ ⟨-, es⟩ _ ⟨-, rfl, rfl⟩
      dsimp only
      have hes : (s.set root es).view.trees root = es := FileStore.set_trees_self
      nth_rewrite 2 [← hes]
      refine sim_deleteRows.mono ?_
      rintro _ _ es' ⟨rfl, rfl⟩
      exact ⟨by rw [FileStore.set_set], rfl⟩

theorem sim_checkNewKey (name : String) (key newKey : Int64) (assigned : Bool) :
    Sim (checkNewKey treeCalls name root key newKey assigned) s
      (checkNewKey maps name (s.view.trees root) key newKey assigned) (Same s) := by
  unfold checkNewKey
  split
  · refine Sim.bind (Sim.search newKey) ?_
    rintro found _ _ ⟨rfl, rfl⟩
    exact Sim.errIf _ _
  · exact Sim.ret ⟨rfl, rfl⟩

theorem sim_computeUpdates (name : String) (pkIndex : Nat) (assignments : List (String × Value)) :
    ∀ {rows : List (Int64 × Row)} {s : FileStore},
      Sim (computeUpdates ext treeCalls name ts root pkIndex assignments rows) s
        (computeUpdates ext maps name ts (s.view.trees root) pkIndex assignments rows) (Same s)
  | [], s => Sim.ret ⟨rfl, rfl⟩
  | (key, row) :: rest, s => by
      rw [computeUpdates, computeUpdates]
      refine Sim.bind (Sim.ofResult _) ?_
      rintro ⟨newKey, assigned, updated⟩ _ _ ⟨rfl, rfl⟩
      refine Sim.bind (sim_checkNewKey name key newKey assigned) ?_
      rintro _ _ _ ⟨rfl, -⟩
      refine Sim.bind (sim_computeUpdates name pkIndex assignments) ?_
      rintro us _ _ ⟨rfl, rfl⟩
      exact Sim.ret ⟨rfl, rfl⟩

theorem sim_checkUpdateUnique (assignments : List (String × Value)) (us : List RowUpdate) :
    Sim (checkUpdateUnique ext treeCalls ts root assignments us) s
      (checkUpdateUnique ext maps ts (s.view.trees root) assignments us) (Same s) := by
  unfold checkUpdateUnique
  dsimp only
  split
  · exact Sim.ret ⟨rfl, rfl⟩
  · refine Sim.bind Sim.scan ?_
    rintro rows _ _ ⟨rfl, rfl⟩
    exact sim_checkUnique _ _

end Functions

/-! ## The tables in memory, seen through the file -/

/-- The maps of the handles. -/
def TreeFile.view (f : TreeFile) (db : Tables Nat) : Tables RowMap :=
  ⟨db.schema, db.btrees.map fun _ root => f.trees root⟩

/-- The handles are roots in use, each of one table. -/
structure TreeFile.Owns (f : TreeFile) (db : Tables Nat) : Prop where
  used : ∀ (name : String) (root : Nat), db.btrees[name]? = some root → root < f.free
  apart : ∀ (name name' : String) (root : Nat), db.btrees[name]? = some root →
    db.btrees[name']? = some root → name = name'

section Views

variable {f : TreeFile} {db : Tables Nat} {table : String}

@[simp] theorem TreeFile.view_schema : (f.view db).schema = db.schema := rfl

@[simp] theorem TreeFile.view_btrees (name : String) :
    (f.view db).btrees[name]? = (db.btrees[name]?).map f.trees := by
  simp [TreeFile.view]

theorem insert_getElem?_self {V : Type} {t : Std.ExtTreeMap String V} {v : V}
    (h : t[table]? = some v) : t.insert table v = t := by
  refine Std.ExtTreeMap.ext_getElem? fun name => ?_
  rw [Std.ExtTreeMap.getElem?_insert]
  split
  · rename_i heq
    rw [← Std.compare_eq_iff_eq.mp heq, h]
  · rfl

/-- A map put under the root of a table. -/
theorem TreeFile.Owns.view_set (h : f.Owns db) (hroot : db.btrees[table]? = some root)
    (schema : Std.ExtTreeMap String TableSchema) :
    (f.set root es).view ⟨schema, db.btrees.insert table root⟩ =
      ⟨schema, (f.view db).btrees.insert table es⟩ := by
  rw [insert_getElem?_self hroot]
  refine congrArg (Tables.mk schema) (Std.ExtTreeMap.ext_getElem? fun name => ?_)
  rw [Std.ExtTreeMap.getElem?_insert, TreeFile.view_btrees]
  refine (TreeFile.view_btrees name).trans ?_
  split
  · rename_i heq
    rw [← Std.compare_eq_iff_eq.mp heq, hroot]
    exact congrArg some (Function.update_self _ _ _)
  · rename_i hne
    cases hname : db.btrees[name]? with
    | none => rfl
    | some root' =>
        have hroot' : root' ≠ root := by
          rintro rfl
          exact hne (Std.compare_eq_iff_eq.mpr (h.apart table name root' hroot hname))
        exact congrArg some (Function.update_of_ne hroot' _ _)

theorem TreeFile.Owns.set (h : f.Owns db) : (f.set root es).Owns db := ⟨h.used, h.apart⟩

/-- A new root for a table. -/
theorem TreeFile.Owns.create (h : f.Owns db) (schema : Std.ExtTreeMap String TableSchema) :
    { f.set f.free es with free := f.free + 1 }.Owns ⟨schema, db.btrees.insert table f.free⟩ where
  used name root hroot := by
    dsimp only at hroot
    rw [Std.ExtTreeMap.getElem?_insert] at hroot
    split at hroot
    · obtain rfl := Option.some.inj hroot
      exact Nat.lt_succ_self _
    · exact (h.used name root hroot).trans (Nat.lt_succ_self _)
  apart name name' root hroot hroot' := by
    dsimp only at hroot hroot'
    rw [Std.ExtTreeMap.getElem?_insert] at hroot hroot'
    split at hroot
    · rename_i heq
      obtain rfl := Option.some.inj hroot
      split at hroot'
      · rename_i heq'
        exact (Std.compare_eq_iff_eq.mp heq).symm.trans (Std.compare_eq_iff_eq.mp heq')
      · exact absurd (h.used name' _ hroot') (Nat.lt_irrefl _)
    · split at hroot'
      · obtain rfl := Option.some.inj hroot'
        exact absurd (h.used name _ hroot) (Nat.lt_irrefl _)
      · exact h.apart name name' root hroot hroot'

theorem TreeFile.Owns.view_create (h : f.Owns db) (schema : Std.ExtTreeMap String TableSchema) :
    TreeFile.view { f.set f.free es with free := f.free + 1 }
        ⟨schema, db.btrees.insert table f.free⟩ =
      ⟨schema, (f.view db).btrees.insert table es⟩ := by
  refine congrArg (Tables.mk schema) (Std.ExtTreeMap.ext_getElem? fun name => ?_)
  rw [Std.ExtTreeMap.getElem?_insert, TreeFile.view_btrees]
  refine (TreeFile.view_btrees name).trans ?_
  dsimp only
  rw [Std.ExtTreeMap.getElem?_insert]
  split
  · exact congrArg some (Function.update_self _ _ _)
  · cases hname : db.btrees[name]? with
    | none => rfl
    | some root' =>
        have hne : root' ≠ f.free := (h.used name root' hname).ne
        exact congrArg some (Function.update_of_ne hne _ _)

/-- Handles taken away. -/
theorem TreeFile.Owns.erase (h : f.Owns db) (schema : Std.ExtTreeMap String TableSchema) :
    f.Owns ⟨schema, db.btrees.erase table⟩ where
  used name root hroot := by
    dsimp only at hroot
    rw [Std.ExtTreeMap.getElem?_erase] at hroot
    split at hroot
    · cases hroot
    · exact h.used name root hroot
  apart name name' root hroot hroot' := by
    dsimp only at hroot hroot'
    rw [Std.ExtTreeMap.getElem?_erase] at hroot hroot'
    split at hroot
    · cases hroot
    · split at hroot'
      · cases hroot'
      · exact h.apart name name' root hroot hroot'

theorem TreeFile.view_erase (name : String) (schema : Std.ExtTreeMap String TableSchema) :
    f.view ⟨schema, db.btrees.erase name⟩ = ⟨schema, (f.view db).btrees.erase name⟩ := by
  refine congrArg (Tables.mk schema) (Std.ExtTreeMap.ext_getElem? fun name' => ?_)
  rw [Std.ExtTreeMap.getElem?_erase, TreeFile.view_btrees]
  refine (TreeFile.view_btrees name').trans ?_
  dsimp only
  rw [Std.ExtTreeMap.getElem?_erase]
  split
  · rfl
  · rfl

/-- The handle of a table under a new name. -/
theorem TreeFile.view_rename (newName : String) (schema : Std.ExtTreeMap String TableSchema) :
    f.view ⟨schema, (db.btrees.erase table).insert newName root⟩ =
      ⟨schema, ((f.view db).btrees.erase table).insert newName (f.trees root)⟩ := by
  refine congrArg (Tables.mk schema) (Std.ExtTreeMap.ext_getElem? fun name => ?_)
  rw [Std.ExtTreeMap.getElem?_insert, Std.ExtTreeMap.getElem?_erase, TreeFile.view_btrees]
  refine (TreeFile.view_btrees name).trans ?_
  dsimp only
  rw [Std.ExtTreeMap.getElem?_insert, Std.ExtTreeMap.getElem?_erase]
  split
  · rfl
  · split
    · rfl
    · rfl

theorem TreeFile.Owns.rename (h : f.Owns db) (hroot : db.btrees[table]? = some root)
    (newName : String) (schema : Std.ExtTreeMap String TableSchema) :
    f.Owns ⟨schema, (db.btrees.erase table).insert newName root⟩ := by
  -- a handle under a name is the table's own, or another table's
  have hname : ∀ (name : String) (root' : Nat),
      ((db.btrees.erase table).insert newName root)[name]? = some root' →
      (name = newName ∧ root' = root) ∨ (name ≠ table ∧ db.btrees[name]? = some root') := by
    intro name root' h'
    rw [Std.ExtTreeMap.getElem?_insert, Std.ExtTreeMap.getElem?_erase] at h'
    split at h'
    · rename_i heq
      exact Or.inl ⟨(Std.compare_eq_iff_eq.mp heq).symm, (Option.some.inj h').symm⟩
    · split at h'
      · cases h'
      · rename_i hne
        exact Or.inr ⟨fun heq => hne (Std.compare_eq_iff_eq.mpr heq.symm), h'⟩
  constructor
  · intro name root' h'
    rcases hname name root' h' with ⟨-, rfl⟩ | ⟨-, h'⟩
    · exact h.used table _ hroot
    · exact h.used name root' h'
  · intro name name' root' h₁ h₂
    rcases hname name root' h₁ with ⟨rfl, rfl⟩ | ⟨hne, hold⟩
    · rcases hname name' _ h₂ with ⟨rfl, -⟩ | ⟨hne', hold'⟩
      · rfl
      · exact absurd (h.apart name' table _ hold' hroot) hne'
    · rcases hname name' root' h₂ with ⟨rfl, rfl⟩ | ⟨-, hold'⟩
      · exact absurd (h.apart name table _ hold hroot) hne
      · exact h.apart name name' root' hold hold'

end Views

/-! ## Statements -/

/-- What a statement leaves: the tables it would leave on the maps, no other root touched. -/
structure Viewed (db : Tables Nat) (s s' : FileStore) (r : Tables Nat × List StagedChange)
    (v : Tables RowMap × List StagedChange) : Prop where
  view : v.1 = s'.view.view r.1
  changes : v.2 = r.2
  owns : s'.view.Owns r.1
  free : s.view.free ≤ s'.view.free
  saved : s'.view.saved = s.view.saved
  frame : ∀ root : Nat, root < s.view.free → (∀ name : String, db.btrees[name]? ≠ some root) →
    s'.view.trees root = s.view.trees root

section Statements

variable {db : Tables Nat} {table : String} {changes : List StagedChange}

theorem sim_getTree : Sim (getTree db table) s (getTree (s.view.view db) table)
    fun s' root es => s' = s ∧ db.btrees[table]? = some root ∧ es = s.view.trees root := by
  unfold getTree
  rw [TreeFile.view_btrees]
  cases h : db.btrees[table]? with
  | none => exact Sim.error
  | some root => exact Sim.ret ⟨rfl, rfl, rfl⟩

/-- No tree changed. -/
theorem viewed_same {schema : Std.ExtTreeMap String TableSchema} (h : s.view.Owns db) :
    Viewed db s s (⟨schema, db.btrees⟩, changes) (⟨schema, (s.view.view db).btrees⟩, changes) where
  view := rfl
  changes := rfl
  owns := ⟨h.used, h.apart⟩
  free := le_rfl
  saved := rfl
  frame _ _ _ := rfl

/-- A handle has got another name. -/
theorem viewed_renamed (h : s.view.Owns db) (hroot : db.btrees[table]? = some root)
    {newName : String} (schema : Std.ExtTreeMap String TableSchema) :
    Viewed db s s (⟨schema, (db.btrees.erase table).insert newName root⟩, changes)
      (⟨schema, ((s.view.view db).btrees.erase table).insert newName (s.view.trees root)⟩,
        changes) where
  view := (TreeFile.view_rename newName schema).symm
  changes := rfl
  owns := h.rename hroot newName schema
  free := le_rfl
  saved := rfl
  frame _ _ _ := rfl

/-- The tree of one table changed. -/
theorem viewed_set (h : s.view.Owns db) (hroot : db.btrees[table]? = some root)
    (schema : Std.ExtTreeMap String TableSchema) :
    Viewed db s (s.set root es) (⟨schema, db.btrees.insert table root⟩, changes)
      (⟨schema, (s.view.view db).btrees.insert table es⟩, changes) where
  view := (h.view_set hroot schema).symm
  changes := rfl
  owns := by
    rw [insert_getElem?_self hroot]
    exact ⟨h.used, h.apart⟩
  free := le_rfl
  saved := rfl
  frame root' _ hno := by
    have hne : root' ≠ root := by
      rintro rfl
      exact hno table hroot
    exact Function.update_of_ne hne _ _

theorem sim_executeCreateTable (h : s.view.Owns db) (name : String) (columns : List Column) :
    Sim (executeCreateTable treeCalls name columns db) s
      (executeCreateTable maps name columns (s.view.view db))
      fun s' r v => Viewed db s s' (r, []) (v, []) := by
  unfold executeCreateTable
  refine Sim.bind Sim.create ?_
  rintro _ _ _ ⟨rfl, rfl, rfl⟩
  refine Sim.bind Sim.createTable ?_
  rintro schema _ _ ⟨rfl, rfl⟩
  exact Sim.ret {
    view := (h.view_create schema).symm
    changes := rfl
    owns := h.create schema
    free := Nat.le_succ _
    saved := rfl
    frame := fun root hlt _ => Function.update_of_ne hlt.ne _ _ }

theorem sim_executeDropTable (h : s.view.Owns db) (name : String) :
    Sim (executeDropTable name db) s (executeDropTable name (s.view.view db))
      fun s' r v => Viewed db s s' (r, []) (v, []) := by
  unfold executeDropTable
  refine Sim.bind Sim.getTable ?_
  rintro ts _ _ ⟨⟨rfl, rfl⟩, -⟩
  exact Sim.ret {
    view := (TreeFile.view_erase name _).symm
    changes := rfl
    owns := h.erase _
    free := le_rfl
    saved := rfl
    frame := fun _ _ _ => rfl }

/-- The rows rewritten under the same handle. -/
theorem sim_rewrite (h : s.view.Owns db) (table : String) (f : Row → Row)
    (schema : Std.ExtTreeMap String TableSchema) :
    Sim (do
        let tree ← getTree db table
        let rows ← treeCalls.scan tree
        let tree ← rewriteRows treeCalls f tree rows
        return (⟨schema, db.btrees.insert table tree⟩ : Tables Nat)) s
      (do
        let tree ← getTree (s.view.view db) table
        let rows ← maps.scan tree
        let tree ← rewriteRows maps f tree rows
        return (⟨schema, (s.view.view db).btrees.insert table tree⟩ : Tables RowMap))
      fun s' r v => Viewed db s s' (r, []) (v, []) := by
  refine Sim.bind sim_getTree ?_
  rintro root _ _ ⟨rfl, hroot, rfl⟩
  refine Sim.bind Sim.scan ?_
  rintro rows _ _ ⟨rfl, rfl⟩
  refine Sim.bind (sim_rewriteRows f) ?_
  rintro _ es _ ⟨rfl, rfl⟩
  exact Sim.ret (viewed_set h hroot schema)

theorem sim_executeAlterTable (h : s.view.Owns db) (action : AlterAction) :
    Sim (executeAlterTable treeCalls table action db) s
      (executeAlterTable maps table action (s.view.view db))
      fun s' r v => Viewed db s s' (r, []) (v, []) := by
  cases action with
  | renameTable newName =>
      unfold executeAlterTable
      dsimp only
      refine Sim.bind (Sim.errIf _ _) ?_
      rintro _ _ _ ⟨rfl, -⟩
      refine Sim.bind Sim.getTable ?_
      rintro ts _ _ ⟨⟨rfl, rfl⟩, -⟩
      refine Sim.bind Sim.createTable ?_
      rintro schema _ _ ⟨rfl, rfl⟩
      rw [TreeFile.view_btrees]
      cases hroot : db.btrees[table]? with
      | none => exact Sim.ret (viewed_same h)
      | some root => exact Sim.ret (viewed_renamed h hroot schema)
  | renameColumn oldName newName =>
      unfold executeAlterTable
      dsimp only
      refine Sim.bind Sim.getTable ?_
      rintro ts _ _ ⟨⟨rfl, rfl⟩, -⟩
      refine Sim.bind (Sim.errIf _ _) ?_
      rintro _ _ _ ⟨rfl, -⟩
      cases ts.position oldName with
      | none => exact Sim.error
      | some i => exact Sim.ret (viewed_same h)
  | addColumn column =>
      unfold executeAlterTable
      dsimp only
      refine Sim.bind Sim.getTable ?_
      rintro ts _ _ ⟨⟨rfl, rfl⟩, -⟩
      refine Sim.bind (Sim.errIf _ _) ?_
      rintro _ _ _ ⟨rfl, -⟩
      exact sim_rewrite h table _ _
  | dropColumn name =>
      unfold executeAlterTable
      dsimp only
      refine Sim.bind Sim.getTable ?_
      rintro ts _ _ ⟨⟨rfl, rfl⟩, -⟩
      cases ts.position name with
      | none => exact Sim.error
      | some i =>
          refine Sim.bind (Sim.errIf _ _) ?_
          rintro _ _ _ ⟨rfl, -⟩
          exact sim_rewrite h table _ _

theorem sim_executeInsert (h : s.view.Owns db) (columns : Option (List String))
    (values : List Value) :
    Sim (executeInsert ext treeCalls table columns values db) s
      (executeInsert ext maps table columns values (s.view.view db)) (Viewed db s) := by
  unfold executeInsert
  refine Sim.bind Sim.getTable ?_
  rintro ts _ _ ⟨⟨rfl, rfl⟩, -⟩
  refine Sim.bind (Sim.errIf _ _) ?_
  rintro _ _ _ ⟨rfl, -⟩
  cases ts.columns.find? Column.primaryKey with
  | none => exact Sim.error
  | some pk =>
  dsimp only
  cases ((columns.getD (ts.columns.map Column.name)).zip values).find? fun e => e.1 == pk.name with
  | none => exact Sim.error
  | some e =>
  refine Sim.bind (Sim.ofResult _) ?_
  rintro key _ _ ⟨rfl, rfl⟩
  refine Sim.bind (Sim.ofResult _) ?_
  rintro _ _ _ ⟨rfl, -⟩
  refine Sim.bind sim_getTree ?_
  rintro root _ _ ⟨rfl, hroot, rfl⟩
  refine Sim.bind (Sim.search key) ?_
  rintro found _ _ ⟨rfl, rfl⟩
  refine Sim.bind (Sim.errIf _ _) ?_
  rintro _ _ _ ⟨rfl, -⟩
  refine Sim.bind (sim_checkInsertUnique _) ?_
  rintro _ _ _ ⟨rfl, -⟩
  refine Sim.bind (Sim.insert key _) ?_
  rintro _ es _ ⟨rfl, rfl⟩
  exact Sim.ret (viewed_set h hroot _)

theorem sim_executeUpdate (h : s.view.Owns db) (assignments : List (String × Value))
    (clause : Option WhereClause) :
    Sim (executeUpdate ext treeCalls table assignments clause db) s
      (executeUpdate ext maps table assignments clause (s.view.view db)) (Viewed db s) := by
  unfold executeUpdate
  refine Sim.bind Sim.getTable ?_
  rintro ts _ _ ⟨⟨rfl, rfl⟩, -⟩
  refine Sim.bind sim_getTree ?_
  rintro root _ _ ⟨rfl, hroot, rfl⟩
  refine Sim.bind (sim_candidateRows clause) ?_
  rintro candidates _ _ ⟨rfl, rfl⟩
  refine Sim.bind (Sim.ofResult _) ?_
  rintro rows _ _ ⟨rfl, rfl⟩
  cases ts.pkIndex with
  | none => exact Sim.error
  | some pkIndex =>
      refine Sim.bind (sim_computeUpdates table pkIndex assignments) ?_
      rintro us _ _ ⟨rfl, rfl⟩
      refine Sim.bind (sim_checkUpdateUnique assignments us) ?_
      rintro _ _ _ ⟨rfl, -⟩
      refine Sim.bind sim_applyUpdates ?_
      rintro _ es _ ⟨rfl, rfl⟩
      exact Sim.ret (viewed_set h hroot _)

theorem sim_executeDelete (h : s.view.Owns db) (clause : Option WhereClause) :
    Sim (executeDelete ext treeCalls table clause db) s
      (executeDelete ext maps table clause (s.view.view db)) (Viewed db s) := by
  unfold executeDelete
  refine Sim.bind Sim.getTable ?_
  rintro ts _ _ ⟨⟨rfl, rfl⟩, -⟩
  refine Sim.bind sim_getTree ?_
  rintro root _ _ ⟨rfl, hroot, rfl⟩
  refine Sim.bind (sim_candidateRows clause) ?_
  rintro candidates _ _ ⟨rfl, rfl⟩
  refine Sim.bind (Sim.ofResult _) ?_
  rintro rows _ _ ⟨rfl, rfl⟩
  refine Sim.bind sim_deleteRows ?_
  rintro _ es _ ⟨rfl, rfl⟩
  exact Sim.ret (viewed_set h hroot _)

/-- A statement on the file does to the tables in memory what it does on the maps. -/
theorem sim_executeStatement (h : s.view.Owns db) (stmt : Statement) :
    Sim (executeStatement ext treeCalls db stmt) s
      (executeStatement ext maps (s.view.view db) stmt) (Viewed db s) := by
  cases stmt with
  | createTable name columns =>
      refine Sim.bind (sim_executeCreateTable h name columns) ?_
      intro r v s' hv
      exact Sim.ret hv
  | dropTable name =>
      refine Sim.bind (sim_executeDropTable h name) ?_
      intro r v s' hv
      exact Sim.ret hv
  | alterTable table action =>
      refine Sim.bind (sim_executeAlterTable h action) ?_
      intro r v s' hv
      exact Sim.ret hv
  | insert table columns values => exact sim_executeInsert h columns values
  | update table assignments clause => exact sim_executeUpdate h assignments clause
  | delete table clause => exact sim_executeDelete h clause

end Statements

end VelociDB
