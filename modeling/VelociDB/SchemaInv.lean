/-
# Well-formed schemas

Every table has one PRIMARY KEY column, distinct column names and a B-tree handle under
its name (`Tables.WellFormed`).

    CREATE TABLE    takes the columns as they are: the condition is on them
    ALTER TABLE     keeps what there is; ADD COLUMN never declares a key
    load_schema     gives back what `save_schema` wrote, if it is still there (`Intact`)

CREATE TABLE checks neither the number of PRIMARY KEY columns nor the names.
-/
import VelociDB.PageStore
import VelociDB.Columns

namespace VelociDB

open Bytes SchemaCodec PageStore

/-! ## Well-formed tables -/

/-- One primary key, distinct names, and types that schema pages can hold. -/
structure TableSchema.WellFormed (ts : TableSchema) : Prop where
  oneKey : ts.columns.countP Column.primaryKey = 1
  distinct : ts.Distinct
  typed : ∀ c ∈ ts.columns, c.dataType ≠ .null

/-- Well-formed tables, each with its handle. -/
structure Tables.WellFormed {τ : Type} (db : Tables τ) : Prop where
  table : ∀ (name : String) (ts : TableSchema), db.schema[name]? = some ts → ts.name = name ∧ ts.WellFormed
  handle : ∀ name : String, name ∈ db.schema → name ∈ db.btrees

/-- The columns of a CREATE TABLE: one PRIMARY KEY, distinct names. -/
def Statement.Declares : Statement → Prop
  | .createTable _ columns =>
      columns.countP Column.primaryKey = 1 ∧ (columns.map Column.name).Nodup
  | _ => True

/-- No column has the type NULL, as the parser has none. -/
def Statement.Typed : Statement → Prop
  | .createTable _ columns => ∀ c ∈ columns, c.dataType ≠ .null
  | .alterTable _ (.addColumn column) => column.dataType ≠ .null
  | _ => True

namespace TableSchema.WellFormed

variable {ts : TableSchema}

theorem append {column : Column} (h : ts.WellFormed) (hpk : column.primaryKey = false)
    (htype : column.dataType ≠ .null) (hno : ∀ c ∈ ts.columns, c.name ≠ column.name) :
    WellFormed { ts with columns := ts.columns ++ [column] } where
  oneKey := by simp [List.countP_append, h.oneKey, hpk]
  distinct := h.distinct.append hno
  typed c hc := by
    rcases List.mem_append.mp hc with hc | hc
    · exact h.typed c hc
    · obtain rfl := List.mem_singleton.mp hc
      exact htype

theorem countP_eraseIdx : ∀ {columns : List Column} {i : Nat},
    ¬ columns[i]?.any Column.primaryKey →
    (columns.eraseIdx i).countP Column.primaryKey = columns.countP Column.primaryKey
  | [], _, _ => by simp
  | c :: cs, 0, h => by
      have hc : c.primaryKey = false := by simpa using h
      simp [hc]
  | c :: cs, i + 1, h => by
      have hrest : ¬ cs[i]?.any Column.primaryKey := by simpa using h
      have ih := countP_eraseIdx hrest
      rw [List.eraseIdx_cons_succ, List.countP_cons, List.countP_cons, ih]

theorem eraseIdx {i : Nat} (h : ts.WellFormed) (hno : ¬ ts.columns[i]?.any Column.primaryKey) :
    WellFormed { ts with columns := ts.columns.eraseIdx i } where
  oneKey := (countP_eraseIdx hno).trans h.oneKey
  distinct := h.distinct.eraseIdx i
  typed c hc := h.typed c ((List.eraseIdx_sublist _ _).subset hc)

theorem countP_modify {newName : String} : ∀ (columns : List Column) (i : Nat),
    (columns.modify i fun c => { c with name := newName }).countP Column.primaryKey =
      columns.countP Column.primaryKey
  | [], _ => by simp
  | c :: cs, 0 => by simp [List.countP_cons]
  | c :: cs, i + 1 => by simp [List.countP_cons, countP_modify cs i]

theorem modify {newName : String} (h : ts.WellFormed) (i : Nat)
    (hno : ∀ c ∈ ts.columns, c.name ≠ newName) : WellFormed
      { ts with columns := ts.columns.modify i fun c => { c with name := newName } } where
  oneKey := (countP_modify ts.columns i).trans h.oneKey
  distinct := h.distinct.modify i hno
  typed c hc := by
    obtain ⟨j, hj⟩ := List.getElem?_of_mem hc
    dsimp only at hj
    rw [List.getElem?_modify] at hj
    obtain ⟨c', hc', rfl⟩ := Option.map_eq_some_iff.mp hj
    have htype := h.typed c' (List.mem_of_getElem? hc')
    split <;> exact htype

end TableSchema.WellFormed

namespace Tables.WellFormed

variable {τ : Type} {db : Tables τ} {name : String} {ts : TableSchema} {tree : τ}

theorem empty : (Tables.empty : Tables τ).WellFormed :=
  ⟨by simp [Tables.empty], by simp [Tables.empty]⟩

theorem table_insert (h : db.WellFormed) (hname : ts.name = name) (hts : ts.WellFormed)
    (n : String) (t : TableSchema) (ht : (db.schema.insert name ts)[n]? = some t) :
    t.name = n ∧ t.WellFormed := by
  rw [Std.ExtTreeMap.getElem?_insert] at ht
  split at ht
  · rename_i heq
    obtain rfl := Std.compare_eq_iff_eq.mp heq
    obtain rfl := Option.some.inj ht
    exact ⟨hname, hts⟩
  · exact h.table n t ht

/-- A table put in place with its handle. -/
theorem set (h : db.WellFormed) (hname : ts.name = name) (hts : ts.WellFormed) :
    (⟨db.schema.insert name ts, db.btrees.insert name tree⟩ : Tables τ).WellFormed where
  table := h.table_insert hname hts
  handle n hn := by
    rw [Std.ExtTreeMap.mem_insert] at hn ⊢
    exact hn.imp id (h.handle n)

theorem setTree (h : db.WellFormed) :
    (⟨db.schema, db.btrees.insert name tree⟩ : Tables τ).WellFormed where
  table := h.table
  handle n hn := Std.ExtTreeMap.mem_insert.mpr (Or.inr (h.handle n hn))

theorem setTable (h : db.WellFormed) {old : TableSchema} (hold : db.schema[name]? = some old)
    (hname : ts.name = name) (hts : ts.WellFormed) :
    (⟨db.schema.insert name ts, db.btrees⟩ : Tables τ).WellFormed where
  table := h.table_insert hname hts
  handle n hn := by
    rw [Std.ExtTreeMap.mem_insert] at hn
    rcases hn with heq | hn
    · obtain rfl := Std.compare_eq_iff_eq.mp heq
      exact h.handle _ (Std.ExtTreeMap.mem_iff_isSome_getElem?.mpr (by simp [hold]))
    · exact h.handle n hn

theorem erase (h : db.WellFormed) :
    (⟨db.schema.erase name, db.btrees.erase name⟩ : Tables τ).WellFormed where
  table n t ht := by
    dsimp only at ht
    rw [Std.ExtTreeMap.getElem?_erase] at ht
    split at ht
    · cases ht
    · exact h.table n t ht
  handle n hn := by
    rw [Std.ExtTreeMap.mem_erase] at hn ⊢
    exact ⟨hn.1, h.handle n hn.2⟩

end Tables.WellFormed

/-! ## Statements -/

section Statements

open Prog

variable {Op : Type} {Ans : Op → Type} {τ : Type} {ext : Externals}
  {trees : TreeOps (fun α => Prog Op Ans Fault α) τ} {db : Tables τ}

theorem always_errIf {c : Prop} [Decidable c] {e : VelociError} :
    (errIf c e : Prog Op Ans Fault Unit).Always fun _ => ¬ c := by
  unfold errIf
  split
  · exact trivial
  · rename_i hc
    exact hc

theorem always_getTable {schema : Std.ExtTreeMap String TableSchema} {name : String} :
    (getTable schema name : Prog Op Ans Fault TableSchema).Always fun ts =>
      schema[name]? = some ts := by
  unfold getTable
  split
  · rename_i ts hts
    exact hts
  · exact trivial

theorem always_createTable {schema : Std.ExtTreeMap String TableSchema} {table : TableSchema} :
    (createTable schema table : Prog Op Ans Fault _).Always fun schema' =>
      schema' = schema.insert table.name table :=
  always_bind always_errIf fun _ _ => rfl

theorem executeCreateTable_wellFormed {name : String} {columns : List Column} (h : db.WellFormed)
    (hdecl : (Statement.createTable name columns).Declares)
    (htype : (Statement.createTable name columns).Typed) :
    (executeCreateTable trees name columns db).Always Tables.WellFormed := by
  refine always_bind (always_true _) fun root _ => always_bind always_createTable ?_
  rintro _ rfl
  exact h.set rfl ⟨hdecl.1, hdecl.2, htype⟩

theorem executeDropTable_wellFormed {name : String} (h : db.WellFormed) :
    (executeDropTable name db : Prog Op Ans Fault _).Always Tables.WellFormed :=
  always_bind (always_true _) fun _ _ => h.erase

theorem executeAlterTable_wellFormed {table : String} {action : AlterAction} (h : db.WellFormed)
    (hparsed : (Statement.alterTable table action).Parsed)
    (htype : (Statement.alterTable table action).Typed) :
    (executeAlterTable trees table action db).Always Tables.WellFormed := by
  cases action with
  | renameTable newName =>
      refine always_bind always_errIf fun _ hno => always_bind always_getTable fun ts hts => ?_
      refine always_bind always_createTable ?_
      rintro _ rfl
      obtain ⟨hname, hwf⟩ := h.table table ts hts
      have hmem : table ∈ db.btrees :=
        h.handle _ (Std.ExtTreeMap.mem_iff_isSome_getElem?.mpr (by simp [hts]))
      have herase : (⟨db.schema.erase table, db.btrees.erase table⟩ : Tables τ).WellFormed := h.erase
      split
      · exact herase.set rfl ⟨hwf.oneKey, hwf.distinct, hwf.typed⟩
      · rename_i hnone
        rw [Std.ExtTreeMap.mem_iff_isSome_getElem?, hnone] at hmem
        cases hmem
  | renameColumn oldName newName =>
      refine always_bind always_getTable fun ts hts => always_bind always_errIf fun _ hno => ?_
      obtain ⟨hname, hwf⟩ := h.table table ts hts
      split
      · exact trivial
      · exact h.setTable hts hname (hwf.modify _ fun c hc heq => hno ⟨c, hc, heq⟩)
  | addColumn column =>
      refine always_bind always_getTable fun ts hts => always_bind always_errIf fun _ hno => ?_
      obtain ⟨hname, hwf⟩ := h.table table ts hts
      refine always_bind (always_true _) fun tree _ => always_bind (always_true _) fun rows _ => ?_
      refine always_bind (always_true _) fun tree' _ => ?_
      exact h.set hname (hwf.append hparsed.1 htype fun c hc heq => hno ⟨c, hc, heq⟩)
  | dropColumn name =>
      refine always_bind always_getTable fun ts hts => ?_
      obtain ⟨hname, hwf⟩ := h.table table ts hts
      split
      · exact trivial
      · refine always_bind always_errIf fun _ hno => always_bind (always_true _) fun tree _ => ?_
        refine always_bind (always_true _) fun rows _ => always_bind (always_true _) fun tree' _ => ?_
        exact h.set hname (hwf.eraseIdx hno)

theorem executeInsert_wellFormed {table : String} {columns : Option (List String)}
    {values : List Value} (h : db.WellFormed) :
    (executeInsert ext trees table columns values db).Always fun r => r.1.WellFormed := by
  refine always_bind (always_true _) fun ts _ => always_bind (always_true _) fun _ _ => ?_
  split
  · exact trivial
  · split
    · exact trivial
    · refine always_bind (always_true _) fun key _ => always_bind (always_true _) fun _ _ => ?_
      refine always_bind (always_true _) fun tree _ => always_bind (always_true _) fun _ _ => ?_
      refine always_bind (always_true _) fun _ _ => always_bind (always_true _) fun _ _ => ?_
      exact always_bind (always_true _) fun tree' _ => h.setTree

theorem executeUpdate_wellFormed {table : String} {assignments : List (String × Value)}
    {clause : Option WhereClause} (h : db.WellFormed) :
    (executeUpdate ext trees table assignments clause db).Always fun r => r.1.WellFormed := by
  refine always_bind (always_true _) fun ts _ => always_bind (always_true _) fun tree _ => ?_
  refine always_bind (always_true _) fun _ _ => always_bind (always_true _) fun _ _ => ?_
  split
  · exact trivial
  · refine always_bind (always_true _) fun _ _ => always_bind (always_true _) fun _ _ => ?_
    exact always_bind (always_true _) fun tree' _ => h.setTree

theorem executeDelete_wellFormed {table : String} {clause : Option WhereClause}
    (h : db.WellFormed) :
    (executeDelete ext trees table clause db).Always fun r => r.1.WellFormed := by
  refine always_bind (always_true _) fun ts _ => always_bind (always_true _) fun tree _ => ?_
  refine always_bind (always_true _) fun _ _ => always_bind (always_true _) fun _ _ => ?_
  exact always_bind (always_true _) fun tree' _ => h.setTree

/-- A statement keeps the tables well formed, whatever the trees do. -/
theorem executeStatement_wellFormed {stmt : Statement} (h : db.WellFormed)
    (hdecl : stmt.Declares) (hparsed : stmt.Parsed) (htype : stmt.Typed) :
    (executeStatement ext trees db stmt).Always fun r => r.1.WellFormed := by
  cases stmt with
  | createTable name columns =>
      exact always_bind (executeCreateTable_wellFormed h hdecl htype) fun _ h' => h'
  | dropTable name => exact always_bind (executeDropTable_wellFormed h) fun _ h' => h'
  | alterTable table action =>
      exact always_bind (executeAlterTable_wellFormed h hparsed htype) fun _ h' => h'
  | insert table columns values => exact executeInsert_wellFormed h
  | update table assignments clause => exact executeUpdate_wellFormed h
  | delete table clause => exact executeDelete_wellFormed h

end Statements

/-! ## Reading the schema back -/

/-- What is behind the schema pages: nothing until the first `save_schema`. -/
def savedBuffer : Option (List TableEntry) → Bytes
  | none => []
  | some es => encode es

/-- The schema pages hold the tables that were saved, and no length outgrew its field. -/
structure Intact (v : Snapshot) (saved : Option (List TableEntry)) : Prop where
  size : 1 + (chainPages (savedBuffer saved)).length ≤ v.numPages
  page : ∀ i page, (chainPages (savedBuffer saved))[i]? = some page → v.page (1 + i) = .ok page
  count : ∀ es, saved = some es → es.length < 2 ^ 32
  fits : ∀ es e, saved = some es → e ∈ es → TextFits e.name ∧ e.columns.length < 2 ^ 32 ∧
    ∀ c ∈ e.columns, TextFits c.name

/-- The tables that were saved are well formed. -/
def SavedWell (saved : Option (List TableEntry)) : Prop :=
  ∀ es e, saved = some es → e ∈ es → TableSchema.WellFormed ⟨e.name, e.columns⟩

/-- The loop reads the pages that are there and then whatever follows. -/
theorem ends_readChainFrom {s : PageStore} : ∀ (fuel : Nat) {q : Nat} {pages : List Page},
    pages.length ≤ fuel → q + pages.length ≤ s.view.numPages →
    (∀ i page, pages[i]? = some page → s.view.page (q + i) = .ok page) →
    PageEnds (readChainFrom fuel q) s fun o s' => s' = s ∧
      ∀ data, o = .ok data → ∃ rest, data = readChain (pages ++ rest)
  | 0, q, pages, hfuel, _, _ => by
      obtain rfl := List.length_eq_zero_iff.mp (Nat.le_zero.mp hfuel)
      refine ⟨trivial, rfl, ?_⟩
      rintro _ ⟨⟩
      exact ⟨[], rfl⟩
  | fuel + 1, q, pages, hfuel, hsize, hpages => by
      refine pageEnds_bind_op (fun n s₁ hn => ?_) (fun e s₁ hn => ?_)
      · obtain ⟨hn, rfl⟩ := hn.of_numPages
        obtain rfl := Except.ok.inj hn
        split
        · rename_i hle
          have hnil : pages = [] := List.length_eq_zero_iff.mp (by omega)
          subst hnil
          refine ⟨trivial, rfl, ?_⟩
          rintro _ ⟨⟩
          exact ⟨[], rfl⟩
        · refine pageEnds_bind_op (fun (page : Page) s₂ hr => ?_) (fun e s₂ hr => ?_)
          · obtain ⟨rfl, hpage⟩ := hr.of_read
            -- the page is the next one of the chain, or the first behind it
            obtain ⟨tail, hhead, htail, hnext⟩ : ∃ tail : List Page,
                (∀ rest, ∃ rest', pages ++ rest' = page :: (tail ++ rest)) ∧
                tail.length ≤ fuel ∧ q + 1 + tail.length ≤ s₂.view.numPages ∧
                ∀ i p, tail[i]? = some p → s₂.view.page (q + 1 + i) = .ok p := by
              cases pages with
              | nil =>
                  refine ⟨[], fun rest => ⟨page :: rest, rfl⟩, by simp, ?_, by simp⟩
                  rw [List.length_nil]
                  omega
              | cons p ps =>
                  have hp : page = p := by
                    have hq := hpages 0 p rfl
                    rw [Nat.add_zero, hpage page rfl] at hq
                    exact Except.ok.inj hq
                  subst hp
                  simp only [List.length_cons] at hfuel hsize
                  refine ⟨ps, fun rest => ⟨rest, rfl⟩, by omega, by omega, fun i p hi => ?_⟩
                  rw [Nat.add_assoc, Nat.add_comm 1 i]
                  exact hpages (i + 1) p hi
            dsimp only
            split
            · rename_i hlast
              refine ⟨trivial, rfl, ?_⟩
              rintro _ ⟨⟩
              obtain ⟨rest', hrest⟩ := hhead []
              exact ⟨rest', by rw [hrest, readChain, if_pos hlast, List.append_nil]⟩
            · rename_i hfull
              refine Prog.wp_bind (Prog.wp_mono (ends_readChainFrom fuel htail hnext.1 hnext.2) ?_)
              rintro o s₃ - ⟨rfl, hdata⟩
              cases o with
              | error e => exact ⟨rfl, by rintro _ ⟨⟩⟩
              | ok data =>
                  obtain ⟨rest, rfl⟩ := hdata data rfl
                  refine ⟨trivial, rfl, ?_⟩
                  rintro _ ⟨⟩
                  obtain ⟨rest', hrest⟩ := hhead rest
                  exact ⟨rest', by rw [hrest, readChain, if_neg hfull]⟩
          · obtain ⟨rfl, -⟩ := hr.of_read
            exact ⟨rfl, by rintro _ ⟨⟩⟩
      · obtain ⟨hn, rfl⟩ := hn.of_numPages
        cases hn

/-- Reading the schema pages gives the buffer back. -/
theorem ends_readSchemaPages {s : PageStore} {saved : Option (List TableEntry)}
    (h : Intact s.view saved) :
    PageEnds readSchemaPages s fun o _ => ∀ data, o = .ok data →
      ∃ trailing, data = savedBuffer saved ++ trailing ∧ (savedBuffer saved = [] → trailing = []) := by
  refine pageEnds_bind_op (fun n s₁ hn => ?_) (fun e s₁ hn => ?_)
  · obtain ⟨hn, rfl⟩ := hn.of_numPages
    obtain rfl := Except.ok.inj hn
    have hsize := h.size
    refine Prog.wp_mono (ends_readChainFrom _ (by omega) hsize h.page) ?_
    rintro o s₂ - ⟨-, hdata⟩ data rfl
    obtain ⟨rest, rfl⟩ := hdata data rfl
    exact readChain_chainPages _ rest
  · obtain ⟨hn, -⟩ := hn.of_numPages
    cases hn

theorem loadTables_wellFormed {data trailing : Bytes} : ∀ {es : List TableEntry} {offset : Nat}
    {db : Tables Nat}, db.WellFormed → (∀ e ∈ es, TableFits e) →
    (∀ e ∈ es, TableSchema.WellFormed ⟨e.name, e.columns⟩) →
    At data offset (es.flatMap encodeTable ++ trailing) →
    (loadTables data es.length offset db).Always fun r => r.1.WellFormed
  | [], _, _, hdb, _, _, _ => hdb
  | e :: es, offset, db, hdb, hfits, hwell, hat => by
      rw [List.flatMap_cons, List.append_assoc] at hat
      obtain ⟨offset', hread, hat⟩ := readTable_at (hfits e List.mem_cons_self) hat
      rw [List.length_cons, loadTables, hread]
      refine Prog.always_bind (Prog.always_true _) fun root _ => ?_
      cases root with
      | error err => exact hdb
      | ok root =>
          dsimp only
          split
          · exact hdb.setTree
          · rename_i schema hschema
            obtain ⟨-, rfl⟩ := createTable_ok.mp hschema
            refine loadTables_wellFormed (hdb.set rfl (hwell e List.mem_cons_self)) ?_ ?_ hat
            · exact fun d hd => hfits d (List.mem_cons_of_mem e hd)
            · exact fun d hd => hwell d (List.mem_cons_of_mem e hd)

/-- A reload of an intact schema gives well-formed tables, also when it fails. -/
theorem ends_reloadSchema {s : PageStore} {saved : Option (List TableEntry)}
    (h : Intact s.view saved) (hsaved : SavedWell saved) :
    Ends reloadSchema s fun o _ => ∀ r, o = .ok r → r.1.WellFormed := by
  refine Prog.wp_bind (Prog.wp_attempt (Prog.wp_mono
    (ends_of_pageEnds (ends_readSchemaPages h)) fun o s' _ hdata => ?_))
  cases o with
  | error e =>
      refine ⟨trivial, ?_⟩
      rintro _ ⟨⟩
      exact .empty
  | ok data =>
      obtain ⟨trailing, hbuf, hnil⟩ := hdata data rfl
      dsimp only
      split
      · refine ⟨trivial, ?_⟩
        rintro _ ⟨⟩
        exact .empty
      · rename_i hlen
        cases saved with
        | none =>
            rw [hbuf, hnil rfl] at hlen
            exact absurd (by decide) hlen
        | some es =>
            have hat : At data 0 (leBytes 4 es.length ++ (es.flatMap encodeTable ++ trailing)) := by
              have hdata0 := at_zero data
              rw [hbuf, savedBuffer, encode, List.append_assoc] at hdata0
              rwa [hbuf, savedBuffer, encode, List.append_assoc]
            have hcount : leNat (data.take 4) = es.length := by
              have htake := hat.take
              rw [length_leBytes, List.drop_zero] at htake
              rw [htake, leNat_leBytes_of_lt (h.count es rfl)]
            have hat4 := hat.skip
            rw [length_leBytes] at hat4
            rw [hcount]
            have hfits : ∀ e ∈ es, TableFits e := by
              intro e he
              obtain ⟨hname, hcols, htexts⟩ := h.fits es e rfl he
              exact ⟨hname, hcols, fun c hc => ⟨htexts c hc, (hsaved es e rfl he).typed c hc⟩⟩
            refine Prog.wp_of_always (loadTables_wellFormed .empty hfits
              (fun e he => hsaved es e rfl he) hat4) ?_ ?_
            · rintro a s₂ ha _ ⟨⟩
              exact ha
            · rintro _ _ _ ⟨⟩

end VelociDB
