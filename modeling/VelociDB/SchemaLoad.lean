/-
# Loading the schema that was saved

`save_schema` writes the chain over the pages from page 1 on, allocating what is missing,
and `load_schema` reads it back through pages that hold anything behind the chain:

    save    count | tables …  cut into chunks, the last one short unless it is full
    load    chunks up to the first short one, and behind a full last chunk the pages
            that happen to follow, which the tables' count leaves unread

The lengths are 32-bit words.  A table name of 2^32 bytes is written behind the length 0,
and the reader takes the name's bytes for the columns (`not_load_of_save`).
-/
import VelociDB.SchemaRuns

namespace VelociDB

open Bytes SchemaCodec PageStore

/-! ## What saving leaves on the pages -/

namespace Snapshot

/-- Every page of the file can be read. -/
def Whole (v : Snapshot) : Prop := ∀ q < v.numPages, ∃ page, v.page q = .ok page

variable {v : Snapshot} {p q : Nat} {page : Page}

theorem write_page_other (hp : p ≤ v.numPages) (hne : q ≠ p) :
    (v.write p page).page q = v.page q := by
  have hnone : ((∅ : PageMap).insert p page)[q]? = none := by
    rw [Std.ExtTreeMap.getElem?_insert, if_neg (by simpa using Ne.symm hne)]
    simp
  have hsize := write_numPages v p page
  rw [write] at hsize
  rw [write, plus_page_none hnone, hsize, if_neg (by omega)]

theorem Whole.write (h : v.Whole) (hp : p ≤ v.numPages) : (v.write p page).Whole := by
  intro q hq
  by_cases hqp : q = p
  · subst hqp
    exact ⟨page, write_page_self v q page⟩
  · rw [write_page_other hp hqp]
    rw [write_numPages] at hq
    exact h q (by omega)

end Snapshot

theorem run_allocatePages_view : ∀ (n : Nat) (s : PageStore), s.view.Whole → ∃ s',
    (allocatePages n).run performPage s = (.ok (), s') ∧ s'.view.Whole ∧
      s'.view.numPages = s.view.numPages + n
  | 0, s, h => ⟨s, rfl, h, rfl⟩
  | n + 1, s, h => by
      obtain ⟨s', hrun, hwhole, hsize⟩ := run_allocatePages_view n
        (performPage .allocate s).2 (h.write le_rfl)
      refine ⟨s', hrun, hwhole, ?_⟩
      have hone : (performPage .allocate s).2.view.numPages = s.view.numPages + 1 := by
        show (s.view.write _ _).numPages = _
        rw [Snapshot.write_numPages]
        omega
      rw [hsize, hone]
      omega

theorem run_writePages_view : ∀ (pages : List Page) (q : Nat) (s : PageStore), s.view.Whole →
    q + pages.length ≤ s.view.numPages → ∃ s',
    (writePages q pages).run performPage s = (.ok (), s') ∧ s'.view.Whole ∧
      s'.view.numPages = s.view.numPages ∧ (∀ p < q, s'.view.page p = s.view.page p) ∧
      ∀ i page, pages[i]? = some page → s'.view.page (q + i) = .ok page
  | [], q, s, h, _ => ⟨s, rfl, h, rfl, fun _ _ => rfl, by simp⟩
  | page :: pages, q, s, h, hq => by
      rw [List.length_cons] at hq
      have hsize : (performPage (.write q page) s).2.view.numPages = s.view.numPages := by
        show (s.view.write _ _).numPages = _
        rw [Snapshot.write_numPages]
        omega
      obtain ⟨s', hrun, hwhole, hsize', hbefore, hpages⟩ := run_writePages_view pages (q + 1)
        (performPage (.write q page) s).2 (h.write (by omega)) (by rw [hsize]; omega)
      refine ⟨s', hrun, hwhole, hsize'.trans hsize, fun p hp => ?_, fun i page' hi => ?_⟩
      · rw [hbefore p (by omega)]
        exact Snapshot.write_page_other (by omega) (by omega)
      · cases i with
        | zero =>
            obtain rfl := Option.some.inj hi
            rw [Nat.add_zero, hbefore q (by omega)]
            exact Snapshot.write_page_self _ _ _
        | succ i =>
            rw [← Nat.succ_add_eq_add_succ]
            exact hpages i page' hi

/-- The pages `save_schema` writes, in the order of the given iteration. -/
def chainOf (keys : KeyOrder) (db : Tables Nat) : List Page :=
  chainPages (encode (db.entries (keys.order db.schema.keys)))

theorem run_saveSchema_view (keys : KeyOrder) (db : Tables Nat) {s : PageStore}
    (h : s.view.Whole) : ∃ s', (saveSchema keys db).run performPage s = (.ok (), s') ∧
      s'.view.Whole ∧ 1 + (chainOf keys db).length ≤ s'.view.numPages ∧
      ∀ i page, (chainOf keys db)[i]? = some page → s'.view.page (1 + i) = .ok page := by
  obtain ⟨s₁, h₁, hwhole₁, hsize₁⟩ :=
    run_allocatePages_view (1 + (chainOf keys db).length - s.view.numPages) s h
  obtain ⟨s₂, h₂, hwhole₂, hsize₂, -, hpages⟩ :=
    run_writePages_view (chainOf keys db) 1 s₁ hwhole₁ (by omega)
  have hn : (onPage .numPages).run performPage s = (.ok s.view.numPages, s) := rfl
  refine ⟨s₂, (Prog.run_bind_ok hn).trans ((Prog.run_bind_ok h₁).trans h₂), hwhole₂, ?_, hpages⟩
  omega

/-! ## What loading reads -/

theorem run_readChainFrom {s : PageStore} : ∀ (fuel q : Nat) (pages : List Page),
    pages.length ≤ fuel → q + pages.length = max q s.view.numPages →
    (∀ i page, pages[i]? = some page → s.view.page (q + i) = .ok page) →
    (readChainFrom fuel q).run performPage s = (.ok (readChain pages), s)
  | 0, q, pages, hfuel, _, _ => by
      obtain rfl := List.length_eq_zero_iff.mp (Nat.le_zero.mp hfuel)
      rfl
  | fuel + 1, q, pages, hfuel, hsize, hpages => by
      have hn : (onPage .numPages).run performPage s = (.ok s.view.numPages, s) := rfl
      refine (Prog.run_bind_ok hn).trans ?_
      cases pages with
      | nil =>
          rw [List.length_nil] at hsize
          rw [if_pos (by omega)]
          rfl
      | cons page pages =>
          rw [List.length_cons] at hfuel hsize
          have hpage : s.view.page q = .ok page := hpages 0 page rfl
          have hread : (onPage (.read q)).run performPage s = (.ok page, s) := by
            rw [onPage, Prog.run_lift, performPage, perform, hpage]
            rfl
          rw [if_neg (by omega)]
          refine (Prog.run_bind_ok hread).trans ?_
          dsimp only
          rw [readChain]
          split
          · rw [List.append_nil]
            rfl
          · have htail (i : Nat) (page' : Page) (hi : pages[i]? = some page') :
                s.view.page (q + 1 + i) = .ok page' := by
              rw [Nat.succ_add_eq_add_succ]
              exact hpages (i + 1) page' hi
            exact Prog.run_bind_ok
              (run_readChainFrom fuel (q + 1) pages (by omega) (by omega) htail)

/-- All chunks of a file that begins with the chain. -/
theorem run_readSchemaPages_view {s : PageStore} {chain : List Page} (h : s.view.Whole)
    (hsize : 1 + chain.length ≤ s.view.numPages)
    (hchain : ∀ i page, chain[i]? = some page → s.view.page (1 + i) = .ok page) :
    ∃ rest, readSchemaPages.run performPage s = (.ok (readChain (chain ++ rest)), s) := by
  have hread : ∀ i : Nat, ∃ page, i < s.view.numPages → s.view.page i = .ok page := fun i => by
    by_cases hi : i < s.view.numPages
    · obtain ⟨page, hpage⟩ := h i hi
      exact ⟨page, fun _ => hpage⟩
    · exact ⟨Page.new, fun hi' => absurd hi' hi⟩
  choose pageAt hpageAt using hread
  let rest := (List.range' (1 + chain.length) (s.view.numPages - (1 + chain.length))).map pageAt
  have hn : (onPage .numPages).run performPage s = (.ok s.view.numPages, s) := rfl
  have hlen : rest.length = s.view.numPages - (1 + chain.length) := by
    rw [List.length_map, List.length_range']
  refine ⟨rest, (Prog.run_bind_ok hn).trans (run_readChainFrom _ 1 _ ?_ ?_ fun i page hi => ?_)⟩
  · rw [List.length_append, hlen]
    omega
  · rw [List.length_append, hlen]
    omega
  · by_cases hin : i < chain.length
    · rw [List.getElem?_append_left hin] at hi
      exact hchain i page hi
    · rw [List.getElem?_append_right (by omega), List.getElem?_map] at hi
      obtain ⟨p, hp, rfl⟩ := Option.map_eq_some_iff.mp hi
      obtain ⟨hlt, rfl⟩ := List.getElem?_eq_some_iff.mp hp
      rw [List.length_range'] at hlt
      rw [List.getElem_range']
      have hpos : 1 + chain.length + 1 * (i - chain.length) = 1 + i := by omega
      rw [hpos]
      exact hpageAt (1 + i) (by omega)

/-- Tables added one after another. -/
def addEntries : List TableEntry → Tables Nat → Tables Nat
  | [], db => db
  | e :: es, db => addEntries es
      ⟨db.schema.insert e.name ⟨e.name, e.columns⟩, db.btrees.insert e.name e.root⟩

theorem run_loadTables {data trailing : Bytes} {s : PageStore} : ∀ {es : List TableEntry}
    {offset : Nat} {db : Tables Nat}, (∀ e ∈ es, TableFits e) →
    (∀ e ∈ es, e.columns ≠ [] ∧ e.root ≠ 0 ∧ e.root < 2 ^ 64) →
    (es.map (·.name)).Nodup → (∀ e ∈ es, e.name ∉ db.schema) →
    At data offset (es.flatMap encodeTable ++ trailing) →
    (loadTables data es.length offset db).run perform s = (.ok (addEntries es db, .ok ()), s)
  | [], _, _, _, _, _, _, _ => rfl
  | e :: es, offset, db, hfits, hroots, hnd, hnew, hat => by
      rw [List.flatMap_cons, List.append_assoc] at hat
      obtain ⟨offset', hread, hat⟩ := readTable_at (hfits e List.mem_cons_self) hat
      obtain ⟨hcols, hroot, hlt⟩ := hroots e List.mem_cons_self
      have hback : rootRead e = e.root := by
        rw [rootRead, if_neg hcols, Nat.mod_eq_of_lt hlt]
      rw [hback] at hread
      rw [List.map_cons, List.nodup_cons] at hnd
      rw [List.length_cons, loadTables, hread]
      have hcreate : (createTable db.schema ⟨e.name, e.columns⟩ : Except Fault _) =
          .ok (db.schema.insert e.name ⟨e.name, e.columns⟩) := by
        unfold createTable errIf
        rw [if_neg (hnew e List.mem_cons_self)]
        rfl
      simp only [if_neg hroot, hcreate]
      refine run_loadTables (fun x hx => hfits x (List.mem_cons_of_mem e hx))
        (fun x hx => hroots x (List.mem_cons_of_mem e hx)) hnd.2 (fun x hx => ?_) hat
      rw [Std.ExtTreeMap.mem_insert]
      rintro (heq | hmem)
      · have hname : e.name = x.name := by simpa using heq
        exact hnd.1 (List.mem_map.mpr ⟨x, hx, hname.symm⟩)
      · exact hnew x (List.mem_cons_of_mem e hx) hmem

theorem addEntries_other {name : String} : ∀ {es : List TableEntry} (db : Tables Nat),
    (∀ e ∈ es, e.name ≠ name) → (addEntries es db).schema[name]? = db.schema[name]? ∧
      (addEntries es db).btrees[name]? = db.btrees[name]?
  | [], _, _ => ⟨rfl, rfl⟩
  | e :: es, db, h => by
      have hne : ¬ compare e.name name = .eq := by
        simpa using h e List.mem_cons_self
      rw [addEntries]
      obtain ⟨hschema, hbtrees⟩ := addEntries_other
        ⟨db.schema.insert e.name ⟨e.name, e.columns⟩, db.btrees.insert e.name e.root⟩
        fun x hx => h x (List.mem_cons_of_mem e hx)
      rw [hschema, hbtrees, Std.ExtTreeMap.getElem?_insert, Std.ExtTreeMap.getElem?_insert,
        if_neg hne, if_neg hne]
      exact ⟨rfl, rfl⟩

theorem addEntries_mem : ∀ {es : List TableEntry} {db : Tables Nat} {e : TableEntry},
    (es.map (·.name)).Nodup → e ∈ es →
    (addEntries es db).schema[e.name]? = some ⟨e.name, e.columns⟩ ∧
      (addEntries es db).btrees[e.name]? = some e.root
  | x :: es, db, e, hnd, he => by
      rw [List.map_cons, List.nodup_cons] at hnd
      rw [addEntries]
      rcases List.mem_cons.mp he with rfl | he
      · have hother : ∀ y ∈ es, y.name ≠ e.name := fun y hy heq =>
          hnd.1 (List.mem_map.mpr ⟨y, hy, heq⟩)
        obtain ⟨hschema, hbtrees⟩ := addEntries_other
          ⟨db.schema.insert e.name ⟨e.name, e.columns⟩, db.btrees.insert e.name e.root⟩ hother
        rw [hschema, hbtrees]
        exact ⟨Std.ExtTreeMap.getElem?_insert_self, Std.ExtTreeMap.getElem?_insert_self⟩
      · exact addEntries_mem hnd.2 he

/-! ## Loading what was saved -/

/-- The schemas `save_schema` is meant for: every table has a column, no column has the type
NULL, and every handle is a root page. -/
structure Savable (db : Tables Nat) : Prop where
  table : ∀ (name : String) (ts : TableSchema), db.schema[name]? = some ts →
    ts.name = name ∧ ts.columns ≠ [] ∧ ∀ c ∈ ts.columns, c.dataType ≠ .null
  root : ∀ name ∈ db.schema, ∃ root, db.btrees[name]? = some root ∧ root ≠ 0 ∧ root < 2 ^ 64

/-- Every length and count is a 32-bit number. -/
structure LengthsFit (db : Tables Nat) : Prop where
  count : db.schema.size < 2 ^ 32
  table : ∀ (name : String) (ts : TableSchema), db.schema[name]? = some ts →
    TextFits name ∧ ts.columns.length < 2 ^ 32 ∧ ∀ c ∈ ts.columns, TextFits c.name

/-- Loading gives back what was saved, whatever stands on the pages behind the chain. -/
def LoadsBack (keys : KeyOrder) (db : Tables Nat) : Prop :=
  ∀ s : PageStore, s.view.Whole → ∃ saved,
    (saveSchema keys db).run performPage s = (.ok (), saved) ∧
    ∀ s' : PageStore, s'.view.Whole → 1 + (chainOf keys db).length ≤ s'.view.numPages →
      (∀ i < (chainOf keys db).length, s'.view.page (1 + i) = saved.view.page (1 + i)) →
      ∃ loaded, (loadSchema .empty).run perform s' = (.ok (loaded, .ok ()), s') ∧
        loaded.schema = db.schema ∧
        ∀ name ∈ db.schema, loaded.btrees[name]? = db.btrees[name]?

section Entries

variable {db : Tables Nat}

theorem mem_entries {names : List String} {e : TableEntry} (h : e ∈ db.entries names) :
    e.name ∈ names ∧ ∃ ts, db.schema[e.name]? = some ts ∧ e.columns = ts.columns ∧
      e.root = (db.btrees[e.name]?).getD 0 := by
  obtain ⟨name, hname, he⟩ := List.mem_filterMap.mp h
  obtain ⟨ts, hts, rfl⟩ := Option.map_eq_some_iff.mp he
  exact ⟨hname, ts, hts, rfl, rfl⟩

theorem entries_names {names : List String} (h : ∀ name ∈ names, name ∈ db.schema) :
    (db.entries names).map (·.name) = names := by
  induction names with
  | nil => rfl
  | cons name names ih =>
      obtain ⟨ts, hts⟩ := Option.isSome_iff_exists.mp
        (Std.ExtTreeMap.mem_iff_isSome_getElem?.mp (h name List.mem_cons_self))
      have hrest := ih fun x hx => h x (List.mem_cons_of_mem name hx)
      rw [Tables.entries] at hrest
      rw [Tables.entries, List.filterMap_cons, hts]
      simp only [Option.map_some, List.map_cons, hrest]

theorem order_mem {keys : KeyOrder} {name : String} :
    name ∈ keys.order db.schema.keys ↔ name ∈ db.schema := by
  rw [(keys.perm _).mem_iff, Std.ExtTreeMap.mem_keys]

theorem order_nodup (keys : KeyOrder) : (keys.order db.schema.keys).Nodup := by
  rw [(keys.perm _).nodup_iff]
  exact Std.ExtTreeMap.nodup_keys

theorem order_length (keys : KeyOrder) : (keys.order db.schema.keys).length = db.schema.size := by
  rw [(keys.perm _).length_eq, Std.ExtTreeMap.length_keys]

end Entries

/-- `load_schema` on pages that begin with the chain of some buffer. -/
theorem run_loadSchema {s : PageStore} {buffer : Bytes} (h : s.view.Whole)
    (hsize : 1 + (chainPages buffer).length ≤ s.view.numPages)
    (hchain : ∀ i page, (chainPages buffer)[i]? = some page → s.view.page (1 + i) = .ok page)
    (hlong : 4 ≤ buffer.length) : ∃ trailing,
    (loadSchema .empty).run perform s =
      (loadTables (buffer ++ trailing) (leNat (buffer.take 4)) 4 .empty).run perform s := by
  obtain ⟨rest, hread⟩ := run_readSchemaPages_view h hsize hchain
  obtain ⟨trailing, hdata, -⟩ := readChain_chainPages buffer rest
  rw [hdata] at hread
  have hpages : (Prog.attempt (onPages readSchemaPages)).run perform s =
      (.ok (.ok (buffer ++ trailing)), s) := by
    rw [Prog.run_attempt, run_onPages, hread]
  refine ⟨trailing, (Prog.run_bind_ok hpages).trans ?_⟩
  dsimp only
  rw [if_neg (by rw [List.length_append]; omega), List.take_append_of_le_length hlong]

/-- `load_schema` reads back what `save_schema` wrote, if every length fits its word. -/
theorem load_of_save (keys : KeyOrder) {db : Tables Nat} (h : Savable db) (hfit : LengthsFit db) :
    LoadsBack keys db := by
  intro s hs
  obtain ⟨saved, hsave, -, hsize, hpages⟩ := run_saveSchema_view keys db hs
  refine ⟨saved, hsave, fun s' hs' hsize' hsame => ?_⟩
  let names := keys.order db.schema.keys
  have hnames : ∀ name ∈ names, name ∈ db.schema := fun name hname => order_mem.mp hname
  have hcount : (db.entries names).length = db.schema.size := by
    rw [← order_length keys, ← List.length_map (f := (·.name)), entries_names hnames]
  have hnd : ((db.entries names).map (·.name)).Nodup := by
    rw [entries_names hnames]
    exact order_nodup keys
  have hfits : ∀ e ∈ db.entries names, TableFits e := fun e he => by
    obtain ⟨-, ts, hts, hcols, -⟩ := mem_entries he
    obtain ⟨htext, hlen, hcol⟩ := hfit.table e.name ts hts
    exact ⟨htext, by rw [hcols]; exact hlen, fun c hc =>
      ⟨hcol c (hcols ▸ hc), (h.table e.name ts hts).2.2 c (hcols ▸ hc)⟩⟩
  have hroots : ∀ e ∈ db.entries names, e.columns ≠ [] ∧ e.root ≠ 0 ∧ e.root < 2 ^ 64 :=
    fun e he => by
      obtain ⟨hname, ts, hts, hcols, hroot⟩ := mem_entries he
      obtain ⟨root, hr, hne, hlt⟩ := h.root e.name (hnames _ hname)
      rw [hr] at hroot
      exact ⟨by rw [hcols]; exact (h.table e.name ts hts).2.1, hroot ▸ hne, hroot ▸ hlt⟩
  have hlong : 4 ≤ (encode (db.entries names)).length := by
    rw [encode, List.length_append, length_leBytes]
    omega
  obtain ⟨trailing, hload⟩ := run_loadSchema hs' hsize' (fun i page hi => by
    rw [hsame i (List.getElem?_eq_some_iff.mp hi).1]
    exact hpages i page hi) hlong
  have hword : leNat ((encode (db.entries names)).take 4) = (db.entries names).length := by
    have hlt := hfit.count
    rw [encode, List.take_left' (length_leBytes 4 _), leNat_leBytes_of_lt (by omega)]
  have hat : At (encode (db.entries names) ++ trailing) 4
      ((db.entries names).flatMap encodeTable ++ trailing) := by
    rw [encode, List.append_assoc]
    have hskip := (at_zero (leBytes 4 (db.entries names).length ++
      ((db.entries names).flatMap encodeTable ++ trailing))).skip
    rw [length_leBytes, Nat.zero_add] at hskip
    exact hskip
  rw [hword, run_loadTables hfits hroots hnd (fun e _ => Std.ExtTreeMap.not_mem_empty) hat] at hload
  have hentry (name : String) (hname : name ∈ db.schema) : ∃ e ∈ db.entries names,
      e.name = name := by
    have hmem : name ∈ (db.entries names).map (·.name) := by
      rw [entries_names hnames]
      exact order_mem.mpr hname
    exact List.mem_map.mp hmem
  refine ⟨_, hload, ?_, fun name hname => ?_⟩
  · apply Std.ExtTreeMap.ext_getElem?
    intro name
    by_cases hname : name ∈ db.schema
    · obtain ⟨e, he, rfl⟩ := hentry name hname
      obtain ⟨-, ts, hts, hcols, -⟩ := mem_entries he
      rw [(addEntries_mem hnd he).1, hts, hcols, ← (h.table e.name ts hts).1]
    · have hother : ∀ e ∈ db.entries names, e.name ≠ name := by
        rintro e he rfl
        obtain ⟨-, ts, hts, -⟩ := mem_entries he
        exact hname (Std.ExtTreeMap.mem_iff_isSome_getElem?.mpr (by simp [hts]))
      rw [(addEntries_other _ hother).1, Std.ExtTreeMap.getElem?_eq_none hname]
      exact Std.ExtTreeMap.getElem?_empty
  · obtain ⟨e, he, rfl⟩ := hentry name hname
    obtain ⟨root, hr, -⟩ := h.root e.name hname
    obtain ⟨-, -, -, -, hroot⟩ := mem_entries he
    rw [(addEntries_mem hnd he).2, hroot, hr]
    rfl

/-- A table with one column and its root page. -/
def oneTable (name : String) : Tables Nat where
  schema := (∅ : Std.ExtTreeMap String TableSchema).insert name
    ⟨name, [⟨"id", .integer, true, true, false⟩]⟩
  btrees := (∅ : Std.ExtTreeMap String Nat).insert name 2

theorem mem_oneTable {name name' : String} {ts : TableSchema}
    (h : (oneTable name).schema[name']? = some ts) :
    name' = name ∧ ts = ⟨name, [⟨"id", .integer, true, true, false⟩]⟩ := by
  rw [oneTable, Std.ExtTreeMap.getElem?_insert] at h
  split at h
  · rename_i heq
    exact ⟨by simpa using (Std.LawfulEqCmp.eq_of_compare heq).symm, (Option.some.inj h).symm⟩
  · simp at h

theorem savable_oneTable (name : String) : Savable (oneTable name) := by
  refine ⟨fun name' ts h => ?_, fun name' h => ?_⟩
  · obtain ⟨rfl, rfl⟩ := mem_oneTable h
    exact ⟨rfl, by simp, by simp⟩
  · obtain ⟨ts, hts⟩ := Option.isSome_iff_exists.mp (Std.ExtTreeMap.mem_iff_isSome_getElem?.mp h)
    obtain ⟨rfl, -⟩ := mem_oneTable hts
    exact ⟨2, Std.ExtTreeMap.getElem?_insert_self, by decide, by decide⟩

/-- Tables in the order the map has them. -/
def mapOrder : KeyOrder where
  order := id
  perm := List.Perm.refl

theorem load_of_save_one : LoadsBack mapOrder (oneTable "t") := by
  refine load_of_save mapOrder (savable_oneTable "t") ⟨?_, fun name ts h => ?_⟩
  · rw [oneTable, Std.ExtTreeMap.size_insert]
    simp
  · obtain ⟨rfl, rfl⟩ := mem_oneTable h
    refine ⟨?_, by decide, ?_⟩
    · show "t".utf8ByteSize < _
      decide
    · rw [List.forall_mem_singleton]
      show "id".utf8ByteSize < _
      decide

/-! ## A length that outgrows its word -/

theorem leBytes_wrap {n : Nat} (h : n % 2 ^ 32 = 0) : leBytes 4 n = leBytes 4 0 := by
  have hback := leBytes_leNat (leBytes 4 n)
  rw [length_leBytes, leNat_leBytes, show (256 ^ 4 : Nat) = 2 ^ 32 from rfl, h] at hback
  exact hback.symm

theorem readColumns_error {data : Bytes} {table : String} {n offset : Nat} {e : VelociError}
    (hn : n ≠ 0) (h : readColumn data offset table = .error e) :
    readColumns data table n offset = .error e := by
  cases n with
  | zero => exact absurd rfl hn
  | succ n =>
      rw [readColumns, h]
      rfl

/-- The letter 'a' is no type byte. -/
theorem readColumn_letters {data ys : Bytes} {table : String} {offset m : Nat} (hm : m < 2 ^ 32)
    (hys : 9 ≤ ys.length)
    (h : At data offset (leBytes 4 m ++ (List.replicate m 97 ++ (97 :: ys)))) :
    ∃ e, readColumn data offset table = .error e := by
  have hlen := fun msg => (readU32_at (m := msg) h hm).1
  replace h := h.skip
  rw [length_leBytes] at h
  have htotal := h.length
  rw [List.length_append, List.length_replicate, List.length_cons] at htotal
  replace h := h.skip
  rw [List.length_replicate] at h
  have hbyte := At.byte h
  unfold readColumn
  rw [hlen, ok_bind]
  dsimp only
  rw [if_neg (by omega)]
  cases fromUtf8 _ _ with
  | error e => exact ⟨e, rfl⟩
  | ok name =>
      have htype : ∃ e, readType data (offset + 4 + m) table name = .error e := by
        rw [readType, hbyte]
        exact ⟨_, rfl⟩
      obtain ⟨e, he⟩ := htype
      refine ⟨e, ?_⟩
      show (readType data (offset + 4 + m) table name >>= _) = _
      rw [he]
      rfl

/-- A name of a multiple of 2^32 letters 'a' reads as no name and columns of the letters. -/
theorem readTable_long {data rest : Bytes} {offset n : Nat} (hn : n % 2 ^ 32 = 0)
    (hlong : 2 ^ 32 ≤ n) (h : At data offset (leBytes 4 n ++ (List.replicate n 97 ++ rest))) :
    ∃ e, readTable data offset = .error e := by
  rw [leBytes_wrap hn] at h
  have hword : List.replicate 4 (97 : UInt8) = leBytes 4 1633771873 := by decide
  have hcut : List.replicate n (97 : UInt8) = leBytes 4 1633771873 ++ (leBytes 4 1633771873 ++
      (List.replicate 1633771873 97 ++ (97 :: List.replicate (n - 1633771882) 97))) := by
    rw [← hword, ← List.replicate_succ, ← List.replicate_add, ← List.replicate_add,
      ← List.replicate_add]
    congr 1
    omega
  have hzero := fun msg => (readU32_at (m := msg) h (by decide)).1
  replace h := h.skip
  rw [length_leBytes, hcut, List.append_assoc] at h
  have htotal := h.length
  have hcount := fun msg => (readU32_at (m := msg) h (by decide)).1
  replace h := h.skip
  rw [length_leBytes, List.append_assoc, List.append_assoc, List.cons_append] at h
  have hys : 9 ≤ (List.replicate (n - 1633771882) (97 : UInt8) ++ rest).length := by
    rw [List.length_append, List.length_replicate]
    omega
  unfold readTable
  rw [hzero, ok_bind]
  dsimp only
  rw [if_neg (by omega)]
  cases fromUtf8 _ _ with
  | error e => exact ⟨e, rfl⟩
  | ok name =>
      obtain ⟨e, he⟩ := @readColumn_letters _ _ name _ _ (by decide) hys h
      refine ⟨e, ?_⟩
      show (readU32 data (offset + 4 + 0) _ >>= _) = _
      rw [Nat.add_zero, hcount, ok_bind]
      dsimp only
      rw [readColumns_error (by decide) he]
      rfl

theorem utf8_letters (n : Nat) : utf8 (String.ofList (List.replicate n 'a')) =
    List.replicate n 97 := by
  rw [utf8, String.toByteArray_ofList]
  induction n with
  | zero => rfl
  | succ n ih =>
      have hone : ['a'].utf8Encode.data.toList = [97] := by
        rw [List.utf8Encode_singleton]
        rfl
      rw [List.replicate_succ, List.utf8Encode_cons, ByteArray.data_append, Array.toList_append,
        ih, hone, List.replicate_succ, List.singleton_append]

theorem entries_oneTable (keys : KeyOrder) (name : String) :
    (oneTable name).entries (keys.order (oneTable name).schema.keys) =
      [⟨name, [⟨"id", .integer, true, true, false⟩], 2⟩] := by
  have hsize : (oneTable name).schema.size = 1 := by
    rw [oneTable, Std.ExtTreeMap.size_insert]
    simp
  have hmem : name ∈ keys.order (oneTable name).schema.keys := by
    rw [order_mem, oneTable]
    exact Std.ExtTreeMap.mem_insert_self
  obtain ⟨x, hx⟩ := List.length_eq_one_iff.mp ((order_length keys).trans hsize)
  rw [hx, List.mem_singleton] at hmem
  subst hmem
  have hts : (oneTable name).schema[name]? = some ⟨name, [⟨"id", .integer, true, true, false⟩]⟩ :=
    Std.ExtTreeMap.getElem?_insert_self
  have hroot : (oneTable name).btrees[name]? = some 2 := Std.ExtTreeMap.getElem?_insert_self
  rw [hx, Tables.entries, List.filterMap_cons, hts, hroot]
  rfl

theorem encode_singleton (e : TableEntry) (trailing : Bytes) : ∃ rest,
    encode [e] ++ trailing = leBytes 4 1 ++ (encodeText e.name ++ rest) := by
  refine ⟨leBytes 4 e.columns.length ++ (e.columns.flatMap (encodeColumn e.root) ++ trailing), ?_⟩
  simp [encode, encodeTable]

theorem not_loadsBack_letters (keys : KeyOrder) {n : Nat} (hn : n % 2 ^ 32 = 0)
    (hlong : 2 ^ 32 ≤ n) : ¬ LoadsBack keys (oneTable (String.ofList (List.replicate n 'a'))) := by
  generalize hname : String.ofList (List.replicate n 'a') = name
  have hbytes : utf8 name = List.replicate n 97 := by rw [← hname, utf8_letters]
  intro h
  have hempty : (PageStore.mk .empty none none).view.Whole := fun q hq => absurd hq (Nat.not_lt_zero q)
  obtain ⟨saved, hsave, hback⟩ := h ⟨.empty, none, none⟩ hempty
  obtain ⟨saved', hsave', hwhole, hsize, hpages⟩ := run_saveSchema_view keys (oneTable name) hempty
  obtain rfl : saved = saved' := by
    rw [hsave] at hsave'
    exact (Prod.mk.inj hsave').2
  obtain ⟨loaded, hload, -⟩ := hback saved hwhole hsize fun _ _ => rfl
  obtain ⟨trailing, hread⟩ := run_loadSchema hwhole hsize hpages (by
    rw [encode, List.length_append, length_leBytes]
    omega)
  rw [entries_oneTable] at hread
  obtain ⟨rest, hshape⟩ := encode_singleton ⟨name, [⟨"id", .integer, true, true, false⟩], 2⟩ trailing
  have hlen : (utf8 name).length = n := by rw [hbytes, List.length_replicate]
  rw [encodeText, hlen, hbytes, List.append_assoc] at hshape
  have hcount := leNat_leBytes_of_lt (show 1 < 256 ^ 4 by decide)
  have hat := (at_zero (leBytes 4 1 ++ (leBytes 4 n ++ (List.replicate n 97 ++ rest)))).skip
  rw [length_leBytes, Nat.zero_add] at hat
  obtain ⟨e, he⟩ := readTable_long hn hlong hat
  have hword : (encode [⟨name, [⟨"id", .integer, true, true, false⟩], 2⟩]).take 4 = leBytes 4 1 := by
    rw [encode, List.take_left' (length_leBytes 4 _)]
    rfl
  rw [hload, hshape, hword, hcount, loadTables, he] at hread
  cases hread

/-- A table name of 2^32 bytes is not read back. -/
theorem not_load_of_save : ¬ ∀ keys db, Savable db → LoadsBack keys db := by
  intro h
  exact not_loadsBack_letters mapOrder (by decide) le_rfl
    (h mapOrder (oneTable (String.ofList (List.replicate (2 ^ 32) 'a'))) (savable_oneTable _))

end VelociDB
