/-
# Reading the schema from arbitrary pages

`scanSchema` is `load_schema` with every slice and index of the source, one outside the
data being a panic.  The lengths it reads, each behind a check:

    chunk        min(4 + len, page), so it never ends past the page
    table name   offset + len ≤ data
    columns      offset + 4 ≤ data before every count
    column name  offset + len + 10 ≤ data, which covers the type byte
    dimension    offset + 4 ≤ data
    flags, root  offset + 9 ≤ data

So no slice is out of range and each reader is the one of `SchemaCodec` (`scanTable_eq`).
The loop over the chain ends at the last page at the latest: a page is read once.
-/
import VelociDB.PageStore
import VelociDB.Slices

namespace VelociDB

open Bytes SchemaCodec

namespace SchemaScan

/-! ## The readers of the source -/

/-- A length, count or dimension behind its check. -/
def scanU32 (data : Bytes) (offset : Nat) (msg : String) : Except Fault (Nat × Nat) := do
  if data.length < offset + 4 then throw (.error (.corruption msg))
  let n ← readLe 4 data offset
  return (n, offset + 4)

/-- A string of known length. -/
def scanText (data : Bytes) (offset len : Nat) (msg : String) : Except Fault String := do
  let bytes ← slice data offset len
  (fromUtf8 bytes msg).mapError .error

/-- The type of a column. -/
def scanType (data : Bytes) (offset : Nat) (table column : String) :
    Except Fault (DataType × Nat) := do
  match ← readLe 1 data offset with
  | 0 => return (.integer, offset + 1)
  | 1 => return (.real, offset + 1)
  | 2 => return (.text, offset + 1)
  | 3 => return (.blob, offset + 1)
  | 5 => do
      let (dim, offset) ← scanU32 data (offset + 1)
        s!"Schema truncated at vector dimension for column '{column}'"
      return (.vector (UInt32.ofNat dim), offset)
  | b => throw (.error (.corruption
      s!"Unknown data type byte {b} for column '{column}' in table '{table}'"))

/-- One column, and the root page behind it. -/
def scanColumn (data : Bytes) (offset : Nat) (table : String) :
    Except Fault ((Column × Nat) × Nat) := do
  let (len, offset) ← scanU32 data offset
    s!"Schema truncated at column name length in table '{table}'"
  if data.length < offset + len + 10 then
    throw (.error (.corruption s!"Schema truncated at column data for table '{table}'"))
  let name ← scanText data offset len s!"Invalid UTF-8 in column name at offset {offset}"
  let (dataType, offset) ← scanType data (offset + len) table name
  if data.length < offset + 9 then
    throw (.error (.corruption s!"Schema truncated at column flags for table '{table}'"))
  let flags ← readLe 1 data offset
  let root ← readLe 8 data (offset + 1)
  return ((⟨name, dataType, flags.testBit 0, flags.testBit 1, flags.testBit 2⟩, root), offset + 9)

/-- The columns of a table, and its root page. -/
def scanColumns (data : Bytes) (table : String) :
    Nat → Nat → Except Fault ((List Column × Nat) × Nat)
  | 0, offset => .ok (([], 0), offset)
  | n + 1, offset => do
      let ((column, root), offset) ← scanColumn data offset table
      let ((columns, rest), offset) ← scanColumns data table n offset
      return ((column :: columns, if root = 0 then rest else root), offset)

/-- One table. -/
def scanTable (data : Bytes) (offset : Nat) : Except Fault (TableEntry × Nat) := do
  let (len, offset) ← scanU32 data offset "Schema truncated at table name length"
  if data.length < offset + len then
    throw (.error (.corruption s!"Schema truncated at table name (expected {len} bytes)"))
  let name ← scanText data offset len s!"Invalid UTF-8 in table name at offset {offset}"
  let (count, offset) ← scanU32 data (offset + len)
    s!"Schema truncated at column count for table '{name}'"
  let ((columns, root), offset) ← scanColumns data name count offset
  return (⟨name, columns, root⟩, offset)

/-- The chunk of a page and its length word. -/
def scanChunk (page : Page) : Except Fault (Nat × Bytes) := do
  let chunkLen ← readLe 4 page.data 0
  let chunkEnd := min (4 + chunkLen) page.data.length
  let chunk ← slice page.data 4 (chunkEnd - 4)
  return (chunkLen, chunk)

/-- The loop over the chain; `none` when the fuel runs out before the loop ends. -/
def scanChain : Nat → Nat → PageProg (Option Bytes)
  | 0, _ => return none
  | fuel + 1, schemaPage => do
      let numPages : Nat ← onPage .numPages
      if numPages ≤ schemaPage then return some []
      else
        let page : Page ← onPage (.read schemaPage)
        if page.data.length < 4 then return some []
        else
          let (chunkLen, chunk) ← Prog.ofExcept (scanChunk page)
          if chunkLen < usableSize then return some chunk
          else return (← scanChain fuel (schemaPage + 1)).map (chunk ++ ·)

/-- The loop over the tables. -/
def scanTables (data : Bytes) : Nat → Nat → Tables Nat → DbProg (Tables Nat × Except Fault Unit)
  | 0, _, db => return (db, .ok ())
  | n + 1, offset, db =>
      match scanTable data offset with
      | .error e => return (db, .error e)
      | .ok (entry, offset) => do
          match ← Prog.attempt (if entry.root = 0 then repairRoot else pure entry.root) with
          | .error e => return (db, .error e)
          | .ok root =>
              let btrees := db.btrees.insert entry.name root
              match (createTable db.schema ⟨entry.name, entry.columns⟩ : Except Fault _) with
              | .error e => return (⟨db.schema, btrees⟩, .error e)
              | .ok schema => scanTables data n offset ⟨schema, btrees⟩

/-- `load_schema`. -/
def scanSchema (fuel : Nat) (db : Tables Nat) : DbProg (Option (Tables Nat × Except Fault Unit)) := do
  match ← Prog.attempt (onPages (scanChain fuel 1)) with
  | .error e => return some (db, .error e)
  | .ok none => return none
  | .ok (some data) =>
      if data.length < 4 then return some (db, .ok ())
      else
        match readLe 4 data 0 with
        | .error e => return some (db, .error e)
        | .ok numTables => return some (← scanTables data numTables 4 db)

/-! ## They are the readers of the codec -/

variable {data : Bytes} {offset len : Nat}

/-- A checked step before steps that agree. -/
theorem bind_mapError {α β : Type} {x : Except VelociError α} {f : α → Except Fault β}
    {g : α → Except VelociError β} (h : ∀ a, x = .ok a → f a = (g a).mapError .error) :
    (x.mapError .error >>= f) = (x >>= g).mapError .error := by
  cases x with
  | error e => rfl
  | ok a => exact h a rfl

theorem scanU32_eq (data : Bytes) (offset : Nat) (msg : String) :
    scanU32 data offset msg = (readU32 data offset msg).mapError .error := by
  unfold scanU32 readU32
  by_cases h : data.length < offset + 4
  · rw [if_pos h, if_pos h]
    rfl
  · rw [if_neg h, if_neg h, readLe_ok (by omega)]
    rfl

theorem scanText_eq (h : offset + len ≤ data.length) (msg : String) :
    scanText data offset len msg =
      (fromUtf8 ((data.drop offset).take len) msg).mapError .error := by
  rw [scanText, slice_ok h]
  rfl

theorem readByte_eq (h : offset + 1 ≤ data.length) :
    readLe 1 data offset = .ok (byteAt data offset).toNat := by
  have hbyte : data[offset]? = some data[offset] := List.getElem?_eq_getElem h
  have htake : (data.drop offset).take 1 = [data[offset]] := by
    rw [List.drop_eq_getElem_cons h]
    rfl
  rw [readLe_ok h, htake, byteAt, hbyte]
  simp [leNat]

theorem scanType_eq (h : offset + 1 ≤ data.length) (table column : String) :
    scanType data offset table column =
      (readType data offset table column).mapError .error := by
  unfold scanType readType
  rw [readByte_eq h, ok_bind_fault]
  generalize (byteAt data offset).toNat = b
  match b with
  | 0 | 1 | 2 | 3 | 4 => rfl
  | 5 =>
      show (scanU32 data (offset + 1) _ >>= _) = _
      rw [scanU32_eq]
      show _ = Except.mapError Fault.error (readU32 data (offset + 1) _ >>= _)
      generalize readU32 data (offset + 1) _ = r
      cases r <;> rfl
  | n + 6 => rfl

theorem scanColumn_eq (data : Bytes) (offset : Nat) (table : String) :
    scanColumn data offset table = (readColumn data offset table).mapError .error := by
  unfold scanColumn readColumn
  rw [scanU32_eq]
  refine bind_mapError fun r _ => ?_
  obtain ⟨len, o⟩ := r
  dsimp only
  by_cases hlen : data.length < o + len + 10
  · rw [if_pos hlen, if_pos hlen]
    rfl
  rw [if_neg hlen, if_neg hlen]
  show (scanText data o len _ >>= _) = Except.mapError Fault.error (fromUtf8 _ _ >>= _)
  rw [scanText_eq (by omega)]
  refine bind_mapError fun name _ => ?_
  rw [scanType_eq (by omega)]
  refine bind_mapError fun r _ => ?_
  obtain ⟨dataType, o'⟩ := r
  dsimp only
  by_cases hflags : data.length < o' + 9
  · rw [if_pos hflags, if_pos hflags]
    rfl
  rw [if_neg hflags, if_neg hflags]
  show (readLe 1 data o' >>= _) = _
  rw [readByte_eq (by omega), ok_bind_fault, readLe_ok (by omega)]
  rfl

theorem scanColumns_eq (data : Bytes) (table : String) : ∀ n offset,
    scanColumns data table n offset = (readColumns data table n offset).mapError .error
  | 0, _ => rfl
  | n + 1, offset => by
      rw [scanColumns, readColumns, scanColumn_eq]
      refine bind_mapError fun r _ => ?_
      obtain ⟨⟨column, root⟩, o⟩ := r
      dsimp only
      rw [scanColumns_eq data table n o]
      exact bind_mapError fun _ _ => rfl

/-- Every slice of a table is inside the data. -/
theorem scanTable_eq (data : Bytes) (offset : Nat) :
    scanTable data offset = (readTable data offset).mapError .error := by
  unfold scanTable readTable
  rw [scanU32_eq]
  refine bind_mapError fun r _ => ?_
  obtain ⟨len, o⟩ := r
  dsimp only
  by_cases hlen : data.length < o + len
  · rw [if_pos hlen, if_pos hlen]
    rfl
  rw [if_neg hlen, if_neg hlen]
  show (scanText data o len _ >>= _) = Except.mapError Fault.error (fromUtf8 _ _ >>= _)
  rw [scanText_eq (by omega)]
  refine bind_mapError fun name _ => ?_
  rw [scanU32_eq]
  refine bind_mapError fun r _ => ?_
  obtain ⟨count, o'⟩ := r
  dsimp only
  rw [scanColumns_eq]
  exact bind_mapError fun _ _ => rfl

theorem scanTables_eq (data : Bytes) : ∀ (n offset : Nat) (db : Tables Nat),
    scanTables data n offset db = loadTables data n offset db
  | 0, _, _ => rfl
  | n + 1, offset, db => by
      rw [scanTables, loadTables, scanTable_eq]
      cases readTable data offset with
      | error e => rfl
      | ok r =>
          obtain ⟨entry, o⟩ := r
          have hrest : scanTables data n o = loadTables data n o :=
            funext fun db => scanTables_eq data n o db
          dsimp only [Except.mapError]
          rw [hrest]
          all_goals rfl

/-- The chunk of a page ends in it. -/
theorem scanChunk_eq (page : Page) : scanChunk page =
    .ok (leNat (page.data.take 4), (page.data.drop 4).take (leNat (page.data.take 4))) := by
  have hsize := page.size
  have hpage := pageSize_eq
  unfold scanChunk
  rw [readLe_ok (by omega), ok_bind_fault, List.drop_zero]
  dsimp only
  rw [slice_ok (by omega), ok_bind_fault]
  generalize leNat (page.data.take 4) = chunkLen
  have htake : (page.data.drop 4).take (min (4 + chunkLen) page.data.length - 4) =
      (page.data.drop 4).take chunkLen := by
    rw [List.take_eq_take_iff, List.length_drop]
    omega
  rw [htake]
  rfl

/-! ## No panic, whatever the pager answers -/

/-- What a program ends with when no operation panics: a result that satisfies `Q` or a
failure that satisfies `E`. -/
def Calm {Op : Type} {Ans : Op → Type} {α : Type} (E : Fault → Prop) (Q : α → Prop) :
    Prog Op Ans Fault α → Prop
  | .ret a => Q a
  | .fail e => E e
  | .call _ k => ∀ r, Safe r → Calm E Q (k r)

/-- Any failure but a panic. -/
def Reported (e : Fault) : Prop := e ≠ .panic

section Calm

variable {Op : Type} {Ans : Op → Type} {α β : Type} {E E' : Fault → Prop} {P : α → Prop}
  {Q : β → Prop}

theorem calm_bind {x : Prog Op Ans Fault α} {f : α → Prog Op Ans Fault β} (hx : Calm E P x)
    (hf : ∀ a, P a → Calm E Q (f a)) : Calm E Q (x.bind f) := by
  induction x with
  | ret a => exact hf a hx
  | fail e => exact hx
  | call op k ih => exact fun r hr => ih r (hx r hr)

/-- A program that is tried does not fail. -/
theorem calm_attempt {x : Prog Op Ans Fault α} (hx : Calm E P x) :
    Calm E' (fun o => (∀ a, o = .ok a → P a) ∧ ∀ e, o = .error e → E e) x.attempt := by
  induction x with
  | ret a => exact ⟨by rintro _ ⟨⟩; exact hx, by rintro _ ⟨⟩⟩
  | fail e => exact ⟨by rintro _ ⟨⟩, by rintro _ ⟨⟩; exact hx⟩
  | call op k ih => exact fun r hr => ih r (hx r hr)

theorem calm_lift (op : Op) :
    Calm Reported (fun _ => True) (Prog.lift op : Prog Op Ans Fault (Ans op)) := by
  intro r hr
  cases r with
  | ok a => exact trivial
  | error e => exact fun h => hr (congrArg Except.error h)

theorem calm_onPages {x : PageProg α} (hx : Calm E P x) : Calm E P (onPages x) := by
  induction x with
  | ret a => exact hx
  | fail e => exact hx
  | call op k ih => exact fun r hr => ih r (hx r hr)

end Calm

/-- The pager reports its failures. -/
theorem safe_of_faulty {c : PagerCall} {s s' : PageStore} {r : Except Fault c.Ans}
    (h : PageStore.Faulty c s r s') : Safe r := by
  cases h with
  | read | write | allocate | commitGroup | flush => exact safe_error _
  | done =>
      cases c with
      | page op =>
          cases op with
          | numPages | write | allocate => exact safe_ok _
          | read q =>
              show Safe ((s.view.page q).mapError .error)
              cases s.view.page q with
              | ok page => exact safe_ok _
              | error e => exact safe_error _
      | inGroup | releaseSavepoint => exact safe_ok _
      | beginGroup | commitGroup | abortGroup | flush =>
          obtain ⟨view, group, savepoint⟩ := s
          cases group <;> first | exact safe_ok _ | exact safe_error _
      | beginSavepoint | rollbackToSavepoint =>
          obtain ⟨view, group, savepoint⟩ := s
          cases group <;> cases savepoint <;> first | exact safe_ok _ | exact safe_error _

theorem ends_of_calm {α : Type} {E : Fault → Prop} {Q : α → Prop} {p : DbProg α}
    (h : Calm E Q p) (s : PageStore) :
    PageStore.Ends p s fun o _ => (∀ a, o = .ok a → Q a) ∧ ∀ e, o = .error e → E e := by
  induction p generalizing s with
  | ret a => exact ⟨trivial, by rintro _ ⟨⟩; exact h, by rintro _ ⟨⟩⟩
  | fail e => exact ⟨trivial, by rintro _ ⟨⟩, by rintro _ ⟨⟩; exact h⟩
  | call c k ih => exact ⟨trivial, fun r s' hc => ih r (h r (safe_of_faulty hc)) s'⟩

theorem calm_createRoot : Calm Reported (fun _ => True) createRoot :=
  calm_bind (calm_lift _) fun _ _ => calm_bind (calm_lift _) fun _ _ => trivial

theorem calm_repairRoot : Calm Reported (fun _ => True) repairRoot := by
  refine calm_bind (calm_lift _) fun active _ => ?_
  have hpages (E : Fault → Prop) : Calm E (fun o => (∀ a, o = .ok a → True) ∧
      ∀ e, o = .error e → Reported e) (Prog.attempt (onPages createRoot)) :=
    calm_attempt (calm_onPages calm_createRoot)
  cases active with
  | true =>
      refine calm_bind (hpages _) fun o ho => ?_
      cases o with
      | ok root => exact trivial
      | error e => exact ho.2 e rfl
  | false =>
      refine calm_bind (calm_lift _) fun _ _ => calm_bind (hpages _) fun o ho => ?_
      cases o with
      | ok root => exact calm_bind (calm_lift _) fun _ _ => trivial
      | error e =>
          exact calm_bind (calm_attempt (calm_lift _)) fun _ _ => ho.2 e rfl

/-- The loop over the tables ends with Ok or Err. -/
theorem calm_loadTables (data : Bytes) : ∀ (n offset : Nat) (db : Tables Nat),
    Calm (fun _ => False) (fun r => Safe r.2) (loadTables data n offset db)
  | 0, _, _ => safe_ok ()
  | n + 1, offset, db => by
      rw [loadTables]
      split
      · exact safe_error _
      · rename_i entry o _
        have hroot : Calm Reported (fun _ => True)
            (if entry.root = 0 then repairRoot else pure entry.root) := by
          split
          · exact calm_repairRoot
          · exact trivial
        refine calm_bind (calm_attempt hroot) fun r hr => ?_
        cases r with
        | error e => exact fun h => hr.2 e rfl (Except.error.inj h)
        | ok root =>
            dsimp only
            split
            · rename_i e he
              have hsafe : Safe (createTable db.schema ⟨entry.name, entry.columns⟩ :
                  Except Fault _) := by
                unfold createTable errIf
                split
                · exact safe_error _
                · exact safe_ok _
              exact fun h => hsafe (he.trans (congrArg Except.error (Except.error.inj h)))
            · exact calm_loadTables data n o _

/-! ## The loop over the chain ends -/

/-- The loop reads each page at most once, and its only failures are those of the pager. -/
theorem ends_scanChain {s : PageStore} : ∀ (fuel q : Nat), s.view.numPages - q < fuel →
    PageStore.PageEnds (scanChain fuel q) s fun o s' => s' = s ∧
      ((∃ data, o = .ok (some data)) ∨ ∃ e, o = .error (.error e))
  | 0, _, h => absurd h (Nat.not_lt_zero _)
  | fuel + 1, q, h => by
      refine PageStore.pageEnds_bind_op (fun n s₁ hn => ?_) (fun e s₁ hn => ?_)
      · obtain ⟨hn, rfl⟩ := hn.of_numPages
        obtain rfl := Except.ok.inj hn
        split
        · exact ⟨trivial, rfl, .inl ⟨_, rfl⟩⟩
        rename_i hin
        refine PageStore.pageEnds_bind_op (fun (page : Page) s₂ hr => ?_) (fun e s₂ hr => ?_)
        · obtain ⟨rfl, -⟩ := hr.of_read
          split
          · exact ⟨trivial, rfl, .inl ⟨_, rfl⟩⟩
          rw [scanChunk_eq]
          show PageStore.PageEnds (if _ then _ else _) _ _
          split
          · exact ⟨trivial, rfl, .inl ⟨_, rfl⟩⟩
          refine Prog.wp_bind (Prog.wp_mono (ends_scanChain fuel (q + 1) (by omega)) ?_)
          rintro o s₃ - ⟨rfl, hout⟩
          rcases hout with ⟨data, rfl⟩ | ⟨e, rfl⟩
          · exact ⟨trivial, rfl, .inl ⟨_, rfl⟩⟩
          · exact ⟨rfl, .inr ⟨e, rfl⟩⟩
        · obtain ⟨rfl, -⟩ := hr.of_read
          have hsafe := safe_of_faulty hr
          cases e with
          | error e => exact ⟨rfl, .inr ⟨e, rfl⟩⟩
          | panic => exact absurd rfl hsafe
      · obtain ⟨hn, -⟩ := hn.of_numPages
        cases hn

/-- Reading the schema from any pages ends, in Ok or Err and never in a panic. -/
theorem load_schema_safe (db : Tables Nat) (s : PageStore) {fuel : Nat}
    (h : s.view.numPages < fuel) :
    PageStore.Ends (scanSchema fuel db) s fun o _ =>
      ∃ db' r, o = .ok (some (db', r)) ∧ Safe r := by
  have hchain := ends_scanChain (s := s) fuel 1 (by omega)
  refine Prog.wp_bind (Prog.wp_attempt ?_)
  refine Prog.wp_mono (PageStore.ends_of_pageEnds hchain) ?_
  rintro o s₁ - ⟨rfl, ⟨data, rfl⟩ | ⟨e, rfl⟩⟩
  · dsimp only
    split
    · exact ⟨trivial, db, _, rfl, safe_ok ()⟩
    rename_i hlen
    rw [readLe_ok (by omega)]
    dsimp only
    rw [scanTables_eq]
    refine Prog.wp_bind (Prog.wp_mono (ends_of_calm (calm_loadTables data _ 4 db) s₁) ?_)
    rintro o s₂ - ⟨hok, hfail⟩
    cases o with
    | ok r => exact ⟨trivial, r.1, r.2, rfl, hok r rfl⟩
    | error e => exact (hfail e rfl).elim
  · exact ⟨trivial, db, _, rfl, safe_error e⟩

/-- A page of bytes 255. -/
def fullPage : Page := ⟨List.replicate pageSize 255, List.length_replicate⟩

/-- Three pages whose length words point far outside them. -/
theorem load_schema_safe_full :
    PageStore.Ends (scanSchema 4 .empty) ⟨⟨3, fun _ => .ok fullPage⟩, none, none⟩ fun o _ =>
      ∃ db' r, o = .ok (some (db', r)) ∧ Safe r :=
  load_schema_safe .empty _ (show 3 < 4 by decide)

end SchemaScan

end VelociDB
