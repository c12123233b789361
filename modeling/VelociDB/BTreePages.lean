/-
# Reading B-tree pages that hold anything (`search`, `scan`, `find_leaf`)

The read paths over the bytes of the pages, each slice where the source has it.  A page
is a header, and behind it entries (a leaf) or children and keys (any other page):

    header     type (1 byte), number of keys (2), parent (4), padding (1)
    leaf       key (8), size (4), row (size); the next entry
    internal   child (8); key (8), child (8); the next key and child

Nothing is checked but the length of the header, the type tags of values, UTF-8 and the
size of a vector.  A missing page, a bad tag, bad text or a short vector is reported; any
other length or count that leads out of the page or the row is a slice out of range, and a
child pointer back to a page above is followed again.  The predicates below tell the
two kinds apart on the bytes:

    RowWhole, RowReported        the row is decoded, or its first defect is reported
    LookupFits                   what `search` looks at in a leaf lies in the page
    Routed                       the path of a key ends, with every slot on it in its page
    ScanWhole, ScanReported      the subtree is read, or its first defect is reported
-/
import VelociDB.Lib.Fuel
import VelociDB.PagerSys
import VelociDB.RowCodec

namespace VelociDB.BTree.Pages

open Bytes SchemaCodec Fuelled

/-! ## The read paths -/

/-- A computation that reads pages. -/
abbrev PagesM (α : Type) := Fuelled (List Page) Fault α

/-- A step that reads no page. -/
def check {α : Type} (r : Except Fault α) : PagesM α := fun pages => some (r, pages)

/-- `read_page`. -/
def readPage (pageId : Nat) : PagesM Page := fun pages =>
  match pages[pageId]? with
  | some page => some (.ok page, pages)
  | none => some (.error (.error (Snapshot.outOfBounds pageId)), pages)

/-- `NodeHeader`. -/
structure NodeHeader where
  nodeType : Nat
  numKeys : Nat
  parent : Nat

/-- `NodeHeader::deserialize`. -/
def NodeHeader.deserialize (buffer : Bytes) : Except Fault NodeHeader :=
  if buffer.length < headerSize then
    .error (.error (.corruption
      s!"Buffer too small for NodeHeader: {buffer.length} < {headerSize}"))
  else do
    let nodeType ← readLe 1 buffer 0
    let numKeys ← readLe 2 buffer 1
    let parent ← readLe 4 buffer 3
    return ⟨nodeType, numKeys, parent⟩

/-- `i64::from_le_bytes` at an offset. -/
def readKey (data : Bytes) (offset : Nat) : Except Fault Int64 := do
  let n ← readLe 8 data offset
  return (UInt64.ofNat n).toInt64

/-- The loop over the keys of an internal node: the child to go on with. -/
def routeLoop (data : Bytes) (key : Int64) : Nat → Nat → Nat → Except Fault Nat
  | 0, _, child => .ok child
  | n + 1, offset, child => do
      let storedKey ← readKey data offset
      let nextChild ← readLe 8 data (offset + 8)
      if key < storedKey then return child
      else routeLoop data key n (offset + 16) nextChild

/-- `find_leaf`. -/
def findLeaf : Nat → Nat → Int64 → PagesM Nat
  | 0, _, _ => exhausted
  | fuel + 1, pageId, key => do
      let page ← readPage pageId
      let header ← check (NodeHeader.deserialize page.data)
      if header.nodeType = 1 then return pageId
      else do
        let first ← check (readLe 8 page.data headerSize)
        let child ← check (routeLoop page.data key header.numKeys (headerSize + 8) first)
        findLeaf fuel child key

/-- The loop over the entries of a leaf. -/
def lookupLoop (data : Bytes) (key : Int64) : Nat → Nat → Except Fault (Option Row)
  | 0, _ => .ok none
  | n + 1, offset => do
      let storedKey ← readKey data offset
      let size ← readLe 4 data (offset + 8)
      if storedKey = key then do
        let bytes ← slice data (offset + 12) size
        let row ← deserializeRow bytes
        return some row
      else lookupLoop data key n (offset + (12 + size))

/-- `BTree::search`. -/
def search (fuel : Nat) (rootPage : Nat) (key : Int64) : PagesM (Option Row) := do
  let leafPageId ← findLeaf fuel rootPage key
  let page ← readPage leafPageId
  let header ← check (NodeHeader.deserialize page.data)
  check (lookupLoop page.data key header.numKeys headerSize)

/-- The entries of a leaf, behind those collected so far. -/
def scanEntries (data : Bytes) :
    Nat → Nat → List (Int64 × Row) → Except Fault (List (Int64 × Row))
  | 0, _, results => .ok results
  | n + 1, offset, results => do
      let key ← readKey data offset
      let size ← readLe 4 data (offset + 8)
      let bytes ← slice data (offset + 12) size
      let row ← deserializeRow bytes
      scanEntries data n (offset + (12 + size)) (results ++ [(key, row)])

/-- The children behind the first one; `visit` is the call of `scan_node`. -/
def scanChildren (visit : Nat → List (Int64 × Row) → PagesM (List (Int64 × Row)))
    (data : Bytes) : Nat → Nat → List (Int64 × Row) → PagesM (List (Int64 × Row))
  | 0, _, results => pure results
  | n + 1, offset, results => do
      let child ← check (readLe 8 data (offset + 8))
      let results ← visit child results
      scanChildren visit data n (offset + 16) results

/-- `scan_node`. -/
def scanNode : Nat → Nat → List (Int64 × Row) → PagesM (List (Int64 × Row))
  | 0, _, _ => exhausted
  | fuel + 1, pageId, results => do
      let page ← readPage pageId
      let header ← check (NodeHeader.deserialize page.data)
      if header.nodeType = 1 then check (scanEntries page.data header.numKeys headerSize results)
      else do
        let first ← check (readLe 8 page.data headerSize)
        let results ← scanNode fuel first results
        scanChildren (scanNode fuel) page.data header.numKeys (headerSize + 8) results

/-- `BTree::scan`. -/
def scan (fuel : Nat) (rootPage : Nat) : PagesM (List (Int64 × Row)) := scanNode fuel rootPage []

/-! ## Items one after the other -/

section Items

variable (whole : Nat → Nat → Prop) (reported : Nat → Prop)

/-- `n` items from an offset on, each of them whole. -/
inductive AllWhole : Nat → Nat → Prop
  | nil (o : Nat) : AllWhole 0 o
  | cons {n o next : Nat} : whole o next → AllWhole n next → AllWhole (n + 1) o

/-- Of `n` items from an offset on the first that is not whole is reported. -/
inductive FirstReported : Nat → Nat → Prop
  | here {n o : Nat} : reported o → FirstReported (n + 1) o
  | later {n o next : Nat} : whole o next → FirstReported n next → FirstReported (n + 1) o

variable {whole : Nat → Nat → Prop} {reported : Nat → Prop} {n o : Nat}

theorem allWhole_zero (o : Nat) : AllWhole whole 0 o := .nil o

theorem not_firstReported_zero (o : Nat) : ¬ FirstReported whole reported 0 o := nofun

theorem allWhole_succ :
    AllWhole whole (n + 1) o ↔ ∃ next, whole o next ∧ AllWhole whole n next :=
  ⟨fun | .cons h hs => ⟨_, h, hs⟩, fun ⟨_, h, hs⟩ => .cons h hs⟩

theorem firstReported_succ : FirstReported whole reported (n + 1) o ↔
    reported o ∨ ∃ next, whole o next ∧ FirstReported whole reported n next :=
  ⟨fun | .here h => .inl h | .later h hs => .inr ⟨_, h, hs⟩,
    fun h => h.elim .here fun ⟨_, h, hs⟩ => .later h hs⟩

end Items

/-! ## How a decoder ends -/

/-- The decoder succeeds. -/
def Decodes {α : Type} (r : Except Fault α) : Prop := ∃ a, r = .ok a

/-- The decoder reports an error. -/
def Reports {α : Type} (r : Except Fault α) : Prop := ∃ e, r = .error (.error e)

section Outcomes

variable {α β : Type} {r : Except Fault α} {f : α → Except Fault β}

theorem decodes_ok (a : α) : Decodes (.ok a : Except Fault α) := ⟨a, rfl⟩

theorem not_reports_ok (a : α) : ¬ Reports (.ok a : Except Fault α) := nofun

theorem not_decodes_panic : ¬ Decodes (.error .panic : Except Fault α) := nofun

theorem not_reports_panic : ¬ Reports (.error .panic : Except Fault α) := nofun

theorem safe_iff : Safe r ↔ Decodes r ∨ Reports r := by
  match r with
  | .ok a => exact ⟨fun _ => .inl ⟨a, rfl⟩, fun _ => safe_ok a⟩
  | .error (.error e) => exact ⟨fun _ => .inr ⟨e, rfl⟩, fun _ => safe_error e⟩
  | .error .panic => exact ⟨fun h => absurd rfl h, fun h => h.elim nofun nofun⟩

theorem decodes_bind : Decodes (r >>= f) ↔ ∃ a, r = .ok a ∧ Decodes (f a) := by
  match r with
  | .ok a => exact ⟨fun h => ⟨a, rfl, h⟩, fun ⟨_, ha, h⟩ => Except.ok.inj ha ▸ h⟩
  | .error _ => exact ⟨nofun, nofun⟩

theorem reports_bind :
    Reports (r >>= f) ↔ Reports r ∨ ∃ a, r = .ok a ∧ Reports (f a) := by
  match r with
  | .ok a =>
      refine ⟨fun h => .inr ⟨a, rfl, h⟩, fun h => h.elim nofun ?_⟩
      exact fun ⟨_, ha, h⟩ => Except.ok.inj ha ▸ h
  | .error (.error e) => exact ⟨fun _ => .inl ⟨e, rfl⟩, fun _ => ⟨e, rfl⟩⟩
  | .error .panic => exact ⟨nofun, fun h => h.elim nofun nofun⟩

end Outcomes

/-! ## Rows -/

section Rows

variable (data : Bytes)

/-- The tag of the value at an offset. -/
def tagAt (o : Nat) : Nat := leNat ((data.drop o).take 1)

/-- The length behind the tag. -/
def lengthAt (o : Nat) : Nat := leNat ((data.drop (o + 1)).take 4)

/-- The text behind the length. -/
def textAt (o : Nat) : Except VelociError String :=
  fromUtf8 ((data.drop (o + 5)).take (lengthAt data o)) "Invalid UTF-8"

/-- The value at `o` lies in the data and can be decoded; the next one stands at `next`. -/
inductive ValueWhole (o : Nat) : Nat → Prop
  | null : o + 1 ≤ data.length → tagAt data o = 0 → ValueWhole o (o + 1)
  | integer : o + 9 ≤ data.length → tagAt data o = 1 → ValueWhole o (o + 9)
  | float : o + 9 ≤ data.length → tagAt data o = 2 → ValueWhole o (o + 9)
  | text {s : String} : o + 5 + lengthAt data o ≤ data.length → tagAt data o = 3 →
      textAt data o = .ok s → ValueWhole o (o + 5 + lengthAt data o)
  | blob : o + 5 + lengthAt data o ≤ data.length → tagAt data o = 4 →
      ValueWhole o (o + 5 + lengthAt data o)
  | vector : o + 5 + lengthAt data o * 4 ≤ data.length → tagAt data o = 5 →
      ValueWhole o (o + 5 + lengthAt data o * 4)

/-- The value at `o` is refused: an unknown tag, bytes that are no UTF-8, or a vector longer
than the data. -/
inductive ValueReported (o : Nat) : Prop
  | tag : o + 1 ≤ data.length → 5 < tagAt data o → ValueReported o
  | text {e : VelociError} : o + 5 + lengthAt data o ≤ data.length → tagAt data o = 3 →
      textAt data o = .error e → ValueReported o
  | vector : o + 5 ≤ data.length → tagAt data o = 5 →
      data.length < o + 5 + lengthAt data o * 4 → ValueReported o

/-- Every value of the row can be decoded. -/
def RowWhole : Prop := 4 ≤ data.length ∧ AllWhole (ValueWhole data) (leNat (data.take 4)) 4

/-- The first value that cannot be decoded is refused. -/
def RowReported : Prop :=
  4 ≤ data.length ∧ FirstReported (ValueWhole data) (ValueReported data) (leNat (data.take 4)) 4

end Rows

variable {data : Bytes} {o next n : Nat}

theorem readComponents_ok : ∀ (dim offset : Nat), offset + dim * 4 ≤ data.length →
    ∃ v, readComponents data dim offset = .ok v
  | 0, _, _ => ⟨[], rfl⟩
  | dim + 1, offset, h => by
      obtain ⟨v, hv⟩ := readComponents_ok dim (offset + 4) (by omega)
      rw [readComponents, readLe_ok (by omega), ok_bind_fault, hv]
      exact ⟨_, rfl⟩

theorem readTag (h : o + 1 ≤ data.length) {tag : Nat} (htag : tagAt data o = tag) :
    readLe 1 data o = .ok tag := by
  rw [readLe_ok h, ← htag, tagAt]

theorem readLength (h : o + 5 ≤ data.length) : readLe 4 data (o + 1) = .ok (lengthAt data o) :=
  readLe_ok (by omega)

section Tags

variable (h : o + 1 ≤ data.length)
include h

theorem value_null (ht : tagAt data o = 0) : deserializeValue data o = .ok (.null, o + 1) := by
  rw [deserializeValue, readTag h ht]
  rfl

theorem value_integer (ht : tagAt data o = 1) : deserializeValue data o =
    (readLe 8 data (o + 1) >>= fun i => .ok (.integer (UInt64.ofNat i).toInt64, o + 9)) := by
  rw [deserializeValue, readTag h ht]
  rfl

theorem value_float (ht : tagAt data o = 2) : deserializeValue data o =
    (readLe 8 data (o + 1) >>= fun f => .ok (.float (UInt64.ofNat f), o + 9)) := by
  rw [deserializeValue, readTag h ht]
  rfl

theorem value_text (ht : tagAt data o = 3) : deserializeValue data o =
    (readLe 4 data (o + 1) >>= fun len => slice data (o + 5) len >>= fun bs =>
      match fromUtf8 bs "Invalid UTF-8" with
      | .ok s => .ok (.text s, o + 5 + len)
      | .error e => .error (.error e)) := by
  rw [deserializeValue, readTag h ht]
  rfl

theorem value_blob (ht : tagAt data o = 4) : deserializeValue data o =
    (readLe 4 data (o + 1) >>= fun len => slice data (o + 5) len >>= fun b =>
      .ok (.blob b, o + 5 + len)) := by
  rw [deserializeValue, readTag h ht]
  rfl

theorem value_vector (ht : tagAt data o = 5) : deserializeValue data o =
    (readLe 4 data (o + 1) >>= fun dim =>
      if data.length < o + 5 + dim * 4 then
        .error (.error (.corruption "Vector data truncated"))
      else readComponents data dim (o + 5) >>= fun v => .ok (.vector v, o + 5 + dim * 4)) := by
  rw [deserializeValue, readTag h ht]
  rfl

theorem value_other (ht : 5 < tagAt data o) : ∃ e, deserializeValue data o = .error (.error e) := by
  rw [deserializeValue, readTag h rfl]
  generalize tagAt data o = tag at ht
  match tag, ht with
  | n + 6, _ => exact ⟨_, rfl⟩

end Tags

theorem deserializeValue_whole (h : ValueWhole data o next) :
    ∃ v, deserializeValue data o = .ok (v, next) := by
  cases h with
  | null hlen ht => exact ⟨_, value_null hlen ht⟩
  | integer hlen ht =>
      rw [value_integer (by omega) ht, readLe_ok (by omega)]
      exact ⟨_, rfl⟩
  | float hlen ht =>
      rw [value_float (by omega) ht, readLe_ok (by omega)]
      exact ⟨_, rfl⟩
  | text hlen ht hs =>
      rw [textAt] at hs
      rw [value_text (by omega) ht, readLength (by omega), ok_bind_fault, slice_ok hlen,
        ok_bind_fault, hs]
      exact ⟨_, rfl⟩
  | blob hlen ht =>
      rw [value_blob (by omega) ht, readLength (by omega), ok_bind_fault, slice_ok hlen]
      exact ⟨_, rfl⟩
  | vector hlen ht =>
      obtain ⟨v, hv⟩ := readComponents_ok (lengthAt data o) (o + 5) hlen
      rw [value_vector (by omega) ht, readLength (by omega), ok_bind_fault, if_neg (by omega), hv]
      exact ⟨_, rfl⟩

theorem deserializeValue_reported (h : ValueReported data o) :
    ∃ e, deserializeValue data o = .error (.error e) := by
  cases h with
  | tag hlen ht => exact value_other hlen ht
  | text hlen ht hs =>
      rw [textAt] at hs
      rw [value_text (by omega) ht, readLength (by omega), ok_bind_fault, slice_ok hlen,
        ok_bind_fault, hs]
      exact ⟨_, rfl⟩
  | vector hlen ht hlong =>
      rw [value_vector (by omega) ht, readLength (by omega), ok_bind_fault, if_pos hlong]
      exact ⟨_, rfl⟩

/-- A value is whole, refused, or reaches past the data. -/
theorem value_cases (data : Bytes) (o : Nat) : (∃ next, ValueWhole data o next) ∨
    ValueReported data o ∨ deserializeValue data o = .error .panic := by
  by_cases htag : o + 1 ≤ data.length
  · have hword : ¬ o + 5 ≤ data.length → readLe 4 data (o + 1) = .error .panic :=
      fun h => readLe_panic (by omega)
    match hv : tagAt data o with
    | 0 => exact .inl ⟨_, .null htag hv⟩
    | 1 =>
        by_cases hlen : o + 9 ≤ data.length
        · exact .inl ⟨_, .integer hlen hv⟩
        · rw [value_integer htag hv, readLe_panic (by omega)]
          exact .inr (.inr rfl)
    | 2 =>
        by_cases hlen : o + 9 ≤ data.length
        · exact .inl ⟨_, .float hlen hv⟩
        · rw [value_float htag hv, readLe_panic (by omega)]
          exact .inr (.inr rfl)
    | 3 =>
        rw [value_text htag hv]
        by_cases hlen : o + 5 ≤ data.length
        · by_cases htext : o + 5 + lengthAt data o ≤ data.length
          · cases hs : textAt data o with
            | ok s => exact .inl ⟨_, .text htext hv hs⟩
            | error e => exact .inr (.inl (.text htext hv hs))
          · rw [readLength hlen, ok_bind_fault, slice_panic htext]
            exact .inr (.inr rfl)
        · rw [hword hlen]
          exact .inr (.inr rfl)
    | 4 =>
        rw [value_blob htag hv]
        by_cases hlen : o + 5 ≤ data.length
        · by_cases hblob : o + 5 + lengthAt data o ≤ data.length
          · exact .inl ⟨_, .blob hblob hv⟩
          · rw [readLength hlen, ok_bind_fault, slice_panic hblob]
            exact .inr (.inr rfl)
        · rw [hword hlen]
          exact .inr (.inr rfl)
    | 5 =>
        rw [value_vector htag hv]
        by_cases hlen : o + 5 ≤ data.length
        · by_cases hvec : o + 5 + lengthAt data o * 4 ≤ data.length
          · exact .inl ⟨_, .vector hvec hv⟩
          · exact .inr (.inl (.vector hlen hv (by omega)))
        · rw [hword hlen]
          exact .inr (.inr rfl)
    | n + 6 => exact .inr (.inl (.tag htag (by omega)))
  · refine .inr (.inr ?_)
    rw [deserializeValue, readLe_panic htag]
    rfl

theorem deserializeValue_ok_iff (data : Bytes) (o next : Nat) :
    (∃ v, deserializeValue data o = .ok (v, next)) ↔ ValueWhole data o next := by
  refine ⟨fun ⟨v, hv⟩ => ?_, deserializeValue_whole⟩
  obtain ⟨next', hwhole⟩ | hreported | hpanic := value_cases data o
  · obtain ⟨u, hu⟩ := deserializeValue_whole hwhole
    rw [hv] at hu
    cases hu
    exact hwhole
  · obtain ⟨e, he⟩ := deserializeValue_reported hreported
    cases hv.symm.trans he
  · cases hv.symm.trans hpanic

theorem reports_deserializeValue (data : Bytes) (o : Nat) :
    Reports (deserializeValue data o) ↔ ValueReported data o := by
  refine ⟨fun ⟨e, he⟩ => ?_, deserializeValue_reported⟩
  obtain ⟨next, hwhole⟩ | hreported | hpanic := value_cases data o
  · obtain ⟨u, hu⟩ := deserializeValue_whole hwhole
    cases he.symm.trans hu
  · exact hreported
  · cases he.symm.trans hpanic

theorem decodes_deserializeValues (data : Bytes) : ∀ n o,
    Decodes (deserializeValues data n o) ↔ AllWhole (ValueWhole data) n o
  | 0, o => iff_of_true (decodes_ok []) (allWhole_zero o)
  | n + 1, o => by
      rw [deserializeValues, decodes_bind, allWhole_succ]
      constructor
      · rintro ⟨⟨v, next⟩, hv, hrest⟩
        obtain ⟨vs, hvs, -⟩ := decodes_bind.1 hrest
        exact ⟨next, (deserializeValue_ok_iff data o next).1 ⟨v, hv⟩,
          (decodes_deserializeValues data n next).1 ⟨vs, hvs⟩⟩
      · rintro ⟨next, hwhole, hrest⟩
        obtain ⟨v, hv⟩ := deserializeValue_whole hwhole
        obtain ⟨vs, hvs⟩ := (decodes_deserializeValues data n next).2 hrest
        exact ⟨(v, next), hv, decodes_bind.2 ⟨vs, hvs, decodes_ok _⟩⟩

theorem reports_deserializeValues (data : Bytes) : ∀ n o,
    Reports (deserializeValues data n o) ↔
      FirstReported (ValueWhole data) (ValueReported data) n o
  | 0, o => iff_of_false (not_reports_ok []) (not_firstReported_zero o)
  | n + 1, o => by
      rw [deserializeValues, reports_bind, firstReported_succ, reports_deserializeValue]
      refine or_congr_right ⟨?_, ?_⟩
      · rintro ⟨⟨v, next⟩, hv, hrest⟩
        refine ⟨next, (deserializeValue_ok_iff data o next).1 ⟨v, hv⟩, ?_⟩
        obtain hvs | ⟨vs, -, hok⟩ := reports_bind.1 hrest
        · exact (reports_deserializeValues data n next).1 hvs
        · exact absurd hok (not_reports_ok _)
      · rintro ⟨next, hwhole, hrest⟩
        obtain ⟨v, hv⟩ := deserializeValue_whole hwhole
        exact ⟨(v, next), hv,
          reports_bind.2 (.inl ((reports_deserializeValues data n next).2 hrest))⟩

theorem deserializeRow_run (h : 4 ≤ data.length) : deserializeRow data =
    (deserializeValues data (leNat (data.take 4)) 4 >>= fun values => .ok ⟨values⟩) := by
  rw [deserializeRow, readLe_ok (by omega)]
  rfl

theorem deserializeRow_panic (h : ¬ 4 ≤ data.length) : deserializeRow data = .error .panic := by
  rw [deserializeRow, readLe_panic (by omega)]
  rfl

theorem decodes_deserializeRow (data : Bytes) :
    Decodes (deserializeRow data) ↔ RowWhole data := by
  by_cases h : 4 ≤ data.length
  · rw [deserializeRow_run h, decodes_bind, RowWhole, ← decodes_deserializeValues]
    exact ⟨fun ⟨vs, hvs, _⟩ => ⟨h, vs, hvs⟩, fun ⟨_, vs, hvs⟩ => ⟨vs, hvs, decodes_ok _⟩⟩
  · rw [deserializeRow_panic h]
    exact iff_of_false not_decodes_panic fun hwhole => h hwhole.1

theorem reports_deserializeRow (data : Bytes) :
    Reports (deserializeRow data) ↔ RowReported data := by
  by_cases h : 4 ≤ data.length
  · rw [deserializeRow_run h, reports_bind, RowReported, ← reports_deserializeValues]
    refine ⟨fun hr => ⟨h, hr.elim id ?_⟩, fun hr => .inl hr.2⟩
    exact fun ⟨_, _, hok⟩ => absurd hok (not_reports_ok _)
  · rw [deserializeRow_panic h]
    exact iff_of_false not_reports_panic fun hreported => h hreported.1

/-! ## Entries of a leaf -/

section Entries

variable (data : Bytes)

/-- The key of the entry at an offset. -/
def keyAt (o : Nat) : Int64 := (UInt64.ofNat (leNat ((data.drop o).take 8))).toInt64

/-- The size of the row behind the key. -/
def sizeAt (o : Nat) : Nat := leNat ((data.drop (o + 8)).take 4)

/-- The bytes of the row. -/
def rowAt (o : Nat) : Bytes := (data.drop (o + 12)).take (sizeAt data o)

/-- The entry lies in the page. -/
def EntryFits (o : Nat) : Prop := o + 12 + sizeAt data o ≤ data.length

/-- The entry at `o` lies in the page and its row can be decoded; the next one stands at
`next`. -/
def EntryWhole (o next : Nat) : Prop :=
  EntryFits data o ∧ RowWhole (rowAt data o) ∧ next = o + (12 + sizeAt data o)

/-- The entry at `o` lies in the page and its row is refused. -/
def EntryReported (o : Nat) : Prop := EntryFits data o ∧ RowReported (rowAt data o)

/-- What the search for a key looks at in a leaf lies in the page: keys and sizes up to the
first entry of the key, and that entry. -/
inductive LookupFits (key : Int64) : Nat → Nat → Prop
  | none (o : Nat) : LookupFits key 0 o
  | found {n o : Nat} : EntryFits data o → keyAt data o = key →
      RowWhole (rowAt data o) ∨ RowReported (rowAt data o) → LookupFits key (n + 1) o
  | next {n o : Nat} : o + 12 ≤ data.length → keyAt data o ≠ key →
      LookupFits key n (o + (12 + sizeAt data o)) → LookupFits key (n + 1) o

end Entries

theorem readKey_ok (h : o + 8 ≤ data.length) : readKey data o = .ok (keyAt data o) := by
  rw [readKey, readLe_ok h]
  rfl

theorem readSize_ok (h : o + 12 ≤ data.length) :
    readLe 4 data (o + 8) = .ok (sizeAt data o) := readLe_ok (by omega)

theorem readEntry_panic {α : Type} (f : Int64 → Nat → Except Fault α)
    (h : ¬ o + 12 ≤ data.length) :
    (readKey data o >>= fun key => readLe 4 data (o + 8) >>= f key) = .error .panic := by
  by_cases hkey : o + 8 ≤ data.length
  · rw [readKey_ok hkey, ok_bind_fault, readLe_panic (by omega)]
    rfl
  · rw [readKey, readLe_panic hkey]
    rfl

theorem scanEntries_fits (h : EntryFits data o) (results : List (Int64 × Row)) :
    scanEntries data (n + 1) o results = (deserializeRow (rowAt data o) >>= fun row =>
      scanEntries data n (o + (12 + sizeAt data o)) (results ++ [(keyAt data o, row)])) := by
  have hlen : o + 12 + sizeAt data o ≤ data.length := h
  rw [scanEntries, readKey_ok (by omega), ok_bind_fault, readSize_ok (by omega), ok_bind_fault,
    slice_ok hlen]
  rfl

theorem scanEntries_past (h : ¬ EntryFits data o) (results : List (Int64 × Row)) :
    scanEntries data (n + 1) o results = .error .panic := by
  by_cases hhead : o + 12 ≤ data.length
  · have hlen : ¬ o + 12 + sizeAt data o ≤ data.length := h
    rw [scanEntries, readKey_ok (by omega), ok_bind_fault, readSize_ok hhead, ok_bind_fault,
      slice_panic hlen]
    rfl
  · exact readEntry_panic _ hhead

theorem decodes_scanEntries (data : Bytes) : ∀ n o results,
    Decodes (scanEntries data n o results) ↔ AllWhole (EntryWhole data) n o
  | 0, o, results => iff_of_true (decodes_ok results) (allWhole_zero o)
  | n + 1, o, results => by
      by_cases h : EntryFits data o
      · rw [scanEntries_fits h, decodes_bind, allWhole_succ]
        constructor
        · rintro ⟨row, hrow, hrest⟩
          exact ⟨_, ⟨h, (decodes_deserializeRow _).1 ⟨row, hrow⟩, rfl⟩,
            (decodes_scanEntries data n _ _).1 hrest⟩
        · rintro ⟨next, ⟨-, hwhole, rfl⟩, hrest⟩
          obtain ⟨row, hrow⟩ := (decodes_deserializeRow _).2 hwhole
          exact ⟨row, hrow, (decodes_scanEntries data n _ _).2 hrest⟩
      · rw [scanEntries_past h, allWhole_succ]
        exact iff_of_false not_decodes_panic fun ⟨_, hwhole, _⟩ => h hwhole.1

theorem reports_scanEntries (data : Bytes) : ∀ n o results,
    Reports (scanEntries data n o results) ↔
      FirstReported (EntryWhole data) (EntryReported data) n o
  | 0, o, results => iff_of_false (not_reports_ok results) (not_firstReported_zero o)
  | n + 1, o, results => by
      by_cases h : EntryFits data o
      · rw [scanEntries_fits h, reports_bind, firstReported_succ, reports_deserializeRow]
        refine or_congr ⟨fun hrow => ⟨h, hrow⟩, fun hrow => hrow.2⟩ ⟨?_, ?_⟩
        · rintro ⟨row, hrow, hrest⟩
          exact ⟨_, ⟨h, (decodes_deserializeRow _).1 ⟨row, hrow⟩, rfl⟩,
            (reports_scanEntries data n _ _).1 hrest⟩
        · rintro ⟨next, ⟨-, hwhole, rfl⟩, hrest⟩
          obtain ⟨row, hrow⟩ := (decodes_deserializeRow _).2 hwhole
          exact ⟨row, hrow, (reports_scanEntries data n _ _).2 hrest⟩
      · rw [scanEntries_past h, firstReported_succ]
        refine iff_of_false not_reports_panic fun hr => h ?_
        exact hr.elim (fun hrow => hrow.1) fun ⟨_, hwhole, _⟩ => hwhole.1

theorem lookupLoop_head (key : Int64) (h : o + 12 ≤ data.length) :
    lookupLoop data key (n + 1) o =
      if keyAt data o = key then
        slice data (o + 12) (sizeAt data o) >>= fun bytes =>
          deserializeRow bytes >>= fun row => .ok (some row)
      else lookupLoop data key n (o + (12 + sizeAt data o)) := by
  rw [lookupLoop, readKey_ok (by omega), ok_bind_fault, readSize_ok h]
  rfl

theorem safe_found (data : Bytes) (o : Nat) :
    Safe (slice data (o + 12) (sizeAt data o) >>= fun bytes =>
        deserializeRow bytes >>= fun row => .ok (some row)) ↔
      EntryFits data o ∧ (RowWhole (rowAt data o) ∨ RowReported (rowAt data o)) := by
  by_cases h : EntryFits data o
  · have hlen : o + 12 + sizeAt data o ≤ data.length := h
    rw [slice_ok hlen, ok_bind_fault, safe_iff, decodes_bind, reports_bind, ← rowAt,
      ← decodes_deserializeRow, ← reports_deserializeRow]
    refine ⟨fun hr => ⟨h, ?_⟩, fun hr => ?_⟩
    · refine hr.imp (fun ⟨row, hrow, _⟩ => ⟨row, hrow⟩) fun hr => hr.elim id ?_
      exact fun ⟨_, _, hok⟩ => absurd hok (not_reports_ok _)
    · exact hr.2.imp (fun ⟨row, hrow⟩ => ⟨row, hrow, decodes_ok _⟩) Or.inl
  · rw [slice_panic h]
    exact iff_of_false (fun hsafe => hsafe rfl) fun hr => h hr.1

theorem safe_lookupLoop (data : Bytes) (key : Int64) : ∀ n o,
    Safe (lookupLoop data key n o) ↔ LookupFits data key n o
  | 0, o => iff_of_true (safe_ok _) (.none o)
  | n + 1, o => by
      by_cases hhead : o + 12 ≤ data.length
      · rw [lookupLoop_head key hhead]
        by_cases hkey : keyAt data o = key
        · rw [if_pos hkey, safe_found]
          constructor
          · exact fun ⟨hfits, hrow⟩ => .found hfits hkey hrow
          · rintro (_ | ⟨hfits, -, hrow⟩ | ⟨-, hne, -⟩)
            · exact ⟨hfits, hrow⟩
            · exact absurd hkey hne
        · rw [if_neg hkey, safe_lookupLoop data key n]
          constructor
          · exact fun hrest => .next hhead hkey hrest
          · rintro (_ | ⟨-, heq, -⟩ | ⟨-, -, hrest⟩)
            · exact absurd heq hkey
            · exact hrest
      · rw [show lookupLoop data key (n + 1) o = .error .panic from readEntry_panic _ hhead]
        refine iff_of_false (fun hsafe => hsafe rfl) ?_
        rintro (_ | ⟨hfits, -, -⟩ | ⟨hlen, -, -⟩)
        · exact hhead (Nat.le_trans (Nat.le_add_right _ _) hfits)
        · exact hhead hlen

/-! ## Slots of an internal node -/

section Slots

variable (page : Page)

/-- The type of the page. -/
def typeOf : Nat := leNat ((page.data.drop 0).take 1)

/-- The number of keys of the page. -/
def numKeysOf : Nat := leNat ((page.data.drop 1).take 2)

/-- The child with an index, counted from 0. -/
def childAt (i : Nat) : Nat := leNat ((page.data.drop (8 + 16 * i)).take 8)

/-- The key between a child and the next one. -/
def separatorAt (i : Nat) : Int64 := keyAt page.data (16 + 16 * i)

/-- The slot of the child lies in the page. -/
def SlotFits (i : Nat) : Prop := 16 + 16 * i ≤ pageSize

/-- A key goes on to the child before the first separator above it, and every slot looked at
lies in the page: those up to the child behind that separator. -/
structure RoutesTo (key : Int64) (i : Nat) : Prop where
  le : i ≤ numKeysOf page
  passed : ∀ j < i, ¬ key < separatorAt page j
  stops : i < numKeysOf page → key < separatorAt page i
  fits : SlotFits (min (i + 1) (numKeysOf page))

end Slots

/-- A route from a child on, with `n` separators left. -/
structure RoutesFrom (page : Page) (key : Int64) (k n i : Nat) : Prop where
  ge : k ≤ i
  le : i ≤ k + n
  passed : ∀ j, k ≤ j → j < i → ¬ key < separatorAt page j
  stops : i < k + n → key < separatorAt page i
  fits : SlotFits (min (i + 1) (k + n))

section Routes

variable {page : Page} {key : Int64} {k i : Nat}

theorem routesFrom_zero (h : SlotFits k) : RoutesFrom page key k 0 i ↔ i = k := by
  constructor
  · intro hr
    exact Nat.le_antisymm hr.le hr.ge
  · rintro rfl
    exact ⟨le_rfl, le_rfl, fun j hj hlt => absurd hlt (by omega), fun hlt => absurd hlt (by omega),
      by rwa [show min (i + 1) (i + 0) = i by omega]⟩

theorem routesFrom_stop (h : SlotFits (k + 1)) (hkey : key < separatorAt page k) :
    RoutesFrom page key k (n + 1) i ↔ i = k := by
  constructor
  · intro hr
    by_contra hne
    have hlt : k < i := Nat.lt_of_le_of_ne hr.ge (Ne.symm hne)
    exact hr.passed k le_rfl hlt hkey
  · rintro rfl
    exact ⟨le_rfl, by omega, fun j hj hlt => absurd hlt (by omega), fun _ => hkey,
      by rwa [show min (i + 1) (i + (n + 1)) = i + 1 by omega]⟩

theorem routesFrom_pass (hkey : ¬ key < separatorAt page k) :
    RoutesFrom page key k (n + 1) i ↔ RoutesFrom page key (k + 1) n i := by
  have hsum : k + (n + 1) = k + 1 + n := by omega
  constructor
  · intro hr
    have hne : i ≠ k := by
      rintro rfl
      exact hkey (hr.stops (by omega))
    have hge := hr.ge
    exact ⟨by omega, hsum ▸ hr.le, fun j hj => hr.passed j (by omega), hsum ▸ hr.stops,
      hsum ▸ hr.fits⟩
  · intro hr
    have hge := hr.ge
    refine ⟨by omega, hsum ▸ hr.le, fun j hj hlt => ?_, hsum ▸ hr.stops, hsum ▸ hr.fits⟩
    rcases Nat.eq_or_lt_of_le hj with rfl | hj
    · exact hkey
    · exact hr.passed j hj hlt

/-- A route needs the slot behind the first separator, even when it stops there. -/
theorem RoutesFrom.slot (hr : RoutesFrom page key k (n + 1) i) : SlotFits (k + 1) := by
  have hge := hr.ge
  have hfits : 16 + 16 * min (i + 1) (k + (n + 1)) ≤ pageSize := hr.fits
  show 16 + 16 * (k + 1) ≤ pageSize
  omega

theorem routesTo_iff : RoutesTo page key i ↔ RoutesFrom page key 0 (numKeysOf page) i := by
  constructor
  · exact fun hr => ⟨Nat.zero_le i, by simpa using hr.le, fun j _ => hr.passed j,
      by simpa using hr.stops, by simpa using hr.fits⟩
  · exact fun hr => ⟨by simpa using hr.le, fun j => hr.passed j (Nat.zero_le j),
      by simpa using hr.stops, by simpa using hr.fits⟩

theorem slot_length (page : Page) {j : Nat} (h : SlotFits j) : 16 + 16 * j ≤ page.data.length := by
  rw [page.size]
  exact h

theorem readChild {j : Nat} (h : SlotFits j) :
    readLe 8 page.data (8 + 16 * j) = .ok (childAt page j) := by
  have hlen := slot_length page h
  exact readLe_ok (by omega)

theorem readChild_panic {j : Nat} (h : ¬ SlotFits j) :
    readLe 8 page.data (8 + 16 * j) = .error .panic := by
  refine readLe_panic fun hlen => h ?_
  show 16 + 16 * j ≤ pageSize
  rw [page.size] at hlen
  omega

theorem routeLoop_fits (h : SlotFits (k + 1)) (child : Nat) :
    routeLoop page.data key (n + 1) (16 + 16 * k) child =
      if key < separatorAt page k then .ok child
      else routeLoop page.data key n (16 + 16 * (k + 1)) (childAt page (k + 1)) := by
  have hlen := slot_length page h
  rw [routeLoop, readKey_ok (by omega), ok_bind_fault,
    show 16 + 16 * k + 8 = 8 + 16 * (k + 1) by omega, readChild h]
  rfl

theorem routeLoop_past (h : ¬ SlotFits (k + 1)) (child : Nat) :
    routeLoop page.data key (n + 1) (16 + 16 * k) child = .error .panic := by
  have hnext : readLe 8 page.data (16 + 16 * k + 8) = .error .panic := by
    rw [show 16 + 16 * k + 8 = 8 + 16 * (k + 1) by omega]
    exact readChild_panic h
  by_cases hlen : 16 + 16 * k + 8 ≤ page.data.length
  · rw [routeLoop, readKey_ok hlen, ok_bind_fault, hnext]
    rfl
  · rw [routeLoop, readKey, readLe_panic hlen]
    rfl

/-- The loop over the keys finds the child of the route; without a route it leaves the page. -/
theorem routeLoop_from (page : Page) (key : Int64) : ∀ n k, SlotFits k →
    (∀ i, RoutesFrom page key k n i →
      routeLoop page.data key n (16 + 16 * k) (childAt page k) = .ok (childAt page i)) ∧
    ((∀ i, ¬ RoutesFrom page key k n i) →
      routeLoop page.data key n (16 + 16 * k) (childAt page k) = .error .panic)
  | 0, k, hslot => by
      refine ⟨fun i hr => ?_, fun hnone => absurd ((routesFrom_zero hslot).2 rfl) (hnone k)⟩
      rw [(routesFrom_zero hslot).1 hr]
      rfl
  | n + 1, k, hslot => by
      by_cases hnext : SlotFits (k + 1)
      · rw [routeLoop_fits hnext]
        by_cases hkey : key < separatorAt page k
        · rw [if_pos hkey]
          refine ⟨fun i hr => by rw [(routesFrom_stop hnext hkey).1 hr], fun hnone => ?_⟩
          exact absurd ((routesFrom_stop hnext hkey).2 rfl) (hnone k)
        · rw [if_neg hkey]
          simp only [routesFrom_pass hkey]
          exact routeLoop_from page key n (k + 1) hnext
      · exact ⟨fun i hr => absurd hr.slot hnext, fun _ => routeLoop_past hnext _⟩

end Routes

theorem slotFits_zero : SlotFits 0 := by
  have hsize := pageSize_eq
  show 16 + 16 * 0 ≤ pageSize
  omega

/-! ## Paths and subtrees -/

section Trees

variable (pages : List Page)

/-- The path of a key ends: at a missing page, or in a leaf in whose bytes the search stays. -/
inductive Routed (key : Int64) : Nat → Prop
  | missing {p : Nat} : pages[p]? = none → Routed key p
  | leaf {p : Nat} {page : Page} : pages[p]? = some page → typeOf page = 1 →
      LookupFits page.data key (numKeysOf page) headerSize → Routed key p
  | node {p i : Nat} {page : Page} : pages[p]? = some page → typeOf page ≠ 1 →
      RoutesTo page key i → Routed key (childAt page i) → Routed key p

/-- The subtree is there: every slot and every entry lies in its page, every row can be
decoded, and no page is below itself. -/
inductive ScanWhole : Nat → Prop
  | leaf {p : Nat} {page : Page} : pages[p]? = some page → typeOf page = 1 →
      AllWhole (EntryWhole page.data) (numKeysOf page) headerSize → ScanWhole p
  | node {p : Nat} {page : Page} : pages[p]? = some page → typeOf page ≠ 1 →
      SlotFits (numKeysOf page) → (∀ i ≤ numKeysOf page, ScanWhole (childAt page i)) →
      ScanWhole p

/-- The first defect of the subtree, in the order in which it is read, is a missing page or a
row that is refused. -/
inductive ScanReported : Nat → Prop
  | missing {p : Nat} : pages[p]? = none → ScanReported p
  | leaf {p : Nat} {page : Page} : pages[p]? = some page → typeOf page = 1 →
      FirstReported (EntryWhole page.data) (EntryReported page.data) (numKeysOf page) headerSize →
      ScanReported p
  | node {p i : Nat} {page : Page} : pages[p]? = some page → typeOf page ≠ 1 →
      i ≤ numKeysOf page → SlotFits i → (∀ j < i, ScanWhole pages (childAt page j)) →
      ScanReported (childAt page i) → ScanReported p

end Trees

/-- The procedure comes to an end, and not by a slice out of range. -/
def EndsSafely {α : Type} (p : Nat → PagesM α) (pages : List Page) : Prop :=
  ∃ r, Returns p pages r ∧ Safe r.1

/-! ## One page of a read path -/

section Steps

variable {pages : List Page} {p fuel : Nat} {page : Page} {key : Int64}

theorem readPage_some (h : pages[p]? = some page) : readPage p pages = some (.ok page, pages) := by
  rw [readPage, h]

theorem readPage_none (h : pages[p]? = none) :
    readPage p pages = some (.error (.error (Snapshot.outOfBounds p)), pages) := by
  rw [readPage, h]

/-- A page is long enough for its header. -/
theorem deserialize_page (page : Page) : ∃ parent,
    NodeHeader.deserialize page.data = .ok ⟨typeOf page, numKeysOf page, parent⟩ := by
  have hlen : 16 + 16 * 0 ≤ page.data.length := slot_length page slotFits_zero
  have hhead : ¬ page.data.length < headerSize := by
    show ¬ page.data.length < 8
    omega
  rw [NodeHeader.deserialize, if_neg hhead, readLe_ok (by omega), ok_bind_fault,
    readLe_ok (by omega), ok_bind_fault, readLe_ok (by omega)]
  exact ⟨_, rfl⟩

theorem check_ok {α β : Type} {r : Except Fault α} {a : α} {f : α → PagesM β} (h : r = .ok a) :
    (check r >>= f) pages = f a pages := by
  rw [h]
  rfl

theorem check_panic {α β : Type} {r : Except Fault α} {f : α → PagesM β}
    (h : r = .error .panic) : (check r >>= f) pages = some (.error .panic, pages) := by
  rw [h]
  rfl

/-- What `find_leaf` does with a page that is there. -/
theorem findLeaf_page (h : pages[p]? = some page) :
    findLeaf (fuel + 1) p key pages =
      (if typeOf page = 1 then (pure p : PagesM Nat)
       else check (routeLoop page.data key (numKeysOf page) (headerSize + 8) (childAt page 0)) >>=
        fun child => findLeaf fuel child key) pages := by
  obtain ⟨parent, hheader⟩ := deserialize_page page
  rw [findLeaf, Fuelled.bind_ok (readPage_some h), check_ok hheader]
  dsimp only
  split
  · rfl
  · exact check_ok (readChild slotFits_zero)

theorem search_missing (h : pages[p]? = none) : search (fuel + 1) p key pages =
    some (.error (.error (Snapshot.outOfBounds p)), pages) := by
  have hleaf : findLeaf (fuel + 1) p key pages =
      some (.error (.error (Snapshot.outOfBounds p)), pages) := bind_error (readPage_none h)
  exact bind_error hleaf

theorem search_leaf (h : pages[p]? = some page) (htype : typeOf page = 1) :
    search (fuel + 1) p key pages =
      some (lookupLoop page.data key (numKeysOf page) headerSize, pages) := by
  obtain ⟨parent, hheader⟩ := deserialize_page page
  have hleaf : findLeaf (fuel + 1) p key pages = some (.ok p, pages) := by
    rw [findLeaf_page h, if_pos htype]
    rfl
  rw [search, Fuelled.bind_ok hleaf, Fuelled.bind_ok (readPage_some h), check_ok hheader]
  rfl

theorem search_node {i : Nat} (h : pages[p]? = some page) (htype : typeOf page ≠ 1)
    (hroute : RoutesTo page key i) :
    search (fuel + 1) p key pages = search fuel (childAt page i) key pages := by
  have hchild := (routeLoop_from page key (numKeysOf page) 0 slotFits_zero).1 i
    (routesTo_iff.1 hroute)
  have hleaf : findLeaf (fuel + 1) p key pages = findLeaf fuel (childAt page i) key pages := by
    rw [findLeaf_page h, if_neg htype]
    exact check_ok hchild
  rw [search, bind_run, hleaf, search, bind_run]

theorem search_lost (h : pages[p]? = some page) (htype : typeOf page ≠ 1)
    (hnone : ∀ i, ¬ RoutesTo page key i) :
    search (fuel + 1) p key pages = some (.error .panic, pages) := by
  have hlost := (routeLoop_from page key (numKeysOf page) 0 slotFits_zero).2
    fun i hr => hnone i (routesTo_iff.2 hr)
  have hleaf : findLeaf (fuel + 1) p key pages = some (.error .panic, pages) := by
    rw [findLeaf_page h, if_neg htype]
    exact check_panic hlost
  exact bind_error hleaf

theorem scanNode_missing (h : pages[p]? = none) (results : List (Int64 × Row)) :
    scanNode (fuel + 1) p results pages =
      some (.error (.error (Snapshot.outOfBounds p)), pages) := bind_error (readPage_none h)

theorem scanNode_leaf (h : pages[p]? = some page) (htype : typeOf page = 1)
    (results : List (Int64 × Row)) : scanNode (fuel + 1) p results pages =
      some (scanEntries page.data (numKeysOf page) headerSize results, pages) := by
  obtain ⟨parent, hheader⟩ := deserialize_page page
  rw [scanNode, Fuelled.bind_ok (readPage_some h), check_ok hheader, if_pos htype]
  rfl

/-- The subtrees of the children from an index on, `n` more behind it. -/
def scanFrom (visit : Nat → List (Int64 × Row) → PagesM (List (Int64 × Row))) (page : Page)
    (k n : Nat) (results : List (Int64 × Row)) : PagesM (List (Int64 × Row)) := do
  let results ← visit (childAt page k) results
  scanChildren visit page.data n (16 + 16 * k) results

theorem scanNode_node (h : pages[p]? = some page) (htype : typeOf page ≠ 1)
    (results : List (Int64 × Row)) : scanNode (fuel + 1) p results pages =
      scanFrom (scanNode fuel) page 0 (numKeysOf page) results pages := by
  obtain ⟨parent, hheader⟩ := deserialize_page page
  rw [scanNode, Fuelled.bind_ok (readPage_some h), check_ok hheader, if_neg htype]
  exact check_ok (readChild slotFits_zero)

end Steps

/-! ## Searches -/

section Search

variable {pages : List Page} {key : Int64} {p : Nat}

theorem Routed.ends (h : Routed pages key p) : EndsSafely (fun fuel => search fuel p key) pages := by
  induction h with
  | missing hnone => exact ⟨_, ⟨1, search_missing hnone⟩, safe_error _⟩
  | leaf hpage htype hfits =>
      exact ⟨_, ⟨1, search_leaf hpage htype⟩, (safe_lookupLoop _ key _ _).2 hfits⟩
  | node hpage htype hroute _ ih =>
      obtain ⟨r, ⟨fuel, hrun⟩, hsafe⟩ := ih
      exact ⟨r, ⟨fuel + 1, (search_node hpage htype hroute).trans hrun⟩, hsafe⟩

/-- By induction on the fuel: one page of the path is spent on each unit. -/
theorem routed_of_search : ∀ (fuel p : Nat) {r : Except Fault (Option Row) × List Page},
    search fuel p key pages = some r → Safe r.1 → Routed pages key p
  | 0, p, r, hrun, _ => nomatch hrun
  | fuel + 1, p, r, hrun, hsafe => by
      match hpage : pages[p]? with
      | none => exact .missing hpage
      | some page =>
          by_cases htype : typeOf page = 1
          · rw [search_leaf hpage htype] at hrun
            cases hrun
            exact .leaf hpage htype ((safe_lookupLoop _ key _ _).1 hsafe)
          · by_cases hroute : ∃ i, RoutesTo page key i
            · obtain ⟨i, hroute⟩ := hroute
              rw [search_node hpage htype hroute] at hrun
              exact .node hpage htype hroute (routed_of_search fuel _ hrun hsafe)
            · rw [search_lost hpage htype (not_exists.1 hroute)] at hrun
              cases hrun
              exact absurd rfl hsafe

theorem search_ends_iff :
    EndsSafely (fun fuel => search fuel p key) pages ↔ Routed pages key p :=
  ⟨fun ⟨_, ⟨fuel, hrun⟩, hsafe⟩ => routed_of_search fuel p hrun hsafe, Routed.ends⟩

end Search

/-! ## Scans -/

theorem SlotFits.le {i j : Nat} (h : SlotFits i) (hle : j ≤ i) : SlotFits j := by
  have hlen : 16 + 16 * i ≤ pageSize := h
  show 16 + 16 * j ≤ pageSize
  omega

section Scan

variable {pages : List Page} {p : Nat} {page : Page}
variable {visit visit' : Nat → List (Int64 × Row) → PagesM (List (Int64 × Row))}

theorem scanChildren_fits {k : Nat} (h : SlotFits (k + 1)) (results : List (Int64 × Row)) :
    scanChildren visit page.data (n + 1) (16 + 16 * k) results pages =
      scanFrom visit page (k + 1) n results pages := by
  rw [scanChildren, show 16 + 16 * k + 8 = 8 + 16 * (k + 1) by omega]
  exact check_ok (readChild h)

theorem scanChildren_past {k : Nat} (h : ¬ SlotFits (k + 1)) (results : List (Int64 × Row)) :
    scanChildren visit page.data (n + 1) (16 + 16 * k) results pages =
      some (.error .panic, pages) := by
  rw [scanChildren, show 16 + 16 * k + 8 = 8 + 16 * (k + 1) by omega]
  exact check_panic (readChild_panic h)

theorem scanChildren_le (h : ∀ c results, Le (visit c results) (visit' c results))
    (data : Bytes) : ∀ n o results,
      Le (scanChildren visit data n o results) (scanChildren visit' data n o results)
  | 0, _, _ => .refl _
  | n + 1, o, _ => Le.bind_right fun c =>
      (h c _).bind fun results => scanChildren_le h data n (o + 16) results

theorem scanNode_growing : ∀ (n p : Nat) (results : List (Int64 × Row)),
    Le (scanNode n p results) (scanNode (n + 1) p results)
  | 0, _, _ => exhausted_le _
  | n + 1, p, results => by
      rw [scanNode, scanNode]
      refine Le.bind_right fun page => Le.bind_right fun header => Le.ite (.refl _) ?_
      refine Le.bind_right fun first => (scanNode_growing n first results).bind fun rs => ?_
      exact scanChildren_le (scanNode_growing n) page.data header.numKeys (headerSize + 8) rs

theorem scanFrom_growing (page : Page) (k n : Nat) (results : List (Int64 × Row)) :
    Growing fun fuel => scanFrom (scanNode fuel) page k n results := fun fuel =>
  (scanNode_growing fuel (childAt page k) results).bind fun rs =>
    scanChildren_le (scanNode_growing fuel) page.data n (16 + 16 * k) rs

/-- The subtree is read with some fuel, whatever was collected before. -/
def Reads (f : Nat → List (Int64 × Row) → PagesM (List (Int64 × Row))) (pages : List Page) :
    Prop :=
  ∃ fuel, ∀ results, ∃ results', f fuel results pages = some (.ok results', pages)

/-- By induction on the children left; the fuel is that of the most demanding one. -/
theorem scanFrom_reads : ∀ n k, SlotFits (k + n) →
    (∀ i, k ≤ i → i ≤ k + n → Reads (fun fuel => scanNode fuel (childAt page i)) pages) →
      Reads (fun fuel => scanFrom (scanNode fuel) page k n) pages
  | 0, k, _, h => by
      obtain ⟨fuel, hfuel⟩ := h k le_rfl le_rfl
      refine ⟨fuel, fun results => ?_⟩
      obtain ⟨results', hrun⟩ := hfuel results
      exact ⟨results', Fuelled.bind_ok hrun⟩
  | n + 1, k, hslot, h => by
      obtain ⟨m, hm⟩ := h k le_rfl (Nat.le_add_right _ _)
      obtain ⟨l, hl⟩ := scanFrom_reads n (k + 1) (hslot.le (by omega))
        fun i hi hin => h i (by omega) (by omega)
      refine ⟨max m l, fun results => ?_⟩
      obtain ⟨head, hhead⟩ := hm results
      obtain ⟨results', hrest⟩ := hl head
      have hhead := Growing.run_eq (fun fuel => scanNode_growing fuel (childAt page k) results)
        (Nat.le_max_left m l) hhead
      have hrest := (scanFrom_growing page (k + 1) n head).run_eq (Nat.le_max_right m l) hrest
      refine ⟨results', ?_⟩
      dsimp only [scanFrom]
      rw [Fuelled.bind_ok hhead, scanChildren_fits (hslot.le (by omega))]
      exact hrest

theorem ScanWhole.reads (h : ScanWhole pages p) : Reads (fun fuel => scanNode fuel p) pages := by
  induction h with
  | leaf hpage htype hentries =>
      refine ⟨1, fun results => ?_⟩
      obtain ⟨results', hrun⟩ := (decodes_scanEntries _ _ _ results).2 hentries
      exact ⟨results', hrun ▸ scanNode_leaf hpage htype results⟩
  | @node q page hpage htype hslot _ ih =>
      have hreads : Reads (fun fuel => scanFrom (scanNode fuel) page 0 (numKeysOf page)) pages :=
        scanFrom_reads _ 0 (by rwa [Nat.zero_add]) fun i _ hi => ih i (by omega)
      obtain ⟨fuel, hfuel⟩ := hreads
      refine ⟨fuel + 1, fun results => ?_⟩
      obtain ⟨results', hrun⟩ := hfuel results
      exact ⟨results', (scanNode_node hpage htype results).trans hrun⟩

/-- The subtree is refused with some fuel, whatever was collected before. -/
def Refuses (f : Nat → List (Int64 × Row) → PagesM (List (Int64 × Row))) (pages : List Page) :
    Prop :=
  ∃ fuel, ∀ results, ∃ e, f fuel results pages = some (.error (.error e), pages)

/-- Children that are read before one that is refused. -/
theorem scanFrom_refuses (i : Nat) : ∀ m n k, k + m = i → m ≤ n → SlotFits i →
    (∀ j, k ≤ j → j < i → Reads (fun fuel => scanNode fuel (childAt page j)) pages) →
    Refuses (fun fuel => scanNode fuel (childAt page i)) pages →
      Refuses (fun fuel => scanFrom (scanNode fuel) page k n) pages
  | 0, n, k, hi, _, _, _, h => by
      obtain ⟨fuel, hfuel⟩ := h
      refine ⟨fuel, fun results => ?_⟩
      obtain ⟨e, hrun⟩ := hfuel results
      rw [← hi] at hrun
      exact ⟨e, bind_error hrun⟩
  | m + 1, n, k, hi, hmn, hslot, hreads, h => by
      match n, hmn with
      | n + 1, hmn =>
          obtain ⟨a, ha⟩ := hreads k le_rfl (by omega)
          obtain ⟨l, hl⟩ := scanFrom_refuses i m n (k + 1) (by omega) (by omega) hslot
            (fun j hj => hreads j (by omega)) h
          refine ⟨max a l, fun results => ?_⟩
          obtain ⟨head, hhead⟩ := ha results
          obtain ⟨e, hrest⟩ := hl head
          have hhead := Growing.run_eq
            (fun fuel => scanNode_growing fuel (childAt page k) results)
            (Nat.le_max_left a l) hhead
          have hrest := (scanFrom_growing page (k + 1) n head).run_eq
            (Nat.le_max_right a l) hrest
          refine ⟨e, ?_⟩
          dsimp only [scanFrom]
          rw [Fuelled.bind_ok hhead, scanChildren_fits (hslot.le (by omega))]
          exact hrest

theorem ScanReported.refuses (h : ScanReported pages p) :
    Refuses (fun fuel => scanNode fuel p) pages := by
  induction h with
  | missing hnone => exact ⟨1, fun results => ⟨_, scanNode_missing hnone results⟩⟩
  | leaf hpage htype hentries =>
      refine ⟨1, fun results => ?_⟩
      obtain ⟨e, hrun⟩ := (reports_scanEntries _ _ _ results).2 hentries
      exact ⟨e, hrun ▸ scanNode_leaf hpage htype results⟩
  | @node q i page hpage htype hi hslot hbefore _ ih =>
      obtain ⟨fuel, hfuel⟩ := scanFrom_refuses i i (numKeysOf page) 0 (Nat.zero_add i) hi hslot
        (fun j _ hj => (hbefore j hj).reads) ih
      refine ⟨fuel + 1, fun results => ?_⟩
      obtain ⟨e, hrun⟩ := hfuel results
      exact ⟨e, (scanNode_node hpage htype results).trans hrun⟩

/-- An outcome that shows whether what was read is whole or refused. -/
structure Shows {α : Type} (pages : List Page) (whole reported : Prop)
    (r : Except Fault α × List Page) : Prop where
  same : r.2 = pages
  whole : Decodes r.1 → whole
  reported : Reports r.1 → reported

/-- The children from `k` on, with `n` more behind it, are whole. -/
def ChildrenWhole (pages : List Page) (page : Page) (k n : Nat) : Prop :=
  SlotFits (k + n) ∧ ∀ i, k ≤ i → i ≤ k + n → ScanWhole pages (childAt page i)

/-- One of the children from `k` on is refused, and those before it are whole. -/
def ChildReported (pages : List Page) (page : Page) (k n : Nat) : Prop :=
  ∃ i, k ≤ i ∧ i ≤ k + n ∧ SlotFits i ∧ (∀ j, k ≤ j → j < i → ScanWhole pages (childAt page j)) ∧
    ScanReported pages (childAt page i)

theorem ChildrenWhole.cons {k n : Nat} (h : ScanWhole pages (childAt page k))
    (hs : ChildrenWhole pages page (k + 1) n) : ChildrenWhole pages page k (n + 1) := by
  refine ⟨hs.1.le (by omega), fun i hi hin => ?_⟩
  rcases Nat.eq_or_lt_of_le hi with rfl | hi
  · exact h
  · exact hs.2 i hi (by omega)

theorem ChildReported.cons {k n : Nat} (h : ScanWhole pages (childAt page k))
    (hs : ChildReported pages page (k + 1) n) : ChildReported pages page k (n + 1) := by
  obtain ⟨i, hi, hin, hslot, hbefore, hreported⟩ := hs
  refine ⟨i, by omega, by omega, hslot, fun j hj hji => ?_, hreported⟩
  rcases Nat.eq_or_lt_of_le hj with rfl | hj
  · exact h
  · exact hbefore j hj hji

/-- The children of a page show what each visit of one shows. -/
theorem scanFrom_shows
    (hvisit : ∀ c results r, visit c results pages = some r →
      Shows pages (ScanWhole pages c) (ScanReported pages c) r) :
    ∀ n k results r, SlotFits k → scanFrom visit page k n results pages = some r →
      Shows pages (ChildrenWhole pages page k n) (ChildReported pages page k n) r := by
  intro n k results r hslot hrun
  induction n generalizing k results with
  | zero =>
      rw [scanFrom, bind_run] at hrun
      rcases hhead : visit (childAt page k) results pages with _ | ⟨_ | results', s⟩ <;>
        rw [hhead] at hrun
      · cases hrun
      · have hshows := hvisit _ _ _ hhead
        cases hrun
        refine ⟨hshows.same, nofun, fun hr => ?_⟩
        exact ⟨k, le_rfl, Nat.le_add_right k 0, hslot, fun j hj hjk => absurd hjk (by omega),
          hshows.reported hr⟩
      · have hshows := hvisit _ _ _ hhead
        cases hrun
        refine ⟨hshows.same, fun hr => ⟨hslot, fun i hi hin => ?_⟩, nofun⟩
        rw [Nat.le_antisymm hin hi]
        exact hshows.whole (decodes_ok _)
  | succ n ih =>
      rw [scanFrom, bind_run] at hrun
      rcases hhead : visit (childAt page k) results pages with _ | ⟨_ | results', s⟩ <;>
        rw [hhead] at hrun
      · cases hrun
      · have hshows := hvisit _ _ _ hhead
        cases hrun
        refine ⟨hshows.same, nofun, fun hr => ?_⟩
        exact ⟨k, le_rfl, Nat.le_add_right k _, hslot, fun j hj hjk => absurd hjk (by omega),
          hshows.reported hr⟩
      · have hshows := hvisit _ _ _ hhead
        have hsame : s = pages := hshows.same
        subst hsame
        by_cases hnext : SlotFits (k + 1)
        · dsimp only at hrun
          rw [scanChildren_fits hnext] at hrun
          have hrest := ih (k + 1) results' hnext hrun
          have hwhole := hshows.whole (decodes_ok _)
          exact ⟨hrest.same, fun hr => (hrest.whole hr).cons hwhole,
            fun hr => (hrest.reported hr).cons hwhole⟩
        · dsimp only at hrun
          rw [scanChildren_past hnext] at hrun
          cases hrun
          exact ⟨rfl, nofun, nofun⟩

/-- By induction on the fuel: a scan that ends shows what the subtree is like. -/
theorem scanNode_shows : ∀ (fuel p : Nat) (results : List (Int64 × Row))
    (r : Except Fault (List (Int64 × Row)) × List Page),
    scanNode fuel p results pages = some r →
      Shows pages (ScanWhole pages p) (ScanReported pages p) r
  | 0, p, results, r, hrun => nomatch hrun
  | fuel + 1, p, results, r, hrun => by
      match hpage : pages[p]? with
      | none =>
          rw [scanNode_missing hpage] at hrun
          cases hrun
          exact ⟨rfl, nofun, fun _ => .missing hpage⟩
      | some page =>
          by_cases htype : typeOf page = 1
          · rw [scanNode_leaf hpage htype] at hrun
            cases hrun
            exact ⟨rfl, fun hr => .leaf hpage htype ((decodes_scanEntries _ _ _ _).1 hr),
              fun hr => .leaf hpage htype ((reports_scanEntries _ _ _ _).1 hr)⟩
          · rw [scanNode_node hpage htype] at hrun
            have hshows := scanFrom_shows (scanNode_shows fuel) _ _ _ _ slotFits_zero hrun
            refine ⟨hshows.same, fun hr => ?_, fun hr => ?_⟩
            · obtain ⟨hslot, hwhole⟩ := hshows.whole hr
              rw [Nat.zero_add] at hslot hwhole
              exact .node hpage htype hslot fun i hi => hwhole i (Nat.zero_le i) hi
            · obtain ⟨i, -, hi, hslot, hbefore, hreported⟩ := hshows.reported hr
              rw [Nat.zero_add] at hi
              exact .node hpage htype hi hslot (fun j hj => hbefore j (Nat.zero_le j) hj) hreported

theorem scan_ends_iff (pages : List Page) (root : Nat) :
    EndsSafely (fun fuel => scan fuel root) pages ↔
      ScanWhole pages root ∨ ScanReported pages root := by
  constructor
  · rintro ⟨r, ⟨fuel, hrun⟩, hsafe⟩
    have hshows := scanNode_shows fuel root [] r hrun
    exact (safe_iff.1 hsafe).imp hshows.whole hshows.reported
  · rintro (hwhole | hreported)
    · obtain ⟨fuel, hfuel⟩ := hwhole.reads
      obtain ⟨results, hrun⟩ := hfuel []
      exact ⟨_, ⟨fuel, hrun⟩, safe_ok results⟩
    · obtain ⟨fuel, hfuel⟩ := hreported.refuses
      obtain ⟨e, hrun⟩ := hfuel []
      exact ⟨_, ⟨fuel, hrun⟩, safe_error e⟩

end Scan

/-! ## When the read paths end -/

/-- Every search and the scan of a tree end, without a slice out of range, exactly when the
path of every key ends inside its pages and the subtree of the root is whole or its first
defect is one that is reported. -/
theorem reads_end_iff (pages : List Page) (root : Nat) :
    ((∀ key, EndsSafely (fun fuel => search fuel root key) pages) ∧
        EndsSafely (fun fuel => scan fuel root) pages) ↔
      (∀ key, Routed pages key root) ∧ (ScanWhole pages root ∨ ScanReported pages root) := by
  rw [scan_ends_iff]
  simp only [search_ends_iff]

/-- A word of a page that was never written is zero. -/
theorem word_new {o n : Nat} (h : o + n ≤ 4096) :
    leNat ((Page.new.data.drop o).take n) = leNat (List.replicate n 0) := by
  have hsize := pageSize_eq
  have hlen : min n (pageSize - o) = n := by omega
  rw [Page.new, List.drop_replicate, List.take_replicate, hlen]

theorem typeOf_new : typeOf Page.new = 0 := (word_new (by decide)).trans (by decide)

theorem numKeysOf_new : numKeysOf Page.new = 0 := (word_new (by decide)).trans (by decide)

theorem childAt_new : childAt Page.new 0 = 0 := (word_new (by decide)).trans (by decide)

/-- A first page that was never written is its own only child. -/
theorem not_routed_new {key : Int64} {p : Nat} (h : Routed [Page.new] key p) : p ≠ 0 := by
  have hfirst : [Page.new][0]? = some Page.new := rfl
  induction h with
  | missing hnone =>
      rintro rfl
      cases hnone
  | leaf hpage htype _ =>
      rintro rfl
      cases hpage
      rw [typeOf_new] at htype
      cases htype
  | node hpage _ hroute _ ih =>
      rintro rfl
      cases hpage
      have hi := hroute.le
      rw [numKeysOf_new] at hi
      rw [Nat.le_zero.1 hi] at ih
      exact ih childAt_new

/-- With the root at such a page neither search nor scan need end. -/
theorem not_reads_end : ¬ ∀ (pages : List Page) (root : Nat),
    (∀ key, EndsSafely (fun fuel => search fuel root key) pages) ∧
      EndsSafely (fun fuel => scan fuel root) pages := fun h =>
  not_routed_new (search_ends_iff.1 ((h [Page.new] 0).1 0)) rfl

end VelociDB.BTree.Pages
