/-
# The pager's invariant

`PagerInv` ties the pager's fields to the files: `committed` over the data file is `Σ`,
`pending` over `Σ` is what the active group sees, and a cached page is its newest
version.  The methods that touch no file keep it; those that do are in `PagerOps`.
-/
import VelociDB.Recovery

namespace VelociDB

open Bytes Blocks Wal PagerSys Snapshot

/-! ## Pages of a map as block writes -/

namespace Pager

variable (m : PageMap)

theorem mem_sortedPages {w : Nat × Bytes} :
    w ∈ sortedPages m ↔ ∃ page, m[w.1]? = some page ∧ page.data = w.2 := by
  simp only [sortedPages, List.mem_map, Prod.exists]
  constructor
  · rintro ⟨q, page, hmem, rfl⟩
    exact ⟨page, Std.ExtTreeMap.mem_toList_iff_getElem?_eq_some.mp hmem, rfl⟩
  · rintro ⟨page, hq, hd⟩
    exact ⟨w.1, page, Std.ExtTreeMap.mem_toList_iff_getElem?_eq_some.mpr hq, by rw [hd]⟩

theorem sortedPages_whole : Whole pageSize (sortedPages m) := by
  intro w hw
  obtain ⟨page, -, hd⟩ := (mem_sortedPages m).mp hw
  rw [← hd]
  exact page.size

theorem sortedPages_nodup : ((sortedPages m).map Prod.fst).Nodup := by
  have hmap : (sortedPages m).map Prod.fst = m.toList.map Prod.fst := by
    simp [sortedPages, Function.comp_def]
  rw [hmap]
  exact nodup_keys m

theorem lastWrite_sortedPages (q : Nat) :
    lastWrite q (sortedPages m) = m[q]?.map Page.data := by
  cases hq : m[q]? with
  | some page =>
      exact lastWrite_of_mem (sortedPages_nodup m) ((mem_sortedPages m).mpr ⟨page, hq, rfl⟩)
  | none =>
      rw [Option.map_none, lastWrite_eq_none]
      rintro w hw rfl
      obtain ⟨page, hp, -⟩ := (mem_sortedPages m).mp hw
      rw [hq] at hp
      cases hp

@[simp] theorem sortedPages_empty : sortedPages ∅ = [] := by simp [sortedPages]

theorem endOf_sortedPages_insert (id : Nat) (page : Page) :
    endOf pageSize (sortedPages (m.insert id page)) =
      max (endOf pageSize (sortedPages m)) ((id + 1) * pageSize) := by
  refine le_antisymm (endOf_le ?_) (max_le (endOf_le ?_) ?_)
  · intro w hw
    obtain ⟨pg, hpg, hd⟩ := (mem_sortedPages _).mp hw
    rw [Std.ExtTreeMap.getElem?_insert] at hpg
    split at hpg
    · rename_i heq
      rw [Std.compare_eq_iff_eq.mp heq]
      exact le_max_right _ _
    · exact le_trans (le_endOf ((mem_sortedPages m).mpr ⟨pg, hpg, hd⟩)) (le_max_left _ _)
  · intro w hw
    obtain ⟨pg, hpg, hd⟩ := (mem_sortedPages _).mp hw
    by_cases hid : id = w.1
    · subst hid
      exact le_endOf (w := (w.1, page.data)) ((mem_sortedPages _).mpr ⟨page, by simp, rfl⟩)
    · refine le_endOf (w := w) ((mem_sortedPages _).mpr ⟨pg, ?_, hd⟩)
      simp [Std.ExtTreeMap.getElem?_insert, hid, hpg]
  · exact le_endOf (w := (id, page.data)) ((mem_sortedPages _).mpr ⟨page, by simp, rfl⟩)

/-- A page of a map over a file. -/
theorem block_applied (f : Bytes) (q : Nat) :
    block pageSize (applied f (sortedPages m)) q =
      (m[q]?.map Page.data).getD (block pageSize f q) := by
  rw [block_writeBlocks pageSize_pos f (sortedPages_whole m), lastWrite_sortedPages]

theorem length_applied (f : Bytes) :
    (applied f (sortedPages m)).length = max f.length (endOf pageSize (sortedPages m)) :=
  length_writeBlocks pageSize_pos f (sortedPages_whole m)

/-- A page of the map lies below the end of the file it was written to. -/
theorem le_length_applied {f : Bytes} {q : Nat} {page : Page} (h : m[q]? = some page) :
    (q + 1) * pageSize ≤ (applied f (sortedPages m)).length := by
  rw [length_applied]
  exact le_trans (le_endOf (w := (q, page.data)) ((mem_sortedPages m).mpr ⟨page, h, rfl⟩))
    (le_max_right _ _)

end Pager

open Pager

/-! ## The invariant -/

/-- If the file ends inside a page, that page is in the map. -/
def TailIn (m : PageMap) (f : Bytes) : Prop :=
  ∀ q, q * pageSize < f.length → f.length < (q + 1) * pageSize → m[q]? ≠ none

theorem TailIn.of_dvd {m : PageMap} {f : Bytes} (h : pageSize ∣ f.length) : TailIn m f := by
  obtain ⟨k, hk⟩ := h
  rw [mul_comm] at hk
  intro q h1 h2
  rw [hk] at h1 h2
  have h3 : q < k := Nat.lt_of_mul_lt_mul_right h1
  have h4 : k < q + 1 := Nat.lt_of_mul_lt_mul_right h2
  omega

theorem TailIn.overwrite {m : PageMap} {f bs : Bytes} {w : Nat} (h : TailIn m f)
    (hw : m[w]? ≠ none) (hlen : bs.length = pageSize) (n : Nat) :
    TailIn m (overwrite f (w * pageSize) (bs.take n)) := by
  by_cases hnil : bs.take n = []
  · rw [hnil, overwrite_nil]
    exact h
  · have hk : (bs.take n).length ≤ pageSize := by
      rw [List.length_take]
      omega
    intro q h1 h2
    rw [length_overwrite f _ hnil] at h1 h2
    by_cases hle : w * pageSize + (bs.take n).length ≤ f.length
    · rw [max_eq_left hle] at h1 h2
      exact h q h1 h2
    · rw [max_eq_right (by omega)] at h1 h2
      -- the end of the write lies in its own page
      have hq : q = w := by
        have h3 : q < w + 1 :=
          Nat.lt_of_mul_lt_mul_right (a := pageSize) (by rw [Nat.succ_mul]; omega)
        have h4 : w < q + 1 := Nat.lt_of_mul_lt_mul_right (a := pageSize) (by omega)
        omega
      exact hq ▸ hw

/-- The pager over its files. -/
structure PagerInv (crc : Bytes → UInt32) (S : Bytes) (gs : List CommittedGroup) (d : Disk)
    (p : Pager) : Prop where
  base : applied d.data.now (sortedPages p.committed) = S
  consistent : d.data.now ∈ d.data.after
  tail : TailIn p.committed d.data.now
  len : p.wal.len = (groupsBytes crc gs).length
  nextId : p.wal.nextGroupId < u64Size
  activeId : ∀ id, p.activeGroup = some id → id < u64Size
  pages : p.numPages * pageSize = (applied S (sortedPages p.pending)).length
  bound : p.numPages ≤ maxPages
  idle : p.activeGroup = none → p.pending = ∅ ∧ p.savepoint = none
  start : p.activeGroup ≠ none →
    p.groupStartPages ≤ maxPages ∧ p.groupStartPages * pageSize = S.length
  savepoint : ∀ sp, p.savepoint = some sp → sp.numPages ≤ maxPages ∧
    sp.numPages * pageSize = (applied S (sortedPages (rolledBack sp p.pending))).length
  cache : ∀ q page, p.cache[q]? = some page → p.pending[q]? = some page ∨
    (p.pending[q]? = none ∧ page.data = block pageSize S q ∧ (q + 1) * pageSize ≤ S.length)

theorem maxPages_lt : maxPages * pageSize < u64Size := by rw [pageSize_eq]; decide

theorem offset_eq {q : Nat} (h : q < maxPages) : q * pageSize % u64Size = q * pageSize := by
  apply Nat.mod_eq_of_lt
  have := maxPages_lt
  have := Nat.mul_lt_mul_of_pos_right h pageSize_pos
  omega

theorem succ_mod_u64 {q : Nat} (h : q < maxPages) : (q + 1) % u64Size = q + 1 := by
  apply Nat.mod_eq_of_lt
  have hmax : maxPages + 1 < u64Size := by decide
  omega

theorem bufferPage_numPages {id : Nat} (hid : id < maxPages) (page : Page) (p : Pager) :
    (Pager.bufferPage id page p).numPages = max p.numPages (id + 1) := by
  show (if p.numPages ≤ id then (id + 1) % u64Size else p.numPages) = _
  rw [succ_mod_u64 hid]
  split <;> omega

/-- What a rollback would restore is what it was. -/
theorem bufferPage_savepoint {id : Nat} {page : Page} {p : Pager} {sp' : Savepoint}
    (h : (Pager.bufferPage id page p).savepoint = some sp') :
    ∃ sp, p.savepoint = some sp ∧ sp'.numPages = sp.numPages ∧
      rolledBack sp' (p.pending.insert id page) = rolledBack sp p.pending := by
  cases hsp : p.savepoint with
  | none =>
      have hnone : (Pager.bufferPage id page p).savepoint = none := by
        show p.savepoint.map _ = none
        rw [hsp]
        rfl
      rw [hnone] at h
      cases h
  | some sp => exact ⟨sp, rfl, rolledBack_noteUndo page hsp h⟩

namespace PagerInv

variable {crc : Bytes → UInt32} {S : Bytes} {gs : List CommittedGroup} {d : Disk} {p : Pager}

/-- `Σ` is a whole number of pages. -/
theorem length_le (h : PagerInv crc S gs d p) : S.length ≤ p.numPages * pageSize := by
  rw [h.pages]
  exact length_le_applied S (sortedPages_whole _)

theorem dvd (h : PagerInv crc S gs d p) : pageSize ∣ S.length := by
  by_cases hact : p.activeGroup = none
  · have hp := h.pages
    rw [(h.idle hact).1, sortedPages_empty] at hp
    exact ⟨p.numPages, by rw [mul_comm]; exact hp.symm⟩
  · exact ⟨p.groupStartPages, by rw [mul_comm]; exact (h.start hact).2.symm⟩

theorem committed_page (h : PagerInv crc S gs d p) {q : Nat} {page : Page}
    (hq : p.committed[q]? = some page) :
    block pageSize S q = page.data ∧ (q + 1) * pageSize ≤ S.length := by
  constructor
  · rw [← h.base, block_applied, hq]
    rfl
  · rw [← h.base]
    exact le_length_applied _ hq

theorem lt_numPages (h : PagerInv crc S gs d p) {q : Nat}
    (hq : (q + 1) * pageSize ≤ S.length) : q < p.numPages := by
  have hle := le_trans hq h.length_le
  exact Nat.lt_of_succ_le (Nat.le_of_mul_le_mul_right hle pageSize_pos)

theorem pending_lt (h : PagerInv crc S gs d p) {q : Nat} {page : Page}
    (hq : p.pending[q]? = some page) : q < p.numPages := by
  have hle := le_length_applied p.pending (f := S) hq
  rw [← h.pages] at hle
  exact Nat.lt_of_succ_le (Nat.le_of_mul_le_mul_right hle pageSize_pos)

/-- Only the files and `committed` matter to `base`; the rest is the pager's own. -/
theorem with_disk (h : PagerInv crc S gs d p) {d' : Disk} {gs' : List CommittedGroup}
    (committed : PageMap) (len : Nat)
    (hbase : applied d'.data.now (sortedPages committed) = S)
    (hcons : d'.data.now ∈ d'.data.after) (htail : TailIn committed d'.data.now)
    (hlen : len = (groupsBytes crc gs').length) :
    PagerInv crc S gs' d'
      { p with committed := committed, wal := { p.wal with len := len } } :=
  { h with base := hbase, consistent := hcons, tail := htail, len := hlen }

theorem beginGroup (h : PagerInv crc S gs d p) (hno : p.activeGroup = none) :
    PagerInv crc S gs d (begun p) :=
  { h with
    nextId := Nat.mod_lt _ (by decide)
    activeId := by
      intro id hid
      exact Option.some.inj hid ▸ h.nextId
    idle := by simp [begun]
    start := by
      intro _
      refine ⟨h.bound, ?_⟩
      have hp := h.pages
      rw [(h.idle hno).1, sortedPages_empty] at hp
      exact hp }

theorem abortGroup (h : PagerInv crc S gs d p) (hact : p.activeGroup ≠ none) :
    PagerInv crc S gs d (aborted p) :=
  { h with
    activeId := by simp [aborted]
    pages := by
      show p.groupStartPages * pageSize = (applied S (sortedPages ∅)).length
      rw [sortedPages_empty]
      exact (h.start hact).2
    bound := (h.start hact).1
    idle := fun _ => ⟨rfl, rfl⟩
    start := by simp [aborted]
    savepoint := by simp [aborted]
    cache := by
      intro q page hq
      simp only [aborted, evictAll_getElem?, Std.ExtTreeMap.mem_keys] at hq
      split at hq
      · cases hq
      · rename_i hk
        rcases h.cache q page hq with hc | ⟨-, hd, hl⟩
        · exact absurd (Std.ExtTreeMap.isSome_getElem?_iff_mem.mp (by simp [hc])) hk
        · exact Or.inr ⟨by simp [aborted], hd, hl⟩ }

/-- An empty group committed. -/
theorem endGroup (h : PagerInv crc S gs d p) (he : p.pending = ∅) :
    PagerInv crc S gs d { p with savepoint := none, activeGroup := none } :=
  { h with
    activeId := by simp
    idle := fun _ => ⟨he, rfl⟩
    start := by simp
    savepoint := by simp }

theorem endSavepoint (h : PagerInv crc S gs d p) :
    PagerInv crc S gs d { p with savepoint := none } :=
  { h with
    idle := fun hno => ⟨(h.idle hno).1, rfl⟩
    savepoint := by simp }

theorem beginSavepoint (h : PagerInv crc S gs d p) (hact : p.activeGroup ≠ none) :
    PagerInv crc S gs d { p with savepoint := some ⟨∅, p.numPages⟩ } :=
  { h with
    idle := fun hno => absurd hno hact
    savepoint := by
      intro sp hsp
      obtain rfl := Option.some.inj hsp
      rw [rolledBack_empty]
      exact ⟨h.bound, h.pages⟩ }

theorem rollback {sp : Savepoint} (h : PagerInv crc S gs d p) (hsp : p.savepoint = some sp) :
    PagerInv crc S gs d (undone sp p) :=
  { h with
    pages := (h.savepoint sp hsp).2
    bound := (h.savepoint sp hsp).1
    idle := by
      intro hno
      rw [(h.idle hno).2] at hsp
      cases hsp
    savepoint := by simp [undone]
    cache := by
      intro q page hq
      have hroll : (restore sp.undo.toList p.pending)[q]? = (sp.undo[q]?).getD p.pending[q]? :=
        rolledBack_getElem? sp p.pending q
      simp only [undone, evictAll_getElem?, Std.ExtTreeMap.mem_keys] at hq
      split at hq
      · cases hq
      · rename_i hk
        have hno : sp.undo[q]? = none := Std.ExtTreeMap.getElem?_eq_none hk
        rw [hno] at hroll
        simp only [undone, hroll, Option.getD_none]
        exact h.cache q page hq }

/-- Buffering a page. -/
theorem bufferPage (h : PagerInv crc S gs d p) (hact : p.activeGroup ≠ none) {id : Nat}
    (hid : id < maxPages) (page : Page) : PagerInv crc S gs d (Pager.bufferPage id page p) := by
  have hnum := bufferPage_numPages hid page p
  have hpend : (Pager.bufferPage id page p).pending = p.pending.insert id page := rfl
  refine ⟨h.base, h.consistent, h.tail, h.len, h.nextId, h.activeId, ?_, ?_,
    fun hno => absurd hno hact, h.start, ?_, ?_⟩
  · have hp := h.pages
    rw [length_applied] at hp
    rw [hnum, hpend, length_applied, endOf_sortedPages_insert, ← max_assoc, ← hp,
      Nat.mul_max_mul_right]
  · rw [hnum]
    exact max_le h.bound hid
  · intro sp' hsp'
    obtain ⟨sp, hsp, hn, hr⟩ := bufferPage_savepoint hsp'
    rw [hn, hpend, hr]
    exact h.savepoint sp hsp
  · intro q pg hq
    rw [hpend]
    rcases cachePage_getElem? (p := p) hq with ⟨rfl, rfl⟩ | ⟨hne, hq⟩
    · simp
    · have hsame : (p.pending.insert id page)[q]? = p.pending[q]? := by
        simp [Std.ExtTreeMap.getElem?_insert, Ne.symm hne]
      rw [hsame]
      exact h.cache q pg hq

end PagerInv

end VelociDB
