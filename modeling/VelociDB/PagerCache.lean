/-
# The page cache is coherent

`read_page` looks into the cache before `committed` and before it checks the bounds.  A
cached page must therefore be the newest version of a page that exists, after every method,
whatever the loops that make room evict and whatever file operation fails.

    Counted c        the counter of the cache is its size, and the size is at most CACHE_SIZE
    Stored d m q pg  without the active group, page `q` is `pg`: in `committed`, else on file
    CacheInv b d p   every cached page is pending or stored; without the active group there
                     are `b` pages, and no page of `committed` or of the file lies past them

The log plays no part here: its operations leave the data file alone (`wp_walOnly`).
-/
import VelociDB.Reopen
import VelociDB.WalScan

namespace VelociDB

open Bytes Blocks Wal PagerSys Snapshot Pager

/-! ## The counter -/

namespace Pager

/-- The cache has room for no more than it may hold, and its counter is right. -/
structure Counted (c : PageMap × Nat) : Prop where
  size : c.2 = c.1.size
  room : c.1.size ≤ VelociDB.cacheSize

theorem fetchSub_eq {n : Nat} (hpos : 0 < n) (hle : n ≤ VelociDB.cacheSize) :
    fetchSub n = n - 1 := by
  have hsize : n ≤ 1024 := hle
  simp only [fetchSub, u64Size]
  omega

theorem fetchAdd_eq {n : Nat} (hle : n ≤ VelociDB.cacheSize) : fetchAdd n = n + 1 := by
  have hsize : n ≤ 1024 := hle
  simp only [fetchAdd, u64Size]
  omega

theorem size_erase_of_contains {m : PageMap} {q : Nat} (h : m.contains q) :
    (m.erase q).size = m.size - 1 ∧ 0 < m.size := by
  have hne : m ≠ ∅ := by
    rintro rfl
    simp at h
  rw [Std.ExtTreeMap.size_erase, if_pos h]
  exact ⟨rfl, Nat.pos_of_ne_zero (mt Std.ExtTreeMap.eq_empty_iff_size_eq_zero.2 hne)⟩

theorem Counted.evict {c : PageMap × Nat} (h : Counted c) (q : Nat) :
    Counted (Pager.evict c q) ∧ (Pager.evict c q).1.size ≤ c.1.size := by
  unfold Pager.evict
  split
  · rename_i hq
    obtain ⟨hsize, hpos⟩ := size_erase_of_contains hq
    have hroom := h.room
    refine ⟨⟨?_, ?_⟩, ?_⟩
    · show fetchSub c.2 = (c.1.erase q).size
      rw [h.size, fetchSub_eq hpos hroom, hsize]
    · show (c.1.erase q).size ≤ _
      omega
    · show (c.1.erase q).size ≤ _
      omega
  · exact ⟨h, le_rfl⟩

theorem Counted.evictAll {ids : List Nat} : ∀ {c : PageMap × Nat}, Counted c →
    Counted (Pager.evictAll ids c) := by
  induction ids with
  | nil => exact fun h => h
  | cons id ids ih => exact fun h => ih (h.evict id).1

/-- Room is made: the loop ends with a free place, or at the page about to be written. -/
theorem Counted.makeRoom {keep : Option Nat} : ∀ {fuel : Nat} {c : PageMap × Nat}
    {order : Nat → Nat}, Counted c → c.1.size ≤ fuel →
      Counted (Pager.makeRoom keep fuel c order).1 ∧
        ((Pager.makeRoom keep fuel c order).1.1.size < VelociDB.cacheSize ∨
          ∃ id, keep = some id ∧ (Pager.makeRoom keep fuel c order).1.1.contains id)
  | 0, c, order, h, hfuel => by
      refine ⟨h, Or.inl ?_⟩
      show c.1.size < 1024
      omega
  | fuel + 1, c, order, h, hfuel => by
      rw [Pager.makeRoom]
      split
      · exact ⟨h, Or.inl ‹_›⟩
      · rename_i hfull
        have hpos : 0 < c.1.size := by
          have hlarge : ¬ c.1.size < 1024 := hfull
          omega
        have hlt : order 0 % c.1.size < c.1.keys.length := by
          rw [Std.ExtTreeMap.length_keys]
          exact Nat.mod_lt _ hpos
        split
        · rename_i hnone
          exact absurd (List.getElem?_eq_none_iff.1 hnone) (by omega)
        · rename_i key hkey
          have hmem : c.1.contains key :=
            Std.ExtTreeMap.mem_iff_contains.1 (Std.ExtTreeMap.mem_keys.1 (List.mem_of_getElem? hkey))
          split
          · rename_i hkeep
            exact ⟨h, Or.inr ⟨key, hkeep, hmem⟩⟩
          · have hsize := (size_erase_of_contains hmem).1
            have hevict : Pager.evict c key = (c.1.erase key, fetchSub c.2) := by
              unfold Pager.evict
              exact if_pos hmem
            refine Counted.makeRoom (h.evict key).1 ?_
            rw [hevict]
            show (c.1.erase key).size ≤ fuel
            omega

theorem counted_cachePage {keep : Option Nat} {id : Nat} {page : Page} {p : Pager}
    (h : Counted (p.cache, p.cacheSize)) (hkeep : keep = none ∨ keep = some id) :
    Counted ((cachePage keep id page p).cache, (cachePage keep id page p).cacheSize) := by
  obtain ⟨hroom, hplace⟩ := @Counted.makeRoom keep _ _ p.order h le_rfl
  have hbound := hroom.room
  have hsize := hroom.size
  simp only [cachePage]
  generalize (makeRoom keep p.cache.size (p.cache, p.cacheSize) p.order).1 = room at *
  by_cases hin : room.1.contains id = true
  · rw [if_pos hin]
    refine ⟨?_, ?_⟩
    · show room.2 = (room.1.insert id page).size
      rw [Std.ExtTreeMap.size_insert, if_pos hin, hsize]
    · show (room.1.insert id page).size ≤ _
      rw [Std.ExtTreeMap.size_insert, if_pos hin]
      exact hbound
  · rw [if_neg hin]
    have hfree : room.1.size < VelociDB.cacheSize := by
      obtain hlt | ⟨k, hk, hc⟩ := hplace
      · exact hlt
      · obtain rfl | rfl := hkeep
        · cases hk
        · obtain rfl := Option.some.inj hk
          exact absurd hc hin
    refine ⟨?_, ?_⟩
    · show fetchAdd room.2 = (room.1.insert id page).size
      rw [Std.ExtTreeMap.size_insert, if_neg hin, hsize, fetchAdd_eq hbound]
    · show (room.1.insert id page).size ≤ _
      rw [Std.ExtTreeMap.size_insert, if_neg hin]
      omega

end Pager

/-! ## What a page is -/

/-- Page `q` of the data file, if the file holds all of it. -/
def Disk.filePage (d : Disk) (q : Nat) : Except VelociError Page :=
  if (q + 1) * pageSize ≤ d.data.now.length then
    .ok ⟨block pageSize d.data.now q, length_block _ _⟩
  else .error Disk.unexpectedEof

/-- Page `q` as it is without the active group: from `committed`, else from the file. -/
def Stored (d : Disk) (committed : PageMap) (q : Nat) (page : Page) : Prop :=
  committed[q]? = some page ∨ (committed[q]? = none ∧ d.filePage q = .ok page)

/-- The newest version of page `q`: from `pending`, else as it is stored. -/
def Pager.current (p : Pager) (d : Disk) (q : Nat) : Except VelociError Page :=
  match p.pending[q]? with
  | some page => .ok page
  | none =>
      match p.committed[q]? with
      | some page => .ok page
      | none => if p.numPages ≤ q then .error (outOfBounds q) else d.filePage q

variable {d d' : Disk} {b q : Nat} {page : Page} {p : Pager} {m : PageMap}

theorem filePage_ok (h : d.filePage q = .ok page) :
    (q + 1) * pageSize ≤ d.data.now.length ∧ page.data = block pageSize d.data.now q := by
  unfold Disk.filePage at h
  split at h
  · rename_i hlen
    cases h
    exact ⟨hlen, rfl⟩
  · cases h

theorem filePage_congr (hlen : (q + 1) * pageSize ≤ d.data.now.length →
    (q + 1) * pageSize ≤ d'.data.now.length)
    (hblock : block pageSize d'.data.now q = block pageSize d.data.now q)
    (h : d.filePage q = .ok page) : d'.filePage q = .ok page := by
  obtain ⟨hle, hdata⟩ := filePage_ok h
  rw [Disk.filePage, if_pos (hlen hle)]
  exact congrArg Except.ok (Page.ext (hblock.trans hdata.symm))

theorem filePage_data (h : d'.data = d.data) : d'.filePage q = d.filePage q := by
  rw [Disk.filePage, Disk.filePage]
  simp only [h]

/-! ## The invariant -/

/-- The pager over its data file, as far as reads can tell. -/
structure CacheInv (b : Nat) (d : Disk) (p : Pager) : Prop where
  counted : Counted (p.cache, p.cacheSize)
  base_le : b ≤ p.numPages
  bound : p.numPages ≤ maxPages
  file : d.data.now.length ≤ b * pageSize
  committed : ∀ q page, p.committed[q]? = some page → q < b
  pending : ∀ q page, p.pending[q]? = some page → q < p.numPages
  idle : p.activeGroup = none → p.numPages = b ∧ p.pending = ∅ ∧ p.savepoint = none
  start : p.activeGroup ≠ none → p.groupStartPages = b
  savepoint : ∀ sp, p.savepoint = some sp → b ≤ sp.numPages ∧ sp.numPages ≤ maxPages ∧
    ∀ q page, (rolledBack sp p.pending)[q]? = some page → q < sp.numPages
  cache : ∀ q page, p.cache[q]? = some page →
    p.pending[q]? = some page ∨ (p.pending[q]? = none ∧ Stored d p.committed q page)

namespace CacheInv

/-- A stored page is below the pages the group began with. -/
theorem stored_lt (h : CacheInv b d p) (hq : Stored d p.committed q page) : q < b := by
  obtain hc | ⟨-, hf⟩ := hq
  · exact h.committed q page hc
  · have hle := (filePage_ok hf).1.trans h.file
    exact Nat.lt_of_succ_le (Nat.le_of_mul_le_mul_right hle pageSize_pos)

theorem cached_current (h : CacheInv b d p) (hq : p.cache[q]? = some page) :
    p.current d q = .ok page := by
  unfold Pager.current
  obtain hp | ⟨hp, hs⟩ := h.cache q page hq
  · rw [hp]
  · have hlt := h.stored_lt hs
    have hbase := h.base_le
    rw [hp]
    obtain hc | ⟨hc, hf⟩ := hs
    · simp only [hc]
    · simp only [hc]
      rw [if_neg (by omega), hf]

/-- The answer is that the page does not exist exactly past the last page. -/
theorem notFound_iff (h : CacheInv b d p) (q : Nat) :
    (∃ msg, p.current d q = .error (.notFound msg)) ↔ p.numPages ≤ q := by
  unfold Pager.current
  have hbase := h.base_le
  cases hp : p.pending[q]? with
  | some page =>
      have hlt := h.pending q page hp
      exact iff_of_false (by rintro ⟨_, ⟨⟩⟩) (by omega)
  | none =>
      cases hc : p.committed[q]? with
      | some page =>
          have hlt := h.committed q page hc
          exact iff_of_false (by rintro ⟨_, ⟨⟩⟩) (by omega)
      | none =>
          dsimp only
          split
          · exact iff_of_true ⟨_, rfl⟩ ‹_›
          · refine iff_of_false ?_ ‹_›
            unfold Disk.filePage
            split <;> rintro ⟨_, ⟨⟩⟩

theorem with_wal (h : CacheInv b d p) (hdata : d'.data = d.data) (wal : WalManager) :
    CacheInv b d' { p with wal := wal } :=
  { h with
    file := by
      rw [hdata]
      exact h.file
    cache := fun q page hq => (h.cache q page hq).imp id (And.imp_right fun hs =>
      hs.imp id (And.imp_right fun hf => (filePage_data hdata).trans hf)) }

theorem beginGroup (h : CacheInv b d p) (hno : p.activeGroup = none) :
    CacheInv b d (begun p) :=
  { h with
    idle := by simp [begun]
    start := fun _ => (h.idle hno).1 }

theorem abortGroup (h : CacheInv b d p) (hact : p.activeGroup ≠ none) :
    CacheInv b d (aborted p) where
  counted := h.counted.evictAll
  base_le := (h.start hact).ge
  bound := by
    show p.groupStartPages ≤ maxPages
    rw [h.start hact]
    exact h.base_le.trans h.bound
  file := h.file
  committed := h.committed
  pending := by simp [aborted]
  idle := fun _ => ⟨h.start hact, rfl, rfl⟩
  start := by simp [aborted]
  savepoint := by simp [aborted]
  cache := by
    intro q page hq
    simp only [aborted, evictAll_getElem?, Std.ExtTreeMap.mem_keys] at hq
    split at hq
    · cases hq
    · rename_i hk
      obtain hp | ⟨-, hs⟩ := h.cache q page hq
      · exact absurd (Std.ExtTreeMap.isSome_getElem?_iff_mem.mp (by simp [hp])) hk
      · exact Or.inr ⟨by simp [aborted], hs⟩

/-- An empty group committed. -/
theorem endGroup (h : CacheInv b d p) (he : p.pending = ∅) :
    CacheInv p.numPages d { p with savepoint := none, activeGroup := none } :=
  { h with
    base_le := le_rfl
    file := h.file.trans (Nat.mul_le_mul_right _ h.base_le)
    committed := fun q page hq => lt_of_lt_of_le (h.committed q page hq) h.base_le
    idle := fun _ => ⟨rfl, he, rfl⟩
    start := by simp
    savepoint := by simp }

theorem endSavepoint (h : CacheInv b d p) : CacheInv b d { p with savepoint := none } :=
  { h with
    idle := fun hno => ⟨(h.idle hno).1, (h.idle hno).2.1, rfl⟩
    savepoint := by simp }

theorem beginSavepoint (h : CacheInv b d p) (hact : p.activeGroup ≠ none) :
    CacheInv b d { p with savepoint := some ⟨∅, p.numPages⟩ } :=
  { h with
    idle := fun hno => absurd hno hact
    savepoint := by
      intro sp hsp
      obtain rfl := Option.some.inj hsp
      rw [rolledBack_empty]
      exact ⟨h.base_le, h.bound, h.pending⟩ }

theorem rollback {sp : Savepoint} (h : CacheInv b d p) (hsp : p.savepoint = some sp) :
    CacheInv b d (undone sp p) :=
  { h with
    counted := h.counted.evictAll
    base_le := (h.savepoint sp hsp).1
    bound := (h.savepoint sp hsp).2.1
    pending := (h.savepoint sp hsp).2.2
    idle := by
      intro hno
      rw [(h.idle hno).2.2] at hsp
      cases hsp
    savepoint := by simp [undone]
    cache := by
      intro q page hq
      have hroll : (restore sp.undo.toList p.pending)[q]? = (sp.undo[q]?).getD p.pending[q]? :=
        rolledBack_getElem? sp p.pending q
      simp only [undone, evictAll_getElem?, Std.ExtTreeMap.mem_keys] at hq
      split at hq
      · cases hq
      · rename_i hk
        have hno : sp.undo[q]? = none := Std.ExtTreeMap.getElem?_eq_none hk
        rw [hno] at hroll
        simp only [undone, hroll, Option.getD_none]
        exact h.cache q page hq }

/-- The pages of the group become stored pages. -/
theorem logged (h : CacheInv b d p) (hsp : p.savepoint = none) :
    CacheInv p.numPages d (Pager.logged p) :=
  { h with
    base_le := le_rfl
    file := h.file.trans (Nat.mul_le_mul_right _ h.base_le)
    committed := by
      intro q page hq
      have hor : (p.committed ∪ p.pending)[q]? = some page := hq
      rw [Std.ExtTreeMap.getElem?_union, Option.or_eq_some_iff] at hor
      obtain hp | ⟨-, hc⟩ := hor
      · exact h.pending q page hp
      · exact lt_of_lt_of_le (h.committed q page hc) h.base_le
    pending := by simp [Pager.logged]
    idle := fun _ => ⟨rfl, rfl, hsp⟩
    start := by simp [Pager.logged]
    savepoint := by simp [Pager.logged, hsp]
    cache := by
      intro q page hq
      refine Or.inr ⟨by simp [Pager.logged], ?_⟩
      show Stored d (p.committed ∪ p.pending) q page
      rw [Stored, Std.ExtTreeMap.getElem?_union]
      obtain hp | ⟨hp, hs⟩ := h.cache q page hq
      · exact Or.inl (by rw [hp]; rfl)
      · rw [hp]
        exact hs }

/-- Caching the newest version of a page. -/
theorem cachePage (h : CacheInv b d p) (hno : p.pending[q]? = none)
    (hs : Stored d p.committed q page) : CacheInv b d (Pager.cachePage none q page p) :=
  { h with
    counted := counted_cachePage h.counted (Or.inl rfl)
    cache := by
      intro q' page' hq'
      obtain ⟨rfl, rfl⟩ | ⟨-, hq'⟩ := cachePage_getElem? (p := p) hq'
      · exact Or.inr ⟨hno, hs⟩
      · exact h.cache q' page' hq' }

/-- Buffering a page. -/
theorem bufferPage (h : CacheInv b d p) (hact : p.activeGroup ≠ none) {id : Nat}
    (hid : id < maxPages) (page : Page) : CacheInv b d (Pager.bufferPage id page p) := by
  have hnum := bufferPage_numPages hid page p
  have hpend : (Pager.bufferPage id page p).pending = p.pending.insert id page := rfl
  refine ⟨counted_cachePage (p := { noteUndo id p with pending := p.pending.insert id page })
      h.counted (Or.inr rfl), ?_, ?_, h.file, h.committed, ?_, fun hno => absurd hno hact,
    h.start, ?_, ?_⟩
  · rw [hnum]
    exact h.base_le.trans (le_max_left _ _)
  · rw [hnum]
    exact max_le h.bound hid
  · intro q page' hq
    rw [hnum]
    rw [hpend, Std.ExtTreeMap.getElem?_insert] at hq
    split at hq
    · rename_i heq
      obtain rfl := Std.compare_eq_iff_eq.mp heq
      exact le_max_right p.numPages (id + 1)
    · exact lt_of_lt_of_le (h.pending q page' hq) (le_max_left _ _)
  · intro sp' hsp'
    obtain ⟨sp, hsp, hn, hr⟩ := bufferPage_savepoint hsp'
    rw [hn, hpend, hr]
    exact h.savepoint sp hsp
  · intro q pg hq
    rw [hpend]
    obtain ⟨rfl, rfl⟩ | ⟨hne, hq⟩ := cachePage_getElem? (p := p) hq
    · simp
    · have hsame : (p.pending.insert id page)[q]? = p.pending[q]? := by
        simp [Std.ExtTreeMap.getElem?_insert, Ne.symm hne]
      rw [hsame]
      exact h.cache q pg hq

end CacheInv

/-! ## The log leaves the data file alone -/

/-- The operations on the log. -/
def DiskOp.OnWal : DiskOp → Prop
  | .walLen | .walSeek _ | .walReadToEnd | .walWrite .. | .walSync | .walSetLen _ => True
  | _ => False

theorem Disk.Faulty.onWal {op : DiskOp} {r : Except VelociError op.Ans} (hop : op.OnWal)
    (h : Disk.Faulty op d r d') : d'.data = d.data := by
  cases h with
  | done =>
      cases op with
      | walLen | walSeek | walReadToEnd | walWrite | walSync | walSetLen => rfl
      | dataLen | dataSeek | dataRead | dataWrite | dataSync => exact absurd hop id
  | dataSeek | dataWrite | dataSyncLost | dataSyncDone => exact absurd hop id
  | walSeek | walWrite | walSyncLost | walSyncDone | walSetLenLost | walSetLenDone => rfl

/-- What holds at the end of a program over the files, any operation failing. -/
abbrev FileEnds {α : Type} (m : IoProg α) (d : Disk) (Q : Except VelociError α → Disk → Prop) :
    Prop := Prog.wp Disk.Faulty (fun _ => True) m d Q

/-- What holds at the end of a method, any operation failing. -/
abbrev MethodEnds {α : Type} (m : PagerM α) (p : Pager) (d : Disk)
    (Q : Except VelociError α → Pager → Disk → Prop) : Prop :=
  PagerM.wp Disk.Faulty (fun _ => True) m p d Q

theorem ends_onWal {α : Type} {m : IoProg α} (hm : m.Only DiskOp.OnWal) (d : Disk) :
    FileEnds m d fun _ d' => d'.data = d.data :=
  Prog.wp_of_only (fun _ _ _ _ hop h hI => (h.onWal hop).trans hI) hm rfl

/-- One operation on the log. -/
theorem onWal_io {op : DiskOp} (hop : op.OnWal) : (io op).Only DiskOp.OnWal := Prog.only_lift hop

theorem onWal_truncate (w : WalManager) : w.truncate.Only DiskOp.OnWal :=
  Prog.only_bind (onWal_io (show DiskOp.OnWal (.walSetLen 0) from trivial)) fun _ =>
    Prog.only_bind (onWal_io (show DiskOp.OnWal (.walSeek 0) from trivial)) fun _ =>
      Prog.only_bind (onWal_io (show DiskOp.OnWal .walSync from trivial)) fun _ => trivial

theorem ends_appendGroup (crc : Bytes → UInt32) (w : WalManager) (g : CommittedGroup) (d : Disk) :
    FileEnds (w.appendGroup crc g) d fun o d' =>
      (∃ r w', o = .ok (r, w')) ∧ d'.data = d.data := by
  unfold WalManager.appendGroup
  cases g.writes.find? fun p => p.2.length ≠ pageSize with
  | some v => exact ⟨trivial, ⟨_, _, rfl⟩, rfl⟩
  | none =>
      have honly : (io (.walSeek w.len) >>= fun _ => io (.walWrite w.len (groupBytes crc g)) >>=
          fun _ => io .walSync).Only DiskOp.OnWal :=
        Prog.only_bind (onWal_io trivial) fun _ => Prog.only_bind (onWal_io trivial) fun _ =>
          onWal_io trivial
      refine Prog.wp_bind (Prog.wp_attempt (Prog.wp_mono (ends_onWal honly d) ?_))
      intro o d₁ _ h₁
      cases o with
      | ok _ => exact ⟨trivial, ⟨_, _, rfl⟩, h₁⟩
      | error e =>
          have hcut : (io (.walSetLen w.len)).Only DiskOp.OnWal := onWal_io trivial
          refine Prog.wp_bind (Prog.wp_attempt (Prog.wp_mono (ends_onWal hcut d₁) ?_))
          intro o d₂ _ h₂
          exact ⟨trivial, ⟨_, _, rfl⟩, h₂.trans h₁⟩

theorem ends_truncateWal (p : Pager) (d : Disk) :
    MethodEnds truncateWal p d fun _ p' d' =>
      d'.data = d.data ∧ ∃ wal, p' = { p with wal := wal } := by
  refine PagerM.wp_wal (Prog.wp_bind (Prog.wp_attempt (Prog.wp_mono
    (ends_onWal (onWal_truncate p.wal) d) ?_)))
  intro o d₁ _ h₁
  cases o with
  | ok w => exact ⟨trivial, h₁, w, rfl⟩
  | error e => exact ⟨trivial, h₁, p.wal, rfl⟩

/-! ## Checkpoints -/

/-- Between two states of the file only pages of `m` have changed, and none was added past
page `b`. -/
structure FileKept (b : Nat) (m : PageMap) (d d' : Disk) : Prop where
  file : d'.data.now.length ≤ b * pageSize
  page : ∀ q page, m[q]? = none → d.filePage q = .ok page → d'.filePage q = .ok page

theorem page_disjoint {q w n : Nat} (hne : q ≠ w) (hn : n ≤ pageSize) :
    q * pageSize + pageSize ≤ w * pageSize ∨ w * pageSize + n ≤ q * pageSize := by
  rcases Nat.lt_or_gt_of_ne hne with hlt | hgt
  · left
    rw [← Nat.succ_mul]
    exact Nat.mul_le_mul_right _ hlt
  · right
    have hle : (w + 1) * pageSize ≤ q * pageSize := Nat.mul_le_mul_right _ hgt
    rw [Nat.succ_mul] at hle
    omega

/-- A write of a page of `m` that may stop anywhere. -/
theorem FileKept.write {d₁ : Disk} (h : FileKept b m d d₁) {w : Nat} {bs : Bytes} (hw : m[w]? ≠ none)
    (hlt : w < b) (hbs : bs.length = pageSize) (n : Nat) :
    FileKept b m d { d₁ with data := d₁.data.writeTorn (w * pageSize) (bs.take n) } := by
  by_cases hnil : bs.take n = []
  · rw [hnil]
    refine ⟨?_, fun q page hq hf => ?_⟩
    · show (overwrite d₁.data.now (w * pageSize) []).length ≤ _
      rw [overwrite_nil]
      exact h.file
    · refine filePage_congr (fun hle => ?_) ?_ (h.page q page hq hf)
      · show _ ≤ (overwrite d₁.data.now (w * pageSize) []).length
        rwa [overwrite_nil]
      · show block pageSize (overwrite d₁.data.now (w * pageSize) []) q = _
        rw [overwrite_nil]
  · have hshort : (bs.take n).length ≤ pageSize := by
      rw [List.length_take]
      omega
    have hlen := length_overwrite d₁.data.now (w * pageSize) hnil
    have hend : (w + 1) * pageSize ≤ b * pageSize := Nat.mul_le_mul_right _ hlt
    rw [Nat.succ_mul] at hend
    refine ⟨?_, fun q page hq hf => ?_⟩
    · show (overwrite d₁.data.now (w * pageSize) (bs.take n)).length ≤ _
      rw [hlen]
      have hfile := h.file
      omega
    · refine filePage_congr (fun hle => ?_) ?_ (h.page q page hq hf)
      · show _ ≤ (overwrite d₁.data.now (w * pageSize) (bs.take n)).length
        rw [hlen]
        exact hle.trans (le_max_left _ _)
      · have hne : q ≠ w := by
          rintro rfl
          exact hw hq
        exact window_overwrite_of_disjoint _ _ _ _ _ (page_disjoint hne hshort)

/-- Once the pages of `m` are in the file, what was stored is stored without `m`. -/
theorem FileKept.applied {d₁ : Disk} (h : FileKept b m d d₁)
    (hnow : d₁.data.now = applied d.data.now (sortedPages m)) (hs : Stored d m q page) :
    Stored d₁ ∅ q page := by
  refine Or.inr ⟨by simp, ?_⟩
  obtain hm | ⟨hm, hf⟩ := hs
  · have hlen := le_length_applied m (f := d.data.now) hm
    have hblock : block pageSize d₁.data.now q = page.data := by
      rw [hnow, block_applied, hm]
      rfl
    rw [← hnow] at hlen
    rw [Disk.filePage, if_pos hlen]
    exact congrArg Except.ok (Page.ext hblock)
  · exact h.page q page hm hf

/-- The pager whose checkpoint is under way, with the pages put back. -/
theorem CacheInv.putBack {d₁ : Disk} (h : CacheInv b d p) (hk : FileKept b p.committed d d₁) :
    CacheInv b d₁ p :=
  { h with
    file := hk.file
    cache := fun q page hq => (h.cache q page hq).imp id (And.imp_right fun hs =>
      hs.imp id fun ⟨hc, hf⟩ => ⟨hc, hk.page q page hc hf⟩) }

theorem CacheInv.checkpointed {d₁ d₂ : Disk} (h : CacheInv b d p)
    (hk : FileKept b p.committed d d₁)
    (hnow : d₁.data.now = applied d.data.now (sortedPages p.committed))
    (hdata : d₂.data.now = d₁.data.now) (wal : WalManager) :
    CacheInv b d₂ { p with committed := ∅, wal := wal } :=
  { h with
    file := by
      rw [hdata]
      exact hk.file
    committed := by simp
    cache := fun q page hq => (h.cache q page hq).imp id (And.imp_right fun hs => by
      obtain hc | ⟨hc, hf⟩ := hk.applied hnow hs
      · simp at hc
      · refine Or.inr ⟨hc, filePage_congr (fun hle => ?_) ?_ hf⟩
        · rwa [hdata]
        · rw [hdata]) }

theorem ends_checkpoint (h : CacheInv b d p) :
    MethodEnds checkpoint p d fun _ p' d' => CacheInv b d' p' ∧
      p'.activeGroup = p.activeGroup := by
  unfold checkpoint
  refine PagerM.wp_get ?_
  dsimp only
  split
  · exact PagerM.wp_ret rfl trivial ⟨h, rfl⟩
  refine PagerM.wp_modify (PagerM.wp_tryCatch (PagerM.wp_bind ?_))
  have hpage : ∀ w ∈ sortedPages p.committed, p.committed[w.1]? ≠ none ∧ w.1 < b := by
    intro w hw
    obtain ⟨page, hpg, -⟩ := (mem_sortedPages _).mp hw
    exact ⟨by simp [hpg], h.committed _ _ hpg⟩
  have hlt : ∀ w ∈ sortedPages p.committed, w.1 < p.numPages := fun w hw =>
    lt_of_lt_of_le (hpage w hw).2 h.base_le
  have hsame : ∀ k, pagesAfter p.numPages ((sortedPages p.committed).take k) = p.numPages :=
    fun k => pagesAfter_of_lt fun w hw => hlt w (List.mem_of_mem_take hw)
  have hstart : FileKept b p.committed d d := ⟨h.file, fun q page _ hf => hf⟩
  refine PagerM.wp_mono (wp_writePagesRaw (fun _ _ _ _ h => h) (I := FileKept b p.committed d)
    (fun _ _ => trivial) ?_ ?_ hstart) ?_
  · intro w hw
    exact ⟨sortedPages_whole _ w hw, lt_of_lt_of_le (hlt w hw) h.bound⟩
  · intro w hw d₁ n hk
    exact hk.write (hpage w hw).1 (hpage w hw).2 (sortedPages_whole _ w hw) n
  rintro r p₁ d₁ - ⟨hk₁, -, -, h₁⟩
  -- on an error the pages go back; the file has changed in pages of `committed` only
  have hback : ∀ {d' : Disk} (e : VelociError) (wal : WalManager), FileKept b p.committed d d' →
      MethodEnds (do
          modify fun q => { q with committed := p.committed }
          throw e) { p with committed := ∅, wal := wal } d' fun (_ : Except VelociError Unit) p' d' =>
        CacheInv b d' p' ∧ p'.activeGroup = p.activeGroup := fun e wal hk =>
    PagerM.wp_modify (PagerM.wp_ret rfl trivial ⟨(h.putBack hk).with_wal rfl wal, rfl⟩)
  cases r with
  | error e =>
      obtain ⟨k, rfl⟩ := h₁
      dsimp only
      rw [hsame k]
      exact hback e p.wal hk₁
  | ok _ =>
      obtain ⟨hnow₁, rfl⟩ := h₁
      have hall := hsame (sortedPages p.committed).length
      rw [List.take_length] at hall
      dsimp only
      rw [hall]
      refine PagerM.wp_bind (PagerM.wp_file trivial fun r d₂ h₂ => ⟨trivial, ?_⟩)
      have hnow₂ : d₂.data.now = d₁.data.now := by
        obtain rfl | ⟨rfl, -⟩ := h₂.of_dataSync
        · rfl
        · rfl
      have hk₂ : FileKept b p.committed d d₂ := by
        refine ⟨hnow₂ ▸ hk₁.file, fun q page hq hf => ?_⟩
        refine filePage_congr (fun hle => ?_) ?_ (hk₁.page q page hq hf)
        · rwa [hnow₂]
        · rw [hnow₂]
      cases r with
      | error e => exact hback e p.wal hk₂
      | ok _ =>
          refine PagerM.wp_mono (ends_truncateWal _ d₂) ?_
          rintro r p₃ d₃ _ ⟨hdata₃, wal, rfl⟩
          have hnow₃ : d₃.data.now = d₁.data.now := (congrArg DiskFile.now hdata₃).trans hnow₂
          cases r with
          | error e =>
              refine hback e wal ⟨hnow₃ ▸ hk₁.file, fun q page hq hf => ?_⟩
              exact (filePage_data hdata₃).trans (hk₂.page q page hq hf)
          | ok _ => exact ⟨h.checkpointed hk₁ hnow₁ hnow₃ wal, rfl⟩

/-! ## The other methods with I/O -/

/-- What a read answers: the newest version of the page, or the error of a seek. -/
def Answers (p : Pager) (d : Disk) (q : Nat) (r : Except VelociError Page) : Prop :=
  r = p.current d q ∨ ∃ kind, r = .error (.io kind)

/-- A read changes the cache and nothing else. -/
def Looked (q : Nat) (p p' : Pager) : Prop := p' = p ∨ ∃ page, p' = Pager.cachePage none q page p

theorem wp_readPage_current
    {H : (op : DiskOp) → Disk → Except VelociError op.Ans → Disk → Prop} (hH : WithinFaults H)
    (h : CacheInv b d p) (q : Nat) :
    PagerM.wp H (fun _ => True) (readPage q) p d fun r p' d' =>
      CacheInv b d' p' ∧ Answers p d q r ∧ (Reliable H → r = p.current d q) ∧ Looked q p p' ∧
        d' = d := by
  have hdone : ∀ {r p'}, r = p.current d q → CacheInv b d p' → Looked q p p' →
      CacheInv b d p' ∧ Answers p d q r ∧ (Reliable H → r = p.current d q) ∧ Looked q p p' ∧
        d = d := fun hr hinv hlook => ⟨hinv, Or.inl hr, fun _ => hr, hlook, rfl⟩
  unfold readPage
  refine PagerM.wp_get ?_
  cases hpend : p.pending[q]? with
  | some page =>
      have hcur : p.current d q = .ok page := by
        unfold Pager.current
        rw [hpend]
      exact PagerM.wp_ret rfl trivial (hdone hcur.symm h (Or.inl rfl))
  | none =>
  cases hcache : p.cache[q]? with
  | some page =>
      have hcur := h.cached_current hcache
      exact PagerM.wp_ret rfl trivial (hdone hcur.symm h (Or.inl rfl))
  | none =>
  cases hcom : p.committed[q]? with
  | some page =>
      have hcur : p.current d q = .ok page := by
        unfold Pager.current
        rw [hpend]
        simp only [hcom]
      exact PagerM.wp_ret rfl trivial
        (hdone hcur.symm (h.cachePage hpend (Or.inl hcom)) (Or.inr ⟨page, rfl⟩))
  | none =>
  -- the page comes from the data file
  have hcur : p.current d q = if p.numPages ≤ q then .error (outOfBounds q) else d.filePage q := by
    unfold Pager.current
    rw [hpend]
    simp only [hcom]
  dsimp only
  split
  · rename_i hle
    rw [if_pos hle] at hcur
    exact PagerM.wp_ret rfl trivial (hdone hcur.symm h (Or.inl rfl))
  · rename_i hlt
    rw [if_neg hlt] at hcur
    have hmax : q < maxPages := lt_of_lt_of_le (Nat.lt_of_not_le hlt) h.bound
    rw [offset_eq hmax]
    refine PagerM.wp_bind (PagerM.wp_file trivial fun r d₁ h₁ => ⟨trivial, ?_⟩)
    have hseek := hH _ _ _ _ h₁
    obtain rfl := hseek.of_dataSeek
    cases r with
    | error e =>
        obtain ⟨kind, rfl⟩ : ∃ kind, e = .io kind := by
          cases hseek
          exact ⟨_, rfl⟩
        refine ⟨h, Or.inr ⟨kind, rfl⟩, fun hR => ?_, Or.inl rfl, rfl⟩
        exact absurd h₁ (hR.no_error (neverFails_write (by simp)))
    | ok _ =>
        refine PagerM.wp_bind (PagerM.wp_file trivial fun r d₂ h₂ => ⟨trivial, ?_⟩)
        have hread := hH _ _ _ _ h₂
        by_cases hfit : q * pageSize + pageSize ≤ d₁.data.now.length
        · obtain ⟨rfl, rfl⟩ : r = .ok (window d₁.data.now (q * pageSize) pageSize) ∧ d₂ = d₁ := by
            cases hread
            simp [Disk.perform, hfit]
          dsimp only
          rw [dif_pos (length_window _ _ _)]
          obtain ⟨page, hpage⟩ : ∃ page : Page,
              page = ⟨window d₂.data.now (q * pageSize) pageSize, length_window _ _ _⟩ := ⟨_, rfl⟩
          have hfile : d₂.filePage q = .ok page := by
            rw [Disk.filePage, if_pos (by rw [Nat.succ_mul]; exact hfit), hpage]
            rfl
          rw [← hpage]
          exact PagerM.wp_ret rfl trivial (hdone (hcur.trans hfile).symm
            (h.cachePage hpend (Or.inr ⟨hcom, hfile⟩)) (Or.inr ⟨page, rfl⟩))
        · obtain ⟨rfl, rfl⟩ : r = .error Disk.unexpectedEof ∧ d₂ = d₁ := by
            cases hread
            simp [Disk.perform, hfit]
          have hfile : d₂.filePage q = .error Disk.unexpectedEof := by
            rw [Disk.filePage, if_neg (by rw [Nat.succ_mul]; exact hfit)]
          exact hdone (hcur.trans hfile).symm h (Or.inl rfl)

theorem ends_readPage (h : CacheInv b d p) (q : Nat) :
    MethodEnds (readPage q) p d fun r p' d' =>
      CacheInv b d' p' ∧ Answers p d q r ∧ Looked q p p' ∧ d' = d :=
  PagerM.wp_mono (wp_readPage_current (fun _ _ _ _ h => h) h q)
    fun _ _ _ _ ⟨hinv, hans, _, hlook, hd⟩ => ⟨hinv, hans, hlook, hd⟩

/-- A read that nothing disturbs. -/
theorem exec_readPage (h : CacheInv b d p) (q : Nat) :
    ((readPage q).exec p d).1 = p.current d q := by
  have hrun := Prog.exec_run Disk.perform (readPage q p) d
  obtain ⟨r, p', ho, -, -, hcur, -⟩ :=
    PagerM.wp_exec (wp_readPage_current within_sound h q) hrun
  unfold PagerM.exec
  rcases hx : (readPage q p).run Disk.perform d with ⟨o, d'⟩
  rw [hx] at ho
  dsimp only at ho
  subst ho
  exact hcur reliable_sound

theorem ends_commitGroup (crc : Bytes → UInt32) (h : CacheInv b d p) :
    MethodEnds (commitGroup crc) p d fun _ p' d' => ∃ b', CacheInv b' d' p' := by
  cases hact : p.activeGroup with
  | none => exact PagerM.wp_ret (commitGroup_idle hact) trivial ⟨b, h⟩
  | some id =>
  by_cases he : p.pending.isEmpty
  · exact PagerM.wp_ret (commitGroup_empty hact he) trivial ⟨_, h.endGroup (by simpa using he)⟩
  unfold commitGroup
  refine PagerM.wp_get ?_
  simp only [hact]
  refine PagerM.wp_modify (PagerM.wp_get ?_)
  dsimp only
  rw [if_neg he]
  refine PagerM.wp_bind (PagerM.wp_tryCatch (PagerM.wp_wal ?_))
  refine Prog.wp_mono (ends_appendGroup crc p.wal ⟨id, sortedPages p.pending⟩ d) ?_
  rintro o d₁ - ⟨⟨r, w, rfl⟩, hdata₁⟩
  have h₁ := h.endSavepoint.with_wal hdata₁ w
  cases r with
  | error e =>
      have hact₁ : ({ p with savepoint := none, wal := w } : Pager).activeGroup ≠ none := by
        simp [hact]
      refine PagerM.wp_bind (PagerM.wp_tryCatch
        (PagerM.wp_ret (abortGroup_eq hact₁) trivial (PagerM.wp_ret rfl trivial ?_)))
      exact ⟨b, h₁.abortGroup hact₁⟩
  | ok _ =>
      have h₂ := h₁.logged rfl
      refine PagerM.wp_modify (PagerM.wp_get ?_)
      split
      · refine PagerM.wp_tryCatch (PagerM.wp_mono (ends_checkpoint h₂) ?_)
        rintro r p₂ d₂ - ⟨h₃, -⟩
        cases r with
        | ok _ => exact ⟨_, h₃⟩
        | error e => exact PagerM.wp_ret rfl trivial ⟨_, h₃⟩
      · exact PagerM.wp_ret rfl trivial ⟨_, h₂⟩

theorem writePage_active (crc : Bytes → UInt32) (hact : p.activeGroup ≠ none) (id : Nat)
    (page : Page) : writePage crc id page p = .ret (.ok (), Pager.bufferPage id page p) := by
  obtain ⟨g, hg⟩ := Option.ne_none_iff_exists'.mp hact
  simp only [writePage, bind, PagerM.bind, get, getThe, MonadStateOf.get, Prog.bind, hg]
  rfl

theorem ends_writePage (crc : Bytes → UInt32) (h : CacheInv b d p) {id : Nat}
    (hid : id < maxPages) (page : Page) :
    MethodEnds (writePage crc id page) p d fun _ p' d' => ∃ b', CacheInv b' d' p' := by
  by_cases hact : p.activeGroup = none
  · unfold writePage
    refine PagerM.wp_get ?_
    simp only [hact, Option.isNone_none, if_true]
    refine PagerM.wp_bind (PagerM.wp_ret (beginGroup_eq hact) trivial ?_)
    have hbuf := (h.beginGroup hact).bufferPage (by simp [begun]) hid page
    exact PagerM.wp_modify (ends_commitGroup crc hbuf)
  · exact PagerM.wp_ret (writePage_active crc hact id page) trivial
      ⟨b, h.bufferPage hact hid page⟩

theorem ends_flush (h : CacheInv b d p) :
    MethodEnds flush p d fun _ p' d' => CacheInv b d' p' := by
  have hrest : ∀ {p : Pager}, CacheInv b d p →
      MethodEnds (do checkpoint; PagerM.file .dataSync) p d
        fun (_ : Except VelociError Unit) p' d' => CacheInv b d' p' := by
    intro p h
    refine PagerM.wp_bind (PagerM.wp_mono (ends_checkpoint h) ?_)
    rintro r p₁ d₁ - ⟨h₁, -⟩
    cases r with
    | error e => exact h₁
    | ok _ =>
        refine PagerM.wp_file trivial fun r d₂ h₂ => ⟨trivial, ?_⟩
        obtain rfl | ⟨rfl, -⟩ := h₂.of_dataSync
        · refine h₁.putBack ⟨h₁.file, fun q page _ hf => filePage_congr id rfl hf⟩
        · exact h₁
  unfold flush
  refine PagerM.wp_get ?_
  by_cases hact : p.activeGroup = none
  · simp only [hact, Option.isSome_none, Bool.false_eq_true]
    exact hrest h
  · obtain ⟨g, hg⟩ := Option.ne_none_iff_exists'.mp hact
    simp only [hg, Option.isSome_some]
    refine PagerM.wp_bind (PagerM.wp_tryCatch (PagerM.wp_ret (abortGroup_eq hact) trivial ?_))
    exact hrest (h.abortGroup hact)

/-- Every operation keeps the invariant, whatever fails. -/
theorem ends_method (crc : Bytes → UInt32) (h : CacheInv b d p) (op : PagerOp)
    (hrange : ∀ w, op.autoPage p = some w → w.1 < maxPages) :
    MethodEnds (op.method crc) p d fun _ p' d' => ∃ b', CacheInv b' d' p' := by
  cases op with
  | beginGroup =>
      refine PagerM.wp_bind ?_
      cases hg : p.activeGroup with
      | none =>
          exact PagerM.wp_ret (beginGroup_eq hg) trivial
            (PagerM.wp_ret rfl trivial ⟨b, h.beginGroup hg⟩)
      | some id => exact PagerM.wp_ret (beginGroup_busy hg) trivial ⟨b, h⟩
  | writePage id page => exact ends_writePage crc h (hrange (id, page) rfl) page
  | allocatePage =>
      refine PagerM.wp_bind (PagerM.wp_get (PagerM.wp_bind (PagerM.wp_mono
        (ends_writePage crc h (hrange (p.numPages, Page.new) rfl) Page.new) ?_)))
      intro r p' d' _ h'
      cases r with
      | error e => exact h'
      | ok _ => exact PagerM.wp_ret rfl trivial (PagerM.wp_ret rfl trivial h')
  | readPage q =>
      refine PagerM.wp_bind (PagerM.wp_mono (ends_readPage h q) ?_)
      rintro r p' d' - ⟨h', -⟩
      cases r with
      | error e => exact ⟨b, h'⟩
      | ok _ => exact PagerM.wp_ret rfl trivial ⟨b, h'⟩
  | beginSavepoint =>
      have heq := beginSavepoint_eq (p := p)
      split at heq
      · exact PagerM.wp_ret heq trivial ⟨b, h⟩
      · rename_i hact
        split at heq
        · exact PagerM.wp_ret heq trivial ⟨b, h⟩
        · exact PagerM.wp_ret heq trivial ⟨b, h.beginSavepoint hact⟩
  | releaseSavepoint => exact PagerM.wp_ret rfl trivial ⟨b, h.endSavepoint⟩
  | rollbackToSavepoint =>
      have heq := rollbackToSavepoint_eq (p := p)
      split at heq
      · exact PagerM.wp_ret heq trivial ⟨b, h⟩
      · rename_i sp hsp
        exact PagerM.wp_ret heq trivial ⟨b, h.rollback hsp⟩
  | commitGroup => exact ends_commitGroup crc h
  | abortGroup =>
      by_cases hg : p.activeGroup = none
      · exact PagerM.wp_ret (abortGroup_idle hg) trivial ⟨b, h⟩
      · exact PagerM.wp_ret (abortGroup_eq hg) trivial ⟨b, h.abortGroup hg⟩
  | checkpoint =>
      exact PagerM.wp_mono (ends_checkpoint h) fun _ _ _ _ h' => ⟨b, h'.1⟩
  | flush => exact PagerM.wp_mono (ends_flush h) fun _ _ _ _ h' => ⟨b, h'⟩

/-! ## Opening a pager -/

/-- The pages of the files are in range: those of the data file, and those in the log. -/
structure FilesInRange (crc : Bytes → UInt32) (d : Disk) : Prop where
  file : d.data.now.length ≤ maxPages * pageSize
  log : ∀ gs, decode crc d.wal.now = .ok gs → ∀ w ∈ allWrites gs, w.1 < maxPages

theorem related_of_forall₂ {α β : Type} {R : α → β → Prop} {as : List α} {bs : List β}
    (h : List.Forall₂ R as bs) {y : β} (hy : y ∈ bs) : ∃ a, R a y := by
  induction h with
  | nil => cases hy
  | cons hab _ ih =>
      rcases List.mem_cons.mp hy with rfl | hy
      · exact ⟨_, hab⟩
      · exact ih hy

/-- Every page read from the log is a whole one. -/
theorem whole_of_decode {crc : Bytes → UInt32} {buf : Bytes} {gs : List CommittedGroup}
    (h : decode crc buf = .ok gs) : Whole pageSize (allWrites gs) := by
  obtain ⟨os, hos, -, -⟩ := collectGroups_attributed h
  intro w hw
  obtain ⟨g, hg, hwg⟩ := List.mem_flatMap.mp hw
  obtain ⟨o, ho⟩ := related_of_forall₂ hos hg
  obtain ⟨k, -, hlen, -⟩ := related_of_forall₂ ho.writes hwg
  exact hlen

/-- A pager with nothing buffered. -/
theorem CacheInv.fresh (hcache : p.cache = ∅) (hsize : p.cacheSize = 0)
    (hact : p.activeGroup = none) (hpend : p.pending = ∅) (hcom : p.committed = ∅)
    (hsp : p.savepoint = none) (hbound : p.numPages ≤ maxPages)
    (hfile : d.data.now.length ≤ p.numPages * pageSize) : CacheInv p.numPages d p where
  counted := by
    rw [hcache, hsize]
    exact ⟨Std.ExtTreeMap.size_empty.symm, by simp⟩
  base_le := le_rfl
  bound := hbound
  file := hfile
  committed := by simp [hcom]
  pending := by simp [hpend]
  idle := fun _ => ⟨rfl, hpend, hsp⟩
  start := fun h => absurd hact h
  savepoint := by simp [hsp]
  cache := by simp [hcache]

theorem pagesAfter_le {n : Nat} : ∀ {ws : List (Nat × Bytes)}, (∀ w ∈ ws, w.1 < maxPages) →
    n ≤ maxPages → pagesAfter n ws ≤ maxPages
  | [], _, hn => hn
  | w :: ws, hws, hn => by
      rw [pagesAfter, List.foldl_cons, ← pagesAfter]
      exact pagesAfter_le (fun x hx => hws x (List.mem_cons_of_mem _ hx))
        (max_le hn (hws w List.mem_cons_self))

theorem ends_recover {crc : Bytes → UInt32} (h : FilesInRange crc d) {n : Nat} (hn : n ≤ maxPages)
    (hfile : d.data.now.length ≤ n * pageSize) (wal : WalManager) (order : Nat → Nat) :
    MethodEnds (recover crc) (fresh n wal order) d fun r p' d' =>
      r = .ok () → CacheInv p'.numPages d' p' := by
  unfold recover
  refine PagerM.wp_get ?_
  dsimp only [fresh]
  split
  · exact PagerM.wp_ret rfl trivial fun _ => .fresh rfl rfl rfl rfl rfl rfl hn hfile
  refine PagerM.wp_bind (PagerM.wp_wal (Prog.wp_bind (Prog.wp_attempt (Prog.wp_bind
    (Prog.wp_lift trivial fun r d₁ h₁ => ⟨trivial, ?_⟩)))))
  obtain rfl := h₁.of_walSeek
  cases r with
  | error e => exact ⟨trivial, by rintro ⟨⟩⟩
  | ok _ =>
  refine Prog.wp_bind (Prog.wp_lift trivial fun r d₂ h₂ => ⟨trivial, ?_⟩)
  obtain ⟨rfl, rfl⟩ : r = .ok d₁.wal.now ∧ d₂ = d₁ := by
    cases h₂
    exact ⟨rfl, rfl⟩
  refine ⟨trivial, trivial, ?_⟩
  cases hdec : decode crc d₂.wal.now with
  | error e => rintro ⟨⟩
  | ok gs =>
  have hwhole := whole_of_decode hdec
  have hids := h.log gs hdec
  have hws : ∀ w ∈ allWrites gs, w.2.length = pageSize ∧ w.1 < maxPages := fun w hw =>
    ⟨hwhole w hw, hids w hw⟩
  refine PagerM.wp_bind (PagerM.wp_mono (wp_writePagesRaw (fun _ _ _ _ h => h)
    (I := fun _ => True) (fun _ _ => trivial) hws (fun _ _ _ _ _ => trivial) trivial) ?_)
  rintro r p₁ d₁ - ⟨-, -, -, h₁⟩
  cases r with
  | error e => rintro ⟨⟩
  | ok _ =>
  obtain ⟨hnow₁, rfl⟩ := h₁
  -- the log goes, and the data file stays
  have htrunc : ∀ d₃ : Disk, d₃.data.now = d₁.data.now → MethodEnds truncateWal
      { fresh n wal order with
        numPages := pagesAfter n (allWrites gs)
        wal := wal.observeGroupId (highestGroup (records crc d₂.wal.now)) } d₃
      fun r p' d' => r = .ok () → CacheInv p'.numPages d' p' := by
    intro d₃ hd₃
    refine PagerM.wp_mono (ends_truncateWal _ d₃) ?_
    rintro r p₄ d₄ - ⟨hdata₄, w, rfl⟩ -
    refine .fresh rfl rfl rfl rfl rfl rfl (pagesAfter_le hids hn) ?_
    have hlen := length_writeBlocks pageSize_pos d₂.data.now hwhole
    have hnow₄ : d₄.data.now = applied d₂.data.now (allWrites gs) :=
      (congrArg DiskFile.now hdata₄).trans (hd₃.trans hnow₁)
    show d₄.data.now.length ≤ pagesAfter n (allWrites gs) * pageSize
    rw [hnow₄, hlen, pagesAfter_mul]
    exact max_le_max_right _ hfile
  dsimp only
  split
  · refine PagerM.wp_bind (PagerM.wp_file trivial fun r d₃ h₃ => ⟨trivial, ?_⟩)
    have hnow₃ : d₃.data.now = d₁.data.now := by
      obtain rfl | ⟨rfl, -⟩ := h₃.of_dataSync
      · rfl
      · rfl
    cases r with
    | error e => rintro ⟨⟩
    | ok _ => exact htrunc d₃ hnow₃
  · exact htrunc d₁ rfl

/-- A pager that was opened on files in range is in order. -/
theorem ends_new {crc : Bytes → UInt32} (h : FilesInRange crc d) (order : Nat → Nat) :
    FileEnds (Pager.new crc order) d fun o d' => ∀ p, o = .ok (.ok p) → CacheInv p.numPages d' p := by
  unfold Pager.new
  refine Prog.wp_bind (Prog.wp_lift trivial fun r d₁ h₁ => ⟨trivial, ?_⟩)
  obtain ⟨rfl, rfl⟩ : r = .ok d.data.now.length ∧ d₁ = d := by
    cases h₁
    exact ⟨rfl, rfl⟩
  refine Prog.wp_bind (Prog.wp_bind (Prog.wp_lift trivial fun r d₂ h₂ => ⟨trivial, ?_⟩))
  obtain ⟨rfl, rfl⟩ : r = .ok d₁.wal.now.length ∧ d₂ = d₁ := by
    cases h₂
    exact ⟨rfl, rfl⟩
  refine ⟨trivial, Prog.wp_bind ?_⟩
  have hbounds := filePages_bounds d₂.data.now.length
  have hn : filePages d₂.data.now.length ≤ maxPages := by
    have hlt : filePages d₂.data.now.length * pageSize < (maxPages + 1) * pageSize := by
      have hfile := h.file
      rw [Nat.succ_mul]
      omega
    exact Nat.lt_succ_iff.mp (Nat.lt_of_mul_lt_mul_right hlt)
  refine Prog.wp_mono (ends_recover h hn hbounds.1 ⟨1, d₂.wal.now.length⟩ order) ?_
  intro o d₃ _ ho
  match o, ho with
  | .ok (.ok _, p), ho =>
      refine ⟨trivial, ?_⟩
      rintro _ ⟨⟩
      exact ho rfl
  | .ok (.error e, p), _ =>
      refine Prog.wp_bind (Prog.wp_of_always (Prog.always_true _) ?_ ?_)
      · rintro _ _ -
        exact ⟨trivial, by rintro _ ⟨⟩⟩
      · rintro _ _ _ ⟨⟩

/-! ## Runs -/

/-- What `Pager::new` and then any operations, some failing, make of files in range. -/
inductive PagerRun (crc : Bytes → UInt32) : Pager → Disk → Prop
  | opened {d₀ d : Disk} {order : Nat → Nat} {p : Pager} : FilesInRange crc d₀ →
      Prog.Exec Disk.Faulty (Pager.new crc order) d₀ (.ok (.ok p)) d → PagerRun crc p d
  | step {p p' : Pager} {d d' : Disk} {op : PagerOp} {r : Except VelociError Unit} :
      PagerRun crc p d → (∀ w, op.autoPage p = some w → w.1 < maxPages) →
      Prog.Exec Disk.Faulty (op.method crc p) d (.ok (r, p')) d' → PagerRun crc p' d'

theorem PagerRun.cacheInv {crc : Bytes → UInt32} (h : PagerRun crc p d) : ∃ b, CacheInv b d p := by
  induction h with
  | opened hfiles hnew => exact ⟨_, Prog.wp_exec hnew (ends_new hfiles _) _ rfl⟩
  | step _ hrange hexec ih =>
      obtain ⟨b, hinv⟩ := ih
      obtain ⟨r, p', ho, h'⟩ := PagerM.wp_exec (ends_method crc hinv _ hrange) hexec
      cases ho
      exact h'

/-- In every run a read returns the newest version of a page, and says that there is none
exactly past the last page; the cache is as full as its counter says, and not too full. -/
theorem reads_coherent {crc : Bytes → UInt32} (h : PagerRun crc p d) :
    (∀ q, ((readPage q).exec p d).1 = p.current d q) ∧
      (∀ q r p' d', Prog.Exec Disk.Faulty (readPage q p) d (.ok (r, p')) d' →
        Answers p d q r) ∧
      (∀ q, (∃ msg, p.current d q = .error (.notFound msg)) ↔ p.numPages ≤ q) ∧
      p.cache.size ≤ cacheSize ∧ p.cacheSize = p.cache.size := by
  obtain ⟨b, hinv⟩ := h.cacheInv
  refine ⟨exec_readPage hinv, fun q r p' d' hexec => ?_, hinv.notFound_iff,
    hinv.counted.room, hinv.counted.size⟩
  obtain ⟨r', p'', ho, -, hans, -⟩ := PagerM.wp_exec (ends_readPage hinv q) hexec
  cases ho
  exact hans

/-- The pager of a new file. -/
def newPager : Pager := fresh 0 ⟨1, 0⟩ fun _ => 0

/-- A new file, a group, and the second page written in it. -/
def leapPager : Pager := Pager.bufferPage 1 Page.new (begun newPager)

theorem run_newPager : PagerRun crc32 newPager PagerSys.init.disk := by
  have hrange : FilesInRange crc32 PagerSys.init.disk := by
    refine ⟨Nat.zero_le _, fun gs hgs w hw => ?_⟩
    rw [show decode crc32 PagerSys.init.disk.wal.now = .ok [] from decode_nil] at hgs
    cases hgs
    cases hw
  have hrun := Prog.exec_run Disk.perform (Pager.new crc32 fun _ => 0) PagerSys.init.disk
  exact .opened hrange (hrun.mono fun _ _ _ _ heq => Disk.Sound.faulty heq)

theorem run_leapPager : PagerRun crc32 leapPager PagerSys.init.disk := by
  have hbegin : Prog.Exec Disk.Faulty (PagerOp.beginGroup.method crc32 newPager)
      PagerSys.init.disk (.ok (.ok (), begun newPager)) PagerSys.init.disk := .ret _ _
  have hwrite : Prog.Exec Disk.Faulty ((PagerOp.writePage 1 Page.new).method crc32
      (begun newPager)) PagerSys.init.disk (.ok (.ok (), leapPager)) PagerSys.init.disk := by
    show Prog.Exec _ (writePage crc32 1 Page.new (begun newPager)) _ _ _
    rw [writePage_active crc32 (by simp [begun]) 1 Page.new]
    exact .ret _ _
  refine (run_newPager.step (by rintro w ⟨⟩) hbegin).step ?_ hwrite
  rintro w ⟨⟩
  decide

theorem reads_coherent_leap : leapPager.cacheSize = leapPager.cache.size :=
  (reads_coherent run_leapPager).2.2.2.2

/-- A read returns the pending page, else the committed page, else the page in the data file,
and fails with `NotFound` past the last page. -/
def ReadsNewest (p : Pager) (d : Disk) (q : Nat) : Prop :=
  match p.pending[q]?, p.committed[q]? with
  | some page, _ => ((readPage q).exec p d).1 = .ok page
  | none, some page => ((readPage q).exec p d).1 = .ok page
  | none, none =>
      if p.numPages ≤ q then ∃ msg, ((readPage q).exec p d).1 = .error (.notFound msg)
      else ∃ page, ((readPage q).exec p d).1 = .ok page ∧ page.data = block pageSize d.data.now q

/-- Page 0 is below the last page, but in no map and not in the file. -/
theorem not_reads_newest : ¬ ∀ (crc : Bytes → UInt32) (p : Pager) (d : Disk), PagerRun crc p d →
    ∀ q, ReadsNewest p d q := by
  intro h
  have hread := h crc32 leapPager _ run_leapPager 0
  obtain ⟨b, hinv⟩ := run_leapPager.cacheInv
  have hpend : leapPager.pending[0]? = none := by
    show ((∅ : PageMap).insert 1 Page.new)[0]? = none
    simp
  have hcom : leapPager.committed[0]? = none := by
    show (∅ : PageMap)[0]? = none
    simp
  have hnum : leapPager.numPages = 2 := bufferPage_numPages (by decide) Page.new (begun newPager)
  have hcur : leapPager.current PagerSys.init.disk 0 = .error Disk.unexpectedEof := by
    unfold Pager.current
    rw [hpend]
    simp only [hcom, hnum]
    rw [if_neg (by decide), Disk.filePage, if_neg]
    have hpos := pageSize_pos
    show ¬ (0 + 1) * pageSize ≤ 0
    omega
  unfold ReadsNewest at hread
  rw [hpend, hcom, exec_readPage hinv, hcur] at hread
  dsimp only at hread
  rw [if_neg (by rw [hnum]; decide)] at hread
  obtain ⟨page, hpage, -⟩ := hread
  cases hpage

end VelociDB
