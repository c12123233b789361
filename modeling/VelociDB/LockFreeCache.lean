/-
# The lock-free page cache (`lockfree.rs`)

`LockFreePageCache` keeps its size in a counter beside the map, and the ids it has seen in a
queue.  An insert into a full cache takes ids from the front of the queue, puts them back
behind, and evicts the one of them that was used longest ago.  The queue holds ids twice and
ids of pages that are gone.

    insert    raises the counter, also when the id was cached before
    evict     finds nothing when no id it looks at is cached: then the cache grows

`popped` are the ids an eviction looks at, `Oldest` says which of them it picks.  The counter
is right as long as every insert `Admits`: it makes room when it has to, and its id is not
cached any more.
-/
import VelociDB.Lib.Transition

namespace VelociDB

open Transition

/-- `CachedPage`; the id is the key it is stored under. -/
structure CachedPage (Page : Type) where
  page : Page
  accessCount : UInt64
  lastAccess : UInt64
  deriving DecidableEq, Repr

/-- `LockFreePageCache`. -/
structure LockFreePageCache (Page : Type) where
  capacity : UInt64
  size : UInt64
  entries : Std.ExtTreeMap ℕ (CachedPage Page)
  lruQueue : List ℕ

variable {Page : Type}

namespace CachedPage

/-- `CachedPage::new`, at the time `now`. -/
def new (page : Page) (now : UInt64) : CachedPage Page := ⟨page, 1, now⟩

def access (cached : CachedPage Page) (now : UInt64) : CachedPage Page :=
  { cached with accessCount := cached.accessCount + 1, lastAccess := now }

end CachedPage

namespace LockFreePageCache

/-- The largest time stamp. -/
def maxTimestamp : UInt64 := 0xFFFFFFFFFFFFFFFF

def new (capacity : UInt64) : LockFreePageCache Page := ⟨capacity, 0, ∅, []⟩

/-- `get`, at the time `now`. -/
def get (c : LockFreePageCache Page) (pageId : ℕ) (now : UInt64) :
    Option (CachedPage Page) × LockFreePageCache Page :=
  match c.entries[pageId]? with
  | some cached =>
      (some (cached.access now), { c with
        entries := c.entries.insert pageId (cached.access now)
        lruQueue := c.lruQueue ++ [pageId] })
  | none => (none, c)

/-- The oldest page found so far, and its time stamp. -/
structure Found where
  oldestPageId : Option ℕ
  oldestTimestamp : UInt64
  deriving DecidableEq, Repr

/-- One id of the scan. -/
def look (entries : Std.ExtTreeMap ℕ (CachedPage Page)) (found : Found) (pageId : ℕ) : Found :=
  match entries[pageId]? with
  | some cached =>
      if cached.lastAccess < found.oldestTimestamp then ⟨some pageId, cached.lastAccess⟩ else found
  | none => found

/-- The scan of `evict_lru`: `n` ids are popped and pushed back. -/
def scan (entries : Std.ExtTreeMap ℕ (CachedPage Page)) : ℕ → List ℕ → Found → List ℕ × Found
  | 0, queue, found => (queue, found)
  | n + 1, [], found => scan entries n [] found
  | n + 1, pageId :: queue, found => scan entries n (queue ++ [pageId]) (look entries found pageId)

def evictLru (c : LockFreePageCache Page) : LockFreePageCache Page :=
  match scan c.entries (min 100 c.capacity).toNat c.lruQueue ⟨none, maxTimestamp⟩ with
  | (queue, ⟨some pageId, _⟩) =>
      { c with entries := c.entries.erase pageId, size := c.size - 1, lruQueue := queue }
  | (queue, ⟨none, _⟩) => { c with lruQueue := queue }

/-- `insert`, at the time `now`. -/
def insert (c : LockFreePageCache Page) (pageId : ℕ) (page : Page) (now : UInt64) :
    LockFreePageCache Page :=
  let c := if c.capacity ≤ c.size then c.evictLru else c
  { c with
    entries := c.entries.insert pageId (.new page now)
    size := c.size + 1
    lruQueue := c.lruQueue ++ [pageId] }

def remove (c : LockFreePageCache Page) (pageId : ℕ) :
    Option (CachedPage Page) × LockFreePageCache Page :=
  match c.entries[pageId]? with
  | some cached =>
      (some cached, { c with entries := c.entries.erase pageId, size := c.size - 1 })
  | none => (none, c)

def clear (c : LockFreePageCache Page) : LockFreePageCache Page :=
  { c with entries := ∅, size := 0, lruQueue := [] }

/-- `CacheStats`. -/
structure CacheStats where
  size : UInt64
  capacity : UInt64
  deriving DecidableEq, Repr

def stats (c : LockFreePageCache Page) : CacheStats := ⟨c.size, c.capacity⟩

/-! ## Runs -/

/-- A call with its arguments and the time of it. -/
inductive Call (Page : Type) where
  | insert (pageId : ℕ) (page : Page) (now : UInt64)
  | get (pageId : ℕ) (now : UInt64)
  | remove (pageId : ℕ)
  | clear
  deriving DecidableEq, Repr

def step (c : LockFreePageCache Page) : Call Page → Option (LockFreePageCache Page)
  | .insert pageId page now => some (c.insert pageId page now)
  | .get pageId now => some (c.get pageId now).2
  | .remove pageId => some (c.remove pageId).2
  | .clear => some c.clear

/-- The ids that `n` rounds of the scan look at. -/
def popped : ℕ → List ℕ → List ℕ
  | 0, _ => []
  | _ + 1, [] => []
  | n + 1, pageId :: queue => pageId :: popped n (queue ++ [pageId])

/-- The ids an eviction looks at. -/
def scanned (c : LockFreePageCache Page) : List ℕ := popped (min 100 c.capacity).toNat c.lruQueue

/-- When a page was last used; an id that is not cached counts as used at the end of time. -/
def lastUse (entries : Std.ExtTreeMap ℕ (CachedPage Page)) (pageId : ℕ) : UInt64 :=
  (entries[pageId]?.map CachedPage.lastAccess).getD maxTimestamp

/-- Of the cached ones among `ids`, `v` was used longest ago; the first such. -/
def Oldest (entries : Std.ExtTreeMap ℕ (CachedPage Page)) (ids : List ℕ) (v : ℕ) : Prop :=
  lastUse entries v < maxTimestamp ∧ ∃ pre post, ids = pre ++ v :: post ∧
    (∀ u ∈ pre, lastUse entries v < lastUse entries u) ∧
    ∀ u ∈ post, lastUse entries v ≤ lastUse entries u

/-- The counter is right, and within the capacity. -/
def Counted (c : LockFreePageCache Page) : Prop :=
  c.stats.size.toNat = c.entries.size ∧ c.stats.size ≤ c.capacity

/-- The condition on a call: an insert below the capacity is of an id that is not cached; an
insert into a full cache finds a page to evict, and its id is not cached or is that page. -/
def Admits (c : LockFreePageCache Page) : Call Page → Prop
  | .insert pageId _ _ =>
      if c.size < c.capacity then pageId ∉ c.entries
      else ∃ v, Oldest c.entries c.scanned v ∧ (pageId ∈ c.entries → v = pageId)
  | _ => True

/-- The call takes the page out, or puts another in its place. -/
def Drops (pageId : ℕ) (c : LockFreePageCache Page) : Call Page → Prop
  | .insert id _ _ => id = pageId ∨ (c.capacity ≤ c.size ∧ Oldest c.entries c.scanned pageId)
  | .get _ _ => False
  | .remove id => id = pageId
  | .clear => True

/-! ## What an eviction picks -/

variable {entries : Std.ExtTreeMap ℕ (CachedPage Page)} {ids : List ℕ} {v w : ℕ}
  {c c' : LockFreePageCache Page}

theorem scan_found (n : ℕ) (queue : List ℕ) (found : Found) :
    (scan entries n queue found).2 = (popped n queue).foldl (look entries) found := by
  induction n generalizing queue found with
  | zero => rfl
  | succ n ih =>
      cases queue with
      | nil =>
          rw [scan, ih]
          cases n <;> rfl
      | cons pageId queue => exact ih _ _

theorem mem_of_lastUse_lt (h : lastUse entries v < maxTimestamp) : v ∈ entries := by
  unfold lastUse at h
  cases hv : entries[v]? with
  | none =>
      rw [hv] at h
      exact absurd h (UInt64.lt_irrefl _)
  | some cached => exact Std.ExtTreeMap.mem_iff_isSome_getElem?.mpr (by rw [hv]; rfl)

/-- An id that is not cached is passed over, as nothing was used after the end of time. -/
theorem look_eq (found : Found) (u : ℕ) :
    look entries found u =
      if lastUse entries u < found.oldestTimestamp then ⟨some u, lastUse entries u⟩ else found := by
  unfold look lastUse
  cases entries[u]? with
  | none =>
      rw [Option.map_none, Option.getD_none, if_neg]
      exact UInt64.not_lt.mpr (UInt64.le_iff_toNat_le.mpr (Nat.le_sub_one_of_lt (UInt64.toNat_lt _)))
  | some cached => rfl

/-- What is found among some ids: nothing that could go, or the oldest. -/
theorem found_cases (entries : Std.ExtTreeMap ℕ (CachedPage Page)) (ids : List ℕ) :
    (ids.foldl (look entries) ⟨none, maxTimestamp⟩ = ⟨none, maxTimestamp⟩ ∧
        ∀ u ∈ ids, maxTimestamp ≤ lastUse entries u) ∨
      ∃ v, ids.foldl (look entries) ⟨none, maxTimestamp⟩ = ⟨some v, lastUse entries v⟩ ∧
        Oldest entries ids v := by
  induction ids using List.reverseRecOn with
  | nil => exact Or.inl ⟨rfl, fun _ hu => absurd hu List.not_mem_nil⟩
  | append_singleton ids u ih =>
      rw [List.foldl_append, List.foldl_cons, List.foldl_nil, look_eq]
      rcases ih with ⟨hfound, hnone⟩ | ⟨v, hfound, hmax, pre, post, rfl, hpre, hpost⟩
      · rw [hfound]
        split
        · rename_i hlt
          refine Or.inr ⟨u, rfl, hlt, ids, [], rfl, fun x hx => ?_, fun _ hx => ?_⟩
          · exact UInt64.lt_of_lt_of_le hlt (hnone x hx)
          · exact absurd hx List.not_mem_nil
        · rename_i hge
          refine Or.inl ⟨rfl, fun x hx => ?_⟩
          rcases List.mem_append.mp hx with hx | hx
          · exact hnone x hx
          · exact List.mem_singleton.mp hx ▸ UInt64.not_lt.mp hge
      · rw [hfound]
        split
        · -- the new one is older than the oldest so far
          rename_i hlt
          refine Or.inr ⟨u, rfl, UInt64.lt_trans hlt hmax, pre ++ v :: post, [], rfl,
            fun x hx => ?_, fun _ hx => absurd hx List.not_mem_nil⟩
          rcases List.mem_append.mp hx with hx | hx
          · exact UInt64.lt_trans hlt (hpre x hx)
          · rcases List.mem_cons.mp hx with rfl | hx
            · exact hlt
            · exact UInt64.lt_of_lt_of_le hlt (hpost x hx)
        · rename_i hge
          refine Or.inr ⟨v, rfl, hmax, pre, post ++ [u], by simp, hpre, fun x hx => ?_⟩
          rcases List.mem_append.mp hx with hx | hx
          · exact hpost x hx
          · exact List.mem_singleton.mp hx ▸ UInt64.not_lt.mp hge

/-- There is one oldest page. -/
theorem Oldest.unique (h : Oldest entries ids v) (h' : Oldest entries ids w) : v = w := by
  obtain ⟨-, pre, post, rfl, hpre, hpost⟩ := h
  obtain ⟨-, pre', post', heq, hpre', hpost'⟩ := h'
  rcases List.append_eq_append_iff.mp heq with ⟨more, hmore, hrest⟩ | ⟨more, hmore, hrest⟩
  · rcases more with _ | ⟨x, more⟩
    · exact (List.cons.inj hrest).1
    · -- `v` comes before `w`
      obtain ⟨rfl, hpost_eq⟩ := List.cons.inj hrest
      have hlt := hpre' v (hmore ▸ List.mem_append_right _ List.mem_cons_self)
      have hle := hpost w (hpost_eq ▸ List.mem_append_right _ List.mem_cons_self)
      exact absurd hlt (UInt64.not_lt.mpr hle)
  · rcases more with _ | ⟨x, more⟩
    · exact (List.cons.inj hrest).1.symm
    · obtain ⟨rfl, hpost_eq⟩ := List.cons.inj hrest
      have hlt := hpre w (hmore ▸ List.mem_append_right _ List.mem_cons_self)
      have hle := hpost' v (hpost_eq ▸ List.mem_append_right _ List.mem_cons_self)
      exact absurd hlt (UInt64.not_lt.mpr hle)

/-- The two outcomes of an eviction. -/
theorem evictLru_cases (c : LockFreePageCache Page) :
    (∃ queue, c.evictLru = { c with lruQueue := queue } ∧ ∀ v, ¬ Oldest c.entries c.scanned v) ∨
      ∃ v queue, Oldest c.entries c.scanned v ∧ c.evictLru =
        { c with entries := c.entries.erase v, size := c.size - 1, lruQueue := queue } := by
  have hscan := @scan_found Page c.entries (min 100 c.capacity).toNat c.lruQueue
    ⟨none, maxTimestamp⟩
  unfold evictLru
  cases hs : scan c.entries (min 100 c.capacity).toNat c.lruQueue ⟨none, maxTimestamp⟩ with
  | mk queue found =>
      rw [hs] at hscan
      rcases found_cases c.entries c.scanned with ⟨hfound, hnone⟩ | ⟨v, hfound, hv⟩
      · obtain rfl : found = ⟨none, maxTimestamp⟩ := hscan.trans hfound
        refine Or.inl ⟨queue, rfl, fun v hv => ?_⟩
        obtain ⟨hlt, pre, post, heq, -, -⟩ := hv
        have hle := hnone v (heq ▸ List.mem_append_right _ List.mem_cons_self)
        exact absurd hlt (UInt64.not_lt.mpr hle)
      · obtain rfl : found = ⟨some v, lastUse c.entries v⟩ := hscan.trans hfound
        exact Or.inr ⟨v, queue, hv, rfl⟩

/-! ## The counter -/

theorem size_insert_mem (h : v ∈ entries) (cached : CachedPage Page) :
    (entries.insert v cached).size = entries.size := by
  rw [Std.ExtTreeMap.size_insert]
  exact if_pos h

theorem size_insert_new (h : v ∉ entries) (cached : CachedPage Page) :
    (entries.insert v cached).size = entries.size + 1 := by
  rw [Std.ExtTreeMap.size_insert]
  exact if_neg h

theorem size_erase_mem (h : v ∈ entries) : (entries.erase v).size + 1 = entries.size := by
  have hpos : entries.size ≠ 0 := by
    intro hzero
    rw [← Std.ExtTreeMap.eq_empty_iff_size_eq_zero] at hzero
    rw [hzero] at h
    exact Std.ExtTreeMap.not_mem_empty h
  have herase : (entries.erase v).size = entries.size - 1 := by
    rw [Std.ExtTreeMap.size_erase]
    exact if_pos h
  omega

theorem toNat_add_one {x y : UInt64} (h : x < y) : (x + 1).toNat = x.toNat + 1 := by
  have hlt := UInt64.lt_iff_toNat_lt.mp h
  have hy := y.toNat_lt
  rw [UInt64.toNat_add]
  exact Nat.mod_eq_of_lt (by rw [UInt64.toNat_one]; omega)

/-- A new id below the capacity is counted, an id that is there is counted twice. -/
theorem counted_insert_below (h : Counted c) (hlt : c.size < c.capacity) (pageId : ℕ) (page : Page)
    (now : UInt64) : Counted (c.insert pageId page now) ↔ pageId ∉ c.entries := by
  obtain ⟨hsize, -⟩ := h
  have hone := toNat_add_one hlt
  have hinsert : c.insert pageId page now = { c with
      entries := c.entries.insert pageId (.new page now)
      size := c.size + 1
      lruQueue := c.lruQueue ++ [pageId] } := by
    rw [insert, if_neg (UInt64.not_le.mpr hlt)]
  have hle : c.size + 1 ≤ c.capacity := by
    rw [UInt64.le_iff_toNat_le, hone]
    exact UInt64.lt_iff_toNat_lt.mp hlt
  rw [hinsert]
  change ((c.size + 1).toNat = (c.entries.insert pageId (.new page now)).size ∧ _) ↔ _
  rw [hone]
  change c.size.toNat = c.entries.size at hsize
  by_cases hmem : pageId ∈ c.entries
  · rw [size_insert_mem hmem]
    exact ⟨fun hc => absurd hc.1 (by omega), fun hnot => absurd hmem hnot⟩
  · rw [size_insert_new hmem]
    exact ⟨fun _ => hmem, fun _ => ⟨by omega, hle⟩⟩

/-- A full cache stays right when it evicts a page and the new id is not there any more. -/
theorem counted_insert_full (hcap : 1 ≤ c.capacity) (h : Counted c) (hle : c.capacity ≤ c.size)
    (pageId : ℕ) (page : Page) (now : UInt64) :
    Counted (c.insert pageId page now) ↔
      ∃ v, Oldest c.entries c.scanned v ∧ (pageId ∈ c.entries → v = pageId) := by
  obtain ⟨hsize, hbound⟩ := h
  change c.size.toNat = c.entries.size at hsize
  have hsame : c.size = c.capacity := UInt64.le_antisymm hbound hle
  have hpos := UInt64.le_iff_toNat_le.mp (hsame ▸ hcap)
  rw [UInt64.toNat_one] at hpos
  rw [insert, if_pos hle]
  rcases evictLru_cases c with ⟨queue, hevict, hnone⟩ | ⟨v, queue, hv, hevict⟩
  · rw [hevict]
    refine ⟨fun hc => ?_, fun ⟨v, hv, _⟩ => absurd hv (hnone v)⟩
    -- the counter has passed the capacity, or has come round to zero
    obtain ⟨hcount, hover⟩ := hc
    change (c.size + 1).toNat = (c.entries.insert pageId (.new page now)).size at hcount
    change c.size + 1 ≤ c.capacity at hover
    have hgrow := Std.ExtTreeMap.size_le_size_insert (t := c.entries) (k := pageId)
      (v := CachedPage.new page now)
    rw [← hsame, UInt64.le_iff_toNat_le, UInt64.toNat_add, UInt64.toNat_one] at hover
    rw [UInt64.toNat_add, UInt64.toNat_one] at hcount
    have hlt := c.size.toNat_lt
    omega
  · rw [hevict]
    have hmem := mem_of_lastUse_lt hv.1
    have hsub : c.size - 1 + 1 = c.size := UInt64.sub_add_cancel _ _
    have herase := size_erase_mem hmem
    change ((c.size - 1 + 1).toNat = ((c.entries.erase v).insert pageId (.new page now)).size ∧
      c.size - 1 + 1 ≤ c.capacity) ↔ _
    rw [hsub, hsize]
    have hunique : (∃ w, Oldest c.entries c.scanned w ∧ (pageId ∈ c.entries → w = pageId)) ↔
        (pageId ∈ c.entries → v = pageId) := by
      constructor
      · rintro ⟨w, hw, himp⟩ hin
        rw [hv.unique hw]
        exact himp hin
      · exact fun himp => ⟨v, hv, himp⟩
    rw [hunique]
    have hkeep : pageId ∈ c.entries.erase v ↔ v ≠ pageId ∧ pageId ∈ c.entries := by
      rw [Std.ExtTreeMap.mem_erase]
      simp
    by_cases hin : pageId ∈ c.entries.erase v
    · obtain ⟨hne, hmem'⟩ := hkeep.mp hin
      rw [size_insert_mem hin]
      exact ⟨fun hc => absurd hc.1 (by omega), fun himp => absurd (himp hmem') hne⟩
    · rw [size_insert_new hin]
      refine ⟨fun _ hmem' => ?_, fun _ => ⟨herase.symm, hbound⟩⟩
      by_contra hne
      exact hin (hkeep.mpr ⟨hne, hmem'⟩)

/-- From a right counter, a call leads to a right counter exactly when it is admitted. -/
theorem counted_step (hcap : 1 ≤ c.capacity) (h : Counted c) (call : Call Page)
    (hstep : step c call = some c') : Counted c' ↔ Admits c call := by
  cases call with
  | insert pageId page now =>
      cases hstep
      dsimp only [Admits]
      split
      · rename_i hlt
        exact counted_insert_below h hlt pageId page now
      · rename_i hge
        exact counted_insert_full hcap h (UInt64.not_lt.mp hge) pageId page now
  | get pageId now =>
      cases hstep
      refine ⟨fun _ => trivial, fun _ => ?_⟩
      unfold get
      cases hp : c.entries[pageId]? with
      | none => exact h
      | some cached =>
          have hmem : pageId ∈ c.entries :=
            Std.ExtTreeMap.mem_iff_isSome_getElem?.mpr (by rw [hp]; rfl)
          refine ⟨?_, h.2⟩
          change c.size.toNat = (c.entries.insert pageId (cached.access now)).size
          rw [size_insert_mem hmem]
          exact h.1
  | remove pageId =>
      cases hstep
      refine ⟨fun _ => trivial, fun _ => ?_⟩
      unfold remove
      cases hp : c.entries[pageId]? with
      | none => exact h
      | some cached =>
          have hmem : pageId ∈ c.entries :=
            Std.ExtTreeMap.mem_iff_isSome_getElem?.mpr (by rw [hp]; rfl)
          obtain ⟨hsize, hbound⟩ := h
          change c.size.toNat = c.entries.size at hsize
          have herase := size_erase_mem hmem
          have hone : 1 ≤ c.size := by
            rw [UInt64.le_iff_toNat_le, UInt64.toNat_one]
            omega
          have hsub : (c.size - 1).toNat = c.size.toNat - 1 := by
            rw [UInt64.toNat_sub_of_le _ _ hone, UInt64.toNat_one]
          constructor
          · change (c.size - 1).toNat = (c.entries.erase pageId).size
            omega
          · refine UInt64.le_trans ?_ hbound
            change c.size - 1 ≤ c.size
            rw [UInt64.le_iff_toNat_le, hsub]
            omega
  | clear =>
      cases hstep
      refine ⟨fun _ => trivial, fun _ => ⟨?_, ?_⟩⟩
      · change (0 : UInt64).toNat = (∅ : Std.ExtTreeMap ℕ (CachedPage Page)).size
        rfl
      · exact UInt64.zero_le

/-! ## The pages -/

/-- The page cached under an id. -/
def pageOf (c : LockFreePageCache Page) (pageId : ℕ) : Option Page :=
  c.entries[pageId]?.map CachedPage.page

theorem get_page (c : LockFreePageCache Page) (pageId : ℕ) (now : UInt64) :
    (c.get pageId now).1.map CachedPage.page = c.pageOf pageId := by
  unfold get pageOf
  cases c.entries[pageId]? <;> rfl

theorem pageOf_get (c : LockFreePageCache Page) (id pageId : ℕ) (now : UInt64) :
    (c.get id now).2.pageOf pageId = c.pageOf pageId := by
  unfold get
  cases hp : c.entries[id]? with
  | none => rfl
  | some cached =>
      change ((c.entries.insert id (cached.access now))[pageId]?).map CachedPage.page = _
      unfold pageOf
      rw [Std.ExtTreeMap.getElem?_insert]
      split
      · rename_i heq
        obtain rfl := Std.LawfulEqCmp.eq_of_compare heq
        rw [hp]
        rfl
      · rfl

theorem pageOf_insert_self (c : LockFreePageCache Page) (pageId : ℕ) (page : Page) (now : UInt64) :
    (c.insert pageId page now).pageOf pageId = some page := by
  unfold insert pageOf
  dsimp only
  rw [Std.ExtTreeMap.getElem?_insert_self]
  rfl

theorem getElem?_erase_ne (hne : v ≠ w) : (entries.erase v)[w]? = entries[w]? := by
  rw [Std.ExtTreeMap.getElem?_erase, if_neg (by simpa using hne)]

/-- A page stays until a call drops it. -/
theorem pageOf_step {pageId : ℕ} {call : Call Page} (hdrops : ¬ Drops pageId c call)
    (hstep : step c call = some c') {page : Page} (h : c.pageOf pageId = some page) :
    c'.pageOf pageId = some page := by
  cases call with
  | insert id page' now =>
      cases hstep
      have hne : id ≠ pageId := fun heq => hdrops (Or.inl heq)
      have hrest : (c.insert id page' now).pageOf pageId =
          (if c.capacity ≤ c.size then c.evictLru else c).pageOf pageId := by
        unfold insert pageOf
        dsimp only
        rw [Std.ExtTreeMap.getElem?_insert, if_neg (by simpa using hne)]
      rw [hrest]
      split
      · rename_i hfull
        rcases evictLru_cases c with ⟨queue, hevict, -⟩ | ⟨v, queue, hv, hevict⟩
        · rw [hevict]
          exact h
        · rw [hevict]
          have hvne : v ≠ pageId := by
            rintro rfl
            exact hdrops (Or.inr ⟨hfull, hv⟩)
          unfold pageOf
          rw [getElem?_erase_ne hvne]
          exact h
      · exact h
  | get id now =>
      cases hstep
      rw [pageOf_get]
      exact h
  | remove id =>
      cases hstep
      unfold remove
      cases c.entries[id]? with
      | none => exact h
      | some cached =>
          unfold pageOf
          rw [getElem?_erase_ne hdrops]
          exact h
  | clear => exact absurd trivial hdrops

theorem step_capacity {call : Call Page} (hstep : step c call = some c') :
    c'.capacity = c.capacity := by
  cases call with
  | insert id page now =>
      cases hstep
      rcases evictLru_cases c with ⟨queue, hevict, -⟩ | ⟨v, queue, -, hevict⟩
      · unfold insert
        dsimp only
        split
        · rw [hevict]
        · rfl
      · unfold insert
        dsimp only
        split
        · rw [hevict]
        · rfl
  | get id now =>
      cases hstep
      unfold get
      cases c.entries[id]? <;> rfl
  | remove id =>
      cases hstep
      unfold remove
      cases c.entries[id]? <;> rfl
  | clear =>
      cases hstep
      rfl

/-! ## Runs -/

theorem counted_new (capacity : UInt64) : Counted (new capacity : LockFreePageCache Page) :=
  ⟨rfl, UInt64.zero_le⟩

/-- As long as every call is admitted, the counter is the number of cached pages and stays
within the capacity, and the first call that is not admitted breaks it.  Whatever the calls,
a page that was inserted is returned until it is dropped. -/
theorem counts_pages {capacity : UInt64} (hcap : 1 ≤ capacity) {c : LockFreePageCache Page}
    (h : Reaches (Via step) Admits (new capacity) c) :
    c.stats.size.toNat = c.entries.size ∧ c.stats.size ≤ capacity ∧
    (∀ call c', step c call = some c' → (Counted c' ↔ Admits c call)) ∧
    ∀ pageId page now c',
      Reaches (Via step) (fun c call => ¬ Drops pageId c call) (c.insert pageId page now) c' →
      ∀ now', (c'.get pageId now').1.map CachedPage.page = some page := by
  have hinv : Counted c ∧ c.capacity = capacity := by
    refine Reaches.invariant (I := fun c => Counted c ∧ c.capacity = capacity)
      ⟨counted_new capacity, rfl⟩ ?_ h
    rintro c call c' ⟨hcounted, rfl⟩ hadmits hstep
    exact ⟨(counted_step hcap hcounted call hstep).mpr hadmits, step_capacity hstep⟩
  obtain ⟨hcounted, rfl⟩ := hinv
  refine ⟨hcounted.1, hcounted.2, fun call c' hstep => counted_step hcap hcounted call hstep, ?_⟩
  intro pageId page now c' hrun now'
  rw [get_page]
  refine Reaches.invariant (I := fun c => c.pageOf pageId = some page)
    (pageOf_insert_self c pageId page now) ?_ hrun
  intro c call c' hpage hdrops hstep
  exact pageOf_step hdrops hstep hpage

/-- One page fits, and makes room for the next. -/
def onePage : LockFreePageCache ℕ := (new 1 : LockFreePageCache ℕ).insert 7 70 5

theorem counts_pages_evict :
    (onePage.insert 8 80 6).stats.size.toNat = (onePage.insert 8 80 6).entries.size := by
  have hfirst : Admits (new 1 : LockFreePageCache ℕ) (.insert 7 70 5) :=
    Std.ExtTreeMap.not_mem_empty
  have hsecond : Admits onePage (.insert 8 80 6) :=
    ⟨7, ⟨by decide, [], [], by decide, by simp, by simp⟩, fun hmem => absurd hmem (by decide)⟩
  exact (counts_pages (by decide) ((Reaches.refl.tail hfirst rfl).tail hsecond rfl)).1

/-- A page that is inserted twice is counted twice. -/
theorem not_counts_pages : ¬ ∀ capacity : UInt64, 1 ≤ capacity → ∀ c : LockFreePageCache ℕ,
    Reaches (Via step) Any (new capacity) c →
      c.stats.size.toNat = c.entries.size ∧ c.stats.size ≤ capacity := by
  intro hall
  have hcount := hall 2 (by decide) (((new 2 : LockFreePageCache ℕ).insert 7 70 5).insert 7 71 6)
    ((Reaches.refl.tail (a := .insert 7 70 5) trivial rfl).tail (a := .insert 7 71 6) trivial rfl)
  exact absurd hcount.1 (by decide)

/-- With one page of room, three different pages make a cache of two: the ids the second
eviction looks at are gone. -/
theorem exceeds_capacity : ∃ c : LockFreePageCache ℕ, Reaches (Via step) Any (new 1) c ∧
    ¬ c.stats.size ≤ c.capacity := by
  refine ⟨(onePage.insert 8 80 6).insert 9 90 7, ?_, by decide⟩
  exact ((Reaches.refl.tail (a := .insert 7 70 5) trivial rfl).tail (a := .insert 8 80 6)
    trivial rfl).tail (a := .insert 9 90 7) trivial rfl

end LockFreePageCache

end VelociDB
