/-
# The asynchronous page cache (`async_io.rs`)

`AsyncPageCache` sits in front of a virtual file system.  Its calls touch the file system and
the cache in separate steps, between which the other tasks run:

    read_page     look up the cache; read from the VFS; insert into the cache
    write_page    write to the VFS; insert into the cache

An insert first evicts entries while the cache is full.  What a call inserts may be older by
then than what the VFS holds.  That does no harm as long as the call that stored the newer page
has yet to insert it.
-/
import VelociDB.Types
import VelociDB.Lib.Transition

namespace VelociDB.AsyncCache

variable {Page : Type}

/-- `cache`: a map from page ids to pages. -/
abbrev Cache (Page : Type) := Std.ExtTreeMap Nat Page

/-- The loop that evicts entries while the cache is full, given the keys that
`cache.iter().next()` yields in turn; `write_page` stops at its own page. -/
def evict (capacity : Nat) (own : Option Nat) : List Nat → Cache Page → Option (Cache Page)
  | [], cache => if cache.size < capacity ∨ cache.isEmpty then some cache else none
  | key :: keys, cache =>
      if cache.size < capacity ∨ key ∉ cache then none
      else if own = some key then if keys = [] then some cache else none
      else evict capacity own keys (cache.erase key)

/-- A call between two of its steps. -/
inductive Call (Page : Type) where
  /-- `read_page` has missed the cache. -/
  | missed (pageId : Nat)
  /-- `read_page` has read from the VFS. -/
  | loaded (pageId : Nat) (page : Page)
  /-- `write_page` has begun. -/
  | writing (pageId : Nat) (page : Page)
  /-- `write_page` has written to the VFS. -/
  | stored (pageId : Nat) (page : Page)
  deriving DecidableEq

/-- The page a call is about. -/
def Call.pageId : Call Page → Nat
  | missed pageId | loaded pageId _ | writing pageId _ | stored pageId _ => pageId

/-- What a call is about to insert. -/
def Call.inserts : Call Page → Option (Nat × Page)
  | loaded pageId page | stored pageId page => some (pageId, page)
  | missed _ | writing _ _ => none

/-- The cache, the VFS and the calls that are running. -/
structure Sys (Page : Type) where
  capacity : Nat
  vfs : Std.ExtTreeMap Nat Page
  cache : Cache Page
  calls : Std.ExtTreeMap Nat (Call Page)

namespace Sys

/-- `AsyncPageCache::new`. -/
def new (capacity : Nat) (vfs : Std.ExtTreeMap Nat Page) : Sys Page := ⟨capacity, vfs, ∅, ∅⟩

/-- The steps of the calls; each call runs in a task. -/
inductive Act (Page : Type) where
  | read (task : Nat) (pageId : Nat)
  | write (task : Nat) (pageId : Nat) (page : Page)
  /-- The VFS answers. -/
  | vfs (task : Nat)
  /-- The VFS fails and leaves the page as it was. -/
  | fail (task : Nat)
  /-- The insert into the cache, with the keys that are looked at for eviction. -/
  | insert (task : Nat) (keys : List Nat)

/-- The insert of a call, which ends it. -/
def insertPage (s : Sys Page) (task : Nat) (own : Option Nat) (keys : List Nat) (pageId : Nat)
    (page : Page) : Option (Sys Page) := do
  let cache ← evict s.capacity own keys s.cache
  some { s with cache := cache.insert pageId page, calls := s.calls.erase task }

def step (s : Sys Page) : Act Page → Option (Sys Page)
  | .read task pageId =>
      if task ∈ s.calls then none
      else if pageId ∈ s.cache then some s
      else some { s with calls := s.calls.insert task (.missed pageId) }
  | .write task pageId page =>
      if task ∈ s.calls then none
      else some { s with calls := s.calls.insert task (.writing pageId page) }
  | .vfs task =>
      match s.calls[task]? with
      | some (.missed pageId) =>
          match s.vfs[pageId]? with
          | some page => some { s with calls := s.calls.insert task (.loaded pageId page) }
          | none => some { s with calls := s.calls.erase task }
      | some (.writing pageId page) => some { s with
          vfs := s.vfs.insert pageId page
          calls := s.calls.insert task (.stored pageId page) }
      | _ => none
  | .fail task =>
      match s.calls[task]? with
      | some (.missed _) | some (.writing _ _) => some { s with calls := s.calls.erase task }
      | _ => none
  | .insert task keys =>
      match s.calls[task]? with
      | some (.loaded pageId page) => s.insertPage task none keys pageId page
      | some (.stored pageId page) => s.insertPage task (some pageId) keys pageId page
      | _ => none

/-- What `read_page` returns when it runs alone; `none` is an error. -/
def readPage (s : Sys Page) (pageId : Nat) : Option Page :=
  match s.cache[pageId]? with
  | some page => some page
  | none => s.vfs[pageId]?

/-! ## Stale pages -/

/-- The call that stored what the VFS holds has yet to insert it. -/
def Pending (s : Sys Page) (pageId : Nat) : Prop :=
  ∃ (task : Nat) (page : Page), s.calls[task]? = some (Call.stored pageId page) ∧
    s.vfs[pageId]? = some page

/-- An entry of the cache is what the VFS holds, or will be replaced by it. -/
def Fresh (s : Sys Page) : Prop :=
  ∀ pageId page, s.cache[pageId]? = some page → s.vfs[pageId]? = some page ∨ s.Pending pageId

/-- What is inserted is what the VFS holds, or will be replaced by it. -/
def InsertsFresh (s : Sys Page) : Act Page → Prop
  | .insert task _ => ∀ call ∈ s.calls[task]?, ∀ e ∈ call.inserts,
      s.vfs[e.1]? = some e.2 ∨ s.Pending e.1
  | _ => True

variable {s s' : Sys Page} {a : Act Page}

theorem getElem?_evict {capacity : Nat} {own : Option Nat} {pageId : Nat} {page : Page} :
    ∀ {keys : List Nat} {cache cache' : Cache Page}, evict capacity own keys cache = some cache' →
    cache'[pageId]? = some page → cache[pageId]? = some page
  | [], cache, cache', h, hpage => by
      simp only [evict] at h
      split at h
      · obtain rfl := Option.some.inj h
        exact hpage
      · cases h
  | key :: keys, cache, cache', h, hpage => by
      simp only [evict] at h
      split at h
      · cases h
      · split at h
        · split at h
          · obtain rfl := Option.some.inj h
            exact hpage
          · cases h
        · have herased := getElem?_evict h hpage
          rw [Std.ExtTreeMap.getElem?_erase] at herased
          split at herased
          · cases herased
          · exact herased

/-- A step of a call that has stored nothing leaves those that have. -/
theorem getElem?_insert_call {task t : Nat} {c : Call Page} {pageId : Nat} {page : Page}
    (hno : ∀ q page, s.calls[task]? ≠ some (Call.stored q page))
    (h : s.calls[t]? = some (Call.stored pageId page)) :
    (s.calls.insert task c)[t]? = some (Call.stored pageId page) := by
  have hne : task ≠ t := by
    rintro rfl
    exact hno _ _ h
  simp [Std.ExtTreeMap.getElem?_insert, hne, h]

theorem getElem?_erase_call {task t : Nat} {pageId : Nat} {page : Page}
    (hno : ∀ q page, s.calls[task]? ≠ some (Call.stored q page))
    (h : s.calls[t]? = some (Call.stored pageId page)) :
    (s.calls.erase task)[t]? = some (Call.stored pageId page) := by
  have hne : task ≠ t := by
    rintro rfl
    exact hno _ _ h
  simp [Std.ExtTreeMap.getElem?_erase, hne, h]

/-- Neither the cache nor the VFS changes, and no call that has stored a page ends. -/
theorem Fresh.mono (h : s.Fresh) (hcache : s'.cache = s.cache) (hvfs : s'.vfs = s.vfs)
    (hcalls : ∀ (task : Nat) q page, s.calls[task]? = some (Call.stored q page) →
      s'.calls[task]? = some (Call.stored q page)) : s'.Fresh := by
  intro pageId page hpage
  rw [hcache] at hpage
  rw [hvfs]
  refine (h pageId page hpage).imp id ?_
  rintro ⟨task, newer, htask, hnewer⟩
  exact ⟨task, newer, hcalls task pageId newer htask, hvfs ▸ hnewer⟩

/-- A call inserts its page and ends. -/
theorem Fresh.insertPage {task pageId : Nat} {own : Option Nat} {keys : List Nat} {page : Page}
    (h : s.Fresh) (hstep : s.insertPage task own keys pageId page = some s')
    (htask : s.calls[task]? = some (.loaded pageId page) ∨
      s.calls[task]? = some (.stored pageId page))
    (hok : s.vfs[pageId]? = some page ∨ s.Pending pageId) : s'.Fresh := by
  obtain ⟨cache, hevict, hstep⟩ := Option.bind_eq_some_iff.mp hstep
  obtain rfl := Option.some.inj hstep
  -- what was pending still is, unless it is what the call inserts
  have hpending : ∀ q, s.Pending q →
      (q = pageId ∧ s.vfs[pageId]? = some page) ∨
        (Sys.mk s.capacity s.vfs (cache.insert pageId page) (s.calls.erase task)).Pending q := by
    rintro q ⟨other, newer, hother, hnewer⟩
    by_cases hsame : task = other
    · subst hsame
      rcases htask with htask | htask
      · rw [hother] at htask
        cases htask
      · rw [hother] at htask
        obtain ⟨rfl, rfl⟩ := Call.stored.inj (Option.some.inj htask)
        exact Or.inl ⟨rfl, hnewer⟩
    · refine Or.inr ⟨other, newer, ?_, hnewer⟩
      show (s.calls.erase task)[other]? = _
      rw [Std.ExtTreeMap.getElem?_erase]
      simp [hsame, hother]
  intro q entry hentry
  replace hentry : (cache.insert pageId page)[q]? = some entry := hentry
  by_cases hq : pageId = q
  · subst hq
    obtain rfl : page = entry := by simpa using hentry
    rcases hok with hcurrent | hlater
    · exact Or.inl hcurrent
    · rcases hpending pageId hlater with ⟨-, hcurrent⟩ | hlater
      · exact Or.inl hcurrent
      · exact Or.inr hlater
  · rw [Std.ExtTreeMap.getElem?_insert, if_neg (by simpa using hq)] at hentry
    rcases h q entry (getElem?_evict hevict hentry) with hcurrent | hlater
    · exact Or.inl hcurrent
    · rcases hpending q hlater with ⟨rfl, -⟩ | hlater
      · exact absurd rfl hq
      · exact Or.inr hlater

theorem Fresh.step (h : s.Fresh) (hok : s.InsertsFresh a) (hstep : s.step a = some s') :
    s'.Fresh := by
  cases a with
  | read task pageId =>
      simp only [Sys.step] at hstep
      split at hstep
      · cases hstep
      · rename_i hfree
        split at hstep
        · obtain rfl := Option.some.inj hstep
          exact h
        · obtain rfl := Option.some.inj hstep
          refine h.mono rfl rfl fun t q page ht => getElem?_insert_call ?_ ht
          simp [Std.ExtTreeMap.getElem?_eq_none hfree]
  | write task pageId page =>
      simp only [Sys.step] at hstep
      split at hstep
      · cases hstep
      · rename_i hfree
        obtain rfl := Option.some.inj hstep
        refine h.mono rfl rfl fun t q page ht => getElem?_insert_call ?_ ht
        simp [Std.ExtTreeMap.getElem?_eq_none hfree]
  | vfs task =>
      simp only [Sys.step] at hstep
      split at hstep
      · rename_i pageId htask
        have hno : ∀ q page, s.calls[task]? ≠ some (Call.stored q page) := by simp [htask]
        split at hstep
        · obtain rfl := Option.some.inj hstep
          exact h.mono rfl rfl fun t q page ht => getElem?_insert_call hno ht
        · obtain rfl := Option.some.inj hstep
          exact h.mono rfl rfl fun t q page ht => getElem?_erase_call hno ht
      · rename_i pageId page htask
        have hno : ∀ q page, s.calls[task]? ≠ some (Call.stored q page) := by simp [htask]
        obtain rfl := Option.some.inj hstep
        intro q entry hentry
        by_cases hq : pageId = q
        · subst hq
          refine Or.inr ⟨task, page, ?_, ?_⟩
          · exact Std.ExtTreeMap.getElem?_insert_self
          · exact Std.ExtTreeMap.getElem?_insert_self
        · have hvfs : (s.vfs.insert pageId page)[q]? = s.vfs[q]? := by
            rw [Std.ExtTreeMap.getElem?_insert, if_neg (by simpa using hq)]
          refine (h q entry hentry).imp (fun hcurrent => hvfs.trans hcurrent) ?_
          rintro ⟨other, newer, hother, hnewer⟩
          exact ⟨other, newer, getElem?_insert_call hno hother, hvfs.trans hnewer⟩
      · cases hstep
  | fail task =>
      simp only [Sys.step] at hstep
      split at hstep
      · rename_i pageId htask
        obtain rfl := Option.some.inj hstep
        refine h.mono rfl rfl fun t q page ht => getElem?_erase_call ?_ ht
        simp [htask]
      · rename_i pageId page htask
        obtain rfl := Option.some.inj hstep
        refine h.mono rfl rfl fun t q page ht => getElem?_erase_call ?_ ht
        simp [htask]
      · cases hstep
  | insert task keys =>
      simp only [Sys.step] at hstep
      split at hstep
      · rename_i pageId page htask
        exact h.insertPage hstep (Or.inl htask) (hok _ htask _ rfl)
      · rename_i pageId page htask
        exact h.insertPage hstep (Or.inr htask) (hok _ htask _ rfl)
      · cases hstep

/-- The cache is not stale: in every run in which nothing older than what the VFS holds is
inserted last, a page that no call is about is read as the VFS holds it. -/
theorem readPage_eq_vfs {capacity : Nat} {vfs : Std.ExtTreeMap Nat Page} {pageId : Nat}
    (hs : Transition.Reaches (Transition.Via step) InsertsFresh (new capacity vfs) s)
    (hdone : ∀ (task : Nat) c, s.calls[task]? = some c → c.pageId ≠ pageId) :
    s.readPage pageId = s.vfs[pageId]? := by
  have hfresh : s.Fresh := by
    refine Transition.Reaches.invariant (fun pageId page hpage => ?_) ?_ hs
    · simp [new] at hpage
    · intro s a s' h hok hstep
      exact h.step hok hstep
  rw [readPage]
  cases hpage : s.cache[pageId]? with
  | none => rfl
  | some page =>
      rcases hfresh pageId page hpage with hcurrent | ⟨task, newer, htask, -⟩
      · exact hcurrent.symm
      · exact absurd rfl (hdone task _ htask)

instance [DecidableEq Page] (s : Sys Page) (pageId : Nat) : Decidable (s.Pending pageId) :=
  decidable_of_iff
    (∃ e ∈ s.calls.toList, ∃ page ∈ s.vfs[pageId]?, e.2 = Call.stored pageId page) (by
      simp only [Prod.exists, Std.ExtTreeMap.mem_toList_iff_getElem?_eq_some, Option.mem_def]
      constructor
      · rintro ⟨task, _, htask, page, hpage, rfl⟩
        exact ⟨task, page, htask, hpage⟩
      · rintro ⟨task, page, htask, hpage⟩
        exact ⟨task, _, htask, page, hpage, rfl⟩)

instance [DecidableEq Page] (s : Sys Page) : (a : Act Page) → Decidable (s.InsertsFresh a)
  | .insert task _ => inferInstanceAs (Decidable (∀ call ∈ s.calls[task]?, ∀ e ∈ call.inserts,
      s.vfs[e.1]? = some e.2 ∨ s.Pending e.1))
  | .read _ _ | .write _ _ _ | .vfs _ | .fail _ => inferInstanceAs (Decidable True)

/-- A VFS with one page. -/
def onePage : Std.ExtTreeMap Nat Nat := (∅ : Std.ExtTreeMap Nat Nat).insert 5 0

/-- A reader inserts the page it read before a write, and the writer inserts after it. -/
theorem readPage_eq_vfs_written : ∃ s, Transition.runActions step InsertsFresh (new 1 onePage)
      [.read 0 5, .vfs 0, .write 1 5 1, .vfs 1, .insert 0 [], .insert 1 [5]] = some s ∧
    s.readPage 5 = some 1 := by
  obtain ⟨s, hs, hfacts⟩ : ∃ s, Transition.runActions step InsertsFresh (new 1 onePage)
      [.read 0 5, .vfs 0, .write 1 5 1, .vfs 1, .insert 0 [], .insert 1 [5]] = some s ∧
      (s.calls.isEmpty, s.vfs[5]?) = (true, some 1) :=
    Option.map_eq_some_iff.mp (by with_unfolding_all decide)
  obtain ⟨hdone, hvfs⟩ := Prod.mk.inj hfacts
  refine ⟨s, hs, ?_⟩
  rw [readPage_eq_vfs (Transition.reaches_of_runActions _ .refl hs), hvfs]
  intro task c hc
  rw [Std.ExtTreeMap.isEmpty_iff.mp hdone] at hc
  simp at hc

/-- The reader inserts last: the cache keeps the old page. -/
theorem not_readPage_eq_vfs : ¬ ∀ (s : Sys Nat) (pageId : Nat),
    Transition.Reaches (Transition.Via step) Transition.Any (new 1 onePage) s → s.calls = ∅ →
    s.readPage pageId = s.vfs[pageId]? := by
  intro hall
  obtain ⟨s, hs, hfacts⟩ : ∃ s, Transition.runActions step Transition.Any (new 1 onePage)
      [.read 0 5, .vfs 0, .write 1 5 1, .vfs 1, .insert 1 [], .insert 0 [5]] = some s ∧
      (s.calls.isEmpty, s.readPage 5, s.vfs[5]?) = (true, some 0, some 1) :=
    Option.map_eq_some_iff.mp (by with_unfolding_all decide)
  simp only [Prod.mk.injEq] at hfacts
  obtain ⟨hdone, hread, hvfs⟩ := hfacts
  have hfresh := hall s 5 (Transition.reaches_of_runActions _ .refl hs)
    (Std.ExtTreeMap.isEmpty_iff.mp hdone)
  rw [hread, hvfs] at hfresh
  cases hfresh

end Sys

end VelociDB.AsyncCache
