/-
# The log in persistent memory (`pmem.rs`)

`DaxVfs` is a file mapped into memory.  `PmemTransactionLog::append` takes its room by a
`fetch_add` and then copies without a lock, so that the copies of several tasks may run at the
same time:

    reserve    the fetch_add and the check of the page's end
    locate     get_page_ptr_mut
    copy       one byte
    finish     the flush and the return

`expand` maps the file anew, and a pointer got before it is dead; so a page may be allocated
only while no task holds one (`Careful`).  With that, and as long as fewer than `2 ^ 64` bytes
were asked for, what an append has returned stays readable (`log_reads_back`).
-/
import VelociDB.Lib.Transition
import VelociDB.Lib.Edits
import VelociDB.Pager

namespace VelociDB

open Bytes Transition

/-- `DaxVfs`: the mapped bytes and the number of pages. -/
structure DaxVfs where
  mem : Bytes
  numPages : Nat

namespace DaxVfs

/-- `get_page_ptr` and `get_page_ptr_mut`: where the page begins. -/
def getPagePtr (vfs : DaxVfs) (pageId : Nat) : Except VelociError Nat :=
  if vfs.numPages ≤ pageId then .error (.notFound s!"Page {pageId} out of bounds")
  else if vfs.mem.isEmpty then .error (.storageError "Memory map not initialized")
  else .ok (pageId * pageSize)

/-- `write_page`. -/
def writePage (vfs : DaxVfs) (pageId : Nat) (page : Page) : Except VelociError DaxVfs := do
  let ptr ← vfs.getPagePtr pageId
  return { vfs with mem := overwrite vfs.mem ptr page.data }

/-- `expand`. -/
def expand (vfs : DaxVfs) (newSize : Nat) : DaxVfs := ⟨resize vfs.mem newSize, newSize / pageSize⟩

/-- `allocate_page`. -/
def allocatePage (vfs : DaxVfs) : Except VelociError (Nat × DaxVfs) := do
  let vfs' ← (vfs.expand ((vfs.numPages + 1) * pageSize)).writePage vfs.numPages Page.new
  return (vfs.numPages, vfs')

/-- The mapping is whole pages. -/
structure Whole (vfs : DaxVfs) : Prop where
  size : vfs.mem.length = vfs.numPages * pageSize

variable {vfs : DaxVfs} {p : Nat}

theorem Whole.getPagePtr (h : vfs.Whole) (hp : p < vfs.numPages) :
    vfs.getPagePtr p = .ok (p * pageSize) := by
  have hne : vfs.mem.isEmpty = false := by
    rw [List.isEmpty_eq_false_iff_exists_mem]
    refine List.exists_mem_of_length_pos ?_
    rw [h.size, pageSize_eq]
    omega
  rw [DaxVfs.getPagePtr, if_neg (Nat.not_le.mpr hp), hne, if_neg Bool.false_ne_true]

/-- A page inside the mapping is written over. -/
theorem Whole.writePage (h : vfs.Whole) (hp : p < vfs.numPages) (page : Page) :
    vfs.writePage p page = .ok ⟨overwrite vfs.mem (p * pageSize) page.data, vfs.numPages⟩ := by
  rw [DaxVfs.writePage, h.getPagePtr hp]
  rfl

/-- A write inside a file leaves its length. -/
theorem length_overwrite_of_le {f bs : Bytes} {o : Nat} (h : o + bs.length ≤ f.length) :
    (overwrite f o bs).length = f.length := by
  cases bs with
  | nil => rw [overwrite_nil]
  | cons b bs => rw [length_overwrite _ _ (List.cons_ne_nil _ _), max_eq_left h]

theorem page_end (hp : p < vfs.numPages) : p * pageSize + pageSize ≤ vfs.numPages * pageSize := by
  rw [← Nat.succ_mul]
  exact Nat.mul_le_mul_right _ hp

theorem Whole.written (h : vfs.Whole) (hp : p < vfs.numPages) {o : Nat} {b : Bytes}
    (hfit : o + b.length ≤ pageSize) :
    Whole { vfs with mem := overwrite vfs.mem (p * pageSize + o) b } := by
  refine ⟨(length_overwrite_of_le ?_).trans h.size⟩
  rw [h.size]
  have := page_end hp
  omega

/-- A new page of zeros behind the others. -/
theorem Whole.allocatePage (h : vfs.Whole) : ∃ vfs', vfs.allocatePage = .ok (vfs.numPages, vfs') ∧
    vfs'.Whole ∧ vfs'.numPages = vfs.numPages + 1 ∧
      ∀ i, i < vfs.mem.length → byteAt vfs'.mem i = byteAt vfs.mem i := by
  have hpos : 0 < pageSize := by rw [pageSize_eq]; decide
  have hgrown : Whole (vfs.expand ((vfs.numPages + 1) * pageSize)) := by
    refine ⟨?_⟩
    show (resize _ _).length = _ / pageSize * pageSize
    rw [length_resize, Nat.mul_div_cancel _ hpos]
  have hnum : (vfs.expand ((vfs.numPages + 1) * pageSize)).numPages = vfs.numPages + 1 :=
    Nat.mul_div_cancel _ hpos
  have hp : vfs.numPages < (vfs.expand ((vfs.numPages + 1) * pageSize)).numPages := by
    rw [hnum]
    exact Nat.lt_succ_self _
  refine ⟨_, ?_, hgrown.written (o := 0) hp (b := Page.new.data) ?_, hnum, fun i hi => ?_⟩
  · rw [DaxVfs.allocatePage, hgrown.writePage hp]
    rfl
  · rw [Page.new.size, Nat.zero_add]
  · rw [h.size] at hi
    show byteAt (overwrite _ (vfs.numPages * pageSize + 0) _) i = _
    rw [byteAt_overwrite, if_neg (by omega)]
    show byteAt (resize _ _) i = _
    rw [byteAt_resize, if_pos]
    rw [Nat.succ_mul]
    omega

end DaxVfs

/-- `PmemTransactionLog`. -/
structure PmemTransactionLog where
  vfs : DaxVfs
  logPage : Nat
  writeOffset : Nat

namespace PmemTransactionLog

/-- `new`. -/
def new (vfs : DaxVfs) : Except VelociError PmemTransactionLog := do
  let (logPage, vfs) ← vfs.allocatePage
  return ⟨vfs, logPage, 0⟩

/-- `read`. -/
def read (log : PmemTransactionLog) (offset length : Nat) : Except VelociError Bytes := do
  let ptr ← log.vfs.getPagePtr log.logPage
  if pageSize < (offset + length) % u64Size then .error (.storageError "Read out of bounds")
  else return window log.vfs.mem (ptr + offset) length

end PmemTransactionLog

/-- An append that has its room. -/
structure Append where
  offset : Nat
  data : Bytes
  ptr : Option Nat
  copied : Nat

/-- The room of an append: where it begins, and what goes there. -/
def Append.entry (a : Append) : Nat × Bytes := (a.offset, a.data)

/-- The log and the tasks that append to it. -/
structure LogSys where
  log : PmemTransactionLog
  inFlight : Nat → Option Append
  appended : List (Nat × Bytes)
  refused : List (Nat × Bytes)
  reserved : Nat

namespace LogSys

/-- What the tasks do; `write` and `allocate` are calls of other users of the file. -/
inductive Act where
  | reserve (task : Nat) (data : Bytes)
  | locate (task : Nat)
  | copy (task : Nat)
  | finish (task : Nat)
  | write (pageId : Nat) (page : Page)
  | allocate

/-- `append` up to the check of the end of the page. -/
def reserve (s : LogSys) (task : Nat) (data : Bytes) : LogSys :=
  let offset := s.log.writeOffset
  let s := { s with
    log := { s.log with writeOffset := (offset + data.length) % u64Size }
    reserved := s.reserved + data.length }
  if pageSize < (offset + data.length) % u64Size then
    { s with refused := s.refused ++ [(offset, data)] }
  else { s with inFlight := Function.update s.inFlight task (some ⟨offset, data, none, 0⟩) }

/-- The pointer of an append, or its error. -/
def locate (s : LogSys) (task : Nat) (a : Append) : LogSys :=
  match s.log.vfs.getPagePtr s.log.logPage with
  | .ok ptr =>
      { s with inFlight := Function.update s.inFlight task (some { a with ptr := some (ptr + a.offset) }) }
  | .error _ => { s with inFlight := Function.update s.inFlight task none }

/-- One byte of `copy_nonoverlapping`. -/
def copy (s : LogSys) (task : Nat) (a : Append) (ptr : Nat) (b : UInt8) : LogSys :=
  { s with
    log := { s.log with vfs := { s.log.vfs with mem := overwrite s.log.vfs.mem (ptr + a.copied) [b] } }
    inFlight := Function.update s.inFlight task (some { a with copied := a.copied + 1 }) }

def step (s : LogSys) : Act → Option LogSys
  | .reserve task data => if (s.inFlight task).isSome then none else some (s.reserve task data)
  | .locate task => do
      let a ← s.inFlight task
      if a.ptr.isSome then none else some (s.locate task a)
  | .copy task => do
      let a ← s.inFlight task
      let ptr ← a.ptr
      let b ← a.data[a.copied]?
      return s.copy task a ptr b
  | .finish task => do
      let a ← s.inFlight task
      if a.ptr.isSome ∧ a.copied = a.data.length then
        some { s with
          inFlight := Function.update s.inFlight task none
          appended := s.appended ++ [a.entry] }
      else none
  | .write pageId page => do
      let vfs ← (s.log.vfs.writePage pageId page).toOption
      return { s with log := { s.log with vfs := vfs } }
  | .allocate => do
      let (_, vfs) ← s.log.vfs.allocatePage.toOption
      return { s with log := { s.log with vfs := vfs } }

/-- The others leave the log's page alone, no task holds a pointer while the file is mapped
anew, and the bytes asked for can be counted. -/
def Careful (s : LogSys) : Act → Prop
  | .reserve _ data => s.reserved + data.length < u64Size
  | .write pageId _ => pageId ≠ s.log.logPage
  | .allocate => ∀ task a, s.inFlight task = some a → a.ptr = none
  | _ => True

/-- A new log. -/
def init (log : PmemTransactionLog) : LogSys := ⟨log, fun _ => none, [], [], 0⟩

/-! ## No two appends share a byte -/

/-- Two pieces of the page without a common byte. -/
def Apart (e e' : Nat × Bytes) : Prop := e.1 + e.2.length ≤ e'.1 ∨ e'.1 + e'.2.length ≤ e.1

/-- The first byte of the log's page. -/
def base (s : LogSys) : Nat := s.log.logPage * pageSize

/-- The rooms are apart, what is done is in its room, and what is being copied is there as far
as it has been copied. -/
structure Inv (s : LogSys) : Prop where
  whole : s.log.vfs.Whole
  page : s.log.logPage < s.log.vfs.numPages
  bound : s.reserved < u64Size
  offset : s.log.writeOffset = s.reserved
  full : s.refused ≠ [] → pageSize < s.reserved
  done_le : ∀ e ∈ s.appended, e.1 + e.2.length ≤ s.reserved ∧ e.1 + e.2.length ≤ pageSize
  flight_le : ∀ task a, s.inFlight task = some a →
    a.offset + a.data.length ≤ s.reserved ∧ a.offset + a.data.length ≤ pageSize
  done_apart : s.appended.Pairwise Apart
  flight_apart : ∀ task a, s.inFlight task = some a → ∀ e ∈ s.appended, Apart e a.entry
  tasks_apart : ∀ task task' a a', task ≠ task' → s.inFlight task = some a →
    s.inFlight task' = some a' → Apart a.entry a'.entry
  written : ∀ e ∈ s.appended, window s.log.vfs.mem (s.base + e.1) e.2.length = e.2
  copying : ∀ task a, s.inFlight task = some a → a.copied ≤ a.data.length ∧
    (∀ ptr, a.ptr = some ptr → ptr = s.base + a.offset) ∧
    window s.log.vfs.mem (s.base + a.offset) a.copied = a.data.take a.copied

variable {s s' : LogSys} {task : Nat} {a : Append} {data : Bytes}

/-- The task of an update, or another one. -/
theorem inFlight_update {x : Option Append} {t : Nat} {b : Append}
    (h : Function.update s.inFlight task x t = some b) :
    (t = task ∧ x = some b) ∨ (t ≠ task ∧ s.inFlight t = some b) := by
  by_cases ht : t = task
  · subst ht
    exact .inl ⟨rfl, by rwa [Function.update_self] at h⟩
  · exact .inr ⟨ht, by rwa [Function.update_of_ne ht] at h⟩

/-- The room behind everything reserved is apart from it. -/
theorem apart_reserved {e : Nat × Bytes} (h : e.1 + e.2.length ≤ s.reserved) :
    Apart e (s.reserved, data) := .inl h

theorem Inv.reserve (h : s.Inv) (hnone : s.inFlight task = none)
    (hbound : s.reserved + data.length < u64Size) : (s.reserve task data).Inv := by
  have hmod : (s.log.writeOffset + data.length) % u64Size = s.reserved + data.length := by
    rw [h.offset, Nat.mod_eq_of_lt hbound]
  unfold LogSys.reserve
  dsimp only
  split
  · rename_i hfull
    rw [hmod] at hfull
    exact
      { h with
        bound := hbound
        offset := hmod
        full := fun _ => hfull
        done_le := fun e he => ⟨Nat.le_add_right_of_le (h.done_le e he).1, (h.done_le e he).2⟩
        flight_le := fun t b hb =>
          ⟨Nat.le_add_right_of_le (h.flight_le t b hb).1, (h.flight_le t b hb).2⟩ }
  · rename_i hroom
    rw [hmod] at hroom
    constructor
    case whole => exact h.whole
    case page => exact h.page
    case bound => exact hbound
    case offset => exact hmod
    case full => exact fun hne => Nat.lt_add_right _ (h.full hne)
    case done_le =>
      exact fun e he => ⟨Nat.le_add_right_of_le (h.done_le e he).1, (h.done_le e he).2⟩
    case flight_le =>
      intro t b hb
      rcases inFlight_update hb with ⟨rfl, heq⟩ | ⟨-, hb⟩
      · obtain rfl := Option.some.inj heq
        show s.log.writeOffset + _ ≤ _ ∧ s.log.writeOffset + _ ≤ _
        rw [h.offset]
        exact ⟨Nat.le_refl _, Nat.not_lt.mp hroom⟩
      · exact ⟨Nat.le_add_right_of_le (h.flight_le t b hb).1, (h.flight_le t b hb).2⟩
    case done_apart => exact h.done_apart
    case flight_apart =>
      intro t b hb e he
      rcases inFlight_update hb with ⟨rfl, heq⟩ | ⟨-, hb⟩
      · obtain rfl := Option.some.inj heq
        show Apart e (s.log.writeOffset, data)
        rw [h.offset]
        exact apart_reserved (h.done_le e he).1
      · exact h.flight_apart t b hb e he
    case tasks_apart =>
      intro t t' b b' hne hb hb'
      rcases inFlight_update hb with ⟨ht, heq⟩ | ⟨-, hold⟩
      · rcases inFlight_update hb' with ⟨ht', -⟩ | ⟨-, hold'⟩
        · exact absurd (ht.trans ht'.symm) hne
        · obtain rfl := Option.some.inj heq
          show Apart (s.log.writeOffset, data) b'.entry
          rw [h.offset]
          exact (apart_reserved (h.flight_le t' b' hold').1).symm
      · rcases inFlight_update hb' with ⟨-, heq⟩ | ⟨-, hold'⟩
        · obtain rfl := Option.some.inj heq
          show Apart b.entry (s.log.writeOffset, data)
          rw [h.offset]
          exact apart_reserved (h.flight_le t b hold).1
        · exact h.tasks_apart t t' b b' hne hold hold'
    case written => exact h.written
    case copying =>
      intro t b hb
      rcases inFlight_update hb with ⟨rfl, heq⟩ | ⟨-, hb⟩
      · obtain rfl := Option.some.inj heq
        exact ⟨Nat.zero_le _, nofun, List.length_eq_zero_iff.mp (length_window _ _ _)⟩
      · exact h.copying t b hb

/-- The memory changed, but not in the log's page. -/
theorem Inv.remapped (h : s.Inv) {vfs : DaxVfs} (hwhole : vfs.Whole)
    (hnum : s.log.vfs.numPages ≤ vfs.numPages)
    (hsame : ∀ i, s.base ≤ i → i < s.base + pageSize → byteAt vfs.mem i = byteAt s.log.vfs.mem i) :
    Inv { s with log := { s.log with vfs := vfs } } := by
  have hwindow : ∀ o n, o + n ≤ pageSize →
      window vfs.mem (s.base + o) n = window s.log.vfs.mem (s.base + o) n := fun o n hon =>
    window_congr fun i hlo hhi => hsame i (by omega) (by omega)
  refine
    { h with
      whole := hwhole
      page := Nat.lt_of_lt_of_le h.page hnum
      written := fun e he => (hwindow _ _ (h.done_le e he).2).trans (h.written e he)
      copying := fun t b hb => ?_ }
  obtain ⟨hle, hptr, hcopied⟩ := h.copying t b hb
  have hend := (h.flight_le t b hb).2
  exact ⟨hle, hptr, (hwindow _ _ (by omega)).trans hcopied⟩

/-- What a task holds of its append changes, its room does not. -/
theorem Inv.moved (h : s.Inv) (ha : s.inFlight task = some a) {a' : Append} {vfs : DaxVfs}
    (hentry : a'.entry = a.entry) (hwhole : vfs.Whole) (hnum : vfs.numPages = s.log.vfs.numPages)
    (hsame : ∀ e : Nat × Bytes, Apart e a.entry →
      window vfs.mem (s.base + e.1) e.2.length = window s.log.vfs.mem (s.base + e.1) e.2.length)
    (hcopied : a'.copied ≤ a'.data.length ∧ (∀ ptr, a'.ptr = some ptr → ptr = s.base + a'.offset) ∧
      window vfs.mem (s.base + a'.offset) a'.copied = a'.data.take a'.copied) :
    Inv { s with
      log := { s.log with vfs := vfs }
      inFlight := Function.update s.inFlight task (some a') } := by
  have hoffset : a'.offset = a.offset := congrArg Prod.fst hentry
  have hdata : a'.data = a.data := congrArg Prod.snd hentry
  constructor
  case whole => exact hwhole
  case page => exact hnum ▸ h.page
  case bound => exact h.bound
  case offset => exact h.offset
  case full => exact h.full
  case done_le => exact h.done_le
  case flight_le =>
    intro t b hb
    rcases inFlight_update hb with ⟨-, heq⟩ | ⟨-, hold⟩
    · obtain rfl := Option.some.inj heq
      rw [hoffset, hdata]
      exact h.flight_le task a ha
    · exact h.flight_le t b hold
  case done_apart => exact h.done_apart
  case flight_apart =>
    intro t b hb e he
    rcases inFlight_update hb with ⟨-, heq⟩ | ⟨-, hold⟩
    · obtain rfl := Option.some.inj heq
      rw [hentry]
      exact h.flight_apart task a ha e he
    · exact h.flight_apart t b hold e he
  case tasks_apart =>
    intro t t' b b' hne hb hb'
    rcases inFlight_update hb with ⟨ht, heq⟩ | ⟨-, hold⟩
    · subst ht
      obtain rfl := Option.some.inj heq
      rcases inFlight_update hb' with ⟨ht', -⟩ | ⟨-, hold'⟩
      · exact absurd ht'.symm hne
      · rw [hentry]
        exact h.tasks_apart t t' a b' hne ha hold'
    · rcases inFlight_update hb' with ⟨ht', heq⟩ | ⟨-, hold'⟩
      · subst ht'
        obtain rfl := Option.some.inj heq
        rw [hentry]
        exact h.tasks_apart t t' b a hne hold ha
      · exact h.tasks_apart t t' b b' hne hold hold'
  case written =>
    exact fun e he => (hsame e (h.flight_apart task a ha e he)).trans (h.written e he)
  case copying =>
    intro t b hb
    rcases inFlight_update hb with ⟨-, heq⟩ | ⟨hne, hold⟩
    · obtain rfl := Option.some.inj heq
      exact hcopied
    · obtain ⟨hle, hptr, hwindow⟩ := h.copying t b hold
      have hlen : (b.data.take b.copied).length = b.copied := List.length_take_of_le hle
      have hapart : Apart (b.offset, b.data.take b.copied) a.entry := by
        refine (h.tasks_apart t task b a hne hold ha).imp (fun hlt => ?_) id
        rw [hlen]
        exact Nat.le_trans (Nat.add_le_add_left hle _) hlt
      have hkeep := hsame _ hapart
      rw [hlen] at hkeep
      exact ⟨hle, hptr, hkeep.trans hwindow⟩

theorem Inv.locate (h : s.Inv) (ha : s.inFlight task = some a) : (s.locate task a).Inv := by
  obtain ⟨hle, -, hcopied⟩ := h.copying task a ha
  rw [LogSys.locate, h.whole.getPagePtr h.page]
  refine h.moved ha rfl h.whole rfl (fun _ _ => rfl) ⟨hle, ?_, hcopied⟩
  rintro ptr ⟨⟩
  rfl

/-- A byte more is in its place. -/
theorem Inv.copy (h : s.Inv) (ha : s.inFlight task = some a) {ptr : Nat} (hptr : a.ptr = some ptr)
    {b : UInt8} (hb : a.data[a.copied]? = some b) : (s.copy task a ptr b).Inv := by
  obtain ⟨hle, hplace, hcopied⟩ := h.copying task a ha
  obtain rfl := hplace ptr hptr
  obtain ⟨hlt, hbyte⟩ := List.getElem?_eq_some_iff.mp hb
  have hend := (h.flight_le task a ha).2
  refine h.moved ha rfl ?_ rfl ?_ ⟨hlt, hplace, ?_⟩
  · have hfit : a.offset + a.copied + [b].length ≤ pageSize := by
      rw [List.length_singleton]
      omega
    have hwritten := h.whole.written h.page hfit
    rwa [← Nat.add_assoc] at hwritten
  · rintro e he
    have hapart : s.base + e.1 + e.2.length ≤ s.base + a.offset + a.copied ∨
        s.base + a.offset + a.copied + [b].length ≤ s.base + e.1 := by
      rw [List.length_singleton]
      have hcase : e.1 + e.2.length ≤ a.offset ∨ a.offset + a.data.length ≤ e.1 := he
      omega
    exact window_overwrite_of_disjoint _ _ _ _ _ hapart
  · show window (overwrite s.log.vfs.mem (s.base + a.offset + a.copied) [b]) _ _ = _
    rw [overwrite_next, hcopied, List.take_succ_eq_append_getElem hlt, hbyte]

/-- An append returns. -/
theorem Inv.finish (h : s.Inv) (ha : s.inFlight task = some a)
    (hcopied : a.copied = a.data.length) :
    Inv { s with
      inFlight := Function.update s.inFlight task none
      appended := s.appended ++ [a.entry] } := by
  -- a task still under way is another one
  have hold : ∀ t b, Function.update s.inFlight task none t = some b →
      t ≠ task ∧ s.inFlight t = some b := by
    intro t b hb
    rcases inFlight_update hb with ⟨-, heq⟩ | hold
    · cases heq
    · exact hold
  have hmem : ∀ {p : Nat × Bytes → Prop}, (∀ e ∈ s.appended, p e) → p a.entry →
      ∀ e ∈ s.appended ++ [a.entry], p e := by
    intro p hp hlast e he
    rcases List.mem_append.mp he with he | he
    · exact hp e he
    · obtain rfl := List.mem_singleton.mp he
      exact hlast
  obtain ⟨-, -, hdata⟩ := h.copying task a ha
  rw [hcopied, List.take_length] at hdata
  constructor
  case whole => exact h.whole
  case page => exact h.page
  case bound => exact h.bound
  case offset => exact h.offset
  case full => exact h.full
  case done_le => exact hmem h.done_le (h.flight_le task a ha)
  case flight_le => exact fun t b hb => h.flight_le t b (hold t b hb).2
  case done_apart =>
    refine List.pairwise_append.mpr ⟨h.done_apart, List.pairwise_singleton _ _, ?_⟩
    intro e he e' he'
    obtain rfl := List.mem_singleton.mp he'
    exact h.flight_apart task a ha e he
  case flight_apart =>
    intro t b hb
    obtain ⟨hne, hb⟩ := hold t b hb
    exact hmem (h.flight_apart t b hb) (h.tasks_apart task t a b hne.symm ha hb)
  case tasks_apart =>
    exact fun t t' b b' hne hb hb' => h.tasks_apart t t' b b' hne (hold t b hb).2 (hold t' b' hb').2
  case written => exact hmem h.written hdata
  case copying => exact fun t b hb => h.copying t b (hold t b hb).2

/-- A page of another user is written. -/
theorem Inv.write (h : s.Inv) {p : Nat} (hp : p < s.log.vfs.numPages) (hne : p ≠ s.log.logPage)
    (page : Page) : Inv { s with
      log := { s.log with
        vfs := ⟨overwrite s.log.vfs.mem (p * pageSize) page.data, s.log.vfs.numPages⟩ } } := by
  have hwhole := h.whole.written (o := 0) (b := page.data) hp (by rw [page.size, Nat.zero_add])
  refine h.remapped hwhole (Nat.le_refl _) fun i hlo hhi => ?_
  rw [byteAt_overwrite, if_neg]
  rintro ⟨hpi, hip⟩
  rw [page.size] at hip
  unfold base at hlo hhi
  -- two different pages
  rcases Nat.lt_or_gt_of_ne hne with hlt | hgt
  · have := Nat.mul_le_mul_right pageSize (Nat.succ_le_of_lt hlt)
    rw [Nat.succ_mul] at this
    omega
  · have := Nat.mul_le_mul_right pageSize (Nat.succ_le_of_lt hgt)
    rw [Nat.succ_mul] at this
    omega

theorem Inv.allocate (h : s.Inv) {r : Nat × DaxVfs} (halloc : s.log.vfs.allocatePage = .ok r) :
    Inv { s with log := { s.log with vfs := r.2 } } := by
  obtain ⟨vfs, heq, hwhole, hnum, hsame⟩ := h.whole.allocatePage
  obtain rfl := Except.ok.inj (heq.symm.trans halloc)
  refine h.remapped hwhole (hnum ▸ Nat.le_succ _) fun i _ hhi => hsame i ?_
  have hend := DaxVfs.page_end h.page
  rw [h.whole.size]
  unfold base at hhi
  omega

theorem Inv.step (h : s.Inv) {x : Act} (hok : s.Careful x) (hstep : s.step x = some s') :
    s'.Inv := by
  cases x with
  | reserve task data =>
      rw [LogSys.step] at hstep
      split at hstep
      · cases hstep
      · rename_i hnone
        obtain rfl := Option.some.inj hstep
        exact h.reserve (Option.not_isSome_iff_eq_none.mp hnone) hok
  | locate task =>
      obtain ⟨a, ha, hrest⟩ := Option.bind_eq_some_iff.mp hstep
      split at hrest
      · cases hrest
      · obtain rfl := Option.some.inj hrest
        exact h.locate ha
  | copy task =>
      obtain ⟨a, ha, hrest⟩ := Option.bind_eq_some_iff.mp hstep
      obtain ⟨ptr, hptr, hrest⟩ := Option.bind_eq_some_iff.mp hrest
      obtain ⟨b, hb, hrest⟩ := Option.bind_eq_some_iff.mp hrest
      obtain rfl := Option.some.inj hrest
      exact h.copy ha hptr hb
  | finish task =>
      obtain ⟨a, ha, hrest⟩ := Option.bind_eq_some_iff.mp hstep
      split at hrest
      · rename_i hdone
        obtain rfl := Option.some.inj hrest
        exact h.finish ha hdone.2
      · cases hrest
  | write p page =>
      obtain ⟨vfs, hvfs, hrest⟩ := Option.bind_eq_some_iff.mp hstep
      obtain rfl := Option.some.inj hrest
      by_cases hp : p < s.log.vfs.numPages
      · rw [h.whole.writePage hp] at hvfs
        obtain rfl := Option.some.inj hvfs
        exact h.write hp hok page
      · have hout : s.log.vfs.writePage p page =
            .error (.notFound s!"Page {p} out of bounds") := by
          rw [DaxVfs.writePage, DaxVfs.getPagePtr, if_pos (Nat.not_lt.mp hp)]
          rfl
        rw [hout] at hvfs
        cases hvfs
  | allocate =>
      obtain ⟨r, hr, hrest⟩ := Option.bind_eq_some_iff.mp hstep
      obtain rfl := Option.some.inj hrest
      refine h.allocate (r := r) ?_
      cases halloc : s.log.vfs.allocatePage with
      | error e =>
          rw [halloc] at hr
          cases hr
      | ok r' =>
          rw [halloc] at hr
          rw [Option.some.inj hr]

/-! ## Runs -/

theorem inv_new {vfs : DaxVfs} {log : PmemTransactionLog} (hvfs : vfs.Whole)
    (hnew : PmemTransactionLog.new vfs = .ok log) : (init log).Inv ∧ log.logPage = vfs.numPages := by
  obtain ⟨vfs', heq, hwhole, hnum, -⟩ := hvfs.allocatePage
  rw [PmemTransactionLog.new, heq] at hnew
  obtain rfl := Except.ok.inj hnew
  refine ⟨⟨hwhole, hnum ▸ Nat.lt_succ_self _, ?_, rfl, nofun, nofun, nofun, List.Pairwise.nil, nofun,
    nofun, nofun, nofun⟩, rfl⟩
  show 0 < u64Size
  decide

section Run

variable {vfs : DaxVfs} {log : PmemTransactionLog}

/-- In every run: what an append has returned for is read back, no two appends that returned
share a byte, each ends within the page, and once an append has been refused for want of room
all later ones are, however short. -/
theorem log_reads_back (hvfs : vfs.Whole) (hnew : PmemTransactionLog.new vfs = .ok log)
    (hrun : Reaches (Via step) Careful (init log) s) :
    (∀ e ∈ s.appended, s.log.read e.1 e.2.length = .ok e.2) ∧ s.appended.Pairwise Apart ∧
      (∀ e ∈ s.appended, e.1 + e.2.length ≤ pageSize) ∧
      (s.refused ≠ [] → ∀ task data, s.Careful (.reserve task data) →
        (s.reserve task data).inFlight = s.inFlight) := by
  have h : s.Inv := hrun.invariant (inv_new hvfs hnew).1 fun _ _ _ hinv hok hstep =>
    hinv.step hok hstep
  refine ⟨fun e he => ?_, h.done_apart, fun e he => (h.done_le e he).2, fun hne task data hok => ?_⟩
  · have hend := (h.done_le e he).2
    have hmod : (e.1 + e.2.length) % u64Size = e.1 + e.2.length := by
      refine Nat.mod_eq_of_lt (Nat.lt_of_le_of_lt hend ?_)
      rw [pageSize_eq]
      decide
    rw [PmemTransactionLog.read, h.whole.getPagePtr h.page, hmod]
    show (if pageSize < e.1 + e.2.length then _ else _) = _
    rw [if_neg (Nat.not_lt.mpr hend)]
    exact congrArg Except.ok (h.written e he)
  · have hbound : s.reserved + data.length < u64Size := hok
    have hfull : pageSize < (s.log.writeOffset + data.length) % u64Size := by
      rw [h.offset, Nat.mod_eq_of_lt hbound]
      exact Nat.lt_add_right _ (h.full hne)
    rw [LogSys.reserve]
    dsimp only
    rw [if_pos hfull]

end Run

/-- The steps of an append of one byte. -/
theorem Inv.appendByte (h : s.Inv) (hnone : s.inFlight 0 = none) (hroom : s.reserved + 1 ≤ pageSize)
    (b : UInt8) : ∃ s', Reaches (Via LogSys.step) Careful s s' ∧ (s.reserved, [b]) ∈ s'.appended := by
  have hlt : s.reserved + 1 < u64Size := Nat.lt_of_le_of_lt hroom (by rw [pageSize_eq]; decide)
  have hgo : ¬ pageSize < (s.log.writeOffset + [b].length) % u64Size := by
    rw [h.offset, List.length_singleton, Nat.mod_eq_of_lt hlt]
    exact Nat.not_lt.mpr hroom
  obtain ⟨s₁, hs₁⟩ : ∃ s₁, s₁ = s.reserve 0 [b] := ⟨_, rfl⟩
  have hreserve : s.step (.reserve 0 [b]) = some s₁ := by
    rw [LogSys.step, hnone, hs₁]
    rfl
  have hflight₁ : s₁.inFlight 0 = some ⟨s.reserved, [b], none, 0⟩ := by
    rw [hs₁, LogSys.reserve]
    dsimp only
    rw [if_neg hgo, h.offset]
    simp only [Function.update_self]
  have h₁ : s₁.Inv := h.step (x := .reserve 0 [b]) hlt hreserve
  obtain ⟨s₂, hs₂⟩ : ∃ s₂, s₂ = s₁.locate 0 ⟨s.reserved, [b], none, 0⟩ := ⟨_, rfl⟩
  have hlocate : s₁.step (.locate 0) = some s₂ := by
    rw [LogSys.step, hflight₁, hs₂]
    rfl
  have hflight₂ : s₂.inFlight 0 = some ⟨s.reserved, [b], some (s₁.base + s.reserved), 0⟩ := by
    rw [hs₂, LogSys.locate, h₁.whole.getPagePtr h₁.page]
    simp only [Function.update_self, base]
  obtain ⟨s₃, hs₃⟩ : ∃ s₃, s₃ = s₂.copy 0 ⟨s.reserved, [b], some (s₁.base + s.reserved), 0⟩
      (s₁.base + s.reserved) b := ⟨_, rfl⟩
  have hcopy : s₂.step (.copy 0) = some s₃ := by
    rw [LogSys.step, hflight₂, hs₃]
    rfl
  have hflight₃ : s₃.inFlight 0 = some ⟨s.reserved, [b], some (s₁.base + s.reserved), 1⟩ := by
    rw [hs₃]
    simp only [LogSys.copy, Function.update_self]
  have hfinish : s₃.step (.finish 0) = some { s₃ with
      inFlight := Function.update s₃.inFlight 0 none
      appended := s₃.appended ++ [(s.reserved, [b])] } := by
    rw [LogSys.step, hflight₃]
    rfl
  have hok : s.Careful (.reserve 0 [b]) := hlt
  have hok₁ : s₁.Careful (.locate 0) := trivial
  have hok₂ : s₂.Careful (.copy 0) := trivial
  have hok₃ : s₃.Careful (.finish 0) := trivial
  exact ⟨_, (((Reaches.refl.tail hok hreserve).tail hok₁ hlocate).tail hok₂ hcopy).tail hok₃ hfinish,
    List.mem_append_right _ List.mem_cons_self⟩

theorem log_reads_back_byte : ∃ log s, Reaches (Via step) Careful (init log) s ∧
    s.log.read 0 1 = .ok [7] := by
  have hvfs : DaxVfs.Whole ⟨[], 0⟩ := ⟨(Nat.zero_mul _).symm⟩
  obtain ⟨vfs, halloc, -⟩ := hvfs.allocatePage
  have hnew : PmemTransactionLog.new ⟨[], 0⟩ = .ok ⟨vfs, 0, 0⟩ := by
    rw [PmemTransactionLog.new, halloc]
    rfl
  have hroom : 0 + 1 ≤ pageSize := by
    rw [pageSize_eq]
    decide
  obtain ⟨s, hrun, hmem⟩ := (inv_new hvfs hnew).1.appendByte rfl hroom 7
  exact ⟨_, s, hrun, (log_reads_back hvfs hnew hrun).1 (0, [7]) hmem⟩

end LogSys

end VelociDB
