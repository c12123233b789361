/-
# Reading the change log (`changes_since`)

A consumer polls `changes_since` with the number of the last event it has seen.  The log is
bounded and `disable` clears it, so events can be gone before they are polled.

    history     every event recorded so far
    received    what the polls returned, in this order
    waiting     what the next poll will return
    lost        what was dropped from the log unread

Whatever is recorded, dropped and polled in between, the history is split into the three
(`consumer_exact`), nothing is received twice or out of order, and the first number of a
poll tells whether anything was lost before it.
-/
import VelociDB.CdcLog

namespace VelociDB

namespace Cdc

/-- `disable`. -/
def disable (cdc : Cdc) : Cdc := { cdc with enabled := false, log := [], staged := [] }

/-- `latest_seq`. -/
def latestSeq (cdc : Cdc) : Nat := cdc.nextSeq - 1

/-- The event `record` drops from a full log. -/
def dropped (cdc : Cdc) : List ChangeEvent :=
  if cdc.enabled ∧ cdc.capacity ≤ cdc.log.length then cdc.log.take 1 else []

end Cdc

/-- The log and a consumer. -/
structure Feed where
  cdc : Cdc
  cursor : Nat
  received : List ChangeEvent
  history : List ChangeEvent
  lost : List ChangeEvent

namespace Feed

/-- Nothing recorded, nothing polled. -/
def init (capacity : Nat) : Feed := ⟨.withCapacity capacity, 0, [], [], []⟩

/-- What a poll returns. -/
def waiting (f : Feed) : List ChangeEvent := f.cdc.changesSince f.cursor

/-- `record`. -/
def record (f : Feed) (c : StagedChange) : Feed :=
  { f with
    cdc := f.cdc.record c
    history := if f.cdc.enabled then f.history ++ [⟨f.cdc.nextSeq, c⟩] else f.history
    lost := f.lost ++ f.cdc.dropped.filter fun e => f.cursor < e.seq }

inductive Act where
  | enable
  | disable
  | stage (c : StagedChange)
  | discard (mark : Nat)
  | publish
  | poll

/-- A call of the writers or of the consumer. -/
def step (f : Feed) : Act → Feed
  | .enable => { f with cdc := f.cdc.enable }
  | .disable => { f with cdc := f.cdc.disable, lost := f.lost ++ f.waiting }
  | .stage c => { f with cdc := f.cdc.stage c }
  | .discard mark => { f with cdc := f.cdc.discardStagedFrom mark }
  | .publish => f.cdc.staged.foldl record { f with cdc := { f.cdc with staged := [] } }
  | .poll =>
      { f with
        cursor := (f.waiting.getLast?.map ChangeEvent.seq).getD f.cursor
        received := f.received ++ f.waiting }

/-- Calls one after the other. -/
def run (f : Feed) (acts : List Act) : Feed := acts.foldl step f

/-- The history is numbered from 1, the log is its end, and each event is at one place. -/
structure Exact (f : Feed) : Prop where
  numbered : f.history.map ChangeEvent.seq = List.range' 1 f.history.length
  next : f.cdc.nextSeq = f.history.length + 1
  suffix : f.cdc.log <:+ f.history
  cursor_le : f.cursor ≤ f.history.length
  received_le : ∀ e ∈ f.received, e.seq ≤ f.cursor
  ordered : (f.received.map ChangeEvent.seq).Pairwise (· < ·)
  split : f.history.Perm (f.received ++ f.lost ++ f.waiting)

variable {f : Feed} {e e' : ChangeEvent}

/-! ## The numbers -/

theorem Exact.sorted (h : f.Exact) : (f.history.map ChangeEvent.seq).Pairwise (· < ·) := by
  rw [h.numbered]
  exact List.pairwise_lt_range'

theorem Exact.seq_mem (h : f.Exact) (he : e ∈ f.history) :
    1 ≤ e.seq ∧ e.seq ≤ f.history.length := by
  have hmem : e.seq ∈ f.history.map ChangeEvent.seq := List.mem_map_of_mem he
  rw [h.numbered, List.mem_range'_1] at hmem
  omega

theorem Exact.exists_seq (h : f.Exact) {n : Nat} (hpos : 1 ≤ n) (hle : n ≤ f.history.length) :
    ∃ e ∈ f.history, e.seq = n := by
  have hmem : n ∈ f.history.map ChangeEvent.seq := by
    rw [h.numbered, List.mem_range'_1]
    omega
  exact List.mem_map.mp hmem

theorem Exact.nodup (h : f.Exact) : f.history.Nodup := by
  have hs : f.history.Pairwise fun a b => a.seq < b.seq := List.pairwise_map.mp h.sorted
  exact hs.imp fun hlt heq => absurd (congrArg ChangeEvent.seq heq) hlt.ne

/-- The last event of the log is the latest one. -/
theorem Exact.last_seq (h : f.Exact) {l : List ChangeEvent} (hl : f.cdc.log = l ++ [e]) :
    e.seq = f.history.length := by
  obtain ⟨pre, hpre⟩ := h.suffix
  rw [hl, ← List.append_assoc] at hpre
  have hnum := h.numbered
  rw [← hpre, List.length_append, List.length_singleton, List.range'_concat,
    List.map_append] at hnum
  have hlast := List.append_inj_right' hnum rfl
  rw [List.map_singleton] at hlast
  rw [← hpre, List.length_append, List.length_singleton, List.singleton_inj.mp hlast]
  omega

/-- What is behind an event of the log is in the log. -/
theorem Exact.mem_log (h : f.Exact) (he : e ∈ f.cdc.log) (he' : e' ∈ f.history)
    (hle : e.seq ≤ e'.seq) : e' ∈ f.cdc.log := by
  obtain ⟨pre, hpre⟩ := h.suffix
  have hsorted : f.history.Pairwise fun a b => a.seq < b.seq := List.pairwise_map.mp h.sorted
  rw [← hpre] at hsorted he'
  rcases List.mem_append.mp he' with hmem | hmem
  · exact absurd ((List.pairwise_append.mp hsorted).2.2 e' hmem e he) (Nat.not_lt.mpr hle)
  · exact hmem

theorem mem_waiting : e ∈ f.waiting ↔ e ∈ f.cdc.log ∧ f.cursor < e.seq := by
  rw [waiting, Cdc.changesSince, List.mem_filter, decide_eq_true_iff]

/-! ## Steps -/

theorem exact_init (capacity : Nat) : (init capacity).Exact where
  numbered := rfl
  next := rfl
  suffix := List.suffix_refl _
  cursor_le := Nat.le_refl _
  received_le := nofun
  ordered := List.Pairwise.nil
  split := List.Perm.refl _

/-- Only the enabled flag or what is staged changes. -/
theorem Exact.restaged (h : f.Exact) (enabled : Bool) (staged : List StagedChange) :
    Exact { f with cdc := { f.cdc with enabled := enabled, staged := staged } } :=
  ⟨h.numbered, h.next, h.suffix, h.cursor_le, h.received_le, h.ordered, h.split⟩

/-- The log is the event that goes and those that stay. -/
theorem dropped_append {cdc : Cdc} (hen : cdc.enabled = true) : ∃ kept,
    cdc.log = cdc.dropped ++ kept ∧ ∀ c, (cdc.record c).log = kept ++ [⟨cdc.nextSeq, c⟩] := by
  unfold Cdc.dropped
  by_cases hfull : cdc.capacity ≤ cdc.log.length
  · refine ⟨cdc.log.drop 1, ?_, fun c => ?_⟩
    · rw [if_pos ⟨hen, hfull⟩, List.take_append_drop]
    · rw [Cdc.record, if_pos hen, if_pos hfull, List.drop_one]
  · refine ⟨cdc.log, ?_, fun c => ?_⟩
    · rw [if_neg fun h => hfull h.2, List.nil_append]
    · rw [Cdc.record, if_pos hen, if_neg hfull]

theorem Exact.record (h : f.Exact) (c : StagedChange)
    (hbound : (f.record c).history.length + 1 < u64Size) : (f.record c).Exact := by
  cases hen : f.cdc.enabled with
  | false =>
      have hsame : f.record c = f := by
        simp [Feed.record, Cdc.record, Cdc.dropped, hen]
      rw [hsame]
      exact h
  | true =>
      obtain ⟨kept, hlog, hrecord⟩ := dropped_append hen
      have hhistory : (f.record c).history = f.history ++ [⟨f.cdc.nextSeq, c⟩] := if_pos hen
      have hlen : (f.record c).history.length = f.history.length + 1 := by
        rw [hhistory, List.length_append, List.length_singleton]
      have hnext : (f.cdc.record c).nextSeq = f.history.length + 2 := by
        rw [Cdc.record, if_pos hen]
        show (f.cdc.nextSeq + 1) % u64Size = _
        rw [h.next, Nat.mod_eq_of_lt (by omega)]
      have hnew : f.cursor < f.cdc.nextSeq := by
        have := h.cursor_le
        rw [h.next]
        omega
      constructor
      case numbered =>
        rw [hlen, hhistory, List.map_append, h.numbered, List.range'_concat, List.map_singleton,
          h.next, Nat.one_mul, Nat.add_comm]
      case next =>
        rw [hlen]
        exact hnext
      case suffix =>
        obtain ⟨pre, hpre⟩ := h.suffix
        refine ⟨pre ++ f.cdc.dropped, ?_⟩
        show (pre ++ f.cdc.dropped) ++ (f.cdc.record c).log = _
        rw [hrecord, hhistory, ← hpre, hlog]
        simp only [List.append_assoc]
      case cursor_le =>
        rw [hlen]
        exact h.cursor_le.trans (Nat.le_succ _)
      case received_le => exact h.received_le
      case ordered => exact h.ordered
      case split =>
        have hwaiting : f.waiting = f.cdc.dropped.filter (fun e => f.cursor < e.seq) ++
            kept.filter fun e => f.cursor < e.seq := by
          rw [waiting, Cdc.changesSince, hlog, List.filter_append]
        have hwaiting' : (f.record c).waiting =
            kept.filter (fun e => f.cursor < e.seq) ++ [⟨f.cdc.nextSeq, c⟩] := by
          show (f.cdc.record c).log.filter (fun e => f.cursor < e.seq) = _
          rw [hrecord, List.filter_append, List.filter_cons_of_pos (by simpa using hnew),
            List.filter_nil]
        have hsplit := h.split.append_right [⟨f.cdc.nextSeq, c⟩]
        rw [hwaiting] at hsplit
        rw [hhistory, hwaiting']
        show (f.history ++ _).Perm (f.received ++ (f.lost ++ _) ++ _)
        simpa only [List.append_assoc] using hsplit

/-- The history only grows. -/
theorem record_length_le (f : Feed) (c : StagedChange) :
    f.history.length ≤ (f.record c).history.length := by
  rw [Feed.record]
  split
  · exact List.length_append ▸ Nat.le_add_right _ _
  · exact Nat.le_refl _

theorem recordAll_length_le (changes : List StagedChange) (f : Feed) :
    f.history.length ≤ (changes.foldl record f).history.length := by
  induction changes generalizing f with
  | nil => exact Nat.le_refl _
  | cons c changes ih => exact (record_length_le f c).trans (ih _)

theorem step_length_le (f : Feed) (a : Act) : f.history.length ≤ (f.step a).history.length := by
  cases a with
  | publish => exact recordAll_length_le f.cdc.staged { f with cdc := { f.cdc with staged := [] } }
  | enable | disable | stage | discard | poll => exact Nat.le_refl _

theorem run_length_le (f : Feed) (acts : List Act) :
    f.history.length ≤ (f.run acts).history.length := by
  induction acts generalizing f with
  | nil => exact Nat.le_refl _
  | cons a acts ih => exact (step_length_le f a).trans (ih _)

theorem Exact.recordAll (changes : List StagedChange) {f : Feed} (h : f.Exact)
    (hbound : (changes.foldl Feed.record f).history.length + 1 < u64Size) :
    (changes.foldl Feed.record f).Exact := by
  induction changes generalizing f with
  | nil => exact h
  | cons c changes ih =>
      have hle := recordAll_length_le changes (f.record c)
      rw [List.foldl_cons] at hbound
      exact ih (h.record c (by omega)) hbound

/-- The log is cleared. -/
theorem Exact.disable (h : f.Exact) : (f.step .disable).Exact where
  numbered := h.numbered
  next := h.next
  suffix := List.nil_suffix
  cursor_le := h.cursor_le
  received_le := h.received_le
  ordered := h.ordered
  split := by
    have hnone : (f.step .disable).waiting = [] := rfl
    rw [hnone, List.append_nil]
    exact List.append_assoc _ _ _ ▸ h.split

/-- The last event of a poll is the latest one. -/
theorem Exact.last_waiting (h : f.Exact) {l : List ChangeEvent} (hl : f.waiting = l ++ [e]) :
    e.seq = f.history.length := by
  have hmem : e ∈ f.waiting := hl ▸ List.mem_append_right _ List.mem_cons_self
  obtain ⟨hlog, hlt⟩ := mem_waiting.mp hmem
  rcases f.cdc.log.eq_nil_or_concat' with hnil | ⟨k, last, hk⟩
  · rw [hnil] at hlog
    cases hlog
  · have hlast := h.last_seq hk
    have hle := (h.seq_mem (h.suffix.subset hlog)).2
    have hwaiting : f.waiting = k.filter (fun e => f.cursor < e.seq) ++ [last] := by
      rw [waiting, Cdc.changesSince, hk, List.filter_append,
        List.filter_cons_of_pos (by simpa using by omega), List.filter_nil]
    rw [List.singleton_inj.mp (List.append_inj_right' (hl.symm.trans hwaiting) rfl), hlast]

theorem Exact.waiting_sorted (h : f.Exact) : (f.waiting.map ChangeEvent.seq).Pairwise (· < ·) :=
  h.sorted.sublist ((List.filter_sublist.trans h.suffix.sublist).map _)

/-- A poll returns events behind those received. -/
theorem Exact.waiting_ordered (h : f.Exact) :
    ((f.received ++ f.waiting).map ChangeEvent.seq).Pairwise (· < ·) := by
  rw [List.map_append, List.pairwise_append]
  refine ⟨h.ordered, h.waiting_sorted, ?_⟩
  intro m hm n hn
  obtain ⟨a, ha, rfl⟩ := List.mem_map.mp hm
  obtain ⟨b, hb, rfl⟩ := List.mem_map.mp hn
  exact Nat.lt_of_le_of_lt (h.received_le a ha) (mem_waiting.mp hb).2

theorem Exact.poll (h : f.Exact) : (f.step .poll).Exact := by
  have hreceived : (f.step .poll).received = f.received ++ f.waiting := rfl
  rcases f.waiting.eq_nil_or_concat' with hnil | ⟨l, last, hl⟩
  · have hsame : f.step .poll = f := by
      simp [Feed.step, hnil]
    rw [hsame]
    exact h
  · have hcursor : (f.step .poll).cursor = f.history.length := by
      show (f.waiting.getLast?.map ChangeEvent.seq).getD f.cursor = _
      rw [hl, List.getLast?_concat]
      exact h.last_waiting hl
    have hseen : ∀ e ∈ f.history, e.seq ≤ (f.step .poll).cursor := fun e he =>
      hcursor ▸ (h.seq_mem he).2
    have hnone : (f.step .poll).waiting = [] := by
      refine List.eq_nil_iff_forall_not_mem.mpr fun e he => ?_
      obtain ⟨hlog, hlt⟩ := mem_waiting.mp he
      exact Nat.not_lt.mpr (hseen e (h.suffix.subset hlog)) hlt
    refine ⟨h.numbered, h.next, h.suffix, hcursor.le, fun e he => hseen e ?_, h.waiting_ordered, ?_⟩
    · refine h.split.symm.subset ?_
      rcases List.mem_append.mp he with he | he
      · exact List.mem_append_left _ (List.mem_append_left _ he)
      · exact List.mem_append_right _ he
    · rw [hnone, List.append_nil, hreceived]
      refine h.split.trans ?_
      rw [List.append_assoc, List.append_assoc]
      exact List.perm_append_comm.append_left _

theorem Exact.step (h : f.Exact) (a : Act) (hbound : (f.step a).history.length + 1 < u64Size) :
    (f.step a).Exact := by
  cases a with
  | enable => exact h.restaged true f.cdc.staged
  | disable => exact h.disable
  | stage c =>
      show Exact { f with cdc := f.cdc.stage c }
      rw [Cdc.stage]
      split
      · exact h.restaged f.cdc.enabled _
      · exact h
  | discard mark => exact h.restaged f.cdc.enabled _
  | publish => exact (h.restaged f.cdc.enabled []).recordAll _ hbound
  | poll => exact h.poll

theorem Exact.run {f : Feed} (h : f.Exact) (acts : List Act)
    (hbound : (f.run acts).history.length + 1 < u64Size) : (f.run acts).Exact := by
  induction acts generalizing f with
  | nil => exact h
  | cons a acts ih =>
      have hle := run_length_le (f.step a) acts
      have hbound' : ((f.step a).run acts).history.length + 1 < u64Size := hbound
      exact ih (h.step a (by omega)) hbound'

/-! ## What a consumer can rely on -/

/-- What was received and what waits is a part of the history, in its order. -/
theorem Exact.sublist (h : f.Exact) : (f.received ++ f.waiting).Sublist f.history := by
  have hnodup : (f.received ++ f.waiting).Nodup :=
    (List.pairwise_map.mp h.waiting_ordered).imp fun hlt heq =>
      absurd (congrArg ChangeEvent.seq heq) hlt.ne
  have hsubset : f.received ++ f.waiting ⊆ f.history := by
    intro e he
    refine h.split.symm.subset ?_
    rcases List.mem_append.mp he with he | he
    · exact List.mem_append_left _ (List.mem_append_left _ he)
    · exact List.mem_append_right _ he
  have hantisymm : Std.Antisymm fun a b : ChangeEvent => a.seq < b.seq :=
    ⟨fun _ _ hab hba => absurd hab hba.asymm⟩
  exact List.sublist_of_subperm_of_pairwise (List.subperm_of_subset hnodup hsubset)
    (List.pairwise_map.mp h.waiting_ordered) (List.pairwise_map.mp h.sorted)

/-- The first event of a poll is the next one exactly when nothing was lost since the last. -/
theorem Exact.gap (h : f.Exact) (hhead : f.waiting.head? = some e) :
    e.seq = f.cursor + 1 ↔ ∀ x ∈ f.lost, x.seq ≤ f.cursor := by
  have hwait : e ∈ f.waiting := List.mem_of_mem_head? hhead
  obtain ⟨hlog, hlt⟩ := mem_waiting.mp hwait
  constructor
  · intro heq x hx
    refine Nat.not_lt.mp fun hnew => ?_
    have hx' : x ∈ f.history :=
      h.split.symm.subset (List.mem_append_left _ (List.mem_append_right _ hx))
    have hxwait : x ∈ f.waiting := mem_waiting.mpr ⟨h.mem_log hlog hx' (by omega), hnew⟩
    have hnd := h.split.nodup h.nodup
    exact (List.nodup_append.mp hnd).2.2 x (List.mem_append_right _ hx) x hxwait rfl
  · intro hold
    obtain ⟨y, hy, hseq⟩ := h.exists_seq (Nat.succ_pos f.cursor)
      (hlt.trans_le (h.seq_mem (h.suffix.subset hlog)).2)
    have hywait : y ∈ f.waiting := by
      rcases List.mem_append.mp (h.split.subset hy) with hmem | hmem
      · rcases List.mem_append.mp hmem with hmem | hmem
        · have := h.received_le y hmem
          omega
        · have := hold y hmem
          omega
      · exact hmem
    obtain ⟨rest, hrest⟩ := List.head?_eq_some_iff.mp hhead
    have hsorted : f.waiting.Pairwise fun a b => a.seq < b.seq := List.pairwise_map.mp h.waiting_sorted
    rw [hrest] at hywait hsorted
    rcases List.mem_cons.mp hywait with rfl | hmem
    · exact hseq
    · have := (List.pairwise_cons.mp hsorted).1 y hmem
      omega

/-- Whatever the writers and the consumer do, every event recorded was received, or was lost, or
waits for the next poll; what was received and what waits is in order and without repetition;
the next poll starts with the next number exactly when nothing was lost since the last one; and
`latest_seq` counts what was recorded. -/
theorem consumer_exact (capacity : Nat) (acts : List Act) (f : Feed) (hrun : (init capacity).run acts = f)
    (hbound : f.history.length + 1 < u64Size) :
    f.history.Perm (f.received ++ f.lost ++ f.waiting) ∧
      (f.received ++ f.waiting).Sublist f.history ∧ f.history.Nodup ∧
      (∀ e, f.waiting.head? = some e → (e.seq = f.cursor + 1 ↔ ∀ x ∈ f.lost, x.seq ≤ f.cursor)) ∧
      f.cdc.latestSeq = f.history.length := by
  subst hrun
  have h := (exact_init capacity).run acts hbound
  refine ⟨h.split, h.sublist, h.nodup, fun e he => h.gap he, ?_⟩
  rw [Cdc.latestSeq, h.next, Nat.add_sub_cancel]

/-- Three changes, a log of two, and a poll before the last. -/
theorem consumer_exact_overrun : ∃ f : Feed,
    (init 2).run [.enable, .stage ⟨"t", .insert, 1, none, none⟩, .publish, .poll,
      .stage ⟨"t", .insert, 2, none, none⟩, .stage ⟨"t", .insert, 3, none, none⟩,
      .stage ⟨"t", .insert, 4, none, none⟩, .publish] = f ∧
      f.lost.map ChangeEvent.seq = [2] ∧ f.waiting.map ChangeEvent.seq = [3, 4] ∧
      (f.received ++ f.waiting).Sublist f.history := by
  refine ⟨_, rfl, rfl, rfl, (consumer_exact 2 _ _ rfl ?_).2.1⟩
  decide

end Feed

end VelociDB
