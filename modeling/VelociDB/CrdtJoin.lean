/-
# Merging records (`CrdtRecord::merge`)

Records of one key, told apart by `(timestamp, node_id)`.  The branches of `merge` copy
different fields, but each of them ends with one of the two records as a whole: the later
one (`merge_eq`).  So merging is a join, and a replica that has merged the same records in
any order, any number of times, holds the latest.
-/
import VelociDB.Crdt
import VelociDB.Lib.LastWrite

namespace VelociDB.Crdt

open LastWrite

/-- Records of one key whose stamp tells what they hold. -/
structure Coherent (records : Set CrdtRecord) : Prop where
  key : ∀ a ∈ records, ∀ b ∈ records, a.key = b.key
  determined : ∀ a ∈ records, ∀ b ∈ records, a.timestamp = b.timestamp → a.nodeId = b.nodeId →
    a.values = b.values ∧ a.isDeleted = b.isDeleted

/-- A record after merging others into it, one after the other. -/
def mergeAll (first : CrdtRecord) (rest : List CrdtRecord) : CrdtRecord :=
  rest.foldl (fun record other => (record.merge other).1) first

variable {a b r : CrdtRecord} {records : Set CrdtRecord}

theorem stamp_lt_iff : a.stamp < b.stamp ↔
    a.timestamp < b.timestamp ∨ a.timestamp = b.timestamp ∧ a.nodeId < b.nodeId :=
  Prod.Lex.toLex_lt_toLex

/-- The later record wins, and the flag tells whether it is the other one. -/
theorem merge_eq (hkey : a.key = b.key) :
    a.merge b = if a.stamp < b.stamp then (b, true) else (a, false) := by
  rw [CrdtRecord.merge]
  rcases lt_trichotomy a.timestamp b.timestamp with htime | htime | htime
  · have hlt : a.stamp < b.stamp := stamp_lt_iff.mpr (.inl htime)
    rw [if_pos htime, if_pos hlt, hkey]
  · rw [if_neg htime.not_lt, if_pos htime.symm]
    by_cases hnode : a.nodeId < b.nodeId
    · have hlt : a.stamp < b.stamp := stamp_lt_iff.mpr (.inr ⟨htime, hnode⟩)
      rw [if_pos hnode, if_pos hlt, hkey, htime]
    · rw [if_neg hnode, if_neg]
      intro hlt
      rcases stamp_lt_iff.mp hlt with h | h
      · exact htime.not_lt h
      · exact hnode h.2
  · rw [if_neg htime.not_gt, if_neg htime.ne, if_neg]
    intro hlt
    rcases stamp_lt_iff.mp hlt with h | h
    · exact htime.not_gt h
    · exact htime.ne h.1.symm

theorem Coherent.injOn (h : Coherent records) : Set.InjOn CrdtRecord.stamp records := by
  intro a ha b hb hstamp
  obtain ⟨htime, hnode⟩ : a.timestamp = b.timestamp ∧ a.nodeId = b.nodeId := by
    simpa [CrdtRecord.stamp] using hstamp
  obtain ⟨hvalues, hdeleted⟩ := h.determined a ha b hb htime hnode
  have hkey := h.key a ha b hb
  cases a
  cases b
  simp_all

theorem Coherent.picks (h : Coherent records) :
    Picks CrdtRecord.stamp (fun a b => (a.merge b).1) records := by
  refine ⟨h.injOn, fun a ha b hb => ?_, fun a ha b hb => ?_⟩
  · rw [merge_eq (h.key a ha b hb)]
    split
    · exact .inr rfl
    · exact .inl rfl
  · rw [merge_eq (h.key a ha b hb)]
    split
    · rename_i hlt
      exact (max_eq_right hlt.le).symm
    · rename_i hlt
      exact (max_eq_left (not_lt.mp hlt)).symm

/-- Merging is a join that tells whether it changed the record, and folding it gives the record
with the greatest stamp, whatever the order and the repetitions. -/
theorem merge_join (h : Coherent records) :
    (∀ a ∈ records, ∀ b ∈ records, (a.merge b).1 = (b.merge a).1) ∧
    (∀ a ∈ records, ∀ b ∈ records, ∀ c ∈ records,
      ((a.merge b).1.merge c).1 = (a.merge (b.merge c).1).1) ∧
    (∀ a ∈ records, (a.merge a).1 = a) ∧
    (∀ a ∈ records, ∀ b ∈ records, (a.merge b).2 = true ↔ (a.merge b).1 ≠ a) ∧
    ∀ r l, (∀ x ∈ r :: l, x ∈ records) → ∃ m ∈ r :: l, (∀ x ∈ r :: l, x.stamp ≤ m.stamp) ∧
      ∀ first rest, (∀ x, x ∈ first :: rest ↔ x ∈ r :: l) → mergeAll first rest = m := by
  have H := h.picks
  refine ⟨fun a ha b hb => H.comm ha hb, fun a ha b hb c hc => H.assoc ha hb hc,
    fun a ha => H.idem ha, fun a ha b hb => ?_, fun r l hl => ?_⟩
  · rw [merge_eq (h.key a ha b hb)]
    split
    · rename_i hlt
      refine ⟨fun _ heq => ?_, fun _ => rfl⟩
      rw [show b = a from heq] at hlt
      exact lt_irrefl _ hlt
    · exact ⟨Bool.noConfusion, fun hne => absurd rfl hne⟩
  · obtain ⟨hmem, hle⟩ := H.foldl_greatest (hl r List.mem_cons_self)
      fun x hx => hl x (List.mem_cons_of_mem _ hx)
    exact ⟨mergeAll r l, hmem, hle, fun first rest hsame => H.foldl_congr hl hsame⟩

/-- Two records of one key. -/
def earlyRecord : CrdtRecord := .new 1 [.integer 7] 1 "b"

/-- The later one. -/
def lateRecord : CrdtRecord := .new 1 [.integer 8] 2 "a"

theorem merge_join_two :
    (earlyRecord.merge lateRecord).1 = (lateRecord.merge earlyRecord).1 ∧
    ((earlyRecord.merge lateRecord).1.merge earlyRecord).1 =
      (earlyRecord.merge (lateRecord.merge earlyRecord).1).1 ∧
    (earlyRecord.merge earlyRecord).1 = earlyRecord ∧
    ((earlyRecord.merge lateRecord).2 = true ↔
      (earlyRecord.merge lateRecord).1 ≠ earlyRecord) ∧
    ∃ m ∈ [earlyRecord, lateRecord], (∀ x ∈ [earlyRecord, lateRecord], x.stamp ≤ m.stamp) ∧
      mergeAll lateRecord [earlyRecord, earlyRecord, lateRecord] = m := by
  have h : Coherent {earlyRecord, lateRecord} := by
    constructor
    · rintro a (rfl | rfl) b (rfl | rfl)
      all_goals rfl
    · rintro a (rfl | rfl) b (rfl | rfl) htime -
      · exact ⟨rfl, rfl⟩
      · exact absurd htime (by decide)
      · exact absurd htime (by decide)
      · exact ⟨rfl, rfl⟩
  have he : earlyRecord ∈ ({earlyRecord, lateRecord} : Set CrdtRecord) := .inl rfl
  have hl : lateRecord ∈ ({earlyRecord, lateRecord} : Set CrdtRecord) := .inr rfl
  obtain ⟨hcomm, hassoc, hidem, hflag, hfold⟩ := merge_join h
  obtain ⟨m, hm, hle, hall⟩ := hfold earlyRecord [lateRecord] fun x hx => List.mem_pair.mp hx
  refine ⟨hcomm _ he _ hl, hassoc _ he _ hl _ he, hidem _ he, hflag _ he _ hl, m, hm, hle,
    hall _ _ fun x => ?_⟩
  simp only [List.mem_cons, List.not_mem_nil, or_false]
  tauto

end VelociDB.Crdt
