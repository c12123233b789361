/-
# How many children a page has

A set `P` of pages, each with a list of children.  Nothing here knows keys:

    Enough   a page has no children, or at least `least` of them
    Filled   every page of `P` has no children or 2 to `most`; its children are in `P` and
             have enough, those in `short` apart
    Linked   `P` is a tree: each page but the root is the child of one other, one level up

What is reachable in a filled set has enough children, whichever page the walk starts from
(`Filled.reachable`).  `Filled.edit` changes some pages; `Linked.merge` moves the children
of a page to its neighbour and drops the page.
-/
import Mathlib

namespace Degrees

variable {α : Type} {least most : Nat} {kids kids' : α → List α} {up up' : α → α}
  {level : α → Nat} {P P' short short' : Set α} {root p q a b c : α} {pre post : List α}

/-- A page has enough children, if it has any. -/
def Enough (least : Nat) (kids : α → List α) (p : α) : Prop :=
  kids p = [] ∨ least ≤ (kids p).length

/-- Pages with 2 to `most` children, whose children have enough. -/
structure Filled (least most : Nat) (kids : α → List α) (P short : Set α) : Prop where
  size : ∀ p ∈ P, kids p = [] ∨ 2 ≤ (kids p).length ∧ (kids p).length ≤ most
  child_mem : ∀ p ∈ P, ∀ c ∈ kids p, c ∈ P
  enough : ∀ p ∈ P, ∀ c ∈ kids p, c ∈ short ∨ Enough least kids c

namespace Filled

theorem edit (F : Filled least most kids P short)
    (hkeep : ∀ c ∈ P, c ∈ P' → c ∈ short ∨ Enough least kids c →
      c ∈ short' ∨ Enough least kids' c)
    (h : ∀ p ∈ P', (p ∈ P ∧ kids' p = kids p ∧ ∀ c ∈ kids p, c ∈ P') ∨
      (2 ≤ (kids' p).length ∧ (kids' p).length ≤ most ∧
        ∀ c ∈ kids' p, c ∈ P' ∧ (c ∈ short' ∨ Enough least kids' c)) ∨ kids' p = []) :
    Filled least most kids' P' short' := by
  refine ⟨fun p hp => ?_, fun p hp c hc => ?_, fun p hp c hc => ?_⟩
  · rcases h p hp with ⟨hold, hsame, -⟩ | ⟨hlo, hhi, -⟩ | hnone
    · rw [hsame]
      exact F.size p hold
    · exact .inr ⟨hlo, hhi⟩
    · exact .inl hnone
  · rcases h p hp with ⟨-, hsame, hmem⟩ | ⟨-, -, hnew⟩ | hnone
    · exact hmem c (hsame ▸ hc)
    · exact (hnew c hc).1
    · exact absurd (hnone ▸ hc) List.not_mem_nil
  · rcases h p hp with ⟨hold, hsame, hmem⟩ | ⟨-, -, hnew⟩ | hnone
    · rw [hsame] at hc
      exact hkeep c (F.child_mem p hold c hc) (hmem c hc) (F.enough p hold c hc)
    · exact (hnew c hc).2
    · exact absurd (hnone ▸ hc) List.not_mem_nil

/-- Below any page of a filled set, every other page has enough children. -/
theorem reachable (F : Filled least most kids P ∅) (hp : p ∈ P)
    (h : Relation.ReflTransGen (fun x y => y ∈ kids x) p q) :
    q ∈ P ∧ (q = p ∨ Enough least kids q) := by
  induction h with
  | refl => exact ⟨hp, .inl rfl⟩
  | tail _ hstep ih =>
      exact ⟨F.child_mem _ ih.1 _ hstep,
        .inr ((F.enough _ ih.1 _ hstep).resolve_left (Set.notMem_empty _))⟩

end Filled

/-- A tree of pages. -/
structure Linked (kids : α → List α) (up : α → α) (level : α → Nat) (P : Set α) (root : α) :
    Prop where
  root_mem : root ∈ P
  level_le : ∀ p ∈ P, level p ≤ level root
  child : ∀ p ∈ P, ∀ c ∈ kids p, c ∈ P ∧ up c = p ∧ level p = level c + 1
  nodup : ∀ p ∈ P, (kids p).Nodup
  above : ∀ p ∈ P, p ≠ root → up p ∈ P ∧ p ∈ kids (up p)

namespace Linked

variable (H : Linked kids up level P root)
include H

theorem ne_child (hp : p ∈ P) (hc : c ∈ kids p) : c ≠ p := by
  rintro rfl
  have := (H.child c hp c hc).2.2
  omega

/-- The root is nobody's child. -/
theorem root_not_child (hp : p ∈ P) : root ∉ kids p := by
  intro h
  have := (H.child p hp root h).2.2
  have := H.level_le p hp
  omega

theorem disjoint (ha : a ∈ P) (hb : b ∈ P) (hab : a ≠ b) (hca : c ∈ kids a) : c ∉ kids b := by
  intro hcb
  exact hab ((H.child a ha c hca).2.1.symm.trans (H.child b hb c hcb).2.1)

theorem append_nodup (ha : a ∈ P) (hb : b ∈ P) (hab : a ≠ b) : (kids a ++ kids b).Nodup :=
  List.Nodup.append (H.nodup a ha) (H.nodup b hb) fun _ hca hcb => H.disjoint ha hb hab hca hcb

/-- A page takes the children of its right neighbour, and the parent loses the neighbour. -/
theorem merge (hq : q ∈ P) (hpair : kids q = pre ++ a :: b :: post)
    (hperm : (kids' a).Perm (kids a ++ kids b)) (hq' : kids' q = pre ++ a :: post)
    (hkids : ∀ p ∈ P, p ≠ a → p ≠ q → kids' p = kids p) (hupa : ∀ c ∈ kids' a, up' c = a)
    (hup : ∀ c ∈ P, c ∉ kids a → c ∉ kids b → up' c = up c) :
    Linked kids' up' level {p | p ∈ P ∧ p ≠ b} root := by
  have haq : a ∈ kids q := by simp [hpair]
  have hbq : b ∈ kids q := by simp [hpair]
  obtain ⟨ha, hua, hla⟩ := H.child q hq a haq
  obtain ⟨hb, hub, hlb⟩ := H.child q hq b hbq
  have hneq : a ≠ q := H.ne_child hq haq
  have hqb : q ≠ b := (H.ne_child hq hbq).symm
  have hnodup := H.nodup q hq
  rw [hpair] at hnodup
  have hab : a ≠ b := by
    rintro rfl
    exact (List.nodup_cons.mp (List.nodup_append.mp hnodup).2.1).1 (by simp)
  have hbq' : b ∉ kids' q := by
    intro h
    rw [hq'] at h
    simp only [List.mem_append, List.mem_cons] at h
    rw [List.nodup_append] at hnodup
    obtain ⟨-, htail, hcross⟩ := hnodup
    rcases h with h | h | h
    · exact hcross b h b (by simp) rfl
    · exact hab h.symm
    · exact (List.nodup_cons.mp htail.of_cons).1 h
  have hmemq : ∀ c, c ∈ kids' q ↔ c ∈ kids q ∧ c ≠ b := by
    intro c
    constructor
    · intro hc
      refine ⟨?_, fun h => hbq' (h ▸ hc)⟩
      rw [hq'] at hc
      rw [hpair]
      simp only [List.mem_append, List.mem_cons] at hc ⊢
      tauto
    · rintro ⟨hc, hne⟩
      rw [hpair] at hc
      rw [hq']
      simp only [List.mem_append, List.mem_cons] at hc ⊢
      tauto
  have hlow : ∀ c ∈ kids' a, c ∈ P ∧ level a = level c + 1 := by
    intro c hc
    rcases List.mem_append.mp (hperm.mem_iff.mp hc) with h | h
    · exact ⟨(H.child a ha c h).1, (H.child a ha c h).2.2⟩
    · have := (H.child b hb c h).2.2
      exact ⟨(H.child b hb c h).1, by omega⟩
  -- `b` and `q` are not below `a` or `b`
  have hstay : ∀ c, level c = level b ∨ level c = level q → c ∉ kids a ∧ c ∉ kids b := by
    intro c hc
    constructor
    · intro h
      have := (H.child a ha c h).2.2
      omega
    · intro h
      have := (H.child b hb c h).2.2
      omega
  refine ⟨⟨H.root_mem, fun h => H.root_not_child hq (h ▸ hbq)⟩, fun p hp => H.level_le p hp.1, ?_, ?_, ?_⟩
  · rintro p ⟨hp, hpb⟩ c hc
    by_cases hpa : p = a
    · subst hpa
      obtain ⟨hcP, hlc⟩ := hlow c hc
      exact ⟨⟨hcP, fun h => by subst h; omega⟩, hupa c hc, hlc⟩
    by_cases hpq : p = q
    · subst hpq
      obtain ⟨hold, hne⟩ := (hmemq c).mp hc
      obtain ⟨hcP, hcp, hlc⟩ := H.child p hp c hold
      obtain ⟨hna, hnb⟩ := hstay c (.inl (by omega))
      exact ⟨⟨hcP, hne⟩, (hup c hcP hna hnb).trans hcp, hlc⟩
    · rw [hkids p hp hpa hpq] at hc
      obtain ⟨hcP, hcp, hlc⟩ := H.child p hp c hc
      refine ⟨⟨hcP, ?_⟩, (hup c hcP ?_ ?_).trans hcp, hlc⟩
      · rintro rfl
        exact hpq (hcp.symm.trans hub)
      · exact H.disjoint hp ha hpa hc
      · exact H.disjoint hp hb hpb hc
  · rintro p ⟨hp, hpb⟩
    by_cases hpa : p = a
    · subst hpa
      exact hperm.nodup_iff.mpr (H.append_nodup ha hb hab)
    by_cases hpq : p = q
    · subst hpq
      rw [hq']
      refine hnodup.sublist (List.Sublist.append_left ?_ pre)
      exact (List.sublist_cons_self b post).cons_cons a
    · rw [hkids p hp hpa hpq]
      exact H.nodup p hp
  · rintro p ⟨hp, hpb⟩ hr
    by_cases hin : p ∈ kids a ∨ p ∈ kids b
    · have hpa : p ∈ kids' a := hperm.mem_iff.mpr (List.mem_append.mpr hin)
      rw [hupa p hpa]
      exact ⟨⟨ha, hab⟩, hpa⟩
    · rw [not_or] at hin
      obtain ⟨hz, hpz⟩ := H.above p hp hr
      rw [hup p hp hin.1 hin.2]
      refine ⟨⟨hz, fun h => hin.2 (h ▸ hpz)⟩, ?_⟩
      by_cases hzq : up p = q
      · rw [hzq] at hpz ⊢
        exact (hmemq p).mpr ⟨hpz, hpb⟩
      · rw [hkids _ hz (fun h => hin.1 (h ▸ hpz)) hzq]
        exact hpz

end Linked

end Degrees
