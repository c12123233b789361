/-
# Ordered multimaps

A list of key-value pairs in key order, in which a key may occur more than once: `insert`
puts a pair behind its equals, `search` and `delete` take the first.  With distinct keys
it is an ordered map, and with ascending keys (`Ascending`) each operation acts at one place
of the list.
-/
import Mathlib

/-- Pairs in key order. -/
abbrev Multimap (K V : Type) := List (K × V)

namespace Multimap

variable {K V : Type} [LinearOrder K]

/-- The keys, with repetitions. -/
abbrev keys (es : Multimap K V) : List K := es.map Prod.fst

instance decidableMemKeys (k : K) (es : Multimap K V) : Decidable (k ∈ keys es) := inferInstance

/-- The value of the first pair with the key. -/
def search (es : Multimap K V) (k : K) : Option V :=
  (es.find? fun e => e.1 = k).map Prod.snd

/-- Put a pair behind the pairs with smaller or equal keys. -/
def insert (es : Multimap K V) (k : K) (v : V) : Multimap K V :=
  es.takeWhile (fun e => e.1 ≤ k) ++ (k, v) :: es.dropWhile fun e => e.1 ≤ k

/-- Remove the first pair with the key. -/
def delete (es : Multimap K V) (k : K) : Multimap K V := es.eraseP fun e => e.1 = k

/-- Put a pair in the place of those with its key: the multimap as a map. -/
def replace (es : Multimap K V) (k : K) (v : V) : Multimap K V :=
  insert (es.filter fun e => e.1 ≠ k) k v

variable {es : Multimap K V} {k k' : K} {v : V}

theorem insert_perm : (insert es k v).Perm ((k, v) :: es) := by
  unfold insert
  refine List.perm_middle.trans (List.Perm.cons _ ?_)
  rw [List.takeWhile_append_dropWhile]

@[simp] theorem mem_insert {e : K × V} : e ∈ insert es k v ↔ e = (k, v) ∨ e ∈ es := by
  rw [insert_perm.mem_iff, List.mem_cons]

theorem search_eq_none : search es k = none ↔ k ∉ keys es := by
  rw [search, Option.map_eq_none_iff, List.find?_eq_none, keys, List.mem_map]
  constructor
  · rintro h ⟨e, he, rfl⟩
    simpa using h e he
  · intro h e he
    simpa using fun heq => h ⟨e, he, heq⟩

theorem mem_of_search (h : search es k = some v) : (k, v) ∈ es := by
  rw [search, Option.map_eq_some_iff] at h
  obtain ⟨e, he, rfl⟩ := h
  have hk : e.1 = k := by simpa using List.find?_some he
  exact hk ▸ List.mem_of_find?_eq_some he

theorem delete_sublist : (delete es k).Sublist es := List.eraseP_sublist

theorem mem_of_mem_delete {e : K × V} (h : e ∈ delete es k) : e ∈ es :=
  delete_sublist.subset h

/-- With distinct keys, `delete` removes the only pair with the key. -/
theorem key_ne_of_mem_delete (hnd : (keys es).Nodup) {e : K × V} (h : e ∈ delete es k) :
    e.1 ≠ k := by
  induction es with
  | nil => cases h
  | cons a es ih =>
      rw [keys, List.map_cons, List.nodup_cons] at hnd
      by_cases hak : a.1 = k
      · rw [delete, List.eraseP_cons_of_pos (by simpa using hak)] at h
        rintro rfl
        exact hnd.1 (hak ▸ List.mem_map_of_mem h)
      · rw [delete, List.eraseP_cons_of_neg (by simpa using hak)] at h
        rcases List.mem_cons.mp h with rfl | h
        · exact hak
        · exact ih hnd.2 h

theorem nodup_delete (hnd : (keys es).Nodup) : (keys (delete es k)).Nodup :=
  hnd.sublist (delete_sublist.map _)

theorem nodup_insert (hnd : (keys es).Nodup) (hk : k ∉ keys es) :
    (keys (insert es k v)).Nodup := by
  rw [keys, (insert_perm.map Prod.fst).nodup_iff, List.map_cons, List.nodup_cons]
  exact ⟨hk, hnd⟩

/-- Moving the pair of a key to a key that was free, or is the same. -/
theorem nodup_move (hnd : (keys es).Nodup) (hk : k' = k ∨ k' ∉ keys es) :
    (keys (insert (delete es k) k' v)).Nodup := by
  refine nodup_insert (nodup_delete hnd) ?_
  rintro hmem
  obtain ⟨e, he, rfl⟩ := List.mem_map.mp hmem
  rcases hk with heq | hk
  · exact key_ne_of_mem_delete hnd he heq
  · exact hk (List.mem_map_of_mem (mem_of_mem_delete he))

/-- With distinct keys, what `delete` takes out is the pair with the key. -/
theorem perm_delete (hnd : (keys es).Nodup) (h : (k, v) ∈ es) :
    es.Perm ((k, v) :: delete es k) := by
  induction es with
  | nil => cases h
  | cons a es ih =>
      rw [keys, List.map_cons, List.nodup_cons] at hnd
      by_cases hak : a.1 = k
      · rw [delete, List.eraseP_cons_of_pos (by simpa using hak)]
        rcases List.mem_cons.mp h with rfl | h
        · exact List.Perm.refl _
        · exact absurd (hak ▸ List.mem_map_of_mem h) hnd.1
      · rw [delete, List.eraseP_cons_of_neg (by simpa using hak)]
        have h' : (k, v) ∈ es := (List.mem_cons.mp h).resolve_left fun heq => hak (heq ▸ rfl)
        exact ((ih hnd.2 h').cons a).trans (List.Perm.swap _ _ _)

/-- With distinct keys, the pairs behind a pair stay when it goes. -/
theorem sublist_delete {e : K × V} {l : List (K × V)} (hnd : (keys es).Nodup)
    (h : (e :: l).Sublist es) : l.Sublist (delete es e.1) := by
  induction es with
  | nil => cases h
  | cons a es ih =>
      rw [keys, List.map_cons, List.nodup_cons] at hnd
      by_cases hak : a.1 = e.1
      · rw [delete, List.eraseP_cons_of_pos (by simpa using hak)]
        rcases List.sublist_cons_iff.mp h with hsub | ⟨r, heq, hsub⟩
        · exact absurd (hak ▸ List.mem_map_of_mem (hsub.subset List.mem_cons_self)) hnd.1
        · obtain ⟨-, rfl⟩ := List.cons.inj heq
          exact hsub
      · rw [delete, List.eraseP_cons_of_neg (by simpa using hak)]
        rcases List.sublist_cons_iff.mp h with hsub | ⟨r, heq, -⟩
        · exact (ih hnd.2 hsub).cons a
        · exact absurd (congrArg Prod.fst (List.cons.inj heq).1.symm) hak

theorem count_keys_insert : (keys (insert es k v)).count k = (keys es).count k + 1 := by
  rw [keys, (insert_perm.map Prod.fst).count_eq, List.map_cons, List.count_cons_self]

theorem count_keys_delete (hne : k' ≠ k) : (keys (delete es k')).count k = (keys es).count k := by
  induction es with
  | nil => rfl
  | cons a es ih =>
      have hcons : keys (a :: es) = a.1 :: keys es := rfl
      by_cases hak : a.1 = k'
      · rw [delete, List.eraseP_cons_of_pos (by simpa using hak), hcons,
          List.count_cons_of_ne (by simpa [hak] using hne)]
      · rw [delete, List.eraseP_cons_of_neg (by simpa using hak), hcons, keys, List.map_cons,
          List.count_cons, List.count_cons]
        exact congrArg (· + _) ih

/-! ## As a map -/

/-- Where the key is free, a map and a multimap do the same. -/
theorem replace_of_notMem (hk : k ∉ keys es) : replace es k v = insert es k v := by
  rw [replace, List.filter_eq_self.mpr]
  rintro e he
  have hne : e.1 ≠ k := by
    rintro rfl
    exact hk (List.mem_map_of_mem he)
  simpa using hne

theorem mem_replace {e : K × V} : e ∈ replace es k v ↔ e = (k, v) ∨ (e ∈ es ∧ e.1 ≠ k) := by
  simp [replace]

theorem nodup_replace (hnd : (keys es).Nodup) : (keys (replace es k v)).Nodup := by
  refine nodup_insert (hnd.sublist (List.filter_sublist.map _)) ?_
  rintro hmem
  obtain ⟨e, he, rfl⟩ := List.mem_map.mp hmem
  simp at he

theorem notMem_keys_delete (hnd : (keys es).Nodup) : k ∉ keys (delete es k) := by
  intro hmem
  obtain ⟨e, he, rfl⟩ := List.mem_map.mp hmem
  exact key_ne_of_mem_delete hnd he rfl

/-! ## What `search` finds -/

theorem search_insert_of_ne (hne : k' ≠ k) : search (insert es k v) k' = search es k' := by
  have hskip : ((k, v) : K × V).1 ≠ k' := hne.symm
  conv_rhs => rw [search, ← List.takeWhile_append_dropWhile (p := fun e => decide (e.1 ≤ k)) (l := es)]
  rw [search, insert, List.find?_append, List.find?_append, List.find?_cons_of_neg (by simpa using hskip)]

theorem search_eq_some_of_mem (hnd : (keys es).Nodup) (h : (k, v) ∈ es) : search es k = some v := by
  cases hs : search es k with
  | none => exact absurd (List.mem_map_of_mem h) (search_eq_none.mp hs)
  | some w =>
      have heq : (k, w) = (k, v) := List.inj_on_of_nodup_map hnd (mem_of_search hs) h rfl
      exact congrArg some (Prod.mk.inj heq).2

theorem search_filter_of_ne (hne : k' ≠ k) : search (es.filter fun e => e.1 ≠ k) k' = search es k' := by
  rw [search, search, List.find?_filter]
  refine congrArg _ (congrArg (fun p => es.find? p) (funext fun e => ?_))
  by_cases he : e.1 = k'
  · simp [he, hne]
  · simp [he]

theorem search_replace_of_ne (hne : k' ≠ k) : search (replace es k v) k' = search es k' := by
  rw [replace, search_insert_of_ne hne, search_filter_of_ne hne]

theorem search_replace_self (hnd : (keys es).Nodup) : search (replace es k v) k = some v :=
  search_eq_some_of_mem (nodup_replace hnd) (mem_replace.mpr (Or.inl rfl))

theorem search_delete_self (hnd : (keys es).Nodup) : search (delete es k) k = none :=
  search_eq_none.mpr (notMem_keys_delete hnd)

theorem search_delete_of_ne (hne : k' ≠ k) : search (delete es k) k' = search es k' := by
  induction es with
  | nil => rfl
  | cons e es ih =>
      by_cases he : e.1 = k
      · have hdel : delete (e :: es) k = es := by simp [delete, he]
        rw [hdel, search, search, List.find?_cons_of_neg (by simpa [he] using hne.symm)]
      · have hdel : delete (e :: es) k = e :: delete es k := by simp [delete, he]
        rw [hdel, search, search, List.find?_cons, List.find?_cons]
        split
        · rfl
        · exact ih

/-! ## Ascending keys -/

section

variable {done rest : Multimap K V} {e : K × V}

/-- Every key is smaller than those behind it. -/
def Ascending (es : Multimap K V) : Prop := (keys es).Pairwise (· < ·)

namespace Ascending

theorem nodup (h : Ascending es) : (keys es).Nodup := h.imp ne_of_lt

theorem sublist {es' : Multimap K V} (h : Ascending es) (hs : es'.Sublist es) : Ascending es' :=
  List.Pairwise.sublist (hs.map _) h

theorem append_cons (h : Ascending (done ++ e :: rest)) :
    (∀ a ∈ done, a.1 < e.1) ∧ ∀ b ∈ rest, e.1 < b.1 := by
  rw [Ascending, keys, List.map_append, List.map_cons, List.pairwise_append,
    List.pairwise_cons] at h
  refine ⟨fun a ha => ?_, fun b hb => h.2.1.1 _ (List.mem_map_of_mem hb)⟩
  exact h.2.2 _ (List.mem_map_of_mem ha) _ List.mem_cons_self

/-- A pair goes between the smaller and the larger keys. -/
theorem insert_between (hdone : ∀ a ∈ done, a.1 < k) (hrest : ∀ b ∈ rest, k < b.1) :
    insert (done ++ rest) k v = done ++ (k, v) :: rest := by
  have hpre : ∀ a ∈ done, decide (a.1 ≤ k) = true := fun a ha => by
    simpa using (hdone a ha).le
  have htake : rest.takeWhile (fun e => decide (e.1 ≤ k)) = [] := by
    cases rest with
    | nil => rfl
    | cons b rest =>
        have hb : ¬ b.1 ≤ k := not_le.mpr (hrest b List.mem_cons_self)
        simp [hb]
  have hdrop : rest.dropWhile (fun e => decide (e.1 ≤ k)) = rest := by
    cases rest with
    | nil => rfl
    | cons b rest =>
        have hb : ¬ b.1 ≤ k := not_le.mpr (hrest b List.mem_cons_self)
        simp [hb]
  rw [insert, List.takeWhile_append_of_pos hpre, List.dropWhile_append_of_pos hpre, htake, hdrop,
    List.append_nil]

theorem delete_between (hdone : ∀ a ∈ done, a.1 < e.1) :
    delete (done ++ e :: rest) e.1 = done ++ rest := by
  rw [delete, List.eraseP_append_right _ fun a ha => by simpa using (hdone a ha).ne,
    List.eraseP_cons_of_pos (by simp)]

/-- A free key cuts the pairs in two. -/
theorem split (h : Ascending es) (hk : k ∉ keys es) : ∃ done rest, es = done ++ rest ∧
    (∀ a ∈ done, a.1 < k) ∧ ∀ b ∈ rest, k < b.1 := by
  induction es with
  | nil => exact ⟨[], [], rfl, by simp, by simp⟩
  | cons e es ih =>
      rw [Ascending, keys, List.map_cons, List.pairwise_cons] at h
      have hne : k ≠ e.1 := fun heq => hk (heq ▸ List.mem_cons_self)
      rcases lt_or_gt_of_ne hne with hlt | hgt
      · refine ⟨[], e :: es, rfl, by simp, fun b hb => ?_⟩
        rcases List.mem_cons.mp hb with rfl | hb
        · exact hlt
        · exact hlt.trans (h.1 _ (List.mem_map_of_mem hb))
      · obtain ⟨done, rest, rfl, hdone, hrest⟩ := ih h.2 fun hmem => hk (List.mem_cons_of_mem _ hmem)
        refine ⟨e :: done, rest, rfl, fun a ha => ?_, hrest⟩
        rcases List.mem_cons.mp ha with rfl | ha
        · exact hgt
        · exact hdone a ha

theorem insert (h : Ascending es) (hk : k ∉ keys es) : Ascending (Multimap.insert es k v) := by
  obtain ⟨done, rest, rfl, hdone, hrest⟩ := h.split hk
  rw [insert_between hdone hrest]
  rw [Ascending, keys, List.map_append, List.pairwise_append] at h
  rw [Ascending, keys, List.map_append, List.map_cons, List.pairwise_append, List.pairwise_cons]
  refine ⟨h.1, ⟨fun b hb => ?_, h.2.1⟩, fun a ha b hb => ?_⟩
  · obtain ⟨e, he, rfl⟩ := List.mem_map.mp hb
    exact hrest e he
  · rcases List.mem_cons.mp hb with rfl | hb
    · obtain ⟨e, he, rfl⟩ := List.mem_map.mp ha
      exact hdone e he
    · exact h.2.2 a ha b hb

theorem replace (h : Ascending es) : Ascending (Multimap.replace es k v) := by
  refine (h.sublist List.filter_sublist).insert fun hmem => ?_
  obtain ⟨e, he, rfl⟩ := List.mem_map.mp hmem
  simp at he

theorem delete (h : Ascending es) : Ascending (Multimap.delete es k) := h.sublist delete_sublist

end Ascending

end

end Multimap
