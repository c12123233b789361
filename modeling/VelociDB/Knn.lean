/-
# Nearest neighbours (`vector.rs`, `storage.rs`)

    distanceOf    infinity for NULL, for another type and for another dimension
    nearer        distance first, then key
    knn           `select_nth_unstable_by`, `truncate`, `sort_by`

Where no distance is NaN, `nearer` is a total order on rows with distinct keys, so the
selection drops exactly what a full sort would put last: `knn` is the front of the sorted
list, and `vector_search` returns the rows of `ORDER BY … LIMIT`.
-/
import VelociDB.FastPath
import VelociDB.ValueOrder

namespace VelociDB

open Multimap

variable {ext : Externals} {vec : VectorFns}

/-! ## The order of the neighbours -/

/-- Distance and key. -/
def rank (s : Scored) : ℤ ×ₗ Int64 := toLex (floatKey s.1, s.2.1)

section

variable {a b : Scored} (ha : ¬ isNaN a.1) (hb : ¬ isNaN b.1)

include ha hb

theorem nearer_eq : nearer a b =
    (compare (floatKey a.1) (floatKey b.1)).then (compare a.2.1 b.2.1) := by
  rw [nearer, floatPartialCmp_eq, if_neg (not_or.mpr ⟨ha, hb⟩), Option.getD_some]

theorem nearer_eq_lt : nearer a b = .lt ↔ rank a < rank b := by
  rw [nearer_eq ha hb, Ordering.then_eq_lt, compare_lt_iff_lt, compare_lt_iff_lt,
    Std.compare_eq_iff_eq]
  exact (Prod.Lex.toLex_lt_toLex (x := (floatKey a.1, a.2.1)) (y := (floatKey b.1, b.2.1))).symm

theorem nearer_eq_eq : nearer a b = .eq ↔ rank a = rank b := by
  rw [nearer_eq ha hb, Ordering.then_eq_eq, Std.compare_eq_iff_eq, Std.compare_eq_iff_eq, rank,
    rank, toLex_inj, Prod.mk.injEq]

theorem nearer_swap : nearer b a = (nearer a b).swap := by
  rw [nearer_eq ha hb, nearer_eq hb ha, Ordering.swap_then]
  exact congrArg₂ Ordering.then Std.OrientedOrd.eq_swap Std.OrientedOrd.eq_swap

theorem nearer_ne_gt : nearer a b ≠ .gt ↔ rank a ≤ rank b := by
  have hswap : nearer a b = .gt ↔ nearer b a = .lt := by
    rw [nearer_swap ha hb]
    cases nearer a b <;> simp
  rw [Ne, hswap, nearer_eq_lt hb ha, not_lt]

end

/-- On distances that are not NaN, `nearer` is a total order. -/
theorem orderedOn_nearer {l : List Scored} (h : ∀ s ∈ l, ¬ isNaN s.1) :
    Sorting.OrderedOn nearer l where
  swap a ha b hb := nearer_swap (h a ha) (h b hb)
  trans := by
    intro a ha b hb c hc hab hbc
    rw [nearer_ne_gt (h a ha) (h b hb)] at hab
    rw [nearer_ne_gt (h b hb) (h c hc)] at hbc
    rw [nearer_ne_gt (h a ha) (h c hc)]
    exact hab.trans hbc

section Rows

variable {rows : List (Int64 × Row)} {expr : DistanceExpr} {i : Nat}

theorem keys_scoreRows : (scoreRows ext vec expr i rows).map (fun s => s.2.1) = keys rows := by
  rw [scoreRows, List.map_map]
  rfl

variable (hkeys : (keys rows).Nodup)
  (hnan : ∀ e ∈ rows, ¬ isNaN (distanceOf ext vec expr i e.2))

include hnan

theorem not_isNaN_scoreRows : ∀ s ∈ scoreRows ext vec expr i rows, ¬ isNaN s.1 := by
  intro s hs
  obtain ⟨e, he, rfl⟩ := List.mem_map.mp hs
  exact hnan e he

include hkeys

/-- Rows with distinct keys are told apart. -/
theorem eq_of_nearer_eq : ∀ a ∈ scoreRows ext vec expr i rows,
    ∀ b ∈ scoreRows ext vec expr i rows, nearer a b = .eq → a = b := by
  intro a ha b hb hab
  have hno := not_isNaN_scoreRows hnan
  rw [nearer_eq_eq (hno a ha) (hno b hb), rank, rank, toLex_inj, Prod.mk.injEq] at hab
  have hnd : ((scoreRows ext vec expr i rows).map fun s => s.2.1).Nodup := by
    rwa [keys_scoreRows]
  exact List.inj_on_of_nodup_map hnd ha hb hab.2

/-- `knn` is the front of the sorted rows. -/
theorem knn_eq_take (k : Nat) : knn ext vec expr i k rows =
    (sortBy nearer (scoreRows ext vec expr i rows)).take k := by
  have hordered := orderedOn_nearer (not_isNaN_scoreRows hnan)
  unfold knn
  split
  · rename_i hk
    rw [hk, List.take_zero]
  · rename_i hk
    dsimp only
    split
    · rename_i hlt
      have hn : k - 1 < (scoreRows ext vec expr i rows).length := by omega
      have hparts := vec.selection.take_le_drop hordered hn
      rw [Nat.sub_add_cancel (by omega)] at hparts
      exact hordered.mergeSort_take (eq_of_nearer_eq hkeys hnan) (vec.selection.perm nearer hn) hparts
    · rename_i hlt
      rw [List.take_of_length_le]
      rw [sortBy, List.length_mergeSort]
      omega

/-- The sorted rows are strictly sorted by distance and key. -/
theorem pairwise_sorted : (sortBy nearer (scoreRows ext vec expr i rows)).Pairwise
    fun a b => rank a < rank b := by
  have hno := not_isNaN_scoreRows hnan
  have hperm := List.mergeSort_perm (scoreRows ext vec expr i rows)
    fun a b => nearer a b ≠ .gt
  have hnd : (sortBy nearer (scoreRows ext vec expr i rows)).Nodup := by
    refine (hperm.nodup_iff).mpr (List.Nodup.of_map (fun s => s.2.1) ?_)
    rwa [keys_scoreRows]
  have hle := (orderedOn_nearer hno).pairwise_mergeSort
  refine (hle.and hnd).imp_of_mem fun {a b} ha hb hab => ?_
  have ha := hperm.subset ha
  have hb := hperm.subset hb
  refine lt_of_le_of_ne ((nearer_ne_gt (hno a ha) (hno b hb)).mp hab.1) fun heq => hab.2 ?_
  exact eq_of_nearer_eq hkeys hnan a ha b hb ((nearer_eq_eq (hno a ha) (hno b hb)).mpr heq)

end Rows

/-! ## `vector_search` and ORDER BY -/

section

variable (ext vec)
variable {m : Type → Type} [Monad m] [MonadExceptOf Fault m] {τ : Type} (trees : TreeOps m τ)

/-- The query has the dimension of its column. -/
def checkDimension (ts : TableSchema) (i : Nat) (query : List UInt32) : m Unit :=
  match ts.columns[i]?.map Column.dataType with
  | some (.vector dim) =>
      errIf (dim.toNat ≠ query.length)
        (.typeMismatch s!"query vector of dimension {dim}" s!"dimension {query.length}")
  | _ => pure ()

/-- `Database::vector_search`. -/
def vectorSearch (table column : String) (query : List UInt32) (k : Nat) (metric : DistanceMetric)
    (db : Tables τ) : m (List (UInt64 × Row)) := do
  let ts ← getTable db.schema table
  match ts.position column with
  | none => fail (.notFound s!"Column '{column}' not found in table '{table}'")
  | some i =>
      checkDimension ts i query
      let tree ← getTree db table
      let rows ← trees.scan tree
      return (knn ext vec ⟨metric, column, query⟩ i k rows).map fun s => (s.1, s.2.2)

end

section Search

variable {put : Put} {db : Tables RowMap} {ts : TableSchema} {es : RowMap}
  {table column text : String} {query : List UInt32} {metric : DistanceMetric} {i : Nat}

theorem orderRows_distance {rows : List (Int64 × Row)} (hcol : ts.position column = some i)
    (htext : vec.parseDistanceExpr text = some (.ok ⟨metric, column, query⟩)) (k : Nat) :
    orderRows ext vec table ts (some ⟨text, true⟩) (some k) rows =
      .ok ((knn ext vec ⟨metric, column, query⟩ i (min k rows.length) rows).map Prod.snd) := by
  simp only [orderRows, htext, hcol]
  rfl

theorem isCount_star : isCount ["*"] = false := by with_unfolding_all decide

theorem executeSelect_distance (hts : db.schema[table]? = some ts)
    (hes : db.btrees[table]? = some es) (hcol : ts.position column = some i)
    (htext : vec.parseDistanceExpr text = some (.ok ⟨metric, column, query⟩)) (k : Nat) :
    ∃ result, executeSelect ext vec (listTrees put) table ["*"] none (some ⟨text, true⟩) (some k) db =
      .ok result ∧ result.rows =
        ((knn ext vec ⟨metric, column, query⟩ i (min k es.length) es).take k).map fun s => s.2.2 := by
  have hrows : selectRows ext vec (listTrees put) table none (some ⟨text, true⟩) (some k) db =
      .ok (ts, ((knn ext vec ⟨metric, column, query⟩ i (min k es.length) es).map
        Prod.snd).take k) := by
    have horder : orderRows ext vec table ts (some ⟨text, true⟩) (some k) es = _ :=
      orderRows_distance hcol htext k
    refine bind_ok.mpr ⟨ts, getTable_eq hts, bind_ok.mpr ⟨es, getTree_eq hes, ?_⟩⟩
    exact bind_ok.mpr ⟨es, rfl, bind_ok.mpr ⟨es, rfl, bind_ok.mpr
      ⟨_, ofResult_ok.mpr horder, rfl⟩⟩⟩
  have hitems : (["*"].mapM fun c => projItem vec table ts c) = .ok [ProjItem.star] := rfl
  refine ⟨⟨(["*"].zip [ProjItem.star]).flatMap fun ci => projectColumns ts ci.1 ci.2,
    (((knn ext vec ⟨metric, column, query⟩ i (min k es.length) es).map Prod.snd).take k).map
      fun e => ⟨[ProjItem.star].flatMap (projectItem ext vec e.2)⟩⟩, bind_ok.mpr ⟨_, hrows, ?_⟩, ?_⟩
  · dsimp only
    rw [isCount_star]
    exact bind_ok.mpr ⟨_, ofResult_ok.mpr hitems, rfl⟩
  · simp only [List.flatMap_singleton, projectItem, List.map_take, List.map_map]
    rfl

theorem vectorSearch_eq (hts : db.schema[table]? = some ts) (hes : db.btrees[table]? = some es)
    (hcol : ts.position column = some i)
    (hdim : ∀ dim, ts.columns[i]?.map Column.dataType = some (.vector dim) →
      dim.toNat = query.length) (k : Nat) :
    vectorSearch ext vec (listTrees put) table column query k metric db =
      .ok ((knn ext vec ⟨metric, column, query⟩ i k es).map fun s => (s.1, s.2.2)) := by
  have hcheck : (checkDimension ts i query : Except Fault Unit) = .ok () := by
    unfold checkDimension
    split
    · rename_i dim hdt
      exact errIf_ok.mpr (not_not.mpr (hdim dim hdt))
    · rfl
  refine bind_ok.mpr ⟨ts, getTable_eq hts, ?_⟩
  simp only [hcol]
  exact bind_ok.mpr ⟨(), hcheck, bind_ok.mpr ⟨es, getTree_eq hes, rfl⟩⟩

end Search

/-- Where no distance is NaN and keys are distinct, `knn` returns the first `k` of the rows
strictly sorted by distance and key, each with its distance; and `vector_search` returns
the rows of `SELECT * … ORDER BY <distance> LIMIT k`, in order, for a query of the
column's dimension. -/
theorem knn_is_full_sort :
    (∀ (rows : List (Int64 × Row)) (expr : DistanceExpr) (i k : Nat), (keys rows).Nodup →
      (∀ e ∈ rows, ¬ isNaN (distanceOf ext vec expr i e.2)) →
      ∃ sorted : List Scored, sorted.Perm (rows.map fun e => (distanceOf ext vec expr i e.2, e)) ∧
        (sorted.Pairwise fun a b => rank a < rank b) ∧
        knn ext vec expr i k rows = sorted.take (min k rows.length)) ∧
    ∀ (put : Put) (db : Tables RowMap) (ts : TableSchema) (es : RowMap) (table column text : String)
      (query : List UInt32) (metric : DistanceMetric) (i k : Nat),
      db.schema[table]? = some ts → db.btrees[table]? = some es → (keys es).Nodup →
      ts.position column = some i →
      (∀ dim, ts.columns[i]?.map Column.dataType = some (.vector dim) → dim.toNat = query.length) →
      vec.parseDistanceExpr text = some (.ok ⟨metric, column, query⟩) →
      (∀ e ∈ es, ¬ isNaN (distanceOf ext vec ⟨metric, column, query⟩ i e.2)) →
      ∃ found result,
        vectorSearch ext vec (listTrees put) table column query k metric db = .ok found ∧
        executeSelect ext vec (listTrees put) table ["*"] none (some ⟨text, true⟩) (some k) db =
          .ok result ∧ found.map Prod.snd = result.rows := by
  constructor
  · intro rows expr i k hkeys hnan
    have hlen : (sortBy nearer (scoreRows ext vec expr i rows)).length = rows.length := by
      rw [sortBy, List.length_mergeSort, scoreRows, List.length_map]
    refine ⟨sortBy nearer (scoreRows ext vec expr i rows), List.mergeSort_perm _ _,
      pairwise_sorted hkeys hnan, ?_⟩
    rw [knn_eq_take hkeys hnan, ← hlen, List.take_eq_take_min]
  · intro put db ts es table column text query metric i k hts hes hkeys hcol hdim htext hnan
    obtain ⟨result, hresult, hrows⟩ :=
      @executeSelect_distance ext vec put db ts es table column text query metric i hts hes hcol
        htext k
    refine ⟨_, result, vectorSearch_eq hts hes hcol hdim k, hresult, ?_⟩
    have hlen : (sortBy nearer (scoreRows ext vec ⟨metric, column, query⟩ i es)).length =
        es.length := by
      rw [sortBy, List.length_mergeSort, scoreRows, List.length_map]
    have htake : (sortBy nearer (scoreRows ext vec ⟨metric, column, query⟩ i es)).take k =
        (sortBy nearer (scoreRows ext vec ⟨metric, column, query⟩ i es)).take (min k es.length) := by
      rw [← hlen]
      exact List.take_eq_take_min
    rw [hrows, knn_eq_take hkeys hnan, knn_eq_take hkeys hnan, List.take_take, List.map_map,
      ← min_assoc, min_self, htake]
    rfl

/-- `vector_distance_l2` of a vector to itself. -/
def toItself : VectorFns where
  parseDistanceExpr _ := some (.ok ⟨.euclidean, "emb", [0]⟩)
  distance _ _ _ := .ok 0
  selection := .bySort _

theorem knn_is_full_sort_tie : ∃ found result,
    vectorSearch mute toItself multimaps "t" "emb" [0] 1 .euclidean
      ⟨Std.ExtTreeMap.insert ∅ "t" ⟨"t", [⟨"id", .integer, true, true, false⟩,
          ⟨"emb", .vector 1, false, false, false⟩]⟩,
        Std.ExtTreeMap.insert ∅ "t" [(2, ⟨[.integer 2, .vector [0]]⟩),
          (7, ⟨[.integer 7, .vector [0]]⟩)]⟩ = .ok found ∧
      executeSelect mute toItself multimaps "t" ["*"] none
        (some ⟨"vector_distance_l2(emb, '[0]')", true⟩) (some 1)
        ⟨Std.ExtTreeMap.insert ∅ "t" ⟨"t", [⟨"id", .integer, true, true, false⟩,
            ⟨"emb", .vector 1, false, false, false⟩]⟩,
          Std.ExtTreeMap.insert ∅ "t" [(2, ⟨[.integer 2, .vector [0]]⟩),
            (7, ⟨[.integer 7, .vector [0]]⟩)]⟩ = .ok result ∧
      found.map Prod.snd = result.rows := by
  refine knn_is_full_sort.2 insert _ ⟨"t", [⟨"id", .integer, true, true, false⟩,
      ⟨"emb", .vector 1, false, false, false⟩]⟩ [(2, ⟨[.integer 2, .vector [0]]⟩),
      (7, ⟨[.integer 7, .vector [0]]⟩)] "t" "emb" _ [0] .euclidean 1 1
    (by simp) (by simp) (by decide) (by decide) ?_ rfl ?_
  · rintro dim ⟨⟩
    rfl
  · simp only [List.mem_cons, List.not_mem_nil, or_false]
    rintro e (rfl | rfl)
    · decide
    · decide

end VelociDB
