/-
# The vector kernels (`simd.rs`)

The AVX2 filters and aggregations step over a slice in blocks of four and treat what is left
one by one.  A register is four lanes of 64 bits; a comparison fills a lane with ones or
zeros, and `_mm256_movemask_pd` collects the lanes' top bits.  `+` on `i64` is the one of a
release build, mod 2^64.  A load outside the slice is `none`, as is an index out of range, so
an answer `some _` also says that the kernel stays inside its slices.

    filterLoop_eq    a filter's loop writes the scalar comparison of every element
    reduceLoop_eq    folding in four lanes and joining them is folding
-/
import VelociDB.Lib.StepBy
import VelociDB.Types

namespace VelociDB

open StepBy

/-- `__m256i`. -/
structure M256i where
  lane0 : Int64
  lane1 : Int64
  lane2 : Int64
  lane3 : Int64
  deriving DecidableEq, Repr

namespace M256i

/-- An operation on every lane. -/
def map (f : Int64 → Int64) (a : M256i) : M256i := ⟨f a.lane0, f a.lane1, f a.lane2, f a.lane3⟩

/-- An operation lane by lane. -/
def zip (f : Int64 → Int64 → Int64) (a b : M256i) : M256i :=
  ⟨f a.lane0 b.lane0, f a.lane1 b.lane1, f a.lane2 b.lane2, f a.lane3 b.lane3⟩

/-- The lanes in memory order (`_mm256_storeu_si256` into `temp`). -/
def storeuSi256 (a : M256i) : List Int64 := [a.lane0, a.lane1, a.lane2, a.lane3]

end M256i

/-- All ones or all zeros. -/
def laneFlag (b : Bool) : Int64 := if b then -1 else 0

def mm256Set1Epi64x (x : Int64) : M256i := ⟨x, x, x, x⟩

def mm256SetzeroSi256 : M256i := ⟨0, 0, 0, 0⟩

def mm256CmpgtEpi64 (a b : M256i) : M256i := M256i.zip (fun x y => laneFlag (decide (x > y))) a b

def mm256CmpeqEpi64 (a b : M256i) : M256i := M256i.zip (fun x y => laneFlag (decide (x = y))) a b

def mm256AddEpi64 (a b : M256i) : M256i := M256i.zip (· + ·) a b

/-- One lane of `_mm256_blendv_epi8`: each byte is taken from `b` when the top bit of the
mask's byte is set. -/
def blendLane (a b mask : Int64) : Int64 :=
  Int64.ofBitVec (BitVec.ofFnLE fun i : Fin 64 =>
    if mask.toBitVec.getLsbD (i.val / 8 * 8 + 7) then b.toBitVec.getLsbD i.val
    else a.toBitVec.getLsbD i.val)

def mm256BlendvEpi8 (a b mask : M256i) : M256i :=
  ⟨blendLane a.lane0 b.lane0 mask.lane0, blendLane a.lane1 b.lane1 mask.lane1,
    blendLane a.lane2 b.lane2 mask.lane2, blendLane a.lane3 b.lane3 mask.lane3⟩

/-- The top bit of a lane, at its place in the mask. -/
def signBit (x : Int64) (place : ℕ) : ℕ := if x < 0 then place else 0

def mm256MovemaskPd (a : M256i) : ℕ :=
  signBit a.lane0 1 ||| signBit a.lane1 2 ||| signBit a.lane2 4 ||| signBit a.lane3 8

/-- Four elements from index `i` on. -/
def mm256LoaduSi256 (values : List Int64) (i : ℕ) : Option M256i :=
  match values.drop i with
  | a :: b :: c :: d :: _ => some ⟨a, b, c, d⟩
  | _ => none

/-- `result[i] = b`. -/
def store {α : Type} (result : List α) (i : ℕ) (b : α) : Option (List α) :=
  if i < result.length then some (result.set i b) else none

/-! ## What the operations do to a lane -/

@[simp] theorem laneFlag_lt_zero (b : Bool) : laneFlag b < 0 ↔ b = true := by
  cases b <;> decide

theorem blendLane_flag (a b : Int64) (p : Bool) :
    blendLane a b (laneFlag p) = if p then b else a := by
  cases p with
  | true =>
      refine Int64.toBitVec_inj.mp (BitVec.eq_of_getLsbD_eq fun i hi => ?_)
      have hone : (laneFlag true).toBitVec.getLsbD (i / 8 * 8 + 7) = true := by
        change (BitVec.allOnes 64).getLsbD _ = true
        rw [BitVec.getLsbD_allOnes]
        exact decide_eq_true (by omega)
      simp [blendLane, hi, hone]
  | false =>
      refine Int64.toBitVec_inj.mp (BitVec.eq_of_getLsbD_eq fun i hi => ?_)
      have hzero : (laneFlag false).toBitVec.getLsbD (i / 8 * 8 + 7) = false :=
        BitVec.getLsbD_zero
      simp [blendLane, hi, hzero]

/-- Every bit of a mask is its own lane's flag. -/
theorem movemask_bits (p q r s : Bool) :
    let mask := mm256MovemaskPd ⟨laneFlag p, laneFlag q, laneFlag r, laneFlag s⟩
    (mask &&& 1 != 0) = p ∧ (mask &&& 2 != 0) = q ∧ (mask &&& 4 != 0) = r ∧
      (mask &&& 8 != 0) = s := by
  cases p <;> cases q <;> cases r <;> cases s <;> decide

theorem loadu_append (pre post : List Int64) (a b c d : Int64) :
    mm256LoaduSi256 (pre ++ a :: b :: c :: d :: post) pre.length = some ⟨a, b, c, d⟩ := by
  rw [mm256LoaduSi256, List.drop_left]

theorem store_append {α : Type} (pre : List α) (x b : α) (post : List α) :
    store (pre ++ x :: post) pre.length b = some (pre ++ b :: post) := by
  rw [store, if_pos (by simp), List.set_append_right _ _ le_rfl, Nat.sub_self, List.set_cons_zero]

/-- A block of four, where there is one. -/
theorem exists_block {α : Type} {xs : List α} (h : 4 ≤ xs.length) :
    ∃ a b c d rest, xs = a :: b :: c :: d :: rest := by
  rcases xs with _ | ⟨a, _ | ⟨b, _ | ⟨c, _ | ⟨d, rest⟩⟩⟩⟩
  · simp at h
  · simp at h
  · simp at h
  · simp at h
  · exact ⟨a, b, c, d, rest, rfl⟩

/-! ## The filters -/

namespace VectorizedFilter

/-- `for j in i..len { result[j] = test(values[j]); }` -/
def storeRest (test : Int64 → Bool) (values : List Int64) : List ℕ → List Bool → Option (List Bool)
  | [], result => some result
  | j :: js, result => do
      let value ← values[j]?
      let result ← store result j (test value)
      storeRest test values js result

/-- One round of a filter: a block compared in its lanes, or the rest and `break`. -/
def filterBody (compare : M256i → M256i) (test : Int64 → Bool) (values : List Int64) (i : ℕ)
    (result : List Bool) : Option (Except (List Bool) (List Bool)) :=
  if i + 4 > values.length then do
    let result ← storeRest test values (List.range' i (values.length - i)) result
    some (.error result)
  else do
    let valuesVec ← mm256LoaduSi256 values i
    let mask := mm256MovemaskPd (compare valuesVec)
    let result ← store result i (mask &&& 1 != 0)
    let result ← store result (i + 1) (mask &&& 2 != 0)
    let result ← store result (i + 2) (mask &&& 4 != 0)
    let result ← store result (i + 3) (mask &&& 8 != 0)
    some (.ok result)

/-- The loop of a filter. -/
def filterLoop (compare : M256i → M256i) (test : Int64 → Bool) (values : List Int64)
    (result : List Bool) : Option (List Bool) :=
  (forStep (filterBody compare test values) (starts values.length 4) result).map (outcome id)

def filterIntegersGreaterThanAvx2 (values : List Int64) (threshold : Int64) (result : List Bool) :
    Option (List Bool) :=
  filterLoop (fun valuesVec => mm256CmpgtEpi64 valuesVec (mm256Set1Epi64x threshold))
    (fun value => decide (value > threshold)) values result

def filterIntegersEqualAvx2 (values : List Int64) (target : Int64) (result : List Bool) :
    Option (List Bool) :=
  filterLoop (fun valuesVec => mm256CmpeqEpi64 valuesVec (mm256Set1Epi64x target))
    (fun value => decide (value = target)) values result

/-- `filter_integers_greater_than_scalar`. -/
def filterIntegersGreaterThanScalar (values : List Int64) (threshold : Int64)
    (result : List Bool) : Option (List Bool) :=
  values.zipIdx.foldlM (fun result v => store result v.2 (decide (v.1 > threshold))) result

/-- `filter_integers_greater_than`, with and without AVX2. -/
def filterIntegersGreaterThan (avx2 : Bool) (values : List Int64) (threshold : Int64) :
    Option (List Bool) :=
  let result := List.replicate values.length false
  if avx2 then filterIntegersGreaterThanAvx2 values threshold result
  else filterIntegersGreaterThanScalar values threshold result

/-- `filter_integers_equal`, with and without AVX2. -/
def filterIntegersEqual (avx2 : Bool) (values : List Int64) (target : Int64) :
    Option (List Bool) :=
  let result := List.replicate values.length false
  if avx2 then filterIntegersEqualAvx2 values target result
  else values.zipIdx.foldlM (fun result v => store result v.2 (decide (v.1 = target))) result

variable {compare : M256i → M256i} {test : Int64 → Bool}

/-- How far a filter has come: the first `i` elements are compared. -/
def Filtered (test : Int64 → Bool) (values : List Int64) (i : ℕ) (result : List Bool) : Prop :=
  ∃ pre post old, values = pre ++ post ∧ pre.length = i ∧ old.length = post.length ∧
    result = pre.map test ++ old

theorem storeRest_append (test : Int64 → Bool) (pre post : List Int64) (old : List Bool)
    (hlen : old.length = post.length) :
    storeRest test (pre ++ post) (List.range' pre.length post.length) (pre.map test ++ old) =
      some ((pre ++ post).map test) := by
  induction post generalizing pre old with
  | nil =>
      rw [List.length_eq_zero_iff.mp hlen]
      simp [storeRest]
  | cons value post ih =>
      obtain ⟨x, old, rfl⟩ := List.exists_cons_of_length_eq_add_one hlen
      have hstore := store_append (pre.map test) x (test value) old
      rw [List.length_map] at hstore
      have hnext := ih (pre ++ [value]) old (by simpa using hlen)
      rw [List.length_cons, List.range'_succ, storeRest]
      simp only [List.getElem?_append_right le_rfl, Nat.sub_self, List.getElem?_cons_zero,
        Option.bind_eq_bind, Option.bind_some, hstore]
      simpa using hnext

/-- One block. -/
theorem filterBody_block (hcompare : ∀ v : M256i, compare v =
      ⟨laneFlag (test v.lane0), laneFlag (test v.lane1), laneFlag (test v.lane2),
        laneFlag (test v.lane3)⟩)
    (pre post : List Int64) (a b c d : Int64) (w x y z : Bool) (old : List Bool) :
    filterBody compare test (pre ++ a :: b :: c :: d :: post) pre.length
        (pre.map test ++ w :: x :: y :: z :: old) =
      some (.ok (pre.map test ++ test a :: test b :: test c :: test d :: old)) := by
  have h₀ := store_append (pre.map test) w (test a) (x :: y :: z :: old)
  have h₁ := store_append (pre.map test ++ [test a]) x (test b) (y :: z :: old)
  have h₂ := store_append (pre.map test ++ [test a, test b]) y (test c) (z :: old)
  have h₃ := store_append (pre.map test ++ [test a, test b, test c]) z (test d) old
  simp only [List.length_append, List.length_map, List.length_cons, List.length_nil,
    List.append_assoc, List.cons_append, List.nil_append, Nat.zero_add, Nat.reduceAdd]
    at h₀ h₁ h₂ h₃
  obtain ⟨hp, hq, hr, hs⟩ := movemask_bits (test a) (test b) (test c) (test d)
  rw [filterBody, if_neg (by simp), loadu_append]
  simp only [Option.bind_eq_bind, Option.bind_some, hcompare, hp, hq, hr, hs, h₀, h₁, h₂, h₃]

/-- The loop writes the comparison of every element. -/
theorem filterLoop_eq (hcompare : ∀ v : M256i, compare v =
      ⟨laneFlag (test v.lane0), laneFlag (test v.lane1), laneFlag (test v.lane2),
        laneFlag (test v.lane3)⟩)
    {values : List Int64} {result : List Bool} (hlen : result.length = values.length) :
    filterLoop compare test values result = some (values.map test) := by
  have hrule : ∃ out, forStep (filterBody compare test values) (starts values.length 4) result =
      some out ∧ outcome id out = values.map test := by
    refine forStep_rule (I := Filtered test values) (by decide) ?_ ?_
      ⟨[], values, result, rfl, rfl, hlen, rfl⟩
    · rintro i s hi ⟨pre, post, old, rfl, rfl, hold, rfl⟩
      rcases le_or_gt 4 post.length with hblock | hrest
      · obtain ⟨a, b, c, d, post, rfl⟩ := exists_block hblock
        obtain ⟨w, x, y, z, old, rfl⟩ := exists_block (hold ▸ hblock)
        refine ⟨_, filterBody_block hcompare pre post a b c d w x y z old, Or.inr ⟨_, rfl, ?_⟩⟩
        exact ⟨pre ++ [a, b, c, d], post, old, by simp, by simp, by simpa using hold, by simp⟩
      · refine ⟨.error ((pre ++ post).map test), ?_, Or.inl ⟨_, rfl, rfl⟩⟩
        have hstore := storeRest_append test pre post old hold
        rw [filterBody, if_pos (by rw [List.length_append]; omega), List.length_append,
          Nat.add_sub_cancel_left, hstore]
        rfl
    · rintro i s hi ⟨pre, post, old, rfl, rfl, hold, rfl⟩
      have hpost : post = [] := by
        rw [List.length_append] at hi
        exact List.length_eq_zero_iff.mp (by omega)
      rw [hpost] at hold ⊢
      rw [List.length_eq_zero_iff.mp hold]
      simp [outcome]
  obtain ⟨out, hout, hpost⟩ := hrule
  rw [filterLoop, hout, Option.map_some, hpost]

end VectorizedFilter

/-! ## The aggregations -/

namespace VectorizedAggregation

/-- `for j in i..len { acc = op(acc, values[j]); }` -/
def foldRest (op : Int64 → Int64 → Int64) (values : List Int64) :
    List ℕ → Int64 → Option Int64
  | [], acc => some acc
  | j :: js, acc => do
      let value ← values[j]?
      foldRest op values js (op acc value)

/-- One round of an aggregation: a block taken into the lanes, or the rest and `return`. -/
def reduceBody (step : M256i → M256i → M256i) (finish : M256i → List ℕ → Option Int64)
    (values : List Int64) (i : ℕ) (acc : M256i) : Option (Except Int64 M256i) :=
  if i + 4 > values.length then do
    let total ← finish acc (List.range' i (values.length - i))
    some (.error total)
  else do
    let valuesVec ← mm256LoaduSi256 values i
    some (.ok (step acc valuesVec))

/-- The loop of an aggregation, and what is extracted behind it. -/
def reduceLoop (step : M256i → M256i → M256i) (finish : M256i → List ℕ → Option Int64)
    (extract : M256i → Int64) (values : List Int64) (acc : M256i) : Option Int64 :=
  (forStep (reduceBody step finish values) (starts values.length 4) acc).map
    (outcome extract)

/-- `temp.iter().sum::<i64>()` -/
def tempSum (a : M256i) : Int64 := a.storeuSi256.foldl (· + ·) 0

/-- `temp.iter().copied().min().unwrap()` -/
def tempMin (a : M256i) : Int64 := [a.lane1, a.lane2, a.lane3].foldl min a.lane0

/-- `temp.iter().copied().max().unwrap()` -/
def tempMax (a : M256i) : Int64 := [a.lane1, a.lane2, a.lane3].foldl max a.lane0

def sumIntegersAvx2 (values : List Int64) : Option Int64 :=
  reduceLoop mm256AddEpi64
    (fun sumVec rest => do
      let scalarSum ← foldRest (· + ·) values rest 0
      some (tempSum sumVec + scalarSum))
    tempSum values mm256SetzeroSi256

def minIntegersAvx2 (values : List Int64) : Option Int64 :=
  if values.isEmpty then some Int64.maxValue
  else
    reduceLoop
      (fun minVec valuesVec =>
        mm256BlendvEpi8 minVec valuesVec (mm256CmpgtEpi64 minVec valuesVec))
      (fun minVec rest => foldRest min values rest (tempMin minVec))
      tempMin values (mm256Set1Epi64x Int64.maxValue)

def maxIntegersAvx2 (values : List Int64) : Option Int64 :=
  if values.isEmpty then some Int64.minValue
  else
    reduceLoop
      (fun maxVec valuesVec =>
        mm256BlendvEpi8 maxVec valuesVec (mm256CmpgtEpi64 valuesVec maxVec))
      (fun maxVec rest => foldRest max values rest (tempMax maxVec))
      tempMax values (mm256Set1Epi64x Int64.minValue)

/-! ## Folding in lanes -/

section Fold

variable {op : Int64 → Int64 → Int64}

theorem foldRest_append (pre post : List Int64) (acc : Int64) :
    foldRest op (pre ++ post) (List.range' pre.length post.length) acc =
      some (post.foldl op acc) := by
  induction post generalizing pre acc with
  | nil => simp [foldRest]
  | cons value post ih =>
      have hnext := ih (pre ++ [value]) (op acc value)
      rw [List.length_cons, List.range'_succ, foldRest]
      simp only [List.getElem?_append_right le_rfl, Nat.sub_self, List.getElem?_cons_zero,
        Option.bind_eq_bind, Option.bind_some]
      simpa using hnext

/-- The four lanes as one. -/
def joinLanes (op : Int64 → Int64 → Int64) (a : M256i) : Int64 :=
  op (op (op a.lane0 a.lane1) a.lane2) a.lane3

variable [Std.Associative op]

theorem foldl_op (x acc : Int64) (values : List Int64) :
    values.foldl op (op x acc) = op x (values.foldl op acc) := by
  induction values generalizing acc with
  | nil => rfl
  | cons value values ih =>
      rw [List.foldl_cons, List.foldl_cons, @Std.Associative.assoc _ op _, ih]

variable [Std.Commutative op]

theorem joinLanes_zip (acc v : M256i) :
    joinLanes op (M256i.zip op acc v) =
      op (op (op (op (joinLanes op acc) v.lane0) v.lane1) v.lane2) v.lane3 := by
  dsimp only [joinLanes, M256i.zip]
  ac_rfl

/-- An aggregation folds the slice, whatever its length. -/
theorem reduceLoop_eq {step : M256i → M256i → M256i} {finish : M256i → List ℕ → Option Int64}
    {extract : M256i → Int64} {values : List Int64} (init : M256i)
    (hstep : ∀ acc v, step acc v = M256i.zip op acc v)
    (hextract : ∀ acc, extract acc = joinLanes op acc)
    (hfinish : ∀ pre post acc, values = pre ++ post →
      finish acc (List.range' pre.length post.length) = some (post.foldl op (joinLanes op acc))) :
    reduceLoop step finish extract values init =
      some (values.foldl op (joinLanes op init)) := by
  have hrule : ∃ out, forStep (reduceBody step finish values) (starts values.length 4) init =
      some out ∧ outcome extract out = values.foldl op (joinLanes op init) := by
    refine forStep_rule (I := fun i acc => ∃ pre post, values = pre ++ post ∧ pre.length = i ∧
      joinLanes op acc = pre.foldl op (joinLanes op init)) (by decide) ?_ ?_
      ⟨[], values, rfl, rfl, rfl⟩
    · rintro i acc hi ⟨pre, post, rfl, rfl, hacc⟩
      rcases le_or_gt 4 post.length with hblock | hrest
      · obtain ⟨a, b, c, d, post, rfl⟩ := exists_block hblock
        refine ⟨.ok (step acc ⟨a, b, c, d⟩), ?_, Or.inr ⟨_, rfl, pre ++ [a, b, c, d], post,
          by simp, by simp, ?_⟩⟩
        · rw [reduceBody, if_neg (by simp), loadu_append]
          rfl
        · rw [hstep, joinLanes_zip, hacc, List.foldl_append]
          rfl
      · refine ⟨.error ((pre ++ post).foldl op (joinLanes op init)), ?_, Or.inl ⟨_, rfl, rfl⟩⟩
        rw [reduceBody, if_pos (by rw [List.length_append]; omega), List.length_append,
          Nat.add_sub_cancel_left, hfinish pre post acc rfl, hacc, List.foldl_append]
        rfl
    · rintro i acc hi ⟨pre, post, rfl, rfl, hacc⟩
      have hpost : post = [] := by
        rw [List.length_append] at hi
        exact List.length_eq_zero_iff.mp (by omega)
      rw [hpost, List.append_nil]
      exact (hextract acc).trans hacc
  obtain ⟨out, hout, hpost⟩ := hrule
  rw [reduceLoop, hout, Option.map_some, hpost]

end Fold

/-- The sum of the integers, brought back into 64 bits. -/
theorem foldl_add (values : List Int64) :
    values.foldl (· + ·) 0 = Int64.ofInt (values.map Int64.toInt).sum := by
  have hfrom : ∀ (values : List Int64) (acc : Int64),
      values.foldl (· + ·) acc = acc + Int64.ofInt (values.map Int64.toInt).sum := by
    intro values
    induction values with
    | nil =>
        intro acc
        exact (Int64.add_zero acc).symm
    | cons value values ih =>
        intro acc
        rw [List.foldl_cons, ih, List.map_cons, List.sum_cons, Int64.ofInt_add, Int64.ofInt_toInt,
          Int64.add_assoc]
  rw [hfrom, Int64.zero_add]

theorem tempSum_eq (acc : M256i) : tempSum acc = joinLanes (· + ·) acc := by
  unfold tempSum M256i.storeuSi256 joinLanes
  simp only [List.foldl_cons, List.foldl_nil, Int64.zero_add]

theorem sumIntegersAvx2_eq (values : List Int64) :
    sumIntegersAvx2 values = some (values.foldl (· + ·) 0) := by
  refine reduceLoop_eq _ (fun _ _ => rfl) tempSum_eq ?_
  rintro pre post acc rfl
  rw [foldRest_append, tempSum_eq]
  simp only [Option.bind_eq_bind, Option.bind_some]
  rw [← @foldl_op (· + ·) _, Int64.add_zero]

/-! ## Minimum and maximum -/

theorem blend_zip (acc v : M256i) (test : Int64 → Int64 → Bool) :
    mm256BlendvEpi8 acc v (M256i.zip (fun x y => laneFlag (test x y)) acc v) =
      M256i.zip (fun x y => if test x y then y else x) acc v := by
  simp only [mm256BlendvEpi8, M256i.zip, blendLane_flag]

theorem blend_min (acc v : M256i) :
    mm256BlendvEpi8 acc v (mm256CmpgtEpi64 acc v) = M256i.zip min acc v := by
  have hmin : ∀ x y : Int64, (if decide (x > y) = true then y else x) = min x y := by
    intro x y
    rcases le_or_gt x y with hle | hlt
    · rw [min_eq_left hle, if_neg (by simpa using hle)]
    · rw [min_eq_right hlt.le, if_pos (decide_eq_true hlt)]
  rw [mm256CmpgtEpi64, blend_zip acc v fun x y => decide (x > y)]
  simp only [hmin]

theorem blend_max (acc v : M256i) :
    mm256BlendvEpi8 acc v (mm256CmpgtEpi64 v acc) = M256i.zip max acc v := by
  have hmax : ∀ x y : Int64, (if decide (y > x) = true then y else x) = max x y := by
    intro x y
    rcases le_or_gt y x with hle | hlt
    · rw [max_eq_left hle, if_neg (by simpa using hle)]
    · rw [max_eq_right hlt.le, if_pos (decide_eq_true hlt)]
  have hswap : mm256CmpgtEpi64 v acc = M256i.zip (fun x y => laneFlag (decide (y > x))) acc v := rfl
  rw [hswap, blend_zip acc v fun x y => decide (y > x)]
  simp only [hmax]

theorem foldl_min {values : List Int64} (hne : values ≠ []) :
    ∃ m ∈ values, values.foldl min Int64.maxValue = m ∧ ∀ v ∈ values, m ≤ v := by
  obtain ⟨x, xs, rfl⟩ := List.exists_cons_of_ne_nil hne
  have hmin : min Int64.maxValue x = x := min_eq_right (Int64.le_maxValue x)
  have hfold : (x :: xs).min? = some (xs.foldl min x) := List.min?_cons'
  obtain ⟨hmem, hle⟩ := List.min?_eq_some_iff.mp hfold
  exact ⟨_, hmem, by rw [List.foldl_cons, hmin], hle⟩

theorem foldl_max {values : List Int64} (hne : values ≠ []) :
    ∃ m ∈ values, values.foldl max Int64.minValue = m ∧ ∀ v ∈ values, v ≤ m := by
  obtain ⟨x, xs, rfl⟩ := List.exists_cons_of_ne_nil hne
  have hmax : max Int64.minValue x = x := max_eq_right (Int64.minValue_le x)
  have hfold : (x :: xs).max? = some (xs.foldl max x) := List.max?_cons'
  obtain ⟨hmem, hle⟩ := List.max?_eq_some_iff.mp hfold
  exact ⟨_, hmem, by rw [List.foldl_cons, hmax], hle⟩

theorem minIntegersAvx2_eq {values : List Int64} (hne : values ≠ []) :
    minIntegersAvx2 values = some (values.foldl min Int64.maxValue) := by
  rw [minIntegersAvx2, if_neg (by simpa using hne)]
  refine reduceLoop_eq _ blend_min (fun _ => rfl) ?_
  rintro pre post acc rfl
  exact foldRest_append pre post _

theorem maxIntegersAvx2_eq {values : List Int64} (hne : values ≠ []) :
    maxIntegersAvx2 values = some (values.foldl max Int64.minValue) := by
  rw [maxIntegersAvx2, if_neg (by simpa using hne)]
  refine reduceLoop_eq _ blend_max (fun _ => rfl) ?_
  rintro pre post acc rfl
  exact foldRest_append pre post _

end VectorizedAggregation

/-! ## The kernels are their scalar forms -/

section Scalar

variable {values : List Int64} {result : List Bool}

/-- The scalar loop writes the test of every element as well. -/
theorem zipIdx_foldlM (test : Int64 → Bool) (pre post : List Int64) (old : List Bool)
    (hlen : old.length = post.length) :
    (post.zipIdx pre.length).foldlM (fun result v => store result v.2 (test v.1))
      (pre.map test ++ old) = some ((pre ++ post).map test) := by
  induction post generalizing pre old with
  | nil =>
      rw [List.length_eq_zero_iff.mp hlen]
      simp
  | cons value post ih =>
      obtain ⟨x, old, rfl⟩ := List.exists_cons_of_length_eq_add_one hlen
      have hstore := store_append (pre.map test) x (test value) old
      rw [List.length_map] at hstore
      have hnext := ih (pre ++ [value]) old (by simpa using hlen)
      rw [List.zipIdx_cons, List.foldlM_cons]
      simp only [hstore, Option.bind_eq_bind, Option.bind_some]
      simpa using hnext

theorem filterIntegersGreaterThanAvx2_eq (threshold : Int64)
    (hlen : result.length = values.length) :
    VectorizedFilter.filterIntegersGreaterThanAvx2 values threshold result =
      some (values.map fun value => decide (value > threshold)) :=
  VectorizedFilter.filterLoop_eq (fun _ => rfl) hlen

theorem filterIntegersEqualAvx2_eq (target : Int64) (hlen : result.length = values.length) :
    VectorizedFilter.filterIntegersEqualAvx2 values target result =
      some (values.map fun value => decide (value = target)) :=
  VectorizedFilter.filterLoop_eq (fun _ => rfl) hlen

/-- With and without AVX2 a filter answers the same. -/
theorem filterIntegersGreaterThan_eq (avx2 : Bool) (values : List Int64) (threshold : Int64) :
    VectorizedFilter.filterIntegersGreaterThan avx2 values threshold =
      some (values.map fun value => decide (value > threshold)) := by
  cases avx2 with
  | true => exact filterIntegersGreaterThanAvx2_eq threshold List.length_replicate
  | false =>
      exact zipIdx_foldlM (fun value => decide (value > threshold)) [] values _
        List.length_replicate

theorem filterIntegersEqual_eq (avx2 : Bool) (values : List Int64) (target : Int64) :
    VectorizedFilter.filterIntegersEqual avx2 values target =
      some (values.map fun value => decide (value = target)) := by
  cases avx2 with
  | true => exact filterIntegersEqualAvx2_eq target List.length_replicate
  | false =>
      exact zipIdx_foldlM (fun value => decide (value = target)) [] values _
        List.length_replicate

/-- Every kernel answers what the scalar code answers, for slices of any length. -/
theorem kernels_scalar :
    (∀ values threshold result, result.length = values.length →
      VectorizedFilter.filterIntegersGreaterThanAvx2 values threshold result =
          some (values.map fun value => decide (value > threshold)) ∧
        VectorizedFilter.filterIntegersGreaterThanScalar values threshold result =
          some (values.map fun value => decide (value > threshold))) ∧
    (∀ values target result, result.length = values.length →
      VectorizedFilter.filterIntegersEqualAvx2 values target result =
        some (values.map fun value => decide (value = target))) ∧
    (∀ values, VectorizedAggregation.sumIntegersAvx2 values =
      some (Int64.ofInt (values.map Int64.toInt).sum)) ∧
    ∀ values, values ≠ [] →
      (∃ m ∈ values, VectorizedAggregation.minIntegersAvx2 values = some m ∧ ∀ v ∈ values, m ≤ v) ∧
      ∃ m ∈ values, VectorizedAggregation.maxIntegersAvx2 values = some m ∧ ∀ v ∈ values, v ≤ m := by
  refine ⟨fun values threshold result hlen => ⟨?_, ?_⟩, fun values target result hlen => ?_,
    fun values => ?_, fun values hne => ⟨?_, ?_⟩⟩
  · exact filterIntegersGreaterThanAvx2_eq threshold hlen
  · exact zipIdx_foldlM (fun value => decide (value > threshold)) [] values result hlen
  · exact filterIntegersEqualAvx2_eq target hlen
  · rw [VectorizedAggregation.sumIntegersAvx2_eq, VectorizedAggregation.foldl_add]
  · obtain ⟨m, hmem, hfold, hle⟩ := VectorizedAggregation.foldl_min hne
    exact ⟨m, hmem, by rw [VectorizedAggregation.minIntegersAvx2_eq hne, hfold], hle⟩
  · obtain ⟨m, hmem, hfold, hle⟩ := VectorizedAggregation.foldl_max hne
    exact ⟨m, hmem, by rw [VectorizedAggregation.maxIntegersAvx2_eq hne, hfold], hle⟩

/-- A block and a remainder of one. -/
theorem kernels_scalar_block :
    VectorizedFilter.filterIntegersGreaterThanAvx2 [1, 5, 3, 8, 2] 2 (List.replicate 5 false) =
      some [false, true, true, true, false] :=
  (kernels_scalar.1 [1, 5, 3, 8, 2] 2 _ rfl).1.trans (by decide)

end Scalar

end VelociDB
