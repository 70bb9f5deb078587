import Hustle.Operators.ProbeFilters
import Hustle.Operators.SelectBuildHash
import Hustle.Storage.BlockMemory
import Mathlib.Data.Int.Range
import Mathlib.Data.Rat.Floor

/-!
This module contains the loops that hand out the blocks of a table or the chunks of a column in batches: `ForEachBatch`,
`ComputeBatchConfig` with the probe loop of `HashJoin`, the probes of `MultiwayJoin` and `LIP`, and
`apply_filter_internal`. Every loop is the list of its batches, and a batch the list of the indices it goes through.
All functions return `none` where the C++ code divides by zero or a signed number overflows.
-/

namespace Hustle.Operators.BatchLoops

open Storage (castInt castInt_of_le checkInt checkInt_eq_some checkInt_le)

/-! The arithmetic of the loops. -/

/--
The value that a `size_t` gets from another integer.
-/
def sizeT (n : Int) : Nat :=
  (n % 2 ^ 64).toNat

def divSize (a b : Nat) : Option Nat :=
  if b = 0 then none else some (a / b)

def divInt (a b : Int) : Option Int :=
  if b = 0 then none else checkInt (a.tdiv b)

/--
The value that an `int` gets from a `double`: its integral part, which must be an `int`.
-/
def truncInt (x : ℚ) : Option Int :=
  checkInt (x.num.tdiv x.den)

/--
What the results of `double` operations are rounded to.
-/
structure Rounding where
  round : ℚ → ℚ
  monotone : Monotone round
  zero : round 0 = 0

/--
`num_parallel`, the number of threads times the parallel factor.
-/
def numParallel (r : Rounding) (hardwareConcurrency : Nat) (parallelFactor : ℚ) : ℚ :=
  r.round (hardwareConcurrency * parallelFactor)

/--
`num_chunks / num_parallel` as an `int`. The quotient by zero is no number that an `int` can get.
-/
def divParallel (r : Rounding) (numChunks : Int) (numParallel : ℚ) : Option Int :=
  if numParallel = 0 then none else truncInt (r.round (numChunks / numParallel))

/-! `ForEachBatch` -/

def forEachBatch (hardwareConcurrency numBlocks : Nat) : Option (List (Nat × Nat)) := do
  let quotient ← divSize numBlocks hardwareConcurrency
  let batchSize := if quotient = 0 then numBlocks else quotient
  let last ← divSize (sizeT (numBlocks - 1)) batchSize
  let numBatches := sizeT (1 + last)
  return (List.range numBatches).map fun batchIndex => (batchIndex, batchSize)

/--
The functor of `Select` and `SelectBuildHash`.
-/
def batchBlocks (numBlocks : Nat) (batch : Nat × Nat) : List Int :=
  let (batchIndex, batchSize) := batch
  let baseIndex := sizeT (batchIndex * batchSize)
  let batchLimit := min (sizeT (baseIndex + batchSize)) numBlocks
  Int.range baseIndex batchLimit

def selectBatches (hardwareConcurrency numBlocks : Nat) : Option (List (List Int)) := do
  let calls ← forEachBatch hardwareConcurrency numBlocks
  return calls.map (batchBlocks numBlocks)

/-! `HashJoin` and `MultiwayJoin` -/

/--
`num_chunks / batch_size + 1`
-/
def numBatches (numChunks batchSize : Int) : Option Int := do
  let quotient ← divInt numChunks batchSize
  checkInt (quotient + 1)

def computeBatchConfig (r : Rounding) (numChunks : Int) (numParallel : ℚ) : Option (Int × Int) := do
  let quotient ← divParallel r numChunks numParallel
  let batchSize := if quotient = 0 then numChunks else quotient
  let count ← numBatches numChunks batchSize
  return (batchSize, count)

/--
The loop of `ProbeHashTableBlock`, which counts with a `size_t`.
-/
def probeChunks (numChunks batchSize : Int) (batchIdx : Nat) : Option (List Int) := do
  let baseIdx ← checkInt (batchIdx * batchSize)
  let limit ← checkInt (baseIdx + batchSize)
  return Int.range (sizeT baseIdx) (min (sizeT limit) (sizeT numChunks))

def hashJoinBatches (r : Rounding) (hardwareConcurrency : Nat) (parallelFactor : ℚ) (numChunks : Int)
    : Option (List (List Int)) := do
  let (batchSize, count) ← computeBatchConfig r numChunks (numParallel r hardwareConcurrency parallelFactor)
  (List.range (sizeT count)).mapM (probeChunks numChunks batchSize)

/--
The offset of the first chunk is written before there is any batch.
-/
def multiwayJoinBatches (r : Rounding) (hardwareConcurrency : Nat) (parallelFactor : ℚ) (numChunks : Int)
    : Option (List (List Int)) :=
  if numChunks = 0 then
    none
  else do
    let quotient ← divParallel r numChunks (numParallel r hardwareConcurrency parallelFactor)
    let batchSize := if quotient = 0 then numChunks else quotient
    let count ← numBatches numChunks batchSize
    let count := if count = 0 then 1 else count
    (List.range (sizeT count)).mapM (probeChunks numChunks batchSize)

/-! `LIP` -/

/--
The loop of `probe_filters`, which includes the last chunk.
-/
def chunksBetween (chunkStart chunkEnd : Int) : List Int :=
  Int.range chunkStart (chunkEnd + 1)

def lipChunks (numChunks batchSize : Int) (batchI : Nat) : Option (List Int) := do
  let baseI ← checkInt (batchI * batchSize)
  let limit ← checkInt (baseI + batchSize)
  let last ← checkInt (limit - 1)
  if last < numChunks then
    return chunksBetween baseI last
  else
    return chunksBetween baseI (numChunks - 1)

/--
A negative number of batches, which comes from a negative batch size, means that there is none.
-/
def lipBatches (hardwareConcurrency : Nat) (numChunks : Int) : Option (List (List Int)) := do
  let threads := castInt hardwareConcurrency
  let batchSize := if threads = 0 then numChunks else threads
  let count ← numBatches numChunks batchSize
  let count := if count = 0 then 1 else count
  (List.range count.toNat).mapM (lipChunks numChunks batchSize)

/-! `apply_filter_internal` -/

def filterChunks (numChunks batchSize : Int) (batchI : Nat) : Option (List Int) := do
  let baseI ← checkInt (batchI * batchSize)
  let limit ← checkInt (baseI + batchSize)
  return Int.range baseI (min limit numChunks)

/--
The number of chunks is divided as an `unsigned`.
-/
def applyFilterBatches (hardwareConcurrency numChunks : Nat) : Option (List (List Int)) := do
  let perThread ← divSize numChunks hardwareConcurrency
  let quotient : Nat := perThread / 20
  let batchSize : Int := if quotient = 0 then numChunks else quotient
  let count ← numBatches numChunks batchSize
  let count := if count = 0 then 1 else count
  (List.range count.toNat).mapM (filterChunks numChunks batchSize)

/-! What the loops are for. -/

/--
The batches have every index below `n` once and no other one.
-/
def CoversOnce (batches : Option (List (List Int))) (n : Nat) : Prop :=
  ∃ bs, batches = some bs ∧ bs.flatten.Perm ((List.range n).map Int.ofNat)

/--
The numbers that the loops start from. The blocks have `int`s as their numbers and an `int` counts the chunks.
-/
structure Setting where
  numBlocks : Nat
  numChunks : Nat
  hardwareConcurrency : Nat
  parallelFactor : ℚ
  numBlocks_le : numBlocks ≤ 2 ^ 32
  numChunks_le : (numChunks : Int) ≤ Storage.maxInt
  concurrency_pos : 1 ≤ hardwareConcurrency
  concurrency_lt : hardwareConcurrency < 2 ^ 32
  factor_pos : 0 < parallelFactor

structure Setting.CoversOnce (s : Setting) (r : Rounding) : Prop where
  select : BatchLoops.CoversOnce (selectBatches s.hardwareConcurrency s.numBlocks) s.numBlocks
  hashJoin : BatchLoops.CoversOnce (hashJoinBatches r s.hardwareConcurrency s.parallelFactor s.numChunks) s.numChunks
  multiwayJoin :
    BatchLoops.CoversOnce (multiwayJoinBatches r s.hardwareConcurrency s.parallelFactor s.numChunks) s.numChunks
  lip : BatchLoops.CoversOnce (lipBatches s.hardwareConcurrency s.numChunks) s.numChunks
  applyFilter : BatchLoops.CoversOnce (applyFilterBatches s.hardwareConcurrency s.numChunks) s.numChunks

/--
The batch size if the quotient is not zero, and else all chunks.
-/
def orAll (n quotient : Nat) : Nat :=
  if quotient = 0 then n else quotient

/--
The first multiple of `width` above `n` is an `int`.
-/
def NextMultipleFits (n width : Nat) : Prop :=
  ((n / width + 1) * width : Nat) ≤ Storage.maxInt

namespace Setting

variable (s : Setting) (r : Rounding)

/--
The chunks for one of the threads times the parallel factor.
-/
def quotient : Nat :=
  ⌊r.round (s.numChunks / numParallel r s.hardwareConcurrency s.parallelFactor)⌋.toNat

end Setting

/-! Every loop over chunks has the batches of one width. -/

section

variable {n w k : Nat}

theorem range_natCast (a b : Nat) : Int.range a b = (List.range' a (b - a)).map Int.ofNat := by
  have hlen : ((b : Int) - a).toNat = b - a := by omega
  rw [Int.range, hlen, List.range'_eq_map_range, List.map_map]
  apply List.map_congr_left
  intro i _
  simp

theorem orAll_pos (hn : 0 < n) (quotient : Nat) : 0 < orAll n quotient := by
  unfold orAll
  split
  . exact hn
  . next hne => exact Nat.pos_of_ne_zero hne

theorem orAll_natCast (n quotient : Nat)
    : (if (quotient : Int) = 0 then (n : Int) else quotient) = (orAll n quotient : Nat) := by
  unfold orAll
  split
  . next h => rw [if_pos (by exact_mod_cast h)]
  . next h => rw [if_neg (by exact_mod_cast h)]

theorem NextMultipleFits.mul_le (h : NextMultipleFits n w) (hk : k ≤ n / w)
    : ((k * w + w : Nat) : Int) ≤ Storage.maxInt := by
  have hmul : (k + 1) * w ≤ (n / w + 1) * w := Nat.mul_le_mul_right w (Nat.add_le_add_right hk 1)
  rw [Nat.add_mul, Nat.one_mul] at hmul
  exact Int.le_trans (by exact_mod_cast hmul) h

theorem NextMultipleFits.count_le (h : NextMultipleFits n w) (hw : 0 < w) : ((n / w + 1 : Nat) : Int) ≤ Storage.maxInt := by
  have hmul : n / w + 1 ≤ (n / w + 1) * w := Nat.le_mul_of_pos_right _ hw
  exact Int.le_trans (by exact_mod_cast hmul) h

theorem nextMultipleFits_of_le (h : ((n / w * w + w : Nat) : Int) ≤ Storage.maxInt) : NextMultipleFits n w := by
  rw [NextMultipleFits, Nat.add_mul, Nat.one_mul]
  exact h

/--
`chunks` goes through the batches of width `w` up to the one that has, or would have, the chunk `n`. Its `int`s are
those of the numbers up to the end of this batch.
-/
structure IsBatchLoop (chunks : Nat → Option (List Int)) (n w : Nat) : Prop where
  eq_some : NextMultipleFits n w → ∀ k ≤ n / w, chunks k = some ((Batches.batch w n k).map Int.ofNat)
  fits : ∀ is, chunks (n / w) = some is → NextMultipleFits n w

theorem numBatches_eq (hn : (n : Int) ≤ Storage.maxInt) (hw : 0 < w) : numBatches n w = checkInt (n / w + 1 : Nat) := by
  have hdiv : divInt n w = some ((n / w : Nat) : Int) := by
    rw [divInt, if_neg (by omega), ← Int.ofNat_tdiv]
    apply checkInt_eq_some
    exact Int.le_trans (by exact_mod_cast Nat.div_le_self n w) hn
  rw [numBatches, hdiv, Option.bind_eq_bind, Option.bind_some]
  rfl

theorem IsBatchLoop.run_eq_some {chunks : Nat → Option (List Int)} (h : IsBatchLoop chunks n w)
    (hn : (n : Int) ≤ Storage.maxInt) (hw : 0 < w) (hfits : NextMultipleFits n w) {count : Int → Nat}
    (hcount : ∀ m : Nat, 0 < m → (m : Int) ≤ Storage.maxInt → count m = m)
    : (do let m ← numBatches n w; (List.range (count m)).mapM chunks)
        =
      some ((List.range (n / w + 1)).map fun k => (Batches.batch w n k).map Int.ofNat) := by
  have hle := hfits.count_le hw
  rw [numBatches_eq hn hw, checkInt_eq_some hle, Option.bind_eq_bind, Option.bind_some, hcount _ (Nat.succ_pos _) hle]
  apply Run.mapM_eq_some
  intro k hk
  exact h.eq_some hfits k (Nat.lt_succ_iff.mp (List.mem_range.mp hk))

theorem IsBatchLoop.covers_iff {chunks : Nat → Option (List Int)} (h : IsBatchLoop chunks n w)
    (hn : (n : Int) ≤ Storage.maxInt) (hw : 0 < w) {count : Int → Nat}
    (hcount : ∀ m : Nat, 0 < m → (m : Int) ≤ Storage.maxInt → count m = m)
    : CoversOnce (do let m ← numBatches n w; (List.range (count m)).mapM chunks) n ↔ NextMultipleFits n w := by
  constructor
  . rintro ⟨bs, hbs, -⟩
    rw [numBatches_eq hn hw] at hbs
    obtain ⟨m, hm, hmap⟩ := Option.bind_eq_some_iff.mp hbs
    have hle := checkInt_le hm
    rw [checkInt_eq_some hle] at hm
    cases hm
    rw [hcount _ (Nat.succ_pos _) hle] at hmap
    obtain ⟨is, his, -⟩ := @Run.getElem?_mapM _ _ _ _ _ hmap (n / w) (n / w) (by simp)
    exact h.fits is his
  . intro hfits
    refine ⟨_, h.run_eq_some hn hw hfits hcount, ?_⟩
    rw [← List.flatMap_def, ← List.map_flatMap, Batches.flatMap_batch_eq (Batches.le_div_succ hw n)]

theorem batchChunks_eq (hw : 0 < w) : batchChunks w n k = Batches.batch w n k := by
  rw [batchChunks, Batches.batch]
  split
  . next hlt =>
    have hlen : min (k * w + w) n - k * w = w := by omega
    rw [hlen]
  . next hge =>
    have hlen : min (k * w + w) n - k * w = n - k * w := by omega
    rw [hlen]

theorem sizeT_natCast {m : Nat} (h : m < 2 ^ 64) : sizeT m = m := by
  rw [sizeT]
  omega

theorem lt_of_le_maxInt {m : Nat} (h : (m : Int) ≤ Storage.maxInt) : m < 2 ^ 64 := by
  unfold Storage.maxInt at h
  omega

theorem eq_of_checkInt {m i : Int} (h : checkInt m = some i) : i = m := by
  unfold checkInt at h
  split at h
  . exact (Option.some.inj h).symm
  . cases h

/--
The first `int`s of every loop: the base index and the sum of it and the batch size.
-/
theorem bounds_eq_some (h : NextMultipleFits n w) (hk : k ≤ n / w)
    : checkInt (k * w) = some ((k * w : Nat) : Int) ∧
      checkInt ((k * w : Nat) + w) = some ((k * w + w : Nat) : Int) := by
  have hle := h.mul_le hk
  constructor
  . rw [← Int.natCast_mul]
    apply checkInt_eq_some
    omega
  . rw [← Int.natCast_add]
    exact checkInt_eq_some hle

theorem fits_of_bounds {base limit : Int} (hbase : checkInt ((n / w : Nat) * w) = some base)
    (hlimit : checkInt (base + w) = some limit) : NextMultipleFits n w := by
  have hle := checkInt_le hlimit
  rw [eq_of_checkInt hbase] at hle
  apply nextMultipleFits_of_le
  exact_mod_cast hle

/-! The five loops. -/

theorem probeChunks_isBatchLoop (hn : (n : Int) ≤ Storage.maxInt) : IsBatchLoop (probeChunks n w) n w where
  eq_some := by
    intro h k hk
    obtain ⟨hbase, hlimit⟩ := bounds_eq_some h hk
    have hlt := lt_of_le_maxInt (h.mul_le hk)
    have hbaseT := @sizeT_natCast (k * w) (by omega)
    rw [probeChunks, hbase, Option.bind_eq_bind, Option.bind_some, hlimit, Option.bind_some, hbaseT,
      sizeT_natCast hlt, sizeT_natCast (lt_of_le_maxInt hn), ← Nat.cast_min, range_natCast]
    rfl
  fits := by
    intro is his
    obtain ⟨base, hbase, his⟩ := Option.bind_eq_some_iff.mp his
    obtain ⟨limit, hlimit, -⟩ := Option.bind_eq_some_iff.mp his
    exact fits_of_bounds hbase hlimit

theorem filterChunks_isBatchLoop : IsBatchLoop (filterChunks n w) n w where
  eq_some := by
    intro h k hk
    obtain ⟨hbase, hlimit⟩ := bounds_eq_some h hk
    rw [filterChunks, hbase, Option.bind_eq_bind, Option.bind_some, hlimit, Option.bind_some, ← Nat.cast_min,
      range_natCast]
    rfl
  fits := by
    intro is his
    obtain ⟨base, hbase, his⟩ := Option.bind_eq_some_iff.mp his
    obtain ⟨limit, hlimit, -⟩ := Option.bind_eq_some_iff.mp his
    exact fits_of_bounds hbase hlimit

theorem lipChunks_isBatchLoop (hw : 0 < w) : IsBatchLoop (lipChunks n w) n w where
  eq_some := by
    intro h k hk
    obtain ⟨hbase, hlimit⟩ := bounds_eq_some h hk
    have hlast : checkInt ((k * w + w : Nat) - 1) = some ((k * w + w - 1 : Nat) : Int) := by
      rw [← Int.natCast_pred_of_pos (by omega)]
      apply checkInt_eq_some
      have hle := h.mul_le hk
      omega
    rw [lipChunks, hbase, Option.bind_eq_bind, Option.bind_some, hlimit, Option.bind_some, hlast, Option.bind_some]
    split
    . next hlt =>
      have hnext : ((k * w + w - 1 : Nat) : Int) + 1 = (min (k * w + w) n : Nat) := by omega
      rw [chunksBetween, hnext, range_natCast]
      rfl
    . next hge =>
      have hnext : (n : Int) - 1 + 1 = (min (k * w + w) n : Nat) := by omega
      rw [chunksBetween, hnext, range_natCast]
      rfl
  fits := by
    intro is his
    obtain ⟨base, hbase, his⟩ := Option.bind_eq_some_iff.mp his
    obtain ⟨limit, hlimit, -⟩ := Option.bind_eq_some_iff.mp his
    exact fits_of_bounds hbase hlimit

theorem count_eq {count : Int → Nat} (hcount : ∀ m : Nat, (m : Int) ≤ Storage.maxInt → count m = m) (m : Nat) (hm : 0 < m)
    (hle : (m : Int) ≤ Storage.maxInt) : count (if (m : Int) = 0 then 1 else m) = m := by
  rw [if_neg (by omega)]
  exact hcount m hle

theorem truncInt_of_nonneg {x : ℚ} (hx : 0 ≤ x) : truncInt x = checkInt ⌊x⌋ := by
  rw [truncInt, Rat.floor_def', Int.tdiv_eq_ediv_of_nonneg (Rat.num_nonneg.mpr hx)]

theorem NextMultipleFits.width_le (h : NextMultipleFits n w) : (w : Int) ≤ Storage.maxInt := by
  have hle := h.mul_le (Nat.zero_le _)
  rw [Nat.zero_mul, Nat.zero_add] at hle
  exact hle

theorem not_coversOnce_none : ¬ CoversOnce none n := by
  rintro ⟨bs, hbs, -⟩
  cases hbs

theorem numBatches_le {m batchSize : Int} (hneg : batchSize < 0) (h : numBatches n batchSize = some m) : m ≤ 1 := by
  obtain ⟨quotient, hquotient, hm⟩ := Option.bind_eq_some_iff.mp h
  have hle : (n : Int).tdiv batchSize ≤ 0 := Int.tdiv_nonpos_of_nonneg_of_nonpos (Int.natCast_nonneg n) hneg.le
  rw [divInt, if_neg hneg.ne] at hquotient
  rw [eq_of_checkInt hm, eq_of_checkInt hquotient]
  omega

theorem lipChunks_zero {batchSize : Int} {is : List Int} (hneg : batchSize < 0)
    (h : lipChunks n batchSize 0 = some is) : is = [] := by
  obtain ⟨base, hbase, h⟩ := Option.bind_eq_some_iff.mp h
  obtain ⟨limit, hlimit, h⟩ := Option.bind_eq_some_iff.mp h
  obtain ⟨last, hlast, h⟩ := Option.bind_eq_some_iff.mp h
  have hbase := eq_of_checkInt hbase
  have hlimit := eq_of_checkInt hlimit
  have hlast := eq_of_checkInt hlast
  rw [Nat.cast_zero, Int.zero_mul] at hbase
  rw [if_pos (by omega)] at h
  cases h
  have hempty : (last + 1 - base).toNat = 0 := by omega
  rw [chunksBetween, Int.range, hempty]
  rfl

end

theorem forEachBatch_zero (hardwareConcurrency : Nat) : forEachBatch hardwareConcurrency 0 = none := by
  cases hardwareConcurrency with
  | zero => rfl
  | succ t => simp [forEachBatch, divSize]

namespace Setting

variable (s : Setting) (r : Rounding)

theorem forEachBatch_eq (hpos : 0 < s.numBlocks)
    : forEachBatch s.hardwareConcurrency s.numBlocks
        =
      some ((List.range (1 + (s.numBlocks - 1) / SelectBuildHash.batchSize s.hardwareConcurrency s.numBlocks)).map
        fun batchIndex => (batchIndex, SelectBuildHash.batchSize s.hardwareConcurrency s.numBlocks)) := by
  have hconcurrency := s.concurrency_pos
  have hblocks := s.numBlocks_le
  have hsize := SelectBuildHash.batchSize_pos hpos s.hardwareConcurrency
  have hdiv : divSize s.numBlocks s.hardwareConcurrency = some (s.numBlocks / s.hardwareConcurrency) :=
    if_neg (by omega)
  have hpred : sizeT (s.numBlocks - 1) = s.numBlocks - 1 := by
    rw [← Int.natCast_pred_of_pos hpos]
    exact sizeT_natCast (by omega)
  have hlast : divSize (s.numBlocks - 1) (SelectBuildHash.batchSize s.hardwareConcurrency s.numBlocks)
      = some ((s.numBlocks - 1) / SelectBuildHash.batchSize s.hardwareConcurrency s.numBlocks) :=
    if_neg (by omega)
  have hle := Nat.div_le_self (s.numBlocks - 1) (SelectBuildHash.batchSize s.hardwareConcurrency s.numBlocks)
  have hcount := @sizeT_natCast (1 + (s.numBlocks - 1) / SelectBuildHash.batchSize s.hardwareConcurrency s.numBlocks)
    (by omega)
  rw [Int.natCast_add, Nat.cast_one] at hcount
  rw [forEachBatch, hdiv, Option.bind_eq_bind, Option.bind_some]
  change ((divSize _ (SelectBuildHash.batchSize _ _)).bind _) = _
  rw [hpred, hlast, Option.bind_some, hcount]
  rfl

theorem batchBlocks_eq {k : Nat}
    (hk : k < 1 + (s.numBlocks - 1) / SelectBuildHash.batchSize s.hardwareConcurrency s.numBlocks)
    : batchBlocks s.numBlocks (k, SelectBuildHash.batchSize s.hardwareConcurrency s.numBlocks)
        =
      (SelectBuildHash.batchBlocks (SelectBuildHash.batchSize s.hardwareConcurrency s.numBlocks) s.numBlocks k).map
        Int.ofNat := by
  have hblocks := s.numBlocks_le
  have hsize : SelectBuildHash.batchSize s.hardwareConcurrency s.numBlocks ≤ s.numBlocks := by
    unfold SelectBuildHash.batchSize
    split
    . exact Nat.le_refl _
    . exact Nat.div_le_self _ _
  generalize SelectBuildHash.batchSize s.hardwareConcurrency s.numBlocks = size at hk hsize ⊢
  have hbase : k * size ≤ s.numBlocks - 1 := by
    apply Nat.le_trans (Nat.mul_le_mul_right _ (show k ≤ (s.numBlocks - 1) / size by omega))
    exact Nat.div_mul_le_self _ _
  have hbaseT := @sizeT_natCast (k * size) (by omega)
  have hlimitT := @sizeT_natCast (k * size + size) (by omega)
  rw [batchBlocks]
  simp only [← Int.natCast_mul, hbaseT, ← Int.natCast_add, hlimitT, range_natCast]
  rfl

/--
With a block the batches are those that `SelectBuildHash` is modelled with.
-/
theorem selectBatches_eq (hpos : 0 < s.numBlocks)
    : selectBatches s.hardwareConcurrency s.numBlocks
        =
      some ((SelectBuildHash.batches s.hardwareConcurrency s.numBlocks).map (List.map Int.ofNat)) := by
  rw [selectBatches, s.forEachBatch_eq hpos, Option.bind_eq_bind, Option.bind_some, SelectBuildHash.batches,
    List.map_map, List.map_map]
  apply congrArg some
  apply List.map_congr_left
  intro k hk
  exact s.batchBlocks_eq (List.mem_range.mp hk)

theorem select_coversOnce_iff
    : BatchLoops.CoversOnce (selectBatches s.hardwareConcurrency s.numBlocks) s.numBlocks ↔ 0 < s.numBlocks := by
  constructor
  . intro h
    apply Nat.pos_of_ne_zero
    intro hzero
    rw [hzero, selectBatches, forEachBatch_zero] at h
    exact not_coversOnce_none h
  . intro hpos
    refine ⟨_, s.selectBatches_eq hpos, ?_⟩
    rw [← List.map_flatten, SelectBuildHash.flatten_batches hpos]

theorem divParallel_eq
    : divParallel r s.numChunks (numParallel r s.hardwareConcurrency s.parallelFactor)
        =
      if numParallel r s.hardwareConcurrency s.parallelFactor = 0 then none else checkInt (s.quotient r) := by
  have hparallel : 0 ≤ numParallel r s.hardwareConcurrency s.parallelFactor := by
    rw [← r.zero, numParallel]
    apply r.monotone
    have := s.factor_pos
    positivity
  have hquotient : 0 ≤ r.round (s.numChunks / numParallel r s.hardwareConcurrency s.parallelFactor) := by
    rw [← r.zero]
    apply r.monotone
    positivity
  have hfloor := Int.toNat_of_nonneg (Int.floor_nonneg.mpr hquotient)
  rw [divParallel, quotient, hfloor, ← truncInt_of_nonneg hquotient]
  rfl

/--
`HashJoin` and `MultiwayJoin` go through their chunks in the same way.
-/
theorem probe_coversOnce_iff (hpos : 0 < s.numChunks) {count : Int → Nat}
    (hcount : ∀ m : Nat, 0 < m → (m : Int) ≤ Storage.maxInt → count m = m)
    : BatchLoops.CoversOnce (do
        let quotient ← divParallel r s.numChunks (numParallel r s.hardwareConcurrency s.parallelFactor)
        let batchSize : Int := if quotient = 0 then s.numChunks else quotient
        let m ← numBatches s.numChunks batchSize
        (List.range (count m)).mapM (probeChunks s.numChunks batchSize)) s.numChunks
        ↔
      numParallel r s.hardwareConcurrency s.parallelFactor ≠ 0 ∧
        NextMultipleFits s.numChunks (orAll s.numChunks (s.quotient r)) := by
  have hloop := (probeChunks_isBatchLoop s.numChunks_le).covers_iff s.numChunks_le
    (orAll_pos hpos (s.quotient r)) hcount
  rw [divParallel_eq]
  split
  . next hzero =>
    constructor
    . intro h
      exact absurd h not_coversOnce_none
    . rintro ⟨hne, -⟩
      exact absurd hzero hne
  . next hne =>
    by_cases hint : (s.quotient r : Int) ≤ Storage.maxInt
    . rw [checkInt_eq_some hint, Option.bind_eq_bind, Option.bind_some]
      simp only [orAll_natCast]
      rw [and_iff_right hne]
      exact hloop
    . constructor
      . rintro ⟨bs, hbs, -⟩
        obtain ⟨m, hm, -⟩ := Option.bind_eq_some_iff.mp hbs
        exact absurd (checkInt_le hm) hint
      . rintro ⟨-, hfits⟩
        have hwidth := hfits.width_le
        have hquotient : s.quotient r ≠ 0 := by
          intro hzero
          rw [hzero] at hint
          exact hint (by decide)
        rw [orAll, if_neg hquotient] at hwidth
        exact absurd hwidth hint

theorem hashJoin_coversOnce_iff (hpos : 0 < s.numChunks)
    : BatchLoops.CoversOnce (hashJoinBatches r s.hardwareConcurrency s.parallelFactor s.numChunks) s.numChunks ↔
      numParallel r s.hardwareConcurrency s.parallelFactor ≠ 0 ∧
        NextMultipleFits s.numChunks (orAll s.numChunks (s.quotient r)) := by
  rw [← s.probe_coversOnce_iff r hpos fun m _ hle => sizeT_natCast (lt_of_le_maxInt hle)]
  simp only [hashJoinBatches, computeBatchConfig, Option.bind_eq_bind, Option.bind_assoc, Option.pure_def,
    Option.bind_some]

theorem multiwayJoin_coversOnce_iff (hpos : 0 < s.numChunks)
    : BatchLoops.CoversOnce (multiwayJoinBatches r s.hardwareConcurrency s.parallelFactor s.numChunks) s.numChunks ↔
      numParallel r s.hardwareConcurrency s.parallelFactor ≠ 0 ∧
        NextMultipleFits s.numChunks (orAll s.numChunks (s.quotient r)) := by
  rw [← @probe_coversOnce_iff s r hpos (fun m => sizeT (if m = 0 then 1 else m))
    (count_eq fun m hle => sizeT_natCast (lt_of_le_maxInt hle)), multiwayJoinBatches, if_neg (by omega)]

theorem applyFilter_coversOnce_iff (hpos : 0 < s.numChunks)
    : BatchLoops.CoversOnce (applyFilterBatches s.hardwareConcurrency s.numChunks) s.numChunks ↔
      NextMultipleFits s.numChunks (orAll s.numChunks (s.numChunks / s.hardwareConcurrency / 20)) := by
  have hconcurrency := s.concurrency_pos
  have hdiv : divSize s.numChunks s.hardwareConcurrency = some (s.numChunks / s.hardwareConcurrency) :=
    if_neg (by omega)
  have hloop := @IsBatchLoop.covers_iff _ _ _ filterChunks_isBatchLoop s.numChunks_le
    (orAll_pos hpos (s.numChunks / s.hardwareConcurrency / 20)) (fun m => (if m = 0 then 1 else m).toNat)
    (count_eq fun m _ => Int.toNat_natCast m)
  rw [← hloop, applyFilterBatches, hdiv, Option.bind_eq_bind, Option.bind_some, ← orAll_natCast]
  simp only [Nat.cast_eq_zero]

/--
A number of threads that is no `int` becomes a negative batch size.
-/
theorem lipBatches_of_lt (hint : Storage.maxInt < s.hardwareConcurrency) {bs : List (List Int)}
    (hbs : lipBatches s.hardwareConcurrency s.numChunks = some bs) : bs.flatten = [] := by
  have hconcurrency := s.concurrency_lt
  have hneg : castInt s.hardwareConcurrency < 0 := by
    have hpow : 2 ^ 32 = 4294967296 := by norm_num
    unfold Storage.maxInt at hint
    rw [castInt, hpow, Int.bmod_def]
    split
    . omega
    . omega
  rw [lipBatches, if_neg (by omega)] at hbs
  obtain ⟨m, hm, hmap⟩ := Option.bind_eq_some_iff.mp hbs
  have hcount : (if m = 0 then 1 else m).toNat ≤ 1 := by
    have hle := numBatches_le hneg hm
    split
    . exact Nat.le_refl 1
    . omega
  dsimp only at hmap
  rcases Nat.le_one_iff_eq_zero_or_eq_one.mp hcount with hzero | hone
  . rw [hzero] at hmap
    cases hmap
    rfl
  . rw [hone] at hmap
    have hsingle : List.range 1 = [0] := rfl
    rw [hsingle, List.mapM_cons, List.mapM_nil] at hmap
    obtain ⟨is, his, hrest⟩ := Option.bind_eq_some_iff.mp hmap
    have hbs : bs = [is] := (Option.some.inj hrest).symm
    rw [hbs, lipChunks_zero hneg his]
    rfl

/--
Without overflow the batches are those that `LIP` is modelled with.
-/
theorem lipBatches_eq (hfits : NextMultipleFits s.numChunks s.hardwareConcurrency)
    : lipBatches s.hardwareConcurrency s.numChunks
        =
      some ((List.range (Operators.numBatches s.hardwareConcurrency s.numChunks)).map
        fun batchI => (batchChunks s.hardwareConcurrency s.numChunks batchI).map Int.ofNat) := by
  have hpos : 0 < s.hardwareConcurrency := s.concurrency_pos
  have hrun := @IsBatchLoop.run_eq_some _ _ _ (lipChunks_isBatchLoop hpos) s.numChunks_le hpos hfits
    (fun m => (if m = 0 then 1 else m).toNat) (count_eq fun m _ => Int.toNat_natCast m)
  rw [lipBatches, castInt_of_le (Int.natCast_nonneg _) hfits.width_le, if_neg (by omega)]
  simp only [batchChunks_eq hpos]
  exact hrun

theorem lip_coversOnce_iff (hpos : 0 < s.numChunks)
    : BatchLoops.CoversOnce (lipBatches s.hardwareConcurrency s.numChunks) s.numChunks ↔
      NextMultipleFits s.numChunks s.hardwareConcurrency := by
  have hconcurrency := s.concurrency_pos
  constructor
  . rintro ⟨bs, hbs, hperm⟩
    have hint : (s.hardwareConcurrency : Int) ≤ Storage.maxInt := by
      by_contra hgt
      have hlen := hperm.length_eq
      rw [s.lipBatches_of_lt (Int.not_le.mp hgt) hbs, List.length_map, List.length_range] at hlen
      exact absurd hlen (Nat.ne_of_lt hpos)
    have hloop := @IsBatchLoop.covers_iff _ _ _ (lipChunks_isBatchLoop hconcurrency) s.numChunks_le hconcurrency
      (fun m => (if m = 0 then 1 else m).toNat) (count_eq fun m _ => Int.toNat_natCast m)
    rw [← hloop]
    refine ⟨bs, ?_, hperm⟩
    rw [← hbs, lipBatches, castInt_of_le (Int.natCast_nonneg _) hint, if_neg (by omega)]
  . intro hfits
    refine ⟨_, s.lipBatches_eq hfits, ?_⟩
    simp only [batchChunks_eq hconcurrency]
    rw [Operators.numBatches, ← List.flatMap_def, ← List.map_flatMap,
      Batches.flatMap_batch_eq (Batches.le_div_succ hconcurrency s.numChunks)]

/--
There is a block and a chunk, and no `int` overflows.
-/
structure Fits : Prop where
  blocks : 0 < s.numBlocks
  chunks : 0 < s.numChunks
  parallel : numParallel r s.hardwareConcurrency s.parallelFactor ≠ 0
  probe : NextMultipleFits s.numChunks (orAll s.numChunks (s.quotient r))
  lip : NextMultipleFits s.numChunks s.hardwareConcurrency
  filter : NextMultipleFits s.numChunks (orAll s.numChunks (s.numChunks / s.hardwareConcurrency / 20))

theorem coversOnce_iff : s.CoversOnce r ↔ s.Fits r := by
  constructor
  . intro h
    have hpos : 0 < s.numChunks := by
      apply Nat.pos_of_ne_zero
      intro hzero
      have hmultiway := h.multiwayJoin
      rw [multiwayJoinBatches, if_pos (by exact_mod_cast hzero)] at hmultiway
      exact not_coversOnce_none hmultiway
    obtain ⟨hparallel, hprobe⟩ := (s.hashJoin_coversOnce_iff r hpos).mp h.hashJoin
    exact {
      blocks := s.select_coversOnce_iff.mp h.select
      chunks := hpos
      parallel := hparallel
      probe := hprobe
      lip := (s.lip_coversOnce_iff hpos).mp h.lip
      filter := (s.applyFilter_coversOnce_iff hpos).mp h.applyFilter
    }
  . intro h
    exact {
      select := s.select_coversOnce_iff.mpr h.blocks
      hashJoin := (s.hashJoin_coversOnce_iff r h.chunks).mpr ⟨h.parallel, h.probe⟩
      multiwayJoin := (s.multiwayJoin_coversOnce_iff r h.chunks).mpr ⟨h.parallel, h.probe⟩
      lip := (s.lip_coversOnce_iff h.chunks).mpr h.lip
      applyFilter := (s.applyFilter_coversOnce_iff h.chunks).mpr h.filter
    }

end Setting

example : hashJoinBatches ⟨id, monotone_id, rfl⟩ 2 1 5 = some [[0, 1], [2, 3], [4]] := by decide +kernel

/--
An empty table without blocks, as one thread sees it.
-/
def emptyTable : Setting where
  numBlocks := 0
  numChunks := 0
  hardwareConcurrency := 1
  parallelFactor := 1
  numBlocks_le := by decide
  numChunks_le := by decide
  concurrency_pos := by decide
  concurrency_lt := by decide
  factor_pos := by decide

/--
Without rounding the loops of an empty table already divide by zero.
-/
theorem not_coversOnce : ¬ ∀ (s : Setting) (r : Rounding), s.CoversOnce r := by
  intro h
  have hselect := (h emptyTable ⟨id, monotone_id, rfl⟩).select
  have hnone : selectBatches emptyTable.hardwareConcurrency emptyTable.numBlocks = none := by decide
  rw [hnone] at hselect
  exact not_coversOnce_none hselect

end Hustle.Operators.BatchLoops
