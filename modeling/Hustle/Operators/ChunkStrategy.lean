import Hustle.Operators.HashGroups
import Hustle.Storage.BlockMemory

/-!
This module contains `HashAggregateStrategy` with the `int`s it computes with: the ranges of chunks of the tasks, and
when they are a partition of the chunks.
-/

namespace Hustle.Operators

namespace HashAggregateStrategy

open Storage (checkInt checkInt_eq_some checkInt_le)

/--
`start` and `end` before they are clamped.
-/
def bounds (taskId numThreads numChunks : Int) : Option (Int × Int) := do
  let sum ← checkInt (numChunks + numThreads)
  let M := (sum - 1).tdiv numThreads
  let m := numChunks.tdiv numThreads
  let FR := numChunks.tmod numThreads
  if taskId < FR then
    let start ← checkInt (M * taskId)
    let stop ← checkInt (M * (taskId + 1))
    return (start, stop)
  else
    let full ← checkInt (M * FR)
    let before ← checkInt (m * (taskId - FR))
    let after ← checkInt (m * (taskId + 1 - FR))
    let start ← checkInt (full + before)
    let stop ← checkInt (full + after)
    return (start, stop)

/--
`getChunkID`. A task without a chunk gets the range from -1 to -1.
-/
def chunkRange (taskId numThreads numChunks : Int) : Option (Int × Int) :=
  if numChunks ≤ taskId then
    some (-1, -1)
  else do
    let (start, stop) ← bounds taskId numThreads numChunks
    return (if start < 0 then 0 else start, if numChunks < stop then numChunks else stop)

/--
The ranges of all tasks. `HashAggregateStrategy(num_threads, num_chunks)` says how many there are.
-/
def chunkRanges (numThreads numChunks : Nat) : Option (List (Int × Int)) :=
  (List.range (suggestedNumTasks numThreads numChunks)).mapM fun (tid : Nat) => chunkRange tid numThreads numChunks

def chunksOf (range : Int × Int) : List Int :=
  (List.range (range.2 - range.1).toNat).map fun (i : Nat) => range.1 + i

/--
The ranges are within the chunks and one after the other, and together they have every chunk once.
-/
def PartitionsChunks (numThreads numChunks : Nat) : Prop :=
  ∃ ranges, chunkRanges numThreads numChunks = some ranges ∧
    (∀ range ∈ ranges, 0 ≤ range.1 ∧ range.1 ≤ range.2 ∧ range.2 ≤ numChunks) ∧
    ranges.Pairwise (fun range range' => range.2 ≤ range'.1) ∧
    ranges.flatMap chunksOf = (List.range numChunks).map Int.ofNat

section

variable {numThreads numChunks tid : Nat}

theorem suggestedNumTasks_le (numThreads numChunks : Nat)
    : suggestedNumTasks numThreads numChunks ≤ numThreads ∧ suggestedNumTasks numThreads numChunks ≤ numChunks := by
  rw [suggestedNumTasks]
  split
  . omega
  . omega

theorem startOf_le (htid : tid ≤ numThreads) : startOf numThreads numChunks tid ≤ numChunks := by
  have hmod := Nat.div_add_mod numChunks numThreads
  have hmul : numChunks / numThreads * tid ≤ numChunks / numThreads * numThreads := Nat.mul_le_mul_left _ htid
  rw [Nat.mul_comm _ numThreads] at hmul
  rw [startOf]
  omega

theorem ceiling_eq (hthreads : 0 < numThreads) (h : 0 < numChunks % numThreads)
    : (numChunks + numThreads - 1) / numThreads = numChunks / numThreads + 1 := by
  have hmod := Nat.div_add_mod numChunks numThreads
  have hlt := Nat.mod_lt numChunks hthreads
  have hsum : numChunks + numThreads - 1
      = numThreads * (numChunks / numThreads + 1) + (numChunks % numThreads - 1) := by
    rw [Nat.mul_add, Nat.mul_one]
    omega
  have hzero : (numChunks % numThreads - 1) / numThreads = 0 := Nat.div_eq_of_lt (by omega)
  rw [hsum, Nat.mul_add_div hthreads, hzero, Nat.add_zero]

/--
No `int` overflows if the sum of the numbers is one.
-/
theorem bounds_eq_some (hthreads : 0 < numThreads) (htid : tid < numThreads)
    (hint : (numChunks + numThreads : Int) ≤ Storage.maxInt)
    : bounds tid numThreads numChunks
        =
      some ((startOf numThreads numChunks tid : Int), (startOf numThreads numChunks (tid + 1) : Int)) := by
  have hsum := @checkInt_eq_some (numChunks + numThreads) (by exact_mod_cast hint)
  have hcheck : ∀ n : Nat, n ≤ numChunks → checkInt n = some (n : Int) := fun n hn => checkInt_eq_some (by omega)
  have hstart := hcheck _ (startOf_le (Nat.le_of_lt htid))
  have hstop := hcheck _ (startOf_le (show tid + 1 ≤ numThreads from htid))
  have hM : ((numChunks + numThreads : Nat) - 1 : Int).tdiv numThreads
      = ((numChunks + numThreads - 1) / numThreads : Nat) := by
    rw [← Int.natCast_pred_of_pos (by omega), Int.ofNat_tdiv]
  rw [bounds, ← Int.natCast_add, hsum, Option.bind_eq_bind, Option.bind_some]
  simp only [hM, ← Int.ofNat_tdiv, ← Int.ofNat_tmod, Nat.cast_lt]
  split
  . next hlt =>
    have hceil := ceiling_eq hthreads (show 0 < numChunks % numThreads by omega)
    have hfirst : (numChunks / numThreads + 1) * tid = startOf numThreads numChunks tid := by
      rw [startOf, Nat.min_eq_left hlt.le, Nat.add_mul, Nat.one_mul]
    have hsecond : (numChunks / numThreads + 1) * (tid + 1) = startOf numThreads numChunks (tid + 1) := by
      rw [startOf, Nat.min_eq_left hlt, Nat.add_mul, Nat.one_mul]
    have hnext : (tid : Int) + 1 = (tid + 1 : Nat) := rfl
    rw [hceil, hnext, ← Int.natCast_mul, ← Int.natCast_mul, hfirst, hsecond, hstart, hstop]
    rfl
  . next hge =>
    have hle : numChunks % numThreads ≤ tid := Nat.le_of_not_lt hge
    have hfull : (numChunks + numThreads - 1) / numThreads * (numChunks % numThreads)
        = numChunks / numThreads * (numChunks % numThreads) + numChunks % numThreads := by
      by_cases hzero : numChunks % numThreads = 0
      . rw [hzero, Nat.mul_zero, Nat.mul_zero]
      . rw [ceiling_eq hthreads (Nat.pos_of_ne_zero hzero), Nat.add_mul, Nat.one_mul]
    have hshare : ∀ k, numChunks % numThreads ≤ k →
        numChunks / numThreads * (numChunks % numThreads) + numChunks % numThreads
            + numChunks / numThreads * (k - numChunks % numThreads)
          =
        startOf numThreads numChunks k := by
      intro k hk
      rw [startOf, Nat.min_eq_right hk, Nat.add_right_comm, ← Nat.mul_add, Nat.add_sub_of_le hk]
    have hfirst := hshare tid hle
    have hsecond := hshare (tid + 1) (by omega)
    have hbound := @startOf_le _ numChunks _ (Nat.le_of_lt htid)
    have hbound' := @startOf_le _ numChunks _ (show tid + 1 ≤ numThreads from htid)
    have hsub : (tid : Int) - (numChunks % numThreads : Nat) = (tid - numChunks % numThreads : Nat) := by omega
    have hsub' : (tid : Int) + 1 - (numChunks % numThreads : Nat) = (tid + 1 - numChunks % numThreads : Nat) := by omega
    rw [hsub, hsub', ← Int.natCast_mul, ← Int.natCast_mul, ← Int.natCast_mul, hfull, hcheck _ (by omega),
      hcheck _ (by omega), hcheck _ (by omega)]
    simp only [Option.bind_some, ← Int.natCast_add, hfirst, hsecond, hstart, hstop]
    rfl

theorem chunkRange_eq_some (hthreads : 0 < numThreads) (htid : tid < suggestedNumTasks numThreads numChunks)
    (hint : (numChunks + numThreads : Int) ≤ Storage.maxInt)
    : chunkRange tid numThreads numChunks
        =
      some ((startOf numThreads numChunks tid : Int), (startOf numThreads numChunks (tid + 1) : Int)) := by
  obtain ⟨hle, hle'⟩ := suggestedNumTasks_le numThreads numChunks
  have hbound := @startOf_le _ numChunks _ (show tid + 1 ≤ numThreads by omega)
  rw [chunkRange, if_neg (by omega), bounds_eq_some hthreads (by omega) hint, Option.bind_eq_bind, Option.bind_some]
  simp only
  rw [if_neg (by omega), if_neg (by omega)]
  rfl

theorem startOf_le_of_le {k : Nat} (h : tid ≤ k) : startOf numThreads numChunks tid ≤ startOf numThreads numChunks k := by
  induction h with
  | refl => exact Nat.le_refl _
  | step _ ih => exact Nat.le_trans ih (startOf_mono _)

theorem chunksOf_eq {a b : Nat} : chunksOf ((a : Int), (b : Int)) = (List.range' a (b - a)).map Int.ofNat := by
  have hlen : ((b : Int) - a).toNat = b - a := by omega
  simp only [chunksOf, hlen, List.range'_eq_map_range, List.map_map]
  apply List.map_congr_left
  intro i _
  simp

/--
The chunks are partitioned if there are none, or if the sum of the numbers does not overflow.
-/
theorem partitionsChunks_iff (hthreads : 1 ≤ numThreads)
    : PartitionsChunks numThreads numChunks ↔ numChunks = 0 ∨ (numChunks + numThreads : Int) ≤ Storage.maxInt := by
  constructor
  . rintro ⟨ranges, hranges, -⟩
    by_cases hzero : numChunks = 0
    . exact .inl hzero
    . have hpos : 0 < suggestedNumTasks numThreads numChunks := by
        rw [suggestedNumTasks]
        split <;> omega
      obtain ⟨range, hrange, -⟩ := @Run.getElem?_mapM _ _ _ _ _ hranges 0 0 (by simp [hpos])
      rw [chunkRange, if_neg (by omega), bounds] at hrange
      obtain ⟨x, hx, -⟩ := Option.bind_eq_some_iff.mp hrange
      obtain ⟨sum, hsum, -⟩ := Option.bind_eq_some_iff.mp hx
      exact .inr (checkInt_le hsum)
  . intro h
    have hrange : ∀ tid < suggestedNumTasks numThreads numChunks, chunkRange tid numThreads numChunks
        = some ((startOf numThreads numChunks tid : Int), (startOf numThreads numChunks (tid + 1) : Int)) := by
      intro tid htid
      rcases h with rfl | hint
      . exact absurd (Nat.lt_of_lt_of_le htid (suggestedNumTasks_le numThreads 0).2) (Nat.not_lt_zero tid)
      . exact chunkRange_eq_some hthreads htid hint
    refine ⟨_, Run.mapM_eq_some fun tid htid => hrange tid (List.mem_range.mp htid), ?_, ?_, ?_⟩
    . intro range hmem
      obtain ⟨tid, htid, rfl⟩ := List.mem_map.mp hmem
      have hle := (suggestedNumTasks_le numThreads numChunks).1
      have hmono := @startOf_mono numThreads numChunks tid
      have hbound := @startOf_le numThreads numChunks (tid + 1) (by
        have := List.mem_range.mp htid
        omega)
      dsimp only
      omega
    . rw [List.pairwise_map]
      apply List.pairwise_lt_range.imp
      intro tid tid' hlt
      dsimp only
      exact_mod_cast startOf_le_of_le (show tid + 1 ≤ tid' from hlt)
    . rw [List.flatMap_map]
      simp only [chunksOf_eq]
      rw [← List.map_flatMap, flatMap_range_startOf, startOf_suggestedNumTasks hthreads]

/--
Two threads and five chunks.
-/
theorem partitionsChunks_iff_two
    : 1 ≤ 2 ∧ (PartitionsChunks 2 5 ↔ 5 = 0 ∨ ((5 : Nat) + (2 : Nat) : Int) ≤ Storage.maxInt) :=
  ⟨by decide, partitionsChunks_iff (by decide)⟩

/--
With two threads and as many chunks as an `int` can count, the rounding up overflows.
-/
theorem not_partitionsChunks
    : ¬ ∀ numThreads numChunks : Nat, 1 ≤ numThreads → (numThreads : Int) ≤ Storage.maxInt →
        (numChunks : Int) ≤ Storage.maxInt →
        PartitionsChunks numThreads numChunks := by
  intro h
  obtain ⟨ranges, hranges, -⟩ := h 2 2147483647 (by decide) (by decide) (by decide)
  have htasks : suggestedNumTasks 2 2147483647 = 2 := by decide
  rw [chunkRanges, htasks] at hranges
  have hfirst : chunkRange (0 : Nat) (2 : Nat) (2147483647 : Nat) = none := by decide
  obtain ⟨range, hrange, -⟩ := @Run.getElem?_mapM _ _ _ _ _ hranges 0 0 rfl
  cases hfirst.symm.trans hrange

end

end HashAggregateStrategy

end Hustle.Operators
