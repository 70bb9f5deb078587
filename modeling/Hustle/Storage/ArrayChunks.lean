import Hustle.Storage.BlockMemory
import Hustle.Util.Run

/-!
This module contains `array_to_chunkedarray`, which cuts an array into slices of equal length and a last one for what
remains.
-/

namespace Hustle.Storage

/--
An `arrow::Array` of any type: the elements of a buffer, which it may share with other arrays, from `offset` on.
-/
structure SharedArray (α : Type) where
  buffer : List α
  offset : Nat
  length : Nat
  inBuffer : offset + length ≤ buffer.length
  deriving DecidableEq

namespace SharedArray

variable {α : Type}

def elements (a : SharedArray α) : List α :=
  (a.buffer.drop a.offset).take a.length

/--
`MakeArrayOfNull(type, 0, ..)`
-/
def ofNull : SharedArray α :=
  ⟨[], 0, 0, Nat.le_refl 0⟩

/--
`Slice(off, len)` of Arrow, which is relative to the array and clamps the length to what remains. Arrow aborts if the
slice starts behind the end of the array.
-/
def slice (a : SharedArray α) (off len : Int) : Option (SharedArray α) :=
  if h : 0 ≤ off ∧ off ≤ a.length ∧ 0 ≤ len then
    some {
      buffer := a.buffer
      offset := a.offset + off.toNat
      length := min len.toNat (a.length - off.toNat)
      inBuffer := by
        have := a.inBuffer
        omega
    }
  else
    none

end SharedArray

section

variable {α : Type}

/--
One iteration of the loop over all chunks but the last one. The product of the `int`s must be one.
-/
def equalSlice (array : SharedArray α) (sliceLength : Int) (i : Nat) : Option (SharedArray α) :=
  if i * sliceLength ≤ maxInt then array.slice (i * sliceLength) sliceLength else none

/--
The slice behind the array `prev`. Note that `offset` is where an array starts in its buffer, whereas `Slice` counts
from the start of the array.
-/
def lastSlice (array : SharedArray α) (sliceLength : Int) (prev : SharedArray α) : Option (SharedArray α) :=
  array.slice (prev.offset + sliceLength) (array.length - prev.offset)

def arrayToChunkedArray (array : SharedArray α) (numChunks : Nat) : Option (List (SharedArray α)) :=
  if array.length ≤ numChunks then
    some (array :: List.replicate (numChunks - 1) .ofNull)
  else do
    let sliceLength := castInt (array.length / numChunks)
    let vec ← (List.range (numChunks - 1)).mapM (equalSlice array sliceLength)
    match vec.getLast? with
    | some prev =>
      let last ← lastSlice array sliceLength prev
      return vec ++ [last]
    | none => return [array]

/--
There are as many chunks as asked for, and one after the other they have the elements of the array.
-/
def Rechunks (array : SharedArray α) (numChunks : Nat) : Prop :=
  ∃ chunks, arrayToChunkedArray array numChunks = some chunks ∧ chunks.length = numChunks ∧
    (chunks.map SharedArray.elements).flatten = array.elements

end

/-! Slices. -/

namespace SharedArray

variable {α : Type} {a b : SharedArray α}

theorem length_elements (a : SharedArray α) : a.elements.length = a.length := by
  have := a.inBuffer
  simp only [elements, List.length_take, List.length_drop]
  omega

theorem slice_bounds {off len : Int} (h : a.slice off len = some b) : 0 ≤ off ∧ off ≤ a.length ∧ 0 ≤ len := by
  unfold slice at h
  split at h
  . next hbounds => exact hbounds
  . cases h

theorem slice_eq_some {off len : Nat} (h : off ≤ a.length)
    : ∃ b, a.slice off len = some b ∧ b.offset = a.offset + off ∧
        b.elements = (a.elements.drop off).take len := by
  have hbounds : (0 : Int) ≤ off ∧ (off : Int) ≤ a.length ∧ (0 : Int) ≤ len := by omega
  refine ⟨_, dif_pos hbounds, rfl, ?_⟩
  simp only [elements, Int.toNat_natCast]
  rw [List.drop_take, List.drop_drop, List.take_take]

end SharedArray

theorem flatten_slices {α : Type} (xs : List α) (width k : Nat)
    : ((List.range k).map fun i => (xs.drop (i * width)).take width).flatten = xs.take (k * width) := by
  induction k with
  | zero => simp
  | succ k ih =>
    rw [List.range_succ, List.map_append, List.flatten_append, ih, Nat.add_mul, Nat.one_mul, List.take_add]
    simp

section

variable {α : Type} {array : SharedArray α} {numChunks width k : Nat}

theorem equalSlice_eq_some {i : Nat} (hproduct : (i * width : Int) ≤ maxInt) (hlen : i * width ≤ array.length)
    : ∃ b, equalSlice array width i = some b ∧ b.offset = array.offset + i * width ∧
        b.elements = (array.elements.drop (i * width)).take width := by
  rw [equalSlice, if_pos hproduct, ← Int.natCast_mul]
  exact SharedArray.slice_eq_some hlen

/--
What the loop over all chunks but the last one leaves in `vec`.
-/
theorem equalSlices_eq_some (hproduct : (k * width : Int) ≤ maxInt) (hlen : (k + 1) * width ≤ array.length)
    : ∃ vec prev, (List.range (k + 1)).mapM (equalSlice array width) = some (vec ++ [prev]) ∧ vec.length = k ∧
        prev.offset = array.offset + k * width ∧
        ((vec ++ [prev]).map SharedArray.elements).flatten = array.elements.take ((k + 1) * width) := by
  have hslice : ∀ i < k + 1, ∃ b, equalSlice array width i = some b ∧ b.offset = array.offset + i * width ∧
      b.elements = (array.elements.drop (i * width)).take width := by
    intro i hi
    have hmul : i * width ≤ k * width := Nat.mul_le_mul_right width (Nat.le_of_lt_succ hi)
    apply equalSlice_eq_some
    . exact Int.le_trans (by exact_mod_cast hmul) hproduct
    . exact Nat.le_trans (Nat.mul_le_mul_right width (Nat.le_of_lt hi)) hlen
  let slices i := (equalSlice array width i).getD .ofNull
  have hvec := @Run.mapM_eq_some _ _ (equalSlice array width) slices (List.range (k + 1)) (by
    intro i hi
    obtain ⟨b, hb, -, -⟩ := hslice i (List.mem_range.mp hi)
    simp [slices, hb])
  obtain ⟨prev, hprev, hoffset, -⟩ := hslice k (Nat.lt_succ_self k)
  have hlast : slices k = prev := by simp [slices, hprev]
  refine ⟨(List.range k).map slices, slices k, ?_, by simp, by rw [hlast, hoffset], ?_⟩
  . rw [hvec, List.range_succ, List.map_append, List.map_singleton]
  . rw [← flatten_slices, ← List.map_singleton, ← List.map_append, ← List.range_succ, List.map_map]
    congr 1
    apply List.map_congr_left
    intro i hi
    obtain ⟨b, hb, -, helements⟩ := hslice i (List.mem_range.mp hi)
    simp [slices, hb, helements]

/--
The loop stops at the first slice if its length is negative, and at the last one if the product is no `int`.
-/
theorem equalSlices_bounds {sliceLength : Int} {vec : List (SharedArray α)}
    (h : (List.range (k + 1)).mapM (equalSlice array sliceLength) = some vec)
    : 0 ≤ sliceLength ∧ k * sliceLength ≤ maxInt := by
  obtain ⟨first, hfirst, -⟩ := @Run.getElem?_mapM _ _ _ _ _ h 0 0 (by simp)
  obtain ⟨last, hlast, -⟩ := @Run.getElem?_mapM _ _ _ _ _ h k k (by simp)
  unfold equalSlice at hfirst hlast
  split at hfirst
  . split at hlast
    . next hproduct => exact ⟨(SharedArray.slice_bounds hfirst).2.2, hproduct⟩
    . cases hlast
  . cases hfirst

theorem arrayToChunkedArray_of_lt (h : k + 2 < array.length)
    : arrayToChunkedArray array (k + 2)
        =
      ((List.range (k + 1)).mapM (equalSlice array (castInt (array.length / (k + 2 : Nat))))).bind fun vec =>
        match vec.getLast? with
        | some prev => (lastSlice array (castInt (array.length / (k + 2 : Nat))) prev).map fun last => vec ++ [last]
        | none => some [array] := by
  rw [arrayToChunkedArray, if_neg (Nat.not_le.mpr h)]
  generalize castInt (array.length / (k + 2 : Nat)) = sliceLength
  simp only [Option.bind_eq_bind, Nat.add_succ_sub_one]
  congr 1
  funext vec
  cases vec.getLast? with
  | some prev => simp [Option.map_eq_bind]
  | none => rfl

/--
The last slice starts where the one before ends if both count from the same element.
-/
theorem rechunks_cut_iff (h : k + 2 < array.length)
    : Rechunks array (k + 2) ↔
        array.offset = 0 ∧ 0 ≤ castInt (array.length / (k + 2 : Nat)) ∧
          k * castInt (array.length / (k + 2 : Nat)) ≤ maxInt := by
  unfold Rechunks
  rw [arrayToChunkedArray_of_lt h]
  have hquotient :=
    @castInt_le (array.length / (k + 2 : Nat)) (Int.ediv_nonneg (Int.natCast_nonneg _) (Int.natCast_nonneg _))
  generalize castInt (array.length / (k + 2 : Nat)) = sliceLength at hquotient
  by_cases hbounds : 0 ≤ sliceLength ∧ k * sliceLength ≤ maxInt
  . obtain ⟨hwidth, hproduct⟩ := hbounds
    obtain ⟨width, rfl⟩ := Int.eq_ofNat_of_zero_le hwidth
    have hle : width ≤ array.length / (k + 2) := by exact_mod_cast hquotient
    have hmul : (k + 2) * width ≤ array.length :=
      (Nat.mul_le_mul_left _ hle).trans (Nat.mul_div_le _ _)
    have hsum : (k + 2) * width = k * width + width + width := by rw [Nat.add_mul, Nat.two_mul, Nat.add_assoc]
    have hsum' : (k + 1) * width = k * width + width := by rw [Nat.add_mul, Nat.one_mul]
    obtain ⟨vec, prev, hvec, hlength, hoffset, hfront⟩ := @equalSlices_eq_some _ array width k hproduct (by omega)
    rw [hvec, Option.bind_some, List.getLast?_concat]
    simp only [lastSlice]
    constructor
    . rintro ⟨chunks, hchunks, -, helements⟩
      obtain ⟨last, hlast, rfl⟩ := Option.map_eq_some_iff.mp hchunks
      obtain ⟨-, hinside, hremains⟩ := SharedArray.slice_bounds hlast
      -- the lengths add up to that of the array without the elements before it in its buffer
      obtain ⟨last', hlast', -, hrest⟩ := @SharedArray.slice_eq_some _ array (prev.offset + width)
        (array.length - prev.offset) (by omega)
      have hsame : last' = last := by
        rw [Nat.cast_add, Nat.cast_sub (by omega)] at hlast'
        exact Option.some.inj (hlast'.symm.trans hlast)
      subst hsame
      have hcount := congrArg List.length helements
      rw [List.map_append, List.flatten_append, hfront] at hcount
      simp only [List.map_cons, List.map_nil, List.flatten_cons, List.flatten_nil, List.append_nil, List.length_append,
        List.length_take, SharedArray.length_elements, hrest, List.length_drop] at hcount
      refine ⟨?_, hwidth, hproduct⟩
      omega
    . rintro ⟨hzero, -, -⟩
      obtain ⟨last, hlast, -, hrest⟩ := @SharedArray.slice_eq_some _ array (prev.offset + width)
        (array.length - prev.offset) (by omega)
      rw [Nat.cast_add, Nat.cast_sub (by omega)] at hlast
      refine ⟨vec ++ [prev] ++ [last], by rw [hlast, Option.map_some], by simp [hlength], ?_⟩
      have hstart : prev.offset + width = (k + 1) * width := by omega
      rw [List.map_append, List.flatten_append, hfront, List.map_singleton, List.flatten_singleton, hrest, hstart]
      have hall : (array.elements.drop ((k + 1) * width)).length ≤ array.length - prev.offset := by
        rw [List.length_drop, SharedArray.length_elements]
        omega
      rw [List.take_of_length_le hall, List.take_append_drop]
  . constructor
    . rintro ⟨chunks, hchunks, -⟩
      obtain ⟨vec, hvec, -⟩ := Option.bind_eq_some_iff.mp hchunks
      exact absurd (equalSlices_bounds hvec) hbounds
    . rintro ⟨-, hwidth, hproduct⟩
      exact absurd ⟨hwidth, hproduct⟩ hbounds

theorem rechunks_of_short (h : array.length ≤ numChunks) (hpos : 1 ≤ numChunks) : Rechunks array numChunks := by
  refine ⟨_, if_pos h, ?_, ?_⟩
  . rw [List.length_cons, List.length_replicate]
    omega
  . have hempty : (SharedArray.ofNull : SharedArray α).elements = [] := rfl
    simp [hempty]

theorem rechunks_one (array : SharedArray α) : Rechunks array 1 := by
  by_cases h : array.length ≤ 1
  . exact rechunks_of_short h (Nat.le_refl 1)
  . refine ⟨[array], ?_, rfl, by simp⟩
    rw [arrayToChunkedArray, if_neg h]
    rfl

/--
The array is cut into chunks if it is the start of its buffer. Otherwise this is so only if it is not cut at all.
-/
theorem rechunks_iff (array : SharedArray α) (h : 1 ≤ numChunks)
    : Rechunks array numChunks ↔
        array.length ≤ numChunks ∨ numChunks = 1 ∨
          array.offset = 0 ∧ 0 ≤ castInt (array.length / numChunks) ∧
            (numChunks - 2) * castInt (array.length / numChunks) ≤ maxInt := by
  by_cases hshort : array.length ≤ numChunks
  . exact iff_of_true (rechunks_of_short hshort h) (.inl hshort)
  . by_cases hone : numChunks = 1
    . subst hone
      exact iff_of_true (rechunks_one array) (.inr (.inl rfl))
    . obtain ⟨k, rfl⟩ := Nat.exists_eq_add_of_le' (show 2 ≤ numChunks by omega)
      rw [rechunks_cut_iff (Nat.lt_of_not_le hshort), or_iff_right hshort, or_iff_right hone, Nat.cast_add]
      simp

end

def shiftedArray : SharedArray Nat :=
  ⟨[0, 1, 2, 3, 4], 1, 4, by decide⟩

example : (arrayToChunkedArray shiftedArray 2).map (List.map SharedArray.elements) = some [[1, 2], [4]] := by decide

def unshiftedArray : SharedArray Nat :=
  ⟨[0, 1, 2, 3, 4, 5, 6], 0, 7, by decide⟩

example : (arrayToChunkedArray unshiftedArray 3).map (List.map SharedArray.elements) = some [[0, 1], [2, 3], [4, 5, 6]] :=
  by decide

theorem rechunks_iff_arrays : Rechunks unshiftedArray 3 ∧ ¬ Rechunks shiftedArray 2 := by
  constructor
  . have hcut : unshiftedArray.offset = 0 ∧ 0 ≤ castInt (unshiftedArray.length / (3 : Nat)) ∧
        ((3 : Nat) - 2) * castInt (unshiftedArray.length / (3 : Nat)) ≤ maxInt := by
      decide
    exact (rechunks_iff unshiftedArray (by decide)).mpr (.inr (.inr hcut))
  . intro h
    exact absurd ((rechunks_iff shiftedArray (by decide)).mp h) (by decide)

/--
An element of a slice is lost.
-/
theorem not_rechunks : ¬ ∀ (array : SharedArray Nat) (numChunks : Nat), 1 ≤ numChunks → Rechunks array numChunks := by
  intro h
  have hshifted := (@rechunks_cut_iff _ shiftedArray 0 (by decide)).mp (h shiftedArray 2 (by decide))
  exact absurd hshifted.1 (by decide)

end Hustle.Storage
