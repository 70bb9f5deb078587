import Hustle.Operators.LazyTable

/-!
This module contains `Context::apply_indices` as it runs: the indices are cut into slices, every slice searches the
chunk of an index in the offsets of the chunks or trusts the given numbers of the chunks, and for strings it builds the
offsets of the new array.
-/

namespace Hustle.Operators

def maxInt : Nat := 2147483647

inductive Value where
  | int64 (value : BitVec 64)
  | string (value : List UInt8)
  deriving DecidableEq, Repr

/-! String arrays. -/

/--
An array of strings: `offsets` are of type `int32_t`, string `i` is `data[offsets[i] .. offsets[i + 1]]`.
-/
structure StringArray where
  length : Nat
  offsets : List (BitVec 32)
  data : List UInt8
  deriving DecidableEq

namespace StringArray

/--
A string of the array, none if its offsets are not those of a valid array.
-/
def value (a : StringArray) (i : Nat) : Option (List UInt8) := do
  let start ← a.offsets[i]?
  let stop ← a.offsets[i + 1]?
  if start.toNat ≤ stop.toNat ∧ stop.toNat ≤ maxInt ∧ stop.toNat ≤ a.data.length then
    return (a.data.drop start.toNat).take (stop.toNat - start.toNat)
  else
    none

def values (a : StringArray) : Option (List (List UInt8)) :=
  (List.range a.length).mapM a.value

/--
The array of the strings. There is an offset behind the last string even if there is no string.
-/
structure Holds (a : StringArray) (strings : List (List UInt8)) : Prop where
  length_eq : a.length = strings.length
  values_eq : a.values = some strings
  offsets : a.length < a.offsets.length

end StringArray

namespace Context

/--
The columns that `apply_indices` takes. Their chunks start at the beginning of their buffers.
-/
inductive ChunkedArray where
  | int64 (chunks : Chunked (BitVec 64))
  | uint32 (chunks : Chunked (BitVec 32))
  | string (chunks : List StringArray)

/--
What it makes. Numbers always become 64 bits wide.
-/
inductive OutArray where
  | int64 (values : List (BitVec 64))
  | string (array : StringArray)
  deriving DecidableEq

def OutArray.values : OutArray → Option (List Value)
  | .int64 values => some (values.map .int64)
  | .string array => array.values.map (List.map .string)

def ChunkedArray.lengths : ChunkedArray → List Nat
  | .int64 chunks => chunks.map List.length
  | .uint32 chunks => chunks.map List.length
  | .string chunks => chunks.map StringArray.length

def ChunkedArray.Holds : ChunkedArray → Chunked Value → Prop
  | .int64 chunks, values => values = chunks.map (List.map Value.int64)
  | .uint32 chunks, values => values = chunks.map (List.map fun v => Value.int64 (v.setWidth 64))
  | .string chunks, values => List.Forall₂ (fun a vs => ∃ strings, a.Holds strings ∧ vs = strings.map Value.string)
      chunks values

/--
`chunk_row_offsets`, of type `unsigned int`. The length of the last chunk is read even if there is none.
-/
def chunkRowOffsets (lengths : List Nat) : Option (List Nat) :=
  if lengths = [] then
    none
  else
    some ((List.range (lengths.length + 1)).map fun i => (lengths.take i).sum % 2 ^ 32)

/--
`std::upper_bound`, the position of the first offset that is behind the index.
-/
def upperBound (offsets : List Nat) (index : Nat) : Nat :=
  offsets.findIdx fun offset => index < offset

/--
A slice of one of the arrays, `length` is that of the indices. Everything is an `int`; the last slice has a length that
is cut to what remains.
-/
def sliceOf (arr : List α) (length sliceI : Nat) : Option (List α) :=
  let numSlices := length / sliceLength + 1
  if maxInt < sliceI * sliceLength then
    none
  else if sliceI = numSlices - 1 then
    some ((arr.drop (sliceI * sliceLength)).take (length - ((sliceI : Int) - 1) * sliceLength).toNat)
  else
    some ((arr.drop (sliceI * sliceLength)).take sliceLength)

def applyIndicesInternal (widen : α → BitVec 64) (col : Chunked α) (offsets indices : List Nat) (sliceI : Nat)
    : Option OutArray := do
  let sliced ← sliceOf indices indices.length sliceI
  let out ← sliced.mapM fun index => do
    let chunkJ := upperBound offsets index - 1
    let chunk ← col[chunkJ]?
    let offset ← offsets[chunkJ]?
    let v ← chunkValue chunk offset index
    return widen v
  return .int64 out

/--
`apply_indices_internal2`. The numbers of the chunks are of type `uint16_t`.
-/
def applyIndicesInternal2 (widen : α → BitVec 64) (col : Chunked α) (offsets indices : List Nat)
    (indexChunks : List (BitVec 16)) (sliceI : Nat) : Option OutArray := do
  let sliced ← sliceOf indices indices.length sliceI
  let slicedChunks ← sliceOf indexChunks indices.length sliceI
  let out ← sliced.zipIdx.mapM fun x => do
    let chunkJ ← slicedChunks[x.2]?
    let chunk ← col[chunkJ.toNat]?
    let offset ← offsets[chunkJ.toNat]?
    let v ← chunkValue chunk offset x.1
    return widen v
  return .int64 out

/--
The builders of the offsets and of the bytes, and the number of bytes as an `int32_t`.
-/
structure StringBuilder where
  offsets : List (BitVec 32)
  data : List UInt8
  offset : BitVec 32
  deriving DecidableEq

section

-- The number of offsets that a builder has room for after `Reserve`.
variable (capacity : Nat → Nat)

/--
`UnsafeAppend`, which does not check the room.
-/
def unsafeAppend (reserved : Nat) (offsets : List (BitVec 32)) (offset : BitVec 32) : Option (List (BitVec 32)) :=
  if offsets.length < capacity reserved then some (offsets ++ [offset]) else none

/--
The body of the loop of `apply_indices_internal_str`. The offset is appended before the string, for which there is room.
-/
def appendString (col : List StringArray) (offsets : List Nat) (reserved : Nat) (s : StringBuilder) (index : Nat)
    : Option StringBuilder := do
  let built ← unsafeAppend capacity reserved s.offsets s.offset
  let chunkI := upperBound offsets index - 1
  let chunk ← col[chunkI]?
  let first ← offsets[chunkI]?
  let valOffset ← chunkValue chunk.offsets first index
  let valEnd ← chunkValue chunk.offsets first (index + 1)
  let valSize := valEnd - valOffset
  if valOffset.toNat + valSize.toNat ≤ chunk.data.length then
    return ⟨built, s.data ++ (chunk.data.drop valOffset.toNat).take valSize.toNat, s.offset + valSize⟩
  else
    none

/--
`apply_indices_internal_str`. The last offset is appended after room has been made for one offset a string.
-/
def applyIndicesInternalStr (col : List StringArray) (offsets indices : List Nat) (sliceI : Nat) : Option OutArray := do
  let sliced ← sliceOf indices indices.length sliceI
  if sliced = [] then
    return .string ⟨0, [0], []⟩
  else
    -- the last offsets of all chunks are read to estimate the number of bytes
    let _ ← col.mapM fun chunk => chunk.offsets[chunk.length]?
    let s ← sliced.foldlM (appendString capacity col offsets sliced.length) ⟨[], [], 0⟩
    let built ← unsafeAppend capacity sliced.length s.offsets s.offset
    return .string ⟨sliced.length, built, s.data⟩

/--
`apply_indices`. The tasks of the slices do not depend on each other. The numbers of the chunks are not used for strings.
-/
def applyIndices (col : ChunkedArray) (indices : List Nat) (indexChunks : Option (List (BitVec 16)))
    : Option (List OutArray) := do
  let offsets ← chunkRowOffsets col.lengths
  (List.range (indices.length / sliceLength + 1)).mapM fun sliceI =>
    match col, indexChunks with
    | .int64 chunks, none => applyIndicesInternal id chunks offsets indices sliceI
    | .int64 chunks, some indexChunks => applyIndicesInternal2 id chunks offsets indices indexChunks sliceI
    | .uint32 chunks, none => applyIndicesInternal (BitVec.setWidth 64) chunks offsets indices sliceI
    | .uint32 chunks, some indexChunks =>
      applyIndicesInternal2 (BitVec.setWidth 64) chunks offsets indices indexChunks sliceI
    | .string chunks, _ => applyIndicesInternalStr capacity chunks offsets indices sliceI

end

end Context

/-! Slices. -/

namespace Context

/--
The lengths of the slices of `n` indices.
-/
def sliceLengths (n : Nat) : List Nat :=
  List.replicate (n / sliceLength) sliceLength ++ [n % sliceLength]

theorem map_length_slices (indices : List α) : (slices indices).map List.length = sliceLengths indices.length := by
  have hdiv := Nat.div_add_mod indices.length sliceLength
  rw [slices, sliceLengths, List.range_succ, List.map_append, List.map_append, List.map_map]
  congr 1
  . rw [List.eq_replicate_iff]
    constructor
    . simp
    . intro k hk
      obtain ⟨i, hi, rfl⟩ := List.mem_map.mp hk
      have hlt := List.mem_range.mp hi
      have hle : (i + 1) * sliceLength ≤ indices.length / sliceLength * sliceLength := Nat.mul_le_mul_right _ hlt
      rw [Nat.mul_comm] at hdiv
      rw [Nat.succ_mul] at hle
      simp only [Function.comp_apply, List.length_take, List.length_drop]
      omega
  . have hmod := Nat.mod_lt indices.length (show 0 < sliceLength by decide)
    rw [Nat.mul_comm] at hdiv
    simp only [List.map_cons, List.map_nil, List.length_take, List.length_drop, List.cons.injEq, and_true]
    omega

/--
The slices are those of `slices`, as long as the start of the last one is an `int`.
-/
theorem sliceOf_eq {arr : List α} {n sliceI : Nat} (hlen : arr.length = n) (hint : n / sliceLength * sliceLength ≤ maxInt)
    (hi : sliceI < n / sliceLength + 1)
    : sliceOf arr n sliceI = some ((arr.drop (sliceI * sliceLength)).take sliceLength) := by
  have hle : sliceI * sliceLength ≤ n / sliceLength * sliceLength := Nat.mul_le_mul_right _ (by omega)
  rw [sliceOf, if_neg (by omega)]
  split
  . next hlast =>
    have hlast : sliceI = n / sliceLength := by omega
    have hmod := Nat.mod_lt n (show 0 < sliceLength by decide)
    have hdiv := Nat.div_add_mod n sliceLength
    rw [Nat.mul_comm] at hdiv
    rw [hlast, List.take_of_length_le, List.take_of_length_le]
    . rw [List.length_drop]
      omega
    . rw [List.length_drop, Int.sub_mul]
      omega
  . rfl

theorem sliceOf_eq_none {arr : List α} {n : Nat} (hint : maxInt < n / sliceLength * sliceLength)
    : sliceOf arr n (n / sliceLength) = none := by
  rw [sliceOf, if_pos hint]

/-! Chunks. -/

def InChunk (lengths : List Nat) (index chunk : Nat) : Prop :=
  (lengths.take chunk).sum ≤ index ∧ index < (lengths.take (chunk + 1)).sum

theorem chunkRowOffsets_eq {lengths : List Nat} (hne : lengths ≠ []) (hrows : lengths.sum < 2 ^ 32)
    : chunkRowOffsets lengths = some ((List.range (lengths.length + 1)).map fun i => (lengths.take i).sum) := by
  rw [chunkRowOffsets, if_neg hne]
  congr 1
  apply List.map_congr_left
  intro i _
  apply Nat.mod_eq_of_lt
  have hsum := congrArg List.sum (List.take_append_drop i lengths)
  rw [List.sum_append] at hsum
  omega

theorem inChunk_upperBound {lengths : List Nat} {index : Nat} (hindex : index < lengths.sum)
    : InChunk lengths index
        (upperBound ((List.range (lengths.length + 1)).map fun i => (lengths.take i).sum) index - 1) := by
  have hexists : ∃ x ∈ (List.range (lengths.length + 1)).map fun i => (lengths.take i).sum, decide (index < x) := by
    refine ⟨lengths.sum, ?_, decide_eq_true hindex⟩
    exact List.mem_map.mpr ⟨lengths.length, by simp, by rw [List.take_length]⟩
  have hlt := List.findIdx_lt_length_of_exists hexists
  have hfound := @List.findIdx_getElem _ _ _ hlt
  rw [List.length_map, List.length_range] at hlt
  simp only [List.getElem_map, List.getElem_range, decide_eq_true_eq] at hfound
  rw [upperBound]
  generalize hu : List.findIdx _ _ = u at hfound hlt
  cases u with
  | zero => simp at hfound
  | succ c =>
    refine ⟨?_, hfound⟩
    have hc : c < List.findIdx (fun offset => decide (index < offset))
        ((List.range (lengths.length + 1)).map fun i => (lengths.take i).sum) := by
      rw [hu]
      exact Nat.lt_succ_self c
    have hbefore := List.not_of_lt_findIdx hc
    simpa using hbefore

theorem chunkValue_eq {col : Chunked α} {index chunk : Nat} (h : InChunk (col.map List.length) index chunk)
    : ∃ values, col[chunk]? = some values ∧ chunk < (col.map List.length).length ∧
        chunkValue values ((col.map List.length).take chunk).sum index = col.flatten[index]? := by
  obtain ⟨hle, hlt⟩ := h
  by_cases hchunk : chunk < col.length
  . have hget := List.getElem?_eq_getElem hchunk
    have hsum : ((col.map List.length).take (chunk + 1)).sum
        = ((col.map List.length).take chunk).sum + col[chunk].length := by
      rw [List.take_add_one, List.sum_append, List.getElem?_map, hget]
      simp
    have hwithin : index - ((col.map List.length).take chunk).sum < col[chunk].length := by omega
    have hrow := getElem?_flatten_offset hget hwithin
    refine ⟨col[chunk], hget, by simpa using hchunk, ?_⟩
    rw [length_flatten_take, Nat.add_sub_cancel' hle] at hrow
    rw [chunkValue, if_pos hle, hrow]
  . have hall : (col.map List.length).length ≤ chunk := by simpa using hchunk
    rw [List.take_of_length_le hall] at hle
    rw [List.take_of_length_le (Nat.le_succ_of_le hall)] at hlt
    omega

section

variable {α : Type} {widen : α → BitVec 64} {col : Chunked α} {indices : List Nat} {sliceI : Nat}

theorem applyIndicesInternal_eq (hint : indices.length / sliceLength * sliceLength ≤ maxInt) {g : Nat → α}
    (hindices : ∀ i ∈ indices, col.flatten[i]? = some (g i)) (hi : sliceI < indices.length / sliceLength + 1)
    : applyIndicesInternal widen col ((List.range ((col.map List.length).length + 1)).map fun i =>
          ((col.map List.length).take i).sum) indices sliceI
        =
      some (.int64 (((indices.drop (sliceI * sliceLength)).take sliceLength).map fun i => widen (g i))) := by
  rw [applyIndicesInternal, sliceOf_eq rfl hint hi, Option.bind_eq_bind, Option.bind_some, Run.mapM_eq_some]
  . rfl
  . intro index hindex
    have hvalue := hindices index (List.mem_of_mem_drop (List.mem_of_mem_take hindex))
    have hlt : index < (col.map List.length).sum := by
      rw [← List.length_flatten]
      exact (List.getElem?_eq_some_iff.mp hvalue).1
    obtain ⟨values, hchunk, hlen, hlookup⟩ := chunkValue_eq (inChunk_upperBound hlt)
    simp only [Option.bind_eq_bind, hchunk, Option.bind_some]
    rw [List.getElem?_map, List.getElem?_range (by omega), Option.map_some, Option.bind_some, hlookup, hvalue]
    rfl

theorem applyIndicesInternal2_eq (hint : indices.length / sliceLength * sliceLength ≤ maxInt) {g : Nat → α}
    (hindices : ∀ i ∈ indices, col.flatten[i]? = some (g i)) {indexChunks : List (BitVec 16)}
    (hchunks : List.Forall₂ (fun i (c : BitVec 16) => InChunk (col.map List.length) i c.toNat) indices indexChunks)
    (hi : sliceI < indices.length / sliceLength + 1)
    : applyIndicesInternal2 widen col ((List.range ((col.map List.length).length + 1)).map fun i =>
          ((col.map List.length).take i).sum) indices indexChunks sliceI
        =
      some (.int64 (((indices.drop (sliceI * sliceLength)).take sliceLength).map fun i => widen (g i))) := by
  rw [applyIndicesInternal2, sliceOf_eq rfl hint hi, sliceOf_eq hchunks.length_eq.symm hint hi]
  have hslice := List.forall₂_take sliceLength (List.forall₂_drop (sliceI * sliceLength) hchunks)
  have hvalues : ∀ i ∈ (indices.drop (sliceI * sliceLength)).take sliceLength, col.flatten[i]? = some (g i) :=
    fun i hi => hindices i (List.mem_of_mem_drop (List.mem_of_mem_take hi))
  generalize (indices.drop (sliceI * sliceLength)).take sliceLength = slice at hslice hvalues
  generalize (indexChunks.drop (sliceI * sliceLength)).take sliceLength = chunks at hslice
  have hzip : slice.map (fun i => widen (g i)) = slice.zipIdx.map fun x => widen (g x.1) := by
    conv => lhs; rw [← List.zipIdx_map_fst 0 slice]
    rw [List.map_map]
    rfl
  rw [hzip]
  simp only [Option.bind_eq_bind, Option.bind_some]
  rw [Run.mapM_eq_some]
  . rfl
  . rintro ⟨index, k⟩ hmem
    have hmem := List.mem_zipIdx_iff_getElem?.mp hmem
    dsimp only at hmem ⊢
    obtain ⟨hk, hindex⟩ := List.getElem?_eq_some_iff.mp hmem
    obtain ⟨hlen, hget⟩ := List.forall₂_iff_get.mp hslice
    have hchunk := hget k hk (hlen ▸ hk)
    simp only [List.get_eq_getElem, hindex] at hchunk
    obtain ⟨values, hvalue, hlt, hlookup⟩ := chunkValue_eq hchunk
    rw [List.getElem?_eq_getElem (hlen ▸ hk), Option.bind_some, hvalue, Option.bind_some, List.getElem?_map,
      List.getElem?_range (by omega), Option.map_some, Option.bind_some, hlookup,
      hvalues index (List.mem_of_getElem? hmem)]
    rfl

end

/-! Building strings. -/

/--
The offsets in front of every string and behind the last one.
-/
def prefixOffsets (strings : List (List UInt8)) : List (BitVec 32) :=
  (List.range strings.length).map fun k => BitVec.ofNat 32 (strings.take k).flatten.length

/--
The builders after the strings.
-/
def builtStrings (strings : List (List UInt8)) : StringBuilder :=
  ⟨prefixOffsets strings, strings.flatten, BitVec.ofNat 32 strings.flatten.length⟩

theorem prefixOffsets_append (strings : List (List UInt8)) (s : List UInt8)
    : prefixOffsets (strings ++ [s]) = prefixOffsets strings ++ [BitVec.ofNat 32 strings.flatten.length] := by
  rw [prefixOffsets, prefixOffsets, List.length_append, List.length_singleton, List.range_succ, List.map_append]
  congr 1
  . apply List.map_congr_left
    intro k hk
    rw [List.take_append_of_le_length (Nat.le_of_lt (List.mem_range.mp hk))]
  . simp

end Context

namespace StringArray

variable {a : StringArray} {strings : List (List UInt8)}

theorem Holds.offsets_eq (h : a.Holds strings) {k : Nat} (hk : k < strings.length)
    : ∃ start stop, a.offsets[k]? = some start ∧ a.offsets[k + 1]? = some stop ∧ start.toNat ≤ stop.toNat ∧
        stop.toNat ≤ maxInt ∧ stop.toNat ≤ a.data.length ∧
        strings[k] = (a.data.drop start.toNat).take (stop.toNat - start.toNat) := by
  have hvalues := h.values_eq
  rw [values, h.length_eq] at hvalues
  obtain ⟨s, hs, hget⟩ := Run.getElem?_mapM hvalues (List.getElem?_range hk)
  rw [List.getElem?_eq_getElem hk, Option.some.injEq] at hget
  rw [value] at hs
  obtain ⟨start, hstart, hs⟩ := Option.bind_eq_some_iff.mp hs
  obtain ⟨stop, hstop, hs⟩ := Option.bind_eq_some_iff.mp hs
  split at hs
  . next hvalid =>
    cases hs
    exact ⟨start, stop, hstart, hstop, hvalid.1, hvalid.2.1, hvalid.2.2, hget⟩
  . cases hs

theorem Holds.length_le (h : a.Holds strings) {k : Nat} (hk : k < strings.length) : strings[k].length ≤ maxInt := by
  obtain ⟨start, stop, -, -, -, hstop, -, hs⟩ := h.offsets_eq hk
  rw [hs, List.length_take]
  omega

end StringArray

namespace Context

variable {capacity : Nat → Nat}

/--
A string of the column is appended, if there is room for its offset.
-/
theorem appendString_eq {col : List StringArray} {strings : Chunked (List UInt8)}
    (hcol : List.Forall₂ StringArray.Holds col strings) {index : Nat} {s : List UInt8}
    (hindex : strings.flatten[index]? = some s) (reserved : Nat) (built : List (List UInt8))
    : appendString capacity col ((List.range ((strings.map List.length).length + 1)).map fun i =>
          ((strings.map List.length).take i).sum) reserved (builtStrings built) index
        =
      if built.length < capacity reserved then some (builtStrings (built ++ [s])) else none := by
  have hlt : index < (strings.map List.length).sum := by
    rw [← List.length_flatten]
    exact (List.getElem?_eq_some_iff.mp hindex).1
  have hin := inChunk_upperBound hlt
  obtain ⟨vals, hvals, hclt, hlookup⟩ := chunkValue_eq hin
  rw [appendString, unsafeAppend]
  generalize upperBound _ index - 1 = c at hin hvals hclt hlookup ⊢
  have hle := hin.1
  rw [hindex, chunkValue, if_pos hle] at hlookup
  obtain ⟨hk, hs⟩ := List.getElem?_eq_some_iff.mp hlookup
  obtain ⟨hlen, hget⟩ := List.forall₂_iff_get.mp hcol
  obtain ⟨hc, hvals⟩ := List.getElem?_eq_some_iff.mp hvals
  have ha := hget c (hlen ▸ hc) hc
  simp only [List.get_eq_getElem, hvals] at ha
  obtain ⟨start, stop, hstart, hstop, hstartstop, -, hdata, hbytes⟩ := ha.offsets_eq hk
  rw [hs] at hbytes
  have hsize := BitVec.toNat_sub_of_le (BitVec.le_def.mpr hstartstop)
  have hroom : start.toNat + (stop - start).toNat ≤ col[c].data.length := by
    rw [hsize]
    omega
  have hslen : s.length = stop.toNat - start.toNat := by
    rw [hbytes, List.length_take, List.length_drop]
    omega
  have hnext : chunkValue col[c].offsets ((strings.map List.length).take c).sum (index + 1) = some stop := by
    rw [chunkValue, if_pos (by omega), ← hstop]
    congr 1
    omega
  have hbuilt : (builtStrings built).offsets.length = built.length := by
    simp [builtStrings, prefixOffsets]
  rw [hbuilt]
  split
  . have hchunk : col[c]? = some col[c] := List.getElem?_eq_getElem (hlen ▸ hc)
    have hfirst : chunkValue col[c].offsets ((strings.map List.length).take c).sum index = some start := by
      rw [chunkValue, if_pos hle, hstart]
    simp only [Option.bind_eq_bind, Option.bind_some, hchunk]
    rw [List.getElem?_map, List.getElem?_range (by omega), Option.map_some, Option.bind_some, hfirst, Option.bind_some,
      hnext, Option.bind_some, if_pos hroom, hsize, ← hbytes]
    have hflatten : (built ++ [s]).flatten = built.flatten ++ s := by simp
    have hoffset : BitVec.ofNat 32 built.flatten.length + (stop - start)
        = BitVec.ofNat 32 (built.flatten ++ s).length := by
      apply BitVec.eq_of_toNat_eq
      rw [List.length_append, BitVec.toNat_add, hsize, BitVec.toNat_ofNat, BitVec.toNat_ofNat, hslen, Nat.mod_add_mod]
    rw [builtStrings, builtStrings, prefixOffsets_append, hflatten, ← hoffset]
    rfl
  . rfl

theorem foldlM_appendString {col : List StringArray} {strings : Chunked (List UInt8)}
    (hcol : List.Forall₂ StringArray.Holds col strings) {slice : List Nat} {g : Nat → List UInt8}
    (hslice : ∀ i ∈ slice, strings.flatten[i]? = some (g i)) {reserved : Nat} (built : List (List UInt8))
    (hroom : built.length + slice.length ≤ capacity reserved)
    : slice.foldlM (appendString capacity col ((List.range ((strings.map List.length).length + 1)).map fun i =>
          ((strings.map List.length).take i).sum) reserved) (builtStrings built)
        =
      some (builtStrings (built ++ slice.map g)) := by
  induction slice generalizing built with
  | nil => simp
  | cons i slice ih =>
    rw [List.length_cons] at hroom
    rw [List.foldlM_cons, appendString_eq hcol (hslice i (by simp)), if_pos (by omega), Option.bind_eq_bind,
      Option.bind_some, ih (fun j hj => hslice j (by simp [hj])) _ (by simp; omega)]
    simp

/--
The array of the strings, whose offsets wrap around.
-/
def stringArray (strings : List (List UInt8)) : StringArray :=
  ⟨strings.length, prefixOffsets strings ++ [BitVec.ofNat 32 strings.flatten.length], strings.flatten⟩

theorem stringArray_offsets (strings : List (List UInt8)) {k : Nat} (hk : k ≤ strings.length)
    : (stringArray strings).offsets[k]? = some (BitVec.ofNat 32 (strings.take k).flatten.length) := by
  have hoffsets : (stringArray strings).offsets
      = (List.range (strings.length + 1)).map fun k => BitVec.ofNat 32 (strings.take k).flatten.length := by
    rw [stringArray, prefixOffsets, List.range_succ, List.map_append, List.map_singleton, List.take_length]
  rw [hoffsets, List.getElem?_map, List.getElem?_range (by omega), Option.map_some]

theorem length_take_succ (strings : List (List UInt8)) {k : Nat} (hk : k < strings.length)
    : (strings.take (k + 1)).flatten.length = (strings.take k).flatten.length + strings[k].length := by
  rw [List.take_add_one, List.flatten_append, List.length_append, List.getElem?_eq_getElem hk]
  simp

/--
The bytes of a valid array can be numbered by an `int32_t`.
-/
theorem length_flatten_le {strings out : List (List UInt8)} (hstrings : ∀ s ∈ strings, s.length ≤ maxInt)
    (hvalues : (stringArray strings).values = some out)
    : strings.flatten.length ≤ maxInt := by
  have hall : ∀ k ≤ strings.length, (strings.take k).flatten.length ≤ maxInt := by
    intro k
    induction k with
    | zero => simp
    | succ k ih =>
      intro hk
      have hle := ih (by omega)
      obtain ⟨s, hs, -⟩ := Run.getElem?_mapM hvalues (List.getElem?_range hk)
      rw [StringArray.value, stringArray_offsets strings (by omega), stringArray_offsets strings (by omega)] at hs
      simp only [Option.bind_eq_bind, Option.bind_some] at hs
      split at hs
      . next hvalid =>
        have hmax : maxInt = 2147483647 := rfl
        have hlen := length_take_succ strings hk
        have hsize := hstrings strings[k] (List.getElem_mem hk)
        have hstop := hvalid.2.1
        rw [BitVec.toNat_ofNat, Nat.mod_eq_of_lt (by omega)] at hstop
        exact hstop
      . cases hs
  have hlast := hall strings.length (Nat.le_refl _)
  rwa [List.take_length] at hlast

theorem stringArray_values {strings : List (List UInt8)} (hle : strings.flatten.length ≤ maxInt)
    : (stringArray strings).values = some strings := by
  have hmax : maxInt = 2147483647 := rfl
  have hprefix : ∀ k, (strings.take k).flatten.length ≤ strings.flatten.length := by
    intro k
    have hsplit := congrArg (fun l => l.flatten.length) (List.take_append_drop k strings)
    simp only [List.flatten_append, List.length_append] at hsplit
    omega
  have hmap : (List.range strings.length).map (fun i => strings.getD i []) = strings := by
    apply List.ext_getElem
    . simp
    . intro i hi hi'
      simp [List.getD_eq_getElem?_getD, List.getElem?_eq_getElem hi']
  conv => rhs; rw [← hmap]
  apply Run.mapM_eq_some
  intro k hk
  have hk : k < strings.length := List.mem_range.mp hk
  have hlen := length_take_succ strings hk
  have hstart : (BitVec.ofNat 32 (strings.take k).flatten.length).toNat = (strings.take k).flatten.length := by
    have := hprefix k
    rw [BitVec.toNat_ofNat, Nat.mod_eq_of_lt (by omega)]
  have hstop : (BitVec.ofNat 32 (strings.take (k + 1)).flatten.length).toNat
      = (strings.take (k + 1)).flatten.length := by
    have := hprefix (k + 1)
    rw [BitVec.toNat_ofNat, Nat.mod_eq_of_lt (by omega)]
  have hbytes : (strings.flatten.drop (strings.take k).flatten.length).take strings[k].length = strings[k] := by
    have hsplit : strings = strings.take k ++ strings[k] :: strings.drop (k + 1) := by
      rw [← List.drop_eq_getElem_cons hk, List.take_append_drop]
    have hflat : strings.flatten = (strings.take k).flatten ++ (strings[k] ++ (strings.drop (k + 1)).flatten) := by
      conv => lhs; rw [hsplit]
      rw [List.flatten_append, List.flatten_cons]
    rw [hflat, List.drop_left, List.take_left]
  rw [StringArray.value, stringArray_offsets strings (by omega), stringArray_offsets strings (by omega)]
  simp only [Option.bind_eq_bind, Option.bind_some, hstart, hstop]
  rw [if_pos, hlen, Nat.add_sub_cancel_left]
  . rw [show (stringArray strings).data = strings.flatten from rfl, hbytes, List.getD_eq_getElem?_getD,
      List.getElem?_eq_getElem hk]
    rfl
  . have := hprefix (k + 1)
    refine ⟨by omega, by omega, ?_⟩
    exact hprefix (k + 1)

theorem stringArray_holds {strings : List (List UInt8)} (hle : strings.flatten.length ≤ maxInt)
    : (stringArray strings).Holds strings where
  length_eq := rfl
  values_eq := stringArray_values hle
  offsets := by simp [stringArray, prefixOffsets]

theorem applyIndicesInternalStr_eq {col : List StringArray} {strings : Chunked (List UInt8)}
    (hcol : List.Forall₂ StringArray.Holds col strings) (hcapacity : ∀ n, n ≤ capacity n) {indices : List Nat}
    (hint : indices.length / sliceLength * sliceLength ≤ maxInt) {g : Nat → List UInt8}
    (hindices : ∀ i ∈ indices, strings.flatten[i]? = some (g i)) {sliceI : Nat}
    (hi : sliceI < indices.length / sliceLength + 1) {slice : List Nat}
    (hslice : (indices.drop (sliceI * sliceLength)).take sliceLength = slice)
    : applyIndicesInternalStr capacity col ((List.range ((strings.map List.length).length + 1)).map fun i =>
          ((strings.map List.length).take i).sum) indices sliceI
        =
      if slice = [] ∨ slice.length < capacity slice.length then some (.string (stringArray (slice.map g))) else none := by
  have hvalues : ∀ i ∈ slice, strings.flatten[i]? = some (g i) := by
    rw [← hslice]
    exact fun i hi => hindices i (List.mem_of_mem_drop (List.mem_of_mem_take hi))
  rw [applyIndicesInternalStr, sliceOf_eq rfl hint hi, hslice]
  simp only [Option.bind_eq_bind, Option.bind_some]
  by_cases hnil : slice = []
  . subst hnil
    rfl
  . have hlast : col.mapM (fun chunk => chunk.offsets[chunk.length]?)
        = some (col.map fun chunk => chunk.offsets.getD chunk.length 0) := by
      apply Run.mapM_eq_some
      intro a ha
      obtain ⟨k, hk, rfl⟩ := List.getElem_of_mem ha
      obtain ⟨hlen, hget⟩ := List.forall₂_iff_get.mp hcol
      have hroom := (hget k hk (hlen ▸ hk)).offsets
      simp only [List.get_eq_getElem] at hroom
      rw [List.getD_eq_getElem?_getD, List.getElem?_eq_getElem hroom]
      rfl
    have hrun := foldlM_appendString hcol hvalues [] (by simpa using hcapacity slice.length)
    rw [if_neg hnil, hlast, Option.bind_some]
    have hnew : (⟨[], [], 0⟩ : StringBuilder) = builtStrings [] := rfl
    rw [hnew, hrun, Option.bind_some, List.nil_append, unsafeAppend]
    have hbuilt : (builtStrings (slice.map g)).offsets.length = slice.length := by
      simp [builtStrings, prefixOffsets]
    rw [hbuilt]
    by_cases hroom : slice.length < capacity slice.length
    . rw [if_pos hroom, if_pos (.inr hroom), stringArray, List.length_map]
      rfl
    . rw [if_neg hroom, if_neg (by simp [hnil, hroom])]
      rfl

/-! The whole gather. -/

def ChunkedArray.IsString : ChunkedArray → Prop
  | .string _ => True
  | _ => False

def byteLength : Value → Nat
  | .int64 _ => 0
  | .string bytes => bytes.length

/--
What is said of `apply_indices`: its chunks are the values of the indices, cut into slices of lengths that only depend
on the number of indices, and it makes the same chunks if the numbers of the chunks are given.
-/
def Gathers (capacity : Nat → Nat) (col : ChunkedArray) (values : Chunked Value) (indices : List Nat) : Prop :=
  ∃ out vals, applyIndices capacity col indices none = some out ∧ out.mapM OutArray.values = some vals ∧
    indices.mapM (fun i => values.flatten[i]?) = some vals.flatten ∧
    vals.map List.length = sliceLengths indices.length ∧
    ∀ indexChunks : List (BitVec 16), List.Forall₂ (fun i c => InChunk col.lengths i c.toNat) indices indexChunks →
      applyIndices capacity col indices (some indexChunks) = some out

/--
There is a chunk, the start of every slice is an `int`, and the bytes of the strings of a slice can be numbered by an
`int32_t`, with room for one more offset than there are strings.
-/
structure Fits (capacity : Nat → Nat) (col : ChunkedArray) (values : Chunked Value) (indices : List Nat) : Prop where
  chunks : col.lengths ≠ []
  starts : indices.length / sliceLength * sliceLength ≤ maxInt
  strings : col.IsString → ∀ slice ∈ slices indices, slice ≠ [] →
    (slice.map fun i => (values.flatten[i]?.map byteLength).getD 0).sum ≤ maxInt ∧
      slice.length < capacity slice.length

theorem gathers_of_slices {col : ChunkedArray} {values : Chunked Value} {indices : List Nat} {h : Nat → Value}
    {f : List Nat → OutArray} (happly : applyIndices capacity col indices none = some ((slices indices).map f))
    (hf : ∀ slice ∈ slices indices, (f slice).values = some (slice.map h))
    (hindices : ∀ i ∈ indices, values.flatten[i]? = some (h i))
    (hchunks : ∀ indexChunks : List (BitVec 16),
      List.Forall₂ (fun i c => InChunk col.lengths i c.toNat) indices indexChunks →
      applyIndices capacity col indices (some indexChunks) = some ((slices indices).map f))
    : Gathers capacity col values indices := by
  refine ⟨_, (slices indices).map (List.map h), happly, ?_, ?_, ?_, hchunks⟩
  . rw [List.mapM_map]
    exact Run.mapM_eq_some hf
  . rw [Run.mapM_eq_some hindices, ← List.map_flatten, flatten_slices]
  . rw [List.map_map, ← map_length_slices]
    apply List.map_congr_left
    intro slice _
    simp

theorem mapM_slices {β : Type} {indices : List Nat} {f : Nat → Option β} {g : List Nat → β}
    (h : ∀ i < indices.length / sliceLength + 1, f i = some (g ((indices.drop (i * sliceLength)).take sliceLength)))
    : (List.range (indices.length / sliceLength + 1)).mapM f = some ((slices indices).map g) := by
  rw [slices, List.map_map]
  apply Run.mapM_eq_some
  intro i hi
  exact h i (List.mem_range.mp hi)

theorem exists_strings {chunks : List StringArray} {values : Chunked Value}
    (h : (ChunkedArray.string chunks).Holds values)
    : ∃ strings : Chunked (List UInt8), List.Forall₂ StringArray.Holds chunks strings ∧
        values = strings.map (List.map Value.string) := by
  induction h with
  | nil => exact ⟨[], .nil, rfl⟩
  | cons ha _ ih =>
    obtain ⟨strings, hstrings, hvalues⟩ := ha
    obtain ⟨rest, hrest, hvalues'⟩ := ih
    exact ⟨strings :: rest, .cons hstrings hrest, by rw [hvalues, hvalues', List.map_cons]⟩

theorem gathers_numbers {α : Type} [Inhabited α] {widen : α → BitVec 64} {chunks : Chunked α} {col : ChunkedArray}
    (hlengths : col.lengths = chunks.map List.length) {indices : List Nat}
    (hnone : applyIndices capacity col indices none = (chunkRowOffsets (chunks.map List.length)).bind fun offsets =>
      (List.range (indices.length / sliceLength + 1)).mapM (applyIndicesInternal widen chunks offsets indices))
    (hsome : ∀ indexChunks, applyIndices capacity col indices (some indexChunks)
      = (chunkRowOffsets (chunks.map List.length)).bind fun offsets =>
        (List.range (indices.length / sliceLength + 1)).mapM
          (applyIndicesInternal2 widen chunks offsets indices indexChunks))
    (hrows : (chunks.map List.length).sum < 2 ^ 32) (hindices : ∀ i ∈ indices, i < (chunks.map List.length).sum)
    (hne : chunks.map List.length ≠ []) (hint : indices.length / sliceLength * sliceLength ≤ maxInt)
    : Gathers capacity col (chunks.map (List.map fun v => Value.int64 (widen v))) indices := by
  have hget : ∀ i ∈ indices, chunks.flatten[i]? = some (chunks.flatten.getD i default) := by
    intro i hi
    have hlt := hindices i hi
    rw [← List.length_flatten] at hlt
    rw [List.getD_eq_getElem?_getD, List.getElem?_eq_getElem hlt]
    rfl
  have hoffsets := chunkRowOffsets_eq hne hrows
  refine gathers_of_slices (h := fun i => .int64 (widen (chunks.flatten.getD i default)))
    (f := fun slice => .int64 (slice.map fun i => widen (chunks.flatten.getD i default))) ?_ ?_ ?_ ?_
  . rw [hnone, hoffsets, Option.bind_some]
    exact mapM_slices fun i hi => applyIndicesInternal_eq hint hget hi
  . intro slice _
    simp [OutArray.values]
  . intro i hi
    rw [← List.map_flatten, List.getElem?_map, hget i hi]
    rfl
  . intro indexChunks hchunks
    rw [hlengths] at hchunks
    rw [hsome, hoffsets, Option.bind_some]
    exact mapM_slices fun i hi => applyIndicesInternal2_eq hint hget hchunks hi

theorem applyIndices_int64 {col : Chunked (BitVec 64)} (hne : col ≠ []) (hrows : (col.map List.length).sum < 2 ^ 32)
    {indices : List Nat} (hindices : ∀ i ∈ indices, i < (col.map List.length).sum)
    (hint : indices.length / sliceLength * sliceLength ≤ maxInt) {indexChunks : Option (List Nat)}
    (hfound : LazyTable.ChunksFound (col.map List.length) indices indexChunks)
    (hchunks : ∀ chunks, indexChunks = some chunks → ∀ c ∈ chunks, c < 2 ^ 16)
    : applyIndices capacity (.int64 col) indices (indexChunks.map (List.map (BitVec.ofNat 16)))
        =
      (Hustle.Operators.applyIndices col indices indexChunks).map (List.map OutArray.int64) := by
  have hget : ∀ i ∈ indices, col.flatten[i]? = some (col.flatten.getD i 0) := by
    intro i hi
    have hlt := hindices i hi
    rw [← List.length_flatten] at hlt
    rw [List.getD_eq_getElem?_getD, List.getElem?_eq_getElem hlt]
    rfl
  rw [applyIndices_slices hne hget hfound, applyIndices, ChunkedArray.lengths,
    chunkRowOffsets_eq (by simpa using hne) hrows, Option.bind_eq_bind, Option.bind_some, Option.map_some,
    List.map_map]
  cases indexChunks with
  | none => exact mapM_slices fun i hi => applyIndicesInternal_eq hint hget hi
  | some chunks =>
    have hfound : List.Forall₂ (fun i (c : BitVec 16) => InChunk (col.map List.length) i c.toNat) indices
        (chunks.map (BitVec.ofNat 16)) := by
      rw [List.forall₂_map_right_iff]
      obtain ⟨hlen, hin⟩ := List.forall₂_iff_zip.mp (hfound chunks rfl)
      refine List.forall₂_iff_zip.mpr ⟨hlen, fun hx => ?_⟩
      rw [BitVec.toNat_ofNat, Nat.mod_eq_of_lt (hchunks chunks rfl _ (List.of_mem_zip hx).2)]
      exact hin hx
    exact mapM_slices fun i hi => applyIndicesInternal2_eq hint hget hfound hi

theorem lengths_of_holds {chunks : List StringArray} {strings : Chunked (List UInt8)}
    (h : List.Forall₂ StringArray.Holds chunks strings)
    : (ChunkedArray.string chunks).lengths = strings.map List.length := by
  induction h with
  | nil => rfl
  | cons ha _ ih =>
    simp only [ChunkedArray.lengths, List.map_cons] at ih ⊢
    rw [ih, ha.length_eq]

theorem length_le_of_mem {chunks : List StringArray} {strings : Chunked (List UInt8)}
    (h : List.Forall₂ StringArray.Holds chunks strings) {s : List UInt8} (hs : s ∈ strings.flatten)
    : s.length ≤ maxInt := by
  induction h with
  | nil => cases hs
  | cons ha _ ih =>
    rcases List.mem_append.mp hs with hs | hs
    . obtain ⟨k, hk, rfl⟩ := List.getElem_of_mem hs
      exact ha.length_le hk
    . exact ih hs

theorem sum_byteLength {values : List Value} {slice : List Nat} {g : Nat → List UInt8}
    (h : ∀ i ∈ slice, values[i]? = some (.string (g i)))
    : (slice.map fun i => (values[i]?.map byteLength).getD 0).sum = (slice.map g).flatten.length := by
  rw [List.length_flatten, List.map_map]
  congr 1
  apply List.map_congr_left
  intro i hi
  rw [h i hi]
  rfl

/--
What has been gathered had a chunk and slices that start at an `int`.
-/
theorem starts_of_applyIndices {col : ChunkedArray} {indices : List Nat} {indexChunks : Option (List (BitVec 16))}
    {out : List OutArray} (h : applyIndices capacity col indices indexChunks = some out)
    : col.lengths ≠ [] ∧ indices.length / sliceLength * sliceLength ≤ maxInt := by
  obtain ⟨offsets, hoffsets, hrun⟩ := Option.bind_eq_some_iff.mp h
  refine ⟨?_, ?_⟩
  . intro hnil
    rw [chunkRowOffsets, if_pos hnil] at hoffsets
    cases hoffsets
  . by_contra hint
    have hnone : ∀ {α : Type} (arr : List α), sliceOf arr indices.length (indices.length / sliceLength) = none :=
      fun arr => sliceOf_eq_none (Nat.lt_of_not_le hint)
    obtain ⟨y, hy, -⟩ := Run.getElem?_mapM hrun (List.getElem?_range (Nat.lt_succ_self _))
    cases col <;> cases indexChunks <;>
      simp [applyIndicesInternal, applyIndicesInternal2, applyIndicesInternalStr, hnone] at hy

/-! The rows of a column of strings. -/

section

variable {chunks : List StringArray} {strings : Chunked (List UInt8)} {indices : List Nat}

theorem getElem?_strings (hindices : ∀ i ∈ indices, i < (strings.map List.length).sum)
    : ∀ i ∈ indices, strings.flatten[i]? = some (strings.flatten.getD i []) := by
  intro i hi
  have hlt := hindices i hi
  rw [← List.length_flatten] at hlt
  rw [List.getD_eq_getElem?_getD, List.getElem?_eq_getElem hlt]
  rfl

theorem getElem?_stringValues (hindices : ∀ i ∈ indices, i < (strings.map List.length).sum)
    : ∀ i ∈ indices, (strings.map (List.map Value.string)).flatten[i]? = some (.string (strings.flatten.getD i [])) := by
  intro i hi
  rw [← List.map_flatten, List.getElem?_map, getElem?_strings hindices i hi]
  rfl

theorem sum_byteLength_slice (hindices : ∀ i ∈ indices, i < (strings.map List.length).sum) {slice : List Nat}
    (hslice : slice ∈ slices indices)
    : (slice.map fun i => ((strings.map (List.map Value.string)).flatten[i]?.map byteLength).getD 0).sum
        = (slice.map fun i => strings.flatten.getD i []).flatten.length := by
  apply sum_byteLength
  intro i hi
  apply getElem?_stringValues hindices
  rw [← flatten_slices indices]
  exact List.mem_flatten_of_mem hslice hi

theorem applyIndices_string (hcol : List.Forall₂ StringArray.Holds chunks strings)
    (hrows : (strings.map List.length).sum < 2 ^ 32) (hne : strings.map List.length ≠ [])
    (indexChunks : Option (List (BitVec 16)))
    : applyIndices capacity (.string chunks) indices indexChunks
        = (List.range (indices.length / sliceLength + 1)).mapM (applyIndicesInternalStr capacity chunks
          ((List.range ((strings.map List.length).length + 1)).map fun i => ((strings.map List.length).take i).sum)
          indices) := by
  rw [applyIndices, lengths_of_holds hcol, chunkRowOffsets_eq hne hrows]
  cases indexChunks <;> rfl

theorem stringsFit_of_applyIndices (hcol : List.Forall₂ StringArray.Holds chunks strings)
    (hcapacity : ∀ n, n ≤ capacity n) (hrows : (strings.map List.length).sum < 2 ^ 32)
    (hindices : ∀ i ∈ indices, i < (strings.map List.length).sum) (hne : strings.map List.length ≠ [])
    (hint : indices.length / sliceLength * sliceLength ≤ maxInt) {indexChunks : Option (List (BitVec 16))}
    {out : List OutArray} {vals : Chunked Value}
    (hout : applyIndices capacity (.string chunks) indices indexChunks = some out)
    (hvals : out.mapM OutArray.values = some vals)
    : ∀ slice ∈ slices indices, slice ≠ [] →
        (slice.map fun i => ((strings.map (List.map Value.string)).flatten[i]?.map byteLength).getD 0).sum ≤ maxInt ∧
          slice.length < capacity slice.length := by
  intro slice hmem hnil
  rw [applyIndices_string hcol hrows hne] at hout
  rw [sum_byteLength_slice hindices hmem]
  obtain ⟨i, hi, rfl⟩ := List.mem_map.mp hmem
  obtain ⟨y, hy, hyout⟩ := Run.getElem?_mapM hout (List.getElem?_range (List.mem_range.mp hi))
  rw [applyIndicesInternalStr_eq hcol hcapacity hint (getElem?_strings hindices) (List.mem_range.mp hi) rfl] at hy
  split at hy
  . next hroom =>
    cases hy
    obtain ⟨v, hv, -⟩ := Run.getElem?_mapM hvals hyout
    obtain ⟨read, hread, -⟩ := Option.map_eq_some_iff.mp hv
    refine ⟨length_flatten_le ?_ hread, hroom.resolve_left hnil⟩
    intro s hs
    obtain ⟨j, hj, rfl⟩ := List.mem_map.mp hs
    have hj := getElem?_strings hindices j (List.mem_of_mem_drop (List.mem_of_mem_take hj))
    exact length_le_of_mem hcol (List.mem_of_getElem? hj)
  . cases hy

theorem applyIndices_stringArray (hcol : List.Forall₂ StringArray.Holds chunks strings) (hcapacity : ∀ n, n ≤ capacity n)
    (hrows : (strings.map List.length).sum < 2 ^ 32) (hindices : ∀ i ∈ indices, i < (strings.map List.length).sum)
    (hne : strings.map List.length ≠ []) (hint : indices.length / sliceLength * sliceLength ≤ maxInt)
    (hroom : ∀ slice ∈ slices indices, slice ≠ [] → slice.length < capacity slice.length)
    (indexChunks : Option (List (BitVec 16)))
    : applyIndices capacity (.string chunks) indices indexChunks
        = some ((slices indices).map fun slice =>
          OutArray.string (stringArray (slice.map fun i => strings.flatten.getD i []))) := by
  rw [applyIndices_string hcol hrows hne]
  apply mapM_slices
  intro i hi
  rw [applyIndicesInternalStr_eq hcol hcapacity hint (getElem?_strings hindices) hi rfl, if_pos]
  by_cases hnil : (indices.drop (i * sliceLength)).take sliceLength = []
  . exact .inl hnil
  . exact .inr (hroom _ (List.mem_map.mpr ⟨i, List.mem_range.mpr hi, rfl⟩) hnil)

theorem values_gathered (hindices : ∀ i ∈ indices, i < (strings.map List.length).sum) {slice : List Nat}
    (hslice : slice ∈ slices indices)
    (hfits : slice ≠ [] →
      (slice.map fun i => ((strings.map (List.map Value.string)).flatten[i]?.map byteLength).getD 0).sum ≤ maxInt)
    : (stringArray (slice.map fun i => strings.flatten.getD i [])).values
        = some (slice.map fun i => strings.flatten.getD i []) := by
  apply stringArray_values
  rw [← sum_byteLength_slice hindices hslice]
  by_cases hnil : slice = []
  . simp [hnil]
  . exact hfits hnil

theorem gathers_string (hcol : List.Forall₂ StringArray.Holds chunks strings) (hcapacity : ∀ n, n ≤ capacity n)
    (hrows : (strings.map List.length).sum < 2 ^ 32) (hindices : ∀ i ∈ indices, i < (strings.map List.length).sum)
    (hne : strings.map List.length ≠ []) (hint : indices.length / sliceLength * sliceLength ≤ maxInt)
    (hfits : ∀ slice ∈ slices indices, slice ≠ [] →
      (slice.map fun i => ((strings.map (List.map Value.string)).flatten[i]?.map byteLength).getD 0).sum ≤ maxInt ∧
        slice.length < capacity slice.length)
    : Gathers capacity (.string chunks) (strings.map (List.map Value.string)) indices := by
  have hall := @applyIndices_stringArray capacity chunks strings indices hcol hcapacity hrows hindices hne hint
    fun slice hslice hnil => (hfits slice hslice hnil).2
  refine gathers_of_slices (h := fun i => .string (strings.flatten.getD i [])) (hall none) ?_
    (getElem?_stringValues hindices) fun indexChunks _ => hall (some indexChunks)
  intro slice hmem
  rw [OutArray.values, values_gathered hindices hmem fun hnil => (hfits slice hmem hnil).1]
  simp

end

theorem fits_of_applyIndices {col : ChunkedArray} {values : Chunked Value} (hcol : col.Holds values)
    (hrows : col.lengths.sum < 2 ^ 32) (hcapacity : ∀ n, n ≤ capacity n) {indices : List Nat}
    (hindices : ∀ i ∈ indices, i < col.lengths.sum) {indexChunks : Option (List (BitVec 16))} {out : List OutArray}
    {vals : Chunked Value} (hout : applyIndices capacity col indices indexChunks = some out)
    (hvals : out.mapM OutArray.values = some vals)
    : Fits capacity col values indices := by
  obtain ⟨hne, hint⟩ := starts_of_applyIndices hout
  refine ⟨hne, hint, fun hstring => ?_⟩
  cases col with
  | int64 => exact hstring.elim
  | uint32 => exact hstring.elim
  | string chunks =>
    obtain ⟨strings, hstrings, rfl⟩ := exists_strings hcol
    rw [lengths_of_holds hstrings] at hrows hindices hne
    exact stringsFit_of_applyIndices hstrings hcapacity hrows hindices hne hint hout hvals

theorem gathers_of_fits {col : ChunkedArray} {values : Chunked Value} (hcol : col.Holds values)
    (hrows : col.lengths.sum < 2 ^ 32) (hcapacity : ∀ n, n ≤ capacity n) {indices : List Nat}
    (hindices : ∀ i ∈ indices, i < col.lengths.sum) (h : Fits capacity col values indices)
    : Gathers capacity col values indices := by
  cases col with
  | int64 chunks =>
    cases hcol
    exact @gathers_numbers capacity _ _ id chunks _ rfl _ rfl (fun _ => rfl) hrows hindices h.chunks h.starts
  | uint32 chunks =>
    cases hcol
    exact @gathers_numbers capacity _ _ (BitVec.setWidth 64) chunks _ rfl _ rfl (fun _ => rfl) hrows hindices h.chunks
      h.starts
  | string chunks =>
    obtain ⟨strings, hstrings, rfl⟩ := exists_strings hcol
    have hne := h.chunks
    rw [lengths_of_holds hstrings] at hrows hindices hne
    exact gathers_string hstrings hcapacity hrows hindices hne h.starts (h.strings trivial)

/--
`apply_indices` is a gather exactly if the column has a chunk and the indices and their strings fit.
-/
theorem gathers_iff {col : ChunkedArray} {values : Chunked Value} (hcol : col.Holds values)
    (hrows : col.lengths.sum < 2 ^ 32) (hcapacity : ∀ n, n ≤ capacity n) {indices : List Nat}
    (hindices : ∀ i ∈ indices, i < col.lengths.sum)
    : Gathers capacity col values indices ↔ Fits capacity col values indices := by
  constructor
  . rintro ⟨out, vals, hout, hvals, -⟩
    exact fits_of_applyIndices hcol hrows hcapacity hindices hout hvals
  . exact gathers_of_fits hcol hrows hcapacity hindices

/--
The room for offsets of four bytes in a buffer of a multiple of 64 bytes.
-/
def paddedCapacity (n : Nat) : Nat :=
  (n + 15) / 16 * 16

theorem le_paddedCapacity (n : Nat) : n ≤ paddedCapacity n := by
  unfold paddedCapacity
  omega

/--
The strings `a` and `bc` in one chunk, no string in the next one, and `d`.
-/
def letterColumn : ChunkedArray :=
  .string [⟨2, [0, 1, 3], [97, 98, 99]⟩, ⟨0, [0], []⟩, ⟨1, [0, 1], [100]⟩]

def letterValues : Chunked Value :=
  [[.string [97], .string [98, 99]], [], [.string [100]]]

theorem letterColumn_holds : letterColumn.Holds letterValues :=
  .cons ⟨[[97], [98, 99]], ⟨rfl, by decide, by decide⟩, rfl⟩
    (.cons ⟨[], ⟨rfl, by decide, by decide⟩, rfl⟩ (.cons ⟨[[100]], ⟨rfl, by decide, by decide⟩, rfl⟩ .nil))

theorem gathers_iff_letterColumn : Gathers paddedCapacity letterColumn letterValues [2, 0, 2, 1] :=
  (gathers_iff letterColumn_holds (by decide) le_paddedCapacity (by decide)).mpr
    ⟨by decide, by decide, fun _ => by decide⟩

/--
A column without a chunk, and sixteen times the same string, whose offsets have no room for one more.
-/
theorem not_gathers
    : ¬Gathers paddedCapacity (.int64 []) [] [] ∧
      ¬Gathers paddedCapacity letterColumn letterValues (List.replicate 16 0) := by
  constructor
  . rintro ⟨out, _, hout, -⟩
    exact (starts_of_applyIndices hout).1 rfl
  . rintro ⟨out, _, hout, -⟩
    have hnone : applyIndices paddedCapacity letterColumn (List.replicate 16 0) none = none := by decide
    rw [hnone] at hout
    cases hout

end Context

end Hustle.Operators
