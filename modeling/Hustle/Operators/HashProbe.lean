import Hustle.Operators.LazyTable

/-!
This module contains the probe phase that `HashJoin` and `MultiwayJoin` have in common. Batches of chunks are
probed by tasks of their own, every chunk has a list of the pairs of rows that were joined.
-/

namespace Hustle.Operators

namespace HashTable

/--
`ProbeHashTableBlock` for one chunk of the column.
-/
def probeChunk (t : HashTable) (probeCol : Chunked (BitVec 64)) (probeFilter : Option (Chunked Bool))
    (offsets : List Nat) (i : Nat) : Option (List (Nat × Nat)) := do
  let chunk ← probeCol[i]?
  let offset ← offsets[i]?
  let rows ←
    match probeFilter with
    | none => some (numbered offset i chunk)
    | some f => do
      let bits ← f[i]?
      selectBits (numbered offset i chunk) bits
  return rows.flatMap fun x => (t.find x.2).map fun r => (x.1.index, r.index)

def probeBatch (t : HashTable) (probeCol : Chunked (BitVec 64)) (probeFilter : Option (Chunked Bool))
    (offsets : List Nat) (size : Nat) (out : List (List (Nat × Nat))) (batch : Nat)
    : Option (List (List (Nat × Nat))) :=
  (batchChunks size probeCol.length batch).foldlM
    (fun out i => do
      let pairs ← t.probeChunk probeCol probeFilter offsets i
      return out.set i pairs)
    out

/--
The lists of all chunks one after the other. `size` is the number of chunks of a batch, which depends on the
number of chunks.
-/
def probe (t : HashTable) (probeCol : Chunked (BitVec 64)) (probeFilter : Option (Chunked Bool)) (size : Nat → Nat)
    : Option (List (Nat × Nat)) := do
  let offsets ← chunkRowOffsets probeCol
  let size := batchSize (size probeCol.length) probeCol.length
  let out ← (List.range (numBatches size probeCol.length)).foldlM
    (t.probeBatch probeCol probeFilter offsets size) (List.replicate probeCol.length [])
  return out.flatten

/-! All chunks are probed. -/

theorem getElem?_numberedFrom {col : Chunked α} {offset first i : Nat} {chunk : List α}
    (h : col[i]? = some chunk)
    : (numberedFrom offset first col)[i]?
        =
      some (numbered (offset + (col.take i).flatten.length) (first + i) chunk) := by
  induction col generalizing offset first i with
  | nil => simp at h
  | cons c cs ih =>
    cases i with
    | zero =>
      cases h
      simp [numberedFrom]
    | succ i =>
      rw [List.getElem?_cons_succ] at h
      simp only [numberedFrom, List.getElem?_cons_succ, ih h, List.take_succ_cons, List.flatten_cons,
        List.length_append]
      congr 2 <;> omega

theorem length_numberedFrom (offset first : Nat) (col : Chunked α)
    : (numberedFrom offset first col).length = col.length := by
  induction col generalizing offset first with
  | nil => rfl
  | cons c cs ih => simp [numberedFrom, ih]

theorem getElem?_selectChunks {cs out : Chunked α} {fs : Chunked Bool} (h : selectChunks cs fs = some out)
    {i : Nat} {c : List α} (hc : cs[i]? = some c)
    : ∃ f sel, fs[i]? = some f ∧ selectBits c f = some sel ∧ out[i]? = some sel := by
  induction cs generalizing fs out i with
  | nil => simp at hc
  | cons c' cs ih =>
    cases fs with
    | nil => cases h
    | cons f' fs =>
      obtain ⟨sel, hsel, h⟩ := Option.bind_eq_some_iff.mp h
      obtain ⟨rest, hrest, h⟩ := Option.bind_eq_some_iff.mp h
      cases h
      cases i with
      | zero =>
        cases hc
        exact ⟨f', sel, rfl, hsel, rfl⟩
      | succ i => exact ih hrest hc

theorem length_selectChunks {cs out : Chunked α} {fs : Chunked Bool} (h : selectChunks cs fs = some out)
    : out.length = cs.length := by
  induction cs generalizing fs out with
  | nil =>
    cases h
    rfl
  | cons c cs ih =>
    cases fs with
    | nil => cases h
    | cons f fs =>
      obtain ⟨sel, -, h⟩ := Option.bind_eq_some_iff.mp h
      obtain ⟨rest, hrest, h⟩ := Option.bind_eq_some_iff.mp h
      cases h
      rw [List.length_cons, List.length_cons, ih hrest]

def pairs (t : HashTable) (rows : List (RecordID × BitVec 64)) : List (Nat × Nat) :=
  rows.flatMap fun x => (t.find x.2).map fun r => (x.1.index, r.index)

theorem pairs_flatten (t : HashTable) (rows : Chunked (RecordID × BitVec 64))
    : t.pairs rows.flatten = (rows.map t.pairs).flatten := by
  unfold pairs
  rw [← List.flatMap_def, ← List.flatMap_id, List.flatMap_assoc]
  rfl

theorem probeChunk_eq {t : HashTable} {col : Chunked (BitVec 64)} {filter : Option (Chunked Bool)}
    {selected : Chunked (RecordID × BitVec 64)} (hsel : applyFilter (numberedFrom 0 0 col) filter = some selected)
    {i : Nat} (hi : i < col.length)
    : t.probeChunk col filter (rowOffsetsFrom 0 col) i = some (t.pairs (selected.getD i [])) := by
  have hchunk := List.getElem?_eq_getElem hi
  have hnumbered := @getElem?_numberedFrom _ _ 0 0 _ _ hchunk
  rw [Nat.zero_add, Nat.zero_add] at hnumbered
  simp only [probeChunk, hchunk, getElem?_rowOffsetsFrom hi, Nat.zero_add, Option.bind_eq_bind,
    Option.bind_some]
  cases filter with
  | none =>
    cases hsel
    simp [hnumbered, pairs]
  | some f =>
    obtain ⟨bits, sel, hbits, hselect, hget⟩ := getElem?_selectChunks hsel hnumbered
    simp only [hbits, hselect, hget, Option.bind_some, List.getD_eq_getElem?_getD, Option.getD_some]
    rfl

theorem length_applyFilter {cs out : Chunked α} {filter : Option (Chunked Bool)}
    (h : applyFilter cs filter = some out)
    : out.length = cs.length := by
  cases filter with
  | none =>
    cases h
    rfl
  | some f => exact length_selectChunks h

/--
The list of a chunk has the pairs of its rows that pass the filter.
-/
def Stored (t : HashTable) (selected : Chunked (RecordID × BitVec 64)) (i : Nat) (out : List (List (Nat × Nat)))
    : Prop :=
  out[i]? = some (t.pairs (selected.getD i []))

theorem probeBatch_stored {t : HashTable} {col : Chunked (BitVec 64)} {filter : Option (Chunked Bool)} {size : Nat}
    {selected : Chunked (RecordID × BitVec 64)} (hsize : 0 < size)
    (hsel : applyFilter (numberedFrom 0 0 col) filter = some selected) (out : List (List (Nat × Nat)))
    (batch : Nat) (hout : out.length = col.length)
    : ∃ out', t.probeBatch col filter (rowOffsetsFrom 0 col) size out batch = some out' ∧
        out'.length = col.length ∧
        (∀ i ∈ batchChunks size col.length batch, t.Stored selected i out') ∧
        ∀ i, i ∉ batchChunks size col.length batch → t.Stored selected i out → t.Stored selected i out' := by
  have hstep : ∀ out i, i ∈ batchChunks size col.length batch → out.length = col.length →
      (0 < 0 → t.Stored selected i out) →
      ∃ out', (do
          let pairs ← t.probeChunk col filter (rowOffsetsFrom 0 col) i
          return out.set i pairs) = some out' ∧ out'.length = col.length ∧
        (0 < 0 + 1 → t.Stored selected i out') ∧
        ∀ i' k, i' ≠ i → (0 < k → t.Stored selected i' out) → 0 < k → t.Stored selected i' out' := by
    intro out i hi hinv _
    have hlt := ((mem_batchChunks hsize).mp hi).2.2
    refine ⟨out.set i (t.pairs (selected.getD i [])), ?_, ?_, ?_, ?_⟩
    . rw [probeChunk_eq hsel hlt]
      rfl
    . rw [List.length_set]
      exact hinv
    . intro _
      exact List.getElem?_set_self (by omega)
    . intro i' k hne h hk
      unfold Stored
      rw [List.getElem?_set_ne (Ne.symm hne)]
      exact h hk
  obtain ⟨out', hout', hinv, hnew, hkeep⟩ := Run.foldlM_stage
    (P := fun j i out => 0 < j → t.Stored selected i out)
    (batchChunks_nodup size col.length batch) hstep hout (fun i _ h => absurd h (Nat.lt_irrefl 0))
  exact ⟨out', hout', hinv, fun i hi => hnew i hi Nat.one_pos,
    fun i hi h => hkeep i 1 hi (fun _ => h) Nat.one_pos⟩

theorem probe_eq {t : HashTable} {col : Chunked (BitVec 64)} {filter : Option (Chunked Bool)} {size : Nat → Nat}
    {selected : Chunked (RecordID × BitVec 64)} (hcol : col ≠ [])
    (hsel : applyFilter (numberedFrom 0 0 col) filter = some selected)
    : t.probe col filter size = some (t.pairs selected.flatten) := by
  have hsize := batchSize_pos (List.length_pos_iff.mpr hcol) (size col.length)
  have hlength : selected.length = col.length := by
    rw [length_applyFilter hsel, length_numberedFrom]
  obtain ⟨out, hout, hinv, hall⟩ := foldlM_batches hsize (probeBatch_stored hsize hsel)
    (s := List.replicate col.length []) List.length_replicate
  have heq : out = selected.map t.pairs := by
    apply List.ext_getElem?
    intro i
    rw [List.getElem?_map]
    by_cases hi : i < col.length
    . have := hall i hi
      unfold Stored at this
      rw [this, List.getD_eq_getElem?_getD, List.getElem?_eq_getElem (show i < selected.length by omega)]
      rfl
    . rw [List.getElem?_eq_none (by omega), List.getElem?_eq_none (by omega), Option.map_none]
  simp only [probe, chunkRowOffsets, if_neg hcol, Option.bind_eq_bind, Option.bind_some, hout]
  rw [heq, pairs_flatten]
  rfl

theorem probe_eq_some {t : HashTable} {m : BitVec 64 → List Nat} (ht : ∀ key, (t.find key).map RecordID.index = m key)
    {col : Chunked (BitVec 64)} {filter : Option (Chunked Bool)} (hcol : col ≠ []) (h : Aligned col filter)
    (size : Nat → Nat)
    : t.probe col filter size
        =
      some ((col.flatten.zipIdx.filter fun x => decide (Passes filter x.2)).flatMap
        fun x => (m x.1).map fun r => (x.2, r)) := by
  obtain ⟨selected, hsel, hflat⟩ := applyFilter_numberedFrom h
  have hpairs : ∀ x : RecordID × BitVec 64,
      ((t.find x.2).map fun r => (x.1.index, r.index)) = (m x.2).map fun r => (x.1.index, r) := by
    intro x
    rw [← ht, List.map_map]
    rfl
  rw [probe_eq hcol hsel, hflat, pairs, ← numberedFrom_map_index 0 0 col, List.filter_map, List.flatMap_map]
  simp only [hpairs, Function.comp_def]

end HashTable

end Hustle.Operators
