import Hustle.Operators.ApplyIndices
import Hustle.Util.Memo

/-!
This module contains the two ways to materialize a column of a lazy table. One applies the filter or the indices of
the lazy table, the other one only the indices. They share a cache that has one place for every column.
-/

namespace Hustle.Operators

/--
A table as its columns are read, together with the values in them. All columns have the chunks of the blocks.
-/
structure StoredTable where
  chunkLengths : List Nat
  columns : List Context.ChunkedArray
  values : List (Chunked Value)
  holds : List.Forall₂ Context.ChunkedArray.Holds columns values
  aligned : ∀ col ∈ columns, col.lengths = chunkLengths
  rows : chunkLengths.sum < 2 ^ 31

/--
`arrow::compute::Filter` and `arrow::compute::Take`. How they cut their results into chunks is left open.
-/
structure Kernels where
  filter : Chunked Value → Chunked Bool → Option (Chunked Value)
  take : Chunked Value → List Nat → Option (Chunked Value)
  filter_eq : ∀ col bits, bits.flatten.length = col.flatten.length → ∃ out, filter col bits = some out ∧
    out.flatten = ((col.flatten.zip bits.flatten).filter Prod.snd).map Prod.fst
  take_eq : ∀ col indices, (∀ i ∈ indices, i < col.flatten.length) → ∃ out, take col indices = some out ∧
    indices.mapM (fun i => col.flatten[i]?) = some out.flatten

namespace StoredTable

/--
`get_column`, a null pointer if there is no block.
-/
def getColumn (table : StoredTable) (i : Nat) : Option Context.ChunkedArray :=
  if table.chunkLengths = [] then none else table.columns[i]?

theorem getColumn_eq_some {table : StoredTable} {i : Nat} {col : Context.ChunkedArray}
    (h : table.getColumn i = some col)
    : table.chunkLengths ≠ [] ∧ table.columns[i]? = some col ∧ col.lengths = table.chunkLengths := by
  unfold getColumn at h
  split at h
  . cases h
  . next hne => exact ⟨hne, h, table.aligned col (List.mem_of_getElem? h)⟩

theorem exists_values {table : StoredTable} {i : Nat} {col : Context.ChunkedArray} (h : table.columns[i]? = some col)
    : ∃ values, table.values[i]? = some values ∧ col.Holds values := by
  obtain ⟨hi, hcol⟩ := List.getElem?_eq_some_iff.mp h
  obtain ⟨hlen, hget⟩ := List.forall₂_iff_get.mp table.holds
  refine ⟨table.values[i], List.getElem?_eq_getElem (hlen ▸ hi), ?_⟩
  have := hget i hi (hlen ▸ hi)
  rw [List.get_eq_getElem, List.get_eq_getElem, hcol] at this
  exact this

end StoredTable

theorem Context.ChunkedArray.length_of_holds {col : Context.ChunkedArray} {values : Chunked Value}
    (h : col.Holds values)
    : values.flatten.length = col.lengths.sum := by
  cases col with
  | int64 chunks =>
    cases h
    rw [Context.ChunkedArray.lengths, ← List.map_flatten, List.length_map, List.length_flatten]
  | uint32 chunks =>
    cases h
    rw [Context.ChunkedArray.lengths, ← List.map_flatten, List.length_map, List.length_flatten]
  | string chunks =>
    obtain ⟨strings, hstrings, rfl⟩ := Context.exists_strings h
    rw [Context.lengths_of_holds hstrings, ← List.map_flatten, List.length_map, List.length_flatten]

/-! The calls. -/

/--
The two overloads, with the number of a column.
-/
inductive MaterializeCall where
  | active (i : Nat)
  | unfiltered (i : Nat)
  deriving DecidableEq

def MaterializeCall.column : MaterializeCall → Nat
  | active i => i
  | unfiltered i => i

namespace LazyTable

/--
There is a filter or there are indices, and they are for the rows of the table.
-/
structure Valid (t : LazyTable) (chunkLengths : List Nat) : Prop where
  one : t.filter = none ∨ t.indices = none
  filter : ∀ bits, t.filter = some bits → bits.flatten.length = chunkLengths.sum
  indices : ∀ indices, t.indices = some indices → ∀ i ∈ indices, i < chunkLengths.sum
  indexChunks : ∀ indices chunks, t.indices = some indices → t.indexChunks = some chunks →
    List.Forall₂ (fun i c => Context.InChunk chunkLengths i (BitVec.ofNat 16 c).toNat) indices chunks

section

variable (kernels : Kernels) (capacity : Nat → Nat) (table : StoredTable)

/--
`MaterializeColumn(i)` for a column that has not been materialized.
-/
def materializeActive (t : LazyTable) (i : Nat) : Option (Chunked Value) := do
  let _ ← table.getColumn i
  let col ← table.values[i]?
  match t.filter, t.indices with
  | some bits, _ => kernels.filter col bits
  | none, some indices => kernels.take col indices
  | none, none => return col

/--
`MaterializeColumn(ctx, i, out)` for a column that has not been materialized.
-/
def materializeUnfiltered (t : LazyTable) (i : Nat) : Option (Chunked Value) := do
  let col ← table.getColumn i
  match t.indices with
  | none => table.values[i]?
  | some indices => do
    let out ← Context.applyIndices capacity col indices (t.indexChunks.map (List.map (BitVec.ofNat 16)))
    out.mapM Context.OutArray.values

def materialize (t : LazyTable) : MaterializeCall → Option (Chunked Value)
  | .active i => t.materializeActive kernels table i
  | .unfiltered i => t.materializeUnfiltered capacity table i

end

/-! What the calls mean. -/

/--
The rows that a call is for, of a table with `n` rows.
-/
def rowsOf (t : LazyTable) (n : Nat) : MaterializeCall → List Nat
  | .active _ => t.indices.getD ((List.range n).filter fun row => Passes t.filter row)
  | .unfiltered _ => t.indices.getD (List.range n)

/--
The column has the values of the rows that the call is for.
-/
def Materializes (table : StoredTable) (t : LazyTable) (c : MaterializeCall) (out : Chunked Value) : Prop :=
  ∃ values, table.values[c.column]? = some values ∧
    (t.rowsOf table.chunkLengths.sum c).mapM (fun row => values.flatten[row]?) = some out.flatten

/--
Every call of a run from a lazy table that has not materialized a column returns what it is for. `materialized_cols_`
is looked at first, whatever the call.
-/
def AlwaysMaterializes (kernels : Kernels) (capacity : Nat → Nat) (table : StoredTable) (t : LazyTable)
    (calls : List MaterializeCall) : Prop :=
  Run.Always (Memo.step MaterializeCall.column (t.materialize kernels capacity table)) (fun _ => True)
    (Memo.Answers MaterializeCall.column (t.materialize kernels capacity table) (Materializes table t)) (fun _ => none)
    calls

def KeepsAll (t : LazyTable) : Prop :=
  ∀ bits, t.filter = some bits → ∀ b ∈ bits.flatten, b = true

/--
What `apply_indices` gathers from the column, if there are indices, fits.
-/
def FitsColumn (capacity : Nat → Nat) (table : StoredTable) (t : LazyTable) (i : Nat) : Prop :=
  ∀ indices, t.indices = some indices → ∀ col values, table.columns[i]? = some col → table.values[i]? = some values →
    Context.Fits capacity col values indices

/--
There is a block if there is a call; no column is materialized in both ways unless the filter keeps all rows; and
where the first call on a column applies only the indices, they fit.
-/
structure Consistent (capacity : Nat → Nat) (table : StoredTable) (t : LazyTable) (calls : List MaterializeCall)
    : Prop where
  blocks : calls = [] ∨ table.chunkLengths ≠ []
  history : t.KeepsAll ∨ ∀ i, .active i ∈ calls → .unfiltered i ∉ calls
  fits : ∀ i, (calls.find? fun c => c.column = i) = some (.unfiltered i) → t.FitsColumn capacity table i

/-! One call. -/

theorem mapM_rows {α : Type} (values : List α) (p : Nat → Bool)
    : ((List.range values.length).filter p).mapM (fun row => values[row]?)
        =
      some ((values.zipIdx.filter fun x => p x.2).map Prod.fst) := by
  have hrows : (List.range values.length).filter p = (values.zipIdx.filter fun x => p x.2).map Prod.snd := by
    rw [List.range_eq_range', ← List.zipIdx_map_snd 0 values, List.filter_map]
    rfl
  rw [hrows, List.mapM_map]
  apply Run.mapM_eq_some
  intro x hx
  exact List.mem_zipIdx_iff_getElem?.mp (List.mem_of_mem_filter hx)

theorem mapM_allRows {α : Type} (values : List α)
    : (List.range values.length).mapM (fun row => values[row]?) = some values := by
  have h := mapM_rows values fun _ => true
  rw [List.filter_true, List.filter_true, List.zipIdx_map_fst] at h
  exact h

section

variable {kernels : Kernels} {capacity : Nat → Nat} {table : StoredTable} {t : LazyTable} {i : Nat}

theorem exists_materializeActive (hvalid : t.Valid table.chunkLengths) (hblocks : table.chunkLengths ≠ [])
    (hi : i < table.columns.length)
    : ∃ out, t.materializeActive kernels table i = some out ∧ Materializes table t (.active i) out := by
  have hcol := List.getElem?_eq_getElem hi
  obtain ⟨values, hvalues, hholds⟩ := StoredTable.exists_values hcol
  have hlen := Context.ChunkedArray.length_of_holds hholds
  rw [table.aligned _ (List.getElem_mem hi)] at hlen
  unfold Materializes materializeActive
  rw [StoredTable.getColumn, if_neg hblocks, hcol, MaterializeCall.column, hvalues, Option.bind_eq_bind,
    Option.bind_some, Option.bind_eq_bind, Option.bind_some, rowsOf, ← hlen]
  cases hfilter : t.filter with
  | some bits =>
    have hnone : t.indices = none := hvalid.one.resolve_left (by simp [hfilter])
    have hbits := hvalid.filter bits hfilter
    rw [← hlen] at hbits
    obtain ⟨out, hout, hflat⟩ := kernels.filter_eq values bits hbits
    refine ⟨out, hout, values, rfl, ?_⟩
    rw [hnone, Option.getD_none, mapM_rows, hflat]
    congr 1
    symm
    apply filter_zip_eq_filter_zipIdx (p := fun row => decide (Passes (some bits) row)) hbits
    intro k hk
    rw [List.getElem?_eq_getElem hk, Nat.zero_add, Option.some.injEq]
    simp [Passes, List.getElem?_eq_getElem hk]
  | none =>
    cases hindices : t.indices with
    | some indices =>
      have hrange := hvalid.indices indices hindices
      rw [← hlen] at hrange
      obtain ⟨out, hout, hflat⟩ := kernels.take_eq values indices hrange
      exact ⟨out, hout, values, rfl, hflat⟩
    | none =>
      refine ⟨values, rfl, values, rfl, ?_⟩
      rw [Option.getD_none, List.filter_eq_self.mpr, mapM_allRows]
      intro row _
      exact decide_eq_true (passes_none row)

theorem materializeUnfiltered_indices (hvalid : t.Valid table.chunkLengths) {indices : List Nat}
    (hindices : t.indices = some indices) {col : Context.ChunkedArray} {values : Chunked Value}
    (hcol : table.getColumn i = some col) (hgathers : Context.Gathers capacity col values indices)
    : ∃ out, t.materializeUnfiltered capacity table i = some out ∧
        indices.mapM (fun row => values.flatten[row]?) = some out.flatten := by
  obtain ⟨out, vals, hout, hvals, hflat, -, hchunks⟩ := hgathers
  refine ⟨vals, ?_, hflat⟩
  rw [materializeUnfiltered, hcol, hindices, Option.bind_eq_bind, Option.bind_some]
  refine Option.bind_eq_some_iff.mpr ⟨out, ?_, hvals⟩
  cases hgiven : t.indexChunks with
  | none => exact hout
  | some chunks =>
    apply hchunks
    rw [(StoredTable.getColumn_eq_some hcol).2.2, List.forall₂_map_right_iff]
    exact hvalid.indexChunks indices chunks hindices hgiven

theorem exists_materializeUnfiltered (hcapacity : ∀ n, n ≤ capacity n) (hvalid : t.Valid table.chunkLengths)
    (hblocks : table.chunkLengths ≠ []) (hi : i < table.columns.length) (hfits : t.FitsColumn capacity table i)
    : ∃ out, t.materializeUnfiltered capacity table i = some out ∧ Materializes table t (.unfiltered i) out := by
  have hcol := List.getElem?_eq_getElem hi
  have hlengths := table.aligned _ (List.getElem_mem hi)
  have hget : table.getColumn i = some table.columns[i] := by
    rw [StoredTable.getColumn, if_neg hblocks, hcol]
  obtain ⟨values, hvalues, hholds⟩ := StoredTable.exists_values hcol
  cases hindices : t.indices with
  | none =>
    have hlen := Context.ChunkedArray.length_of_holds hholds
    rw [hlengths] at hlen
    refine ⟨values, ?_, values, hvalues, ?_⟩
    . rw [materializeUnfiltered, hget, hindices]
      exact hvalues
    . rw [rowsOf, hindices, Option.getD_none, ← hlen, mapM_allRows]
  | some indices =>
    have hrows : table.columns[i].lengths.sum < 2 ^ 32 := by
      rw [hlengths]
      exact Nat.lt_trans table.rows (by decide)
    have hrange := hvalid.indices indices hindices
    rw [← hlengths] at hrange
    have hgathers := Context.gathers_of_fits hholds hrows hcapacity hrange (hfits indices hindices _ _ hcol hvalues)
    obtain ⟨out, hout, hflat⟩ := materializeUnfiltered_indices hvalid hindices hget hgathers
    refine ⟨out, hout, values, hvalues, ?_⟩
    rw [rowsOf, hindices, Option.getD_some]
    exact hflat

theorem fitsColumn_of_materializeUnfiltered (hcapacity : ∀ n, n ≤ capacity n) (hvalid : t.Valid table.chunkLengths)
    {out : Chunked Value} (hout : t.materializeUnfiltered capacity table i = some out)
    : t.FitsColumn capacity table i := by
  intro indices hindices col values hcol hvalues
  rw [materializeUnfiltered, hindices, Option.bind_eq_bind, Option.bind_eq_some_iff] at hout
  obtain ⟨col', hget, hout⟩ := hout
  obtain ⟨happlied, happly, hvals⟩ := Option.bind_eq_some_iff.mp hout
  obtain ⟨-, hcol', hlengths⟩ := StoredTable.getColumn_eq_some hget
  rw [hcol, Option.some.injEq] at hcol'
  subst hcol'
  obtain ⟨values', hvalues', hholds⟩ := StoredTable.exists_values hcol
  rw [hvalues, Option.some.injEq] at hvalues'
  subst hvalues'
  have hrange := hvalid.indices indices hindices
  rw [← hlengths] at hrange
  refine Context.fits_of_applyIndices hholds ?_ hcapacity hrange happly hvals
  rw [hlengths]
  exact Nat.lt_trans table.rows (by decide)

theorem blocks_of_materialize {c : MaterializeCall} {out : Chunked Value}
    (hout : t.materialize kernels capacity table c = some out)
    : table.chunkLengths ≠ [] := by
  have hget : ∃ col, table.getColumn c.column = some col := by
    cases c with
    | active i =>
      obtain ⟨col, hcol, -⟩ := Option.bind_eq_some_iff.mp hout
      exact ⟨col, hcol⟩
    | unfiltered i =>
      obtain ⟨col, hcol, -⟩ := Option.bind_eq_some_iff.mp hout
      exact ⟨col, hcol⟩
  obtain ⟨col, hcol⟩ := hget
  exact (StoredTable.getColumn_eq_some hcol).1

/-! Calls of both overloads on one column. -/

theorem rowsOf_active {n : Nat} (hbits : ∀ bits, t.filter = some bits → bits.flatten.length = n) (hkeeps : t.KeepsAll)
    : t.rowsOf n (.active i) = t.rowsOf n (.unfiltered i) := by
  have hall : (List.range n).filter (fun row => Passes t.filter row) = List.range n := by
    rw [List.filter_eq_self]
    intro row hrow
    apply decide_eq_true
    intro bits hfilter
    have hlt : row < bits.flatten.length := by
      rw [hbits bits hfilter]
      exact List.mem_range.mp hrow
    rw [List.getElem?_eq_getElem hlt, hkeeps bits hfilter _ (List.getElem_mem hlt)]
  rw [rowsOf, rowsOf, hall]

theorem keepsAll_of_materializes (hvalid : t.Valid table.chunkLengths) {out : Chunked Value}
    (hactive : Materializes table t (.active i) out) (hunfiltered : Materializes table t (.unfiltered i) out)
    : t.KeepsAll := by
  intro bits hfilter b hb
  have hnone : t.indices = none := hvalid.one.resolve_left (by simp [hfilter])
  obtain ⟨values, -, hvalues⟩ := hactive
  obtain ⟨values', -, hvalues'⟩ := hunfiltered
  have hlen := (Run.length_mapM hvalues).symm.trans (Run.length_mapM hvalues')
  rw [rowsOf, rowsOf, hnone, Option.getD_none, Option.getD_none, List.length_filter_eq_length_iff] at hlen
  obtain ⟨k, hk, rfl⟩ := List.getElem_of_mem hb
  have hrow : k < table.chunkLengths.sum := by
    rw [← hvalid.filter bits hfilter]
    exact hk
  have hpasses := of_decide_eq_true (hlen k (List.mem_range.mpr hrow)) bits hfilter
  rw [List.getElem?_eq_getElem hk] at hpasses
  exact Option.some.inj hpasses

theorem Materializes.other {calls : List MaterializeCall} (hvalid : t.Valid table.chunkLengths)
    (hhistory : t.KeepsAll ∨ ∀ i, .active i ∈ calls → .unfiltered i ∉ calls) {c c' : MaterializeCall} (hc : c ∈ calls)
    (hc' : c' ∈ calls) (hcolumn : c.column = c'.column) {out : Chunked Value} (h : Materializes table t c out)
    : Materializes table t c' out := by
  have hrows : t.KeepsAll → ∀ i, t.rowsOf table.chunkLengths.sum (.active i)
      = t.rowsOf table.chunkLengths.sum (.unfiltered i) := fun hkeeps i => rowsOf_active hvalid.filter hkeeps
  unfold Materializes at h ⊢
  cases c with
  | active i =>
    cases c' with
    | active i' =>
      cases hcolumn
      exact h
    | unfiltered i' =>
      cases hcolumn
      have hkeeps := hhistory.resolve_right fun hnot => hnot i hc hc'
      rw [hrows hkeeps] at h
      exact h
  | unfiltered i =>
    cases c' with
    | active i' =>
      cases hcolumn
      have hkeeps := hhistory.resolve_right fun hnot => hnot i hc' hc
      rw [hrows hkeeps]
      exact h
    | unfiltered i' =>
      cases hcolumn
      exact h

/-! Runs. -/

theorem alwaysMaterializes_iff_first {calls : List MaterializeCall}
    : t.AlwaysMaterializes kernels capacity table calls ↔
        ∀ c ∈ calls, ∀ first, (calls.find? fun c' => c'.column = c.column) = some first →
          ∃ out, t.materialize kernels capacity table first = some out ∧ Materializes table t c out :=
  Memo.always_iff

theorem exists_first {calls : List MaterializeCall} {c : MaterializeCall} (hc : c ∈ calls)
    : ∃ first, (calls.find? fun c' => c'.column = c.column) = some first := by
  rw [← Option.isSome_iff_exists, List.find?_isSome]
  exact ⟨c, hc, by simp⟩

theorem history_of_alwaysMaterializes (hvalid : t.Valid table.chunkLengths) {calls : List MaterializeCall}
    (h : t.AlwaysMaterializes kernels capacity table calls)
    : t.KeepsAll ∨ ∀ i, .active i ∈ calls → .unfiltered i ∉ calls := by
  rw [alwaysMaterializes_iff_first] at h
  by_contra hnot
  rw [not_or] at hnot
  apply hnot.2
  intro i hactive hunfiltered
  obtain ⟨first, hfirst⟩ := exists_first hactive
  obtain ⟨out, hout, hright⟩ := h _ hactive first hfirst
  obtain ⟨out', hout', hright'⟩ := h _ hunfiltered first hfirst
  rw [hout, Option.some.injEq] at hout'
  subst hout'
  exact hnot.1 (keepsAll_of_materializes hvalid hright hright')

/--
What the calls return does not depend on the calls before exactly if the calls are consistent.
-/
theorem alwaysMaterializes_iff (hcapacity : ∀ n, n ≤ capacity n) (hvalid : t.Valid table.chunkLengths)
    {calls : List MaterializeCall} (hcalls : ∀ c ∈ calls, c.column < table.columns.length)
    : t.AlwaysMaterializes kernels capacity table calls ↔ t.Consistent capacity table calls := by
  constructor
  . intro h
    have hhistory := history_of_alwaysMaterializes hvalid h
    rw [alwaysMaterializes_iff_first] at h
    refine ⟨?_, hhistory, ?_⟩
    . cases calls with
      | nil => exact .inl rfl
      | cons c calls =>
        obtain ⟨out, hout, -⟩ := h c List.mem_cons_self c (List.find?_cons_of_pos (by simp))
        exact .inr (blocks_of_materialize hout)
    . intro i hfirst
      obtain ⟨out, hout, -⟩ := h _ (List.mem_of_find?_eq_some hfirst) _ hfirst
      exact fitsColumn_of_materializeUnfiltered hcapacity hvalid hout
  . intro h
    rw [alwaysMaterializes_iff_first]
    intro c hc first hfirst
    have hmem := List.mem_of_find?_eq_some hfirst
    have hcolumn : first.column = c.column := by simpa using List.find?_some hfirst
    have hblocks := h.blocks.resolve_left (List.ne_nil_of_mem hc)
    suffices hown : ∃ out, t.materialize kernels capacity table first = some out ∧ Materializes table t first out by
      obtain ⟨out, hout, hright⟩ := hown
      exact ⟨out, hout, hright.other hvalid h.history hmem hc hcolumn⟩
    cases first with
    | active i => exact exists_materializeActive hvalid hblocks (hcalls _ hmem)
    | unfiltered i =>
      refine exists_materializeUnfiltered hcapacity hvalid hblocks (hcalls _ hmem) (h.fits i ?_)
      rw [← hcolumn] at hfirst
      exact hfirst

end

end LazyTable

def oneChunkKernels : Kernels where
  filter col bits := some [((col.flatten.zip bits.flatten).filter Prod.snd).map Prod.fst]
  take col indices := (indices.mapM fun i => col.flatten[i]?).map fun values => [values]
  filter_eq _ _ _ := ⟨_, rfl, List.flatten_singleton⟩
  take_eq col indices h := by
    have hvalues : indices.mapM (fun i => col.flatten[i]?)
        = some (indices.map fun i => col.flatten.getD i (.int64 0)) := by
      apply Run.mapM_eq_some
      intro i hi
      rw [List.getD_eq_getElem?_getD, List.getElem?_eq_getElem (h i hi)]
      rfl
    refine ⟨[indices.map fun i => col.flatten.getD i (.int64 0)], ?_, ?_⟩
    . rw [hvalues]
      rfl
    . rw [hvalues, List.flatten_singleton]

def pairTable : StoredTable where
  chunkLengths := [2, 1]
  columns := [.int64 [[3, 9], [5]], .int64 [[10, 20], [30]]]
  values := [[[.int64 3, .int64 9], [.int64 5]], [[.int64 10, .int64 20], [.int64 30]]]
  holds := .cons rfl (.cons rfl .nil)
  aligned := by
    intro col hcol
    rcases List.mem_pair.mp hcol with rfl | rfl <;> rfl
  rows := by decide

namespace LazyTable

def filteredPairs : LazyTable where
  table := 0
  filter := some [[true, false], [true]]
  indices := none
  indexChunks := none
  hashTable := none

def joinedPairs : LazyTable where
  table := 0
  filter := none
  indices := some [2, 0, 2]
  indexChunks := some [1, 0, 1]
  hashTable := none

theorem filteredPairs_valid : filteredPairs.Valid pairTable.chunkLengths where
  one := .inr rfl
  filter := by
    intro bits hbits
    cases hbits
    rfl
  indices := by
    intro _ h
    cases h
  indexChunks := by
    intro _ _ h
    cases h

theorem joinedPairs_valid : joinedPairs.Valid pairTable.chunkLengths where
  one := .inl rfl
  filter := by
    intro _ h
    cases h
  indices := by
    intro indices h
    cases h
    decide
  indexChunks := by
    intro indices chunks h h'
    cases h
    cases h'
    exact .cons ⟨by decide, by decide⟩ (.cons ⟨by decide, by decide⟩ (.cons ⟨by decide, by decide⟩ .nil))

/--
The two overloads on different columns of a filtered table, and on the same column of a joined one.
-/
theorem alwaysMaterializes_iff_pairTable
    : filteredPairs.AlwaysMaterializes oneChunkKernels Context.paddedCapacity pairTable
        [.unfiltered 0, .active 1, .unfiltered 0] ∧
      joinedPairs.AlwaysMaterializes oneChunkKernels Context.paddedCapacity pairTable [.unfiltered 0, .active 0] := by
  constructor
  . refine (alwaysMaterializes_iff Context.le_paddedCapacity filteredPairs_valid (by decide)).mpr
      ⟨.inr (by decide), .inr ?_, ?_⟩
    . intro i hactive
      simp at hactive ⊢
      omega
    . intro i _ indices h
      cases h
  . refine (alwaysMaterializes_iff Context.le_paddedCapacity joinedPairs_valid (by decide)).mpr
      ⟨.inr (by decide), .inl ?_, ?_⟩
    . intro bits h
      cases h
    . intro i hfirst indices hindices col values hcol hvalues
      cases hindices
      simp at hfirst
      obtain ⟨-, rfl⟩ := hfirst
      cases hcol
      exact ⟨by decide, by decide, fun h => h.elim⟩

/--
A column that a join has materialized without the filter is returned with the rows that are filtered out.
-/
theorem not_alwaysMaterializes
    : ¬filteredPairs.AlwaysMaterializes oneChunkKernels Context.paddedCapacity pairTable [.unfiltered 0, .active 0] := by
  intro h
  rcases history_of_alwaysMaterializes filteredPairs_valid h with hkeeps | hnot
  . exact absurd (hkeeps _ rfl false (by decide)) (by decide)
  . exact hnot 0 (by decide) (by decide)

end LazyTable

end Hustle.Operators
