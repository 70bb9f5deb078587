import Hustle.Operators.SelectBuildHash

/-!
This module compares the hash table of `SelectBuildHash` with the one that `BuildHashTable` builds from the same column
and filter. Whatever the order of the tasks is, both have the same rows for every key.
-/

namespace Hustle.Operators

open Resolver (CompareOperator)
open Storage (Block DBTable Row)

namespace SelectBuildHash

section

variable (compare : List (List UInt8) → List UInt8 → CompareOperator → BooleanArray)
  (searchMetadata : Nat → String → BitVec 64 → CompareOperator → Bool)

/--
What is asked for: a table of non-empty blocks whose rows can be numbered, and a join column of integers.
-/
structure Numbered (op : SelectBuildHash) (contents : List (List Row)) (c : Nat) : Prop where
  repr : op.table.Repr contents
  contents_ne : contents ≠ []
  rows_ne : ∀ rows ∈ contents, rows ≠ []
  numBlocks_lt : contents.length < 2 ^ 16
  numRows_lt : contents.flatten.length < 2 ^ 32
  fieldIndex_eq : Select.fieldIndex op.names op.joinColumn = some c
  fieldType_eq : op.table.schema.fields[c]? = some .int64

/--
The table counts no fewer rows than blocks, and the tree has a filter on every block.
-/
structure Hashable (op : SelectBuildHash) (contents : List (List Row)) (c : Nat) : Prop
    extends op.Numbered contents c where
  numBlocks_le : (contents.length : Int) ≤ op.table.numRows
  tree : ∀ root, op.tree = some root → ∀ (i : Nat) b, op.table.getBlock i = some b →
    (Select.filter compare (searchMetadata i) op.names b root).isSome

def blockFilter (op : SelectBuildHash) (i : Nat) : Option BooleanArray := do
  let root ← op.tree
  let b ← op.table.getBlock (i : Int)
  Select.filter compare (searchMetadata i) op.names b root

def pass (op : SelectBuildHash) (i row : Nat) : Bool :=
  match op.tree with
  | none => true
  | some _ => (op.blockFilter compare searchMetadata i).any fun filter => Bitmap.getBit filter.bytes row

end

/--
Whatever the order of the tasks is, the table has exactly the rows that pass the filter, and it is the table that
`BuildHashTable` builds from the same column and filter.
-/
def HashesSelection (compare : List (List UInt8) → List UInt8 → CompareOperator → BooleanArray)
    (searchMetadata : Nat → String → BitVec 64 → CompareOperator → Bool) (op : SelectBuildHash) : Prop :=
  ∀ (iterate : HashTable → HashTable) (hardwareConcurrency : Nat) (tasks : List BlockTask),
    (∀ t, (iterate t).entries.Perm t.entries) →
    IsSchedule (batches hardwareConcurrency op.table.blocks.entries.length) tasks →
    ∃ s col filter built, op.execute compare searchMetadata iterate tasks = some s ∧ op.joinCol = some col ∧
      op.outputFilter s = some filter ∧ HashesRows s.hashTable col filter ∧
      HashTable.build col filter = some built ∧ SameRows s.hashTable built

/--
The values of column `c` in every block.
-/
def columnOf (contents : List (List Row)) (c : Nat) : Chunked (BitVec 64) :=
  contents.map fun rows => (rows.map fun row => row.getD c default).map Storage.Cell.toInt64

variable {compare : List (List UInt8) → List UInt8 → CompareOperator → BooleanArray}
  {searchMetadata : Nat → String → BitVec 64 → CompareOperator → Bool} {iterate : HashTable → HashTable}
  {op : SelectBuildHash} {contents : List (List Row)} {c : Nat}

theorem length_columnOf (contents : List (List Row)) (c : Nat) : (columnOf contents c).length = contents.length := by
  simp [columnOf]

theorem columnOf_getElem? {i : Nat} {rows : List Row} (h : contents[i]? = some rows)
    : (columnOf contents c)[i]? = some ((rows.map fun row => row.getD c default).map Storage.Cell.toInt64) := by
  simp [columnOf, h]

theorem length_flatten_take_columnOf (contents : List (List Row)) (c i : Nat)
    : (((columnOf contents c).take i).map List.length).sum = (contents.take i).flatten.length := by
  simp [columnOf, ← List.map_take, List.length_flatten, Function.comp_def]

theorem foldlM_updateTable {offsets : List Nat} {i offset : Nat} (data : List (BitVec 64))
    (hoffset : offsets[i]? = some offset) (hi : i < 2 ^ 16) (rows : List Nat)
    (hrows : ∀ row ∈ rows, row < data.length ∧ offset + row < 2 ^ 32) (t : HashTable)
    : rows.foldlM (updateTable offsets i data) t
        =
      some ((rows.map fun row => ((⟨offset + row, i⟩ : RecordID), data.getD row 0)).foldl HashTable.push t) := by
  induction rows generalizing t with
  | nil => rfl
  | cons row rows ih =>
    obtain ⟨hlt, hbound⟩ := hrows row List.mem_cons_self
    have hkey : data[row]? = some (data.getD row 0) := by simp [hlt]
    rw [List.foldlM_cons, updateTable, hkey, hoffset]
    simp only [Option.bind_eq_bind, Option.bind_some, Option.pure_def, Nat.mod_eq_of_lt hbound, Nat.mod_eq_of_lt hi]
    exact ih (fun row' hrow' => hrows row' (List.mem_cons_of_mem _ hrow')) _

theorem rowsBefore_eq {t : DBTable} (h : t.Repr contents) {i : Nat} (hi : i ≤ contents.length)
    : t.rowsBefore i = (contents.take i).flatten.length := by
  induction i with
  | zero => simp [DBTable.rowsBefore]
  | succ i ih =>
    obtain ⟨b, hb, hrepr⟩ := h.getBlock_eq (List.getElem?_eq_getElem hi)
    rw [DBTable.rowsBefore_succ hb, ih (by omega), hrepr.numRows_eq, List.take_succ_eq_append_getElem hi,
      List.flatten_append,
      List.length_append, List.flatten_singleton]

namespace Hashable

theorem blockData_eq (h : op.Hashable compare searchMetadata contents c) {i : Nat} {rows : List Row} {b : Block}
    (hrepr : b.Repr i op.table.schema op.table.blockCapacity rows)
    : op.blockData b = some ((rows.map fun row => row.getD c default).map Storage.Cell.toInt64) := by
  simp only [blockData, Select.columnByName_eq hrepr h.fieldIndex_eq h.fieldType_eq, Option.bind_eq_bind,
    Option.bind_some, Storage.Column.ofCells, Storage.Column.ofInts]

theorem joinCol_eq (h : op.Hashable compare searchMetadata contents c) : op.joinCol = some (columnOf contents c) := by
  have hdata : ∀ i ∈ List.range contents.length, (op.table.getBlock (i : Int)).bind op.blockData
      = some ((columnOf contents c).getD i []) := by
    intro i hi
    have hlt := List.mem_range.mp hi
    obtain ⟨b, hb, hrepr⟩ := h.repr.getBlock_eq (List.getElem?_eq_getElem hlt)
    rw [hb, Option.bind_some, h.blockData_eq hrepr, List.getD_eq_getElem?_getD,
      columnOf_getElem? (List.getElem?_eq_getElem hlt), Option.getD_some]
  have hmap : (List.range contents.length).map (fun i => (columnOf contents c).getD i []) = columnOf contents c := by
    apply List.ext_getElem
    . simp [length_columnOf]
    . intro i hi hi'
      simp [hi']
  rw [joinCol, h.repr.numBlocks_eq, ← hmap]
  exact Run.mapM_eq_some hdata

theorem chunkRowOffsets_eq (h : op.Hashable compare searchMetadata contents c)
    : ∃ offsets, chunkRowOffsets op.table = some offsets ∧
        ∀ i < contents.length, offsets[i]? = some (contents.take i).flatten.length := by
  have hpos := List.length_pos_iff.mpr h.contents_ne
  have hnum := h.numBlocks_le
  have hblocks := h.repr.numBlocks_eq
  obtain ⟨offsets, hoffsets, -, hget⟩ := SelectBuildHash.chunkRowOffsets_eq h.repr.indexed (by omega) (by omega)
  refine ⟨offsets, hoffsets, ?_⟩
  intro i hi
  rw [hget i (by omega), rowsBefore_eq h.repr (by omega)]

/--
A block is hashed into a table of its selected rows.
-/
theorem hashBlock_eq (h : op.Hashable compare searchMetadata contents c) {offsets : List Nat}
    (hoffsets : ∀ i < contents.length, offsets[i]? = some (contents.take i).flatten.length) {i : Nat}
    (hi : i < contents.length)
    : op.hashBlock compare searchMetadata offsets i
        =
      some (op.blockFilter compare searchMetadata i,
        (selectedRows (columnOf contents c) (op.pass compare searchMetadata) i).foldl HashTable.push ∅) := by
  have hrows := List.getElem?_eq_getElem hi
  obtain ⟨b, hb, hrepr⟩ := h.repr.getBlock_eq hrows
  have hdata := h.blockData_eq hrepr
  have hchunk : (columnOf contents c).getD i []
      = (contents[i].map fun row => row.getD c default).map Storage.Cell.toInt64 := by
    rw [List.getD_eq_getElem?_getD, columnOf_getElem? hrows, Option.getD_some]
  have hlen : ((columnOf contents c).getD i []).length = b.numRows := by
    rw [hchunk, hrepr.numRows_eq, List.length_map, List.length_map]
  have hbound : ∀ row < b.numRows, (contents.take i).flatten.length + row < 2 ^ 32 := by
    intro row hrow
    have htotal := h.numRows_lt
    rw [← List.take_append_drop i contents, List.flatten_append, List.length_append, List.drop_eq_getElem_cons hi,
      List.flatten_cons, List.length_append, ← hrepr.numRows_eq] at htotal
    omega
  -- the rows that are added to the table are the selected ones
  have hfilter : op.filterBlock compare searchMetadata i b = some (op.blockFilter compare searchMetadata i,
      (List.range b.numRows).filter (op.pass compare searchMetadata i)) := by
    unfold filterBlock
    cases htree : op.tree with
    | none =>
      have hpass : ∀ row ∈ List.range b.numRows, op.pass compare searchMetadata i row = true := by
        intro row _
        simp [pass, htree]
      rw [List.filter_eq_self.mpr hpass]
      simp [blockFilter, htree]
    | some root =>
      obtain ⟨out, hout⟩ := Option.isSome_iff_exists.mp (h.tree root htree i b hb)
      have hblock : op.blockFilter compare searchMetadata i = some out := by
        simp [blockFilter, htree, hb, hout]
      have hpass : op.pass compare searchMetadata i = fun row => Bitmap.getBit out.bytes row := by
        funext row
        simp [pass, htree, hblock]
      rw [hblock, hpass]
      simp [hout]
  have hfold := foldlM_updateTable ((columnOf contents c).getD i []) (hoffsets i hi)
    (by have := h.numBlocks_lt; omega) ((List.range b.numRows).filter (op.pass compare searchMetadata i))
    (by
      intro row hrow
      have hlt := List.mem_range.mp (List.mem_filter.mp hrow).1
      exact ⟨by omega, hbound row hlt⟩) ∅
  rw [hchunk] at hfold
  simp only [hashBlock, hb, hdata, hfilter, hfold, Option.bind_eq_bind, Option.bind_some]
  rw [selectedRows, hlen, length_flatten_take_columnOf, hchunk]
  rfl

theorem length_bits (hcompare : Select.Pointwise compare) (h : op.Hashable compare searchMetadata contents c) {i : Nat}
    (hi : i < contents.length) {out : BooleanArray} (hout : op.blockFilter compare searchMetadata i = some out)
    : out.length = ((columnOf contents c).getD i []).length := by
  have hrows := List.getElem?_eq_getElem hi
  obtain ⟨b, hb, hrepr⟩ := h.repr.getBlock_eq hrows
  obtain ⟨root, -, hout⟩ := Option.bind_eq_some_iff.mp hout
  rw [hb, Option.bind_eq_bind, Option.bind_some] at hout
  rw [Select.length_filter hcompare hrepr hout, hrepr.numRows_eq, List.getD_eq_getElem?_getD, columnOf_getElem? hrows,
    Option.getD_some, List.length_map, List.length_map]

end Hashable

/-! Runs. -/

structure Progress (compare : List (List UInt8) → List UInt8 → CompareOperator → BooleanArray)
    (searchMetadata : Nat → String → BitVec 64 → CompareOperator → Bool) (op : SelectBuildHash)
    (contents : List (List Row)) (c : Nat) (done : List BlockTask) (s : State) : Prop where
  length_filters : s.filters.length = contents.length
  filters : ∀ i, .hash i ∈ done → s.filters[i]? = some (op.blockFilter compare searchMetadata i)
  localTables : ∀ i, .hash i ∈ done → ∃ localTable, s.localTables.lookup i = some localTable ∧
    Stores localTable (selectedRows (columnOf contents c) (op.pass compare searchMetadata) i)
  hashTable : Stores s.hashTable
    ((mergedBlocks done).flatMap (selectedRows (columnOf contents c) (op.pass compare searchMetadata)))

theorem Progress.hash (h : op.Hashable compare searchMetadata contents c) {offsets : List Nat}
    (hoffsets : ∀ i < contents.length, offsets[i]? = some (contents.take i).flatten.length) {done : List BlockTask}
    {s : State} (hs : Progress compare searchMetadata op contents c done s) {i : Nat} (hi : i < contents.length)
    : ∃ s', op.step compare searchMetadata iterate offsets s (.hash i) = some s' ∧
        Progress compare searchMetadata op contents c (done ++ [.hash i]) s' := by
  refine ⟨_, by simp only [step, h.hashBlock_eq hoffsets hi, Option.bind_eq_bind, Option.bind_some]; rfl, ?_, ?_, ?_, ?_⟩
  . rw [List.length_set, hs.length_filters]
  . intro j hj
    rw [List.getElem?_set]
    split
    . next heq => rw [if_pos (by rw [hs.length_filters]; exact hi), heq]
    . next hne =>
      apply hs.filters j
      simpa [Ne.symm hne] using hj
  . intro j hj
    dsimp only
    rw [Map.lookup_insert_eq]
    split
    . next heq =>
      rw [heq]
      exact ⟨_, rfl, stores_foldl_push _⟩
    . next hne =>
      apply hs.localTables j
      simpa [hne] using hj
  . rw [mergedBlocks_append]
    simpa [mergedBlocks] using hs.hashTable

theorem Progress.merge (hiterate : ∀ t, (iterate t).entries.Perm t.entries) {offsets : List Nat}
    {done : List BlockTask} {s : State} (hs : Progress compare searchMetadata op contents c done s) {i : Nat}
    (hhashed : .hash i ∈ done)
    : ∃ s', op.step compare searchMetadata iterate offsets s (.merge i) = some s' ∧
        Progress compare searchMetadata op contents c (done ++ [.merge i]) s' := by
  obtain ⟨localTable, hlocal, hstores⟩ := hs.localTables i hhashed
  refine ⟨{ s with hashTable := SelectBuildHash.merge s.hashTable (iterate localTable) }, by simp [step, hlocal],
    hs.length_filters, ?_, ?_, ?_⟩
  . intro j hj
    apply hs.filters j
    simpa using hj
  . intro j hj
    apply hs.localTables j
    simpa using hj
  . rw [mergedBlocks_append, List.flatMap_append]
    have hmerged := hs.hashTable.merge (hstores.iterate (hiterate localTable))
    simpa [mergedBlocks] using hmerged

theorem foldlM_progress (hiterate : ∀ t, (iterate t).entries.Perm t.entries)
    (h : op.Hashable compare searchMetadata contents c) {offsets : List Nat}
    (hoffsets : ∀ i < contents.length, offsets[i]? = some (contents.take i).flatten.length)
    {hardwareConcurrency : Nat} {tasks : List BlockTask}
    (htasks : IsSchedule (batches hardwareConcurrency contents.length) tasks) (done rest : List BlockTask)
    (hsplit : tasks = done ++ rest)
    : ∃ s, done.foldlM (op.step compare searchMetadata iterate offsets) op.init = some s ∧
        Progress compare searchMetadata op contents c done s := by
  have hpos := List.length_pos_iff.mpr h.contents_ne
  induction done using List.reverseRecOn generalizing rest with
  | nil =>
    refine ⟨op.init, rfl, ?_, by simp, by simp, stores_empty⟩
    rw [init, List.length_replicate, h.repr.numBlocks_eq]
  | append_singleton done task ih =>
    rw [List.append_assoc, List.singleton_append] at hsplit
    obtain ⟨s, hs, hprogress⟩ := ih _ hsplit
    have hstep : ∃ s', op.step compare searchMetadata iterate offsets s task = some s' ∧
        Progress compare searchMetadata op contents c (done ++ [task]) s' := by
      cases task with
      | hash i =>
        have hmem : BlockTask.hash i ∈ (List.range contents.length).flatMap blockTasks := by
          rw [← (htasks.tasks_perm hpos).mem_iff, hsplit]
          simp
        exact hprogress.hash h hoffsets (by simpa [blockTasks] using hmem)
      | merge i => exact hprogress.merge hiterate (htasks.hashed hpos hsplit)
    obtain ⟨s', hs', hprogress'⟩ := hstep
    refine ⟨s', ?_, hprogress'⟩
    rw [List.foldlM_append, hs, Option.bind_eq_bind, Option.bind_some, List.foldlM_cons, hs']
    rfl

theorem Progress.outputFilter (hcompare : Select.Pointwise compare)
    (h : op.Hashable compare searchMetadata contents c) {done : List BlockTask} {s : State}
    (hs : Progress compare searchMetadata op contents c done s) (hdone : ∀ i < contents.length, .hash i ∈ done)
    : op.outputFilter s
        =
      some (op.tree.map fun _ => filterOf (columnOf contents c) (op.pass compare searchMetadata)) := by
  unfold SelectBuildHash.outputFilter
  cases htree : op.tree with
  | none => rfl
  | some root =>
    have hfilters : s.filters = (List.range contents.length).map (op.blockFilter compare searchMetadata) := by
      apply List.ext_getElem?
      intro i
      by_cases hi : i < contents.length
      . rw [hs.filters i (hdone i hi), List.getElem?_map, List.getElem?_eq_getElem (by simpa using hi)]
        simp
      . rw [List.getElem?_eq_none (by rw [hs.length_filters]; omega), List.getElem?_eq_none (by simpa using hi)]
    have hsome : ∀ i ∈ List.range contents.length, (id ∘ op.blockFilter compare searchMetadata) i
        = some ((op.blockFilter compare searchMetadata i).getD ⟨0, []⟩) := by
      intro i hi
      obtain ⟨b, hb, -⟩ := h.repr.getBlock_eq (List.getElem?_eq_getElem (List.mem_range.mp hi))
      obtain ⟨out, hout⟩ := Option.isSome_iff_exists.mp (h.tree root htree i b hb)
      simp [blockFilter, htree, hb, hout]
    dsimp only
    rw [hfilters, List.mapM_map, Run.mapM_eq_some hsome]
    simp only [Option.bind_eq_bind, Option.bind_some, Option.pure_def, Option.map_some, Option.some.injEq, filterOf,
      length_columnOf, List.map_map]
    apply List.map_congr_left
    intro i hi
    have hblock := hsome i hi
    have hlen := h.length_bits hcompare (List.mem_range.mp hi) hblock
    simp only [Function.comp_apply, BooleanArray.bits, hlen]
    apply List.map_congr_left
    intro row _
    simp only [pass, htree]
    rw [show op.blockFilter compare searchMetadata i = _ from hblock]
    rfl

theorem passes_filterOf {col : Chunked (BitVec 64)} (pass : Nat → Nat → Bool) {i r : Nat} {chunk : List (BitVec 64)}
    (hchunk : col[i]? = some chunk) (hr : r < chunk.length)
    : pass i r = true ↔ ∃ bits, (filterOf col pass)[i]? = some bits ∧ bits[r]? = some true := by
  have hi := (List.getElem?_eq_some_iff.mp hchunk).1
  have hbits : (filterOf col pass)[i]? = some ((List.range chunk.length).map (pass i)) := by
    rw [filterOf, List.getElem?_map, List.getElem?_eq_getElem (by simpa using hi), Option.map_some, List.getElem_range,
      List.getD_eq_getElem?_getD, hchunk, Option.getD_some]
  rw [hbits]
  simp [hr]

theorem execute_stores (hcompare : Select.Pointwise compare) (hiterate : ∀ t, (iterate t).entries.Perm t.entries)
    (h : op.Hashable compare searchMetadata contents c) {hardwareConcurrency : Nat} {tasks : List BlockTask}
    (htasks : IsSchedule (batches hardwareConcurrency op.table.blocks.entries.length) tasks)
    : ∃ s, op.execute compare searchMetadata iterate tasks = some s ∧
        op.outputFilter s
          =
        some (op.tree.map fun _ => filterOf (columnOf contents c) (op.pass compare searchMetadata)) ∧
        Stores s.hashTable ((List.range (columnOf contents c).length).flatMap
          (selectedRows (columnOf contents c) (op.pass compare searchMetadata))) := by
  have hpos := List.length_pos_iff.mpr h.contents_ne
  rw [h.repr.numBlocks_eq] at htasks
  obtain ⟨offsets, hoffsets, hget⟩ := h.chunkRowOffsets_eq
  obtain ⟨s, hs, hprogress⟩ := foldlM_progress hiterate h hget htasks tasks [] (by simp)
  have hperm := htasks.tasks_perm hpos
  have hdone : ∀ i < contents.length, BlockTask.hash i ∈ tasks := by
    intro i hi
    rw [hperm.mem_iff]
    simpa [blockTasks] using hi
  refine ⟨s, ?_, hprogress.outputFilter hcompare h hdone, ?_⟩
  . simp [execute, hoffsets, hs]
  . apply hprogress.hashTable.of_perm
    have hmerged := mergedBlocks_perm hperm
    rw [mergedBlocks_blockTasks] at hmerged
    rw [length_columnOf]
    exact hmerged.flatMap_right _

/--
So does the table that `BuildHashTable` builds.
-/
theorem Hashable.build_stores (h : op.Hashable compare searchMetadata contents c)
    : ∃ built,
        HashTable.build (columnOf contents c)
            (op.tree.map fun _ => filterOf (columnOf contents c) (op.pass compare searchMetadata))
          =
        some built ∧
        Stores built ((List.range (columnOf contents c).length).flatMap
          (selectedRows (columnOf contents c) (op.pass compare searchMetadata))) := by
  have hbound := h.numBlocks_lt
  have hselected : ∃ out, applyFilter (numberedFrom 0 0 (columnOf contents c))
      (op.tree.map fun _ => filterOf (columnOf contents c) (op.pass compare searchMetadata)) = some out ∧
      out.flatten = (List.range (columnOf contents c).length).flatMap
        (selectedRows (columnOf contents c) (op.pass compare searchMetadata)) := by
    rw [List.flatMap_def]
    refine ⟨_, ?_, rfl⟩
    cases htree : op.tree with
    | none => exact applyFilter_none (by rw [length_columnOf]; omega) fun i row => by simp [pass, htree]
    | some root => exact applyFilter_filterOf (by rw [length_columnOf]; omega) _
  obtain ⟨out, hout, hflat⟩ := hselected
  have hne : columnOf contents c ≠ [] := by simpa [columnOf] using h.contents_ne
  refine ⟨out.flatten.foldl HashTable.push ∅, by simp [HashTable.build, hne, hout], ?_⟩
  rw [hflat]
  exact stores_foldl_push _

theorem Hashable.hashesSelection (hcompare : Select.Pointwise compare)
    (h : op.Hashable compare searchMetadata contents c)
    : op.HashesSelection compare searchMetadata := by
  intro iterate hardwareConcurrency tasks hiterate htasks
  obtain ⟨s, hs, hfilter, hstores⟩ := execute_stores hcompare hiterate h htasks
  obtain ⟨built, hbuilt, hbuiltStores⟩ := h.build_stores
  refine ⟨s, columnOf contents c, _, built, hs, h.joinCol_eq, hfilter, ?_, hbuilt, hstores.sameRows hbuiltStores⟩
  apply hstores.hashesRows
  intro i r chunk hchunk hr
  cases htree : op.tree with
  | none => simp [pass, htree]
  | some root =>
    simp only [Option.map_some, Option.some.injEq, forall_eq']
    exact passes_filterOf _ hchunk hr

/-! Where `Execute` fails. -/

theorem isSchedule_flatten (batches : List (List Nat)) : IsSchedule batches (batches.flatten.flatMap blockTasks) where
  perm := List.Perm.refl _
  ordered _ hbatch := (List.sublist_flatten_of_mem hbatch).flatMap blockTasks

theorem exists_filter_of_execute {tasks : List BlockTask} {s : State}
    (hs : op.execute compare searchMetadata iterate tasks = some s) {i : Nat} (hi : .hash i ∈ tasks) {b : Block}
    (hb : op.table.getBlock (i : Int) = some b) {root : Select.Node} (hroot : op.tree = some root)
    : (Select.filter compare (searchMetadata i) op.names b root).isSome := by
  obtain ⟨offsets, -, hrun⟩ := Option.bind_eq_some_iff.mp hs
  obtain ⟨before, after, rfl⟩ := List.append_of_mem hi
  rw [List.foldlM_append] at hrun
  obtain ⟨s₁, -, hrun⟩ := Option.bind_eq_some_iff.mp hrun
  rw [List.foldlM_cons] at hrun
  obtain ⟨s₂, hstep, -⟩ := Option.bind_eq_some_iff.mp hrun
  obtain ⟨⟨filter, localTable⟩, hhash, -⟩ := Option.bind_eq_some_iff.mp hstep
  unfold hashBlock at hhash
  rw [hb, Option.bind_eq_bind, Option.bind_some] at hhash
  obtain ⟨data, -, hhash⟩ := Option.bind_eq_some_iff.mp hhash
  obtain ⟨⟨filter', rows⟩, hfilter, -⟩ := Option.bind_eq_some_iff.mp hhash
  simp only [filterBlock, hroot] at hfilter
  obtain ⟨out, hout, -⟩ := Option.bind_eq_some_iff.mp hfilter
  rw [hout]
  rfl

/--
The table counts no fewer rows than blocks, and every leaf of the tree has a value. Only then all tasks succeed.
-/
theorem hashesSelection_iff (compare : List (List UInt8) → List UInt8 → CompareOperator → BooleanArray)
    (searchMetadata : Nat → String → BitVec 64 → CompareOperator → Bool) (hcompare : Select.Pointwise compare)
    (op : SelectBuildHash) (contents : List (List Row)) (c : Nat) (h : op.Numbered contents c)
    : op.HashesSelection compare searchMetadata ↔
        (contents.length : Int) ≤ op.table.numRows ∧
        ∀ root, op.tree = some root → ∀ p ∈ root.leaves, p.Evaluates op.names op.table.schema.fields := by
  have hblocks := h.repr.numBlocks_eq
  have hpos := List.length_pos_iff.mpr h.contents_ne
  have hfilled : ∀ (i : Nat) b, op.table.getBlock i = some b → ∃ rows,
      b.Repr i op.table.schema op.table.blockCapacity rows ∧ i < contents.length ∧ b.numRows ≠ 0 := by
    intro i b hb
    obtain ⟨j, rows, hj, hrows, hrepr⟩ := h.repr.of_getBlock hb
    obtain rfl : i = j := by omega
    refine ⟨rows, hrepr, (List.getElem?_eq_some_iff.mp hrows).1, ?_⟩
    rw [hrepr.numRows_eq]
    exact fun hzero => h.rows_ne rows (List.mem_of_getElem? hrows) (List.length_eq_zero_iff.mp hzero)
  constructor
  . intro hruns
    obtain ⟨s, -, -, -, hs, -⟩ := hruns id 1 _ (fun _ => List.Perm.refl _) (isSchedule_flatten _)
    obtain ⟨offsets, hoffsets, -⟩ := Option.bind_eq_some_iff.mp hs
    refine ⟨hblocks ▸ (of_chunkRowOffsets hoffsets).2, ?_⟩
    intro root hroot
    obtain ⟨b, hb, hrepr⟩ := h.repr.getBlock_eq (List.getElem?_eq_getElem hpos)
    obtain ⟨rows, -, -, hrows⟩ := hfilled 0 b hb
    apply (@Select.isSome_filter_iff compare (searchMetadata 0) _ _ _ _ _ _ hcompare hrepr hrows root).mp
    refine exists_filter_of_execute hs ?_ hb hroot
    rw [hblocks, flatten_batches hpos]
    exact List.mem_flatMap.mpr ⟨0, List.mem_range.mpr hpos, List.mem_cons_self⟩
  . rintro ⟨hle, hleaves⟩
    apply @Hashable.hashesSelection compare searchMetadata op contents c hcompare
    refine ⟨h, hle, ?_⟩
    intro root hroot i b hb
    obtain ⟨rows, hrepr, -, hrows⟩ := hfilled i b hb
    exact (@Select.isSome_filter_iff compare (searchMetadata i) _ _ _ _ _ _ hcompare hrepr hrows root).mpr
      (hleaves root hroot)

def stockBlocks : List (List Row) :=
  [Select.stockRows, [[.int64 9, .string [98]], [.int64 3, .string [97]]]]

theorem stockBlocks_numbered {t : DBTable} (hrepr : t.Repr stockBlocks) (hschema : t.schema = Select.stockSchema)
    (tree : Option Select.Node)
    : (⟨t, ["n", "s"], tree, "n"⟩ : SelectBuildHash).Numbered stockBlocks 0 := by
  refine ⟨hrepr, by decide, by decide, by decide, by decide, ?_, ?_⟩
  . show Select.fieldIndex ["n", "s"] "n" = some 0
    decide
  . show t.schema.fields[0]? = some .int64
    rw [hschema]
    decide

theorem hashesSelection_iff_stockBlocks
    : ∃ t, DBTable.ofBatches (stockBlocks.map (Storage.batchOf Select.stockSchema)) Storage.blockSize false = some t ∧
        (⟨t, ["n", "s"], some Select.stockNode, "n"⟩ : SelectBuildHash).HashesSelection Select.compareEach
          fun _ _ _ _ => true := by
  obtain ⟨t, ht, hrepr, hschema, hnum⟩ := DBTable.ofBatches_repr Select.stockSchema false
    (show stockBlocks ≠ [] by decide) (by decide)
  refine ⟨t, ht, (hashesSelection_iff Select.compareEach (fun _ _ _ _ => true) Select.compareEach_pointwise _ stockBlocks
    0 (stockBlocks_numbered hrepr hschema _)).mpr ⟨?_, ?_⟩⟩
  . show (stockBlocks.length : Int) ≤ t.numRows
    rw [hnum]
    decide
  . rintro root ⟨⟩
    show ∀ p ∈ Select.stockNode.leaves, p.Evaluates ["n", "s"] t.schema.fields
    rw [hschema]
    simp only [Select.stockNode, Select.Node.leaves, List.singleton_append, List.forall_mem_cons, List.not_mem_nil,
      false_implies, implies_true, and_true]
    exact ⟨⟨⟨0, by decide, by decide⟩, by decide⟩, ⟨⟨1, by decide, by decide⟩, by decide⟩⟩

def unequalNode : Select.Node :=
  .predicate ⟨"n", .notEqual, .int64 3⟩

theorem not_hashesSelection
    : ∃ t, DBTable.ofBatches (stockBlocks.map (Storage.batchOf Select.stockSchema)) Storage.blockSize false = some t ∧
        ¬(⟨t, ["n", "s"], some unequalNode, "n"⟩ : SelectBuildHash).HashesSelection Select.compareEach
          fun _ _ _ _ => true := by
  obtain ⟨t, ht, hrepr, -, -⟩ := DBTable.ofBatches_repr Select.stockSchema false
    (show stockBlocks ≠ [] by decide) (by decide)
  refine ⟨t, ht, ?_⟩
  intro hruns
  obtain ⟨s, -, -, -, hs, -⟩ := hruns id 1 _ (fun _ => List.Perm.refl _) (isSchedule_flatten _)
  obtain ⟨b, hb, -⟩ := hrepr.getBlock_eq (i := 0) rfl
  have hsome : (Select.filter Select.compareEach (fun _ _ _ => true) ["n", "s"] b unequalNode).isSome := by
    refine exists_filter_of_execute hs ?_ hb rfl
    rw [show t.blocks.entries.length = 2 from hrepr.numBlocks_eq]
    decide
  have hnone : (DBTable.ofBatches (stockBlocks.map (Storage.batchOf Select.stockSchema)) Storage.blockSize false).map
      (fun t => (t.getBlock 0).map fun b => (Select.filter Select.compareEach (fun _ _ _ => true) ["n", "s"] b
        unequalNode).isSome) = some (some false) := by decide +kernel
  rw [ht, Option.map_some, show t.getBlock 0 = some b from hb, Option.map_some, hsome] at hnone
  cases hnone

end SelectBuildHash

end Hustle.Operators
