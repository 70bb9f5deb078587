import Hustle.Operators.HashProbe
import Hustle.Operators.Select
import Hustle.Storage.TableCalls
import Hustle.Util.Batches

/-!
This module contains `SelectBuildHash`, which filters the blocks of a table and hashes the rows that pass. The blocks
are filtered and hashed one by one into tables of their own, which are added to the shared hash table in the order in
which the tasks get the lock.
-/

namespace Hustle.Operators

open Resolver (CompareOperator)
open Storage (Block DBTable)

def BooleanArray.bits (a : BooleanArray) : List Bool :=
  (List.range a.length).map fun row => Bitmap.getBit a.bytes row

structure SelectBuildHash where
  table : DBTable
  /-- the names of the columns -/
  names : List String
  tree : Option Select.Node
  joinColumn : String
  deriving DecidableEq

namespace SelectBuildHash

/-! `chunk_row_offsets_`, which has an entry for every row of the table and is used with numbers of blocks. -/

def setOffset (offsets : List Nat) (i offset : Nat) : Option (List Nat) :=
  if i < offsets.length then some (offsets.set i offset) else none

def nextOffset (t : DBTable) (offsets : List Nat) (i : Nat) : Option (List Nat) := do
  let offset ← offsets[i - 1]?
  let block ← t.getBlock ((i - 1 : Nat) : Int)
  setOffset offsets i (offset + block.numRows)

def chunkRowOffsets (t : DBTable) : Option (List Nat) := do
  let offsets ← setOffset (List.replicate t.numRows.toNat 0) 0 0
  (List.range' 1 (t.blocks.entries.length - 1)).foldlM (nextOffset t) offsets

/-! `ExecuteBlock`. -/

/--
The values of the join column in a block, which are read from the start of the buffer.
-/
def blockData (op : SelectBuildHash) (b : Block) : Option (List (BitVec 64)) := do
  let array ← Select.columnByName op.names b op.joinColumn
  match array.buffers with
  | .int64 values => some values
  | .string _ _ => none

def updateTable (offsets : List Nat) (blockIndex : Nat) (blockData : List (BitVec 64)) (localTable : HashTable)
    (row : Nat) : Option HashTable := do
  let key ← blockData[row]?
  let offset ← offsets[blockIndex]?
  return localTable.push (⟨(offset + row) % 2 ^ 32, blockIndex % 2 ^ 16⟩, key)

/--
Adding one list of the local table to the shared table.
-/
def mergeEntry (t : HashTable) (entry : (_ : BitVec 64) × List RecordID) : HashTable :=
  match t.lookup entry.1 with
  | some ids => t.insert entry.1 (ids ++ entry.2)
  | none => t.insert entry.1 entry.2

def merge (t localTable : HashTable) : HashTable :=
  localTable.entries.foldl mergeEntry t

/--
`filters_`, the local tables of the blocks that have been hashed, and `hash_table_`.
-/
structure State where
  filters : List (Option BooleanArray)
  localTables : Map Nat HashTable
  hashTable : HashTable

/--
What the task of a block does before and in the critical section.
-/
inductive BlockTask where
  | hash (blockIndex : Nat)
  | merge (blockIndex : Nat)
  deriving DecidableEq

section

-- What `Select::Filter` uses, and the order in which a `std::unordered_map` is iterated over.
variable (compare : List (List UInt8) → List UInt8 → CompareOperator → BooleanArray)
  (searchMetadata : Nat → String → BitVec 64 → CompareOperator → Bool) (iterate : HashTable → HashTable)

def filterBlock (op : SelectBuildHash) (blockIndex : Nat) (b : Block) : Option (Option BooleanArray × List Nat) :=
  match op.tree with
  | none => some (none, List.range b.numRows)
  | some root => do
    let filter ← Select.filter compare (searchMetadata blockIndex) op.names b root
    return (some filter, (List.range b.numRows).filter fun row => Bitmap.getBit filter.bytes row)

def hashBlock (op : SelectBuildHash) (offsets : List Nat) (blockIndex : Nat)
    : Option (Option BooleanArray × HashTable) := do
  let b ← op.table.getBlock (blockIndex : Int)
  let blockData ← op.blockData b
  let (filter, rows) ← op.filterBlock compare searchMetadata blockIndex b
  let localTable ← rows.foldlM (updateTable offsets blockIndex blockData) ∅
  return (filter, localTable)

def init (op : SelectBuildHash) : State :=
  ⟨List.replicate op.table.blocks.entries.length none, ∅, ∅⟩

def step (op : SelectBuildHash) (offsets : List Nat) (s : State) : BlockTask → Option State
  | .hash blockIndex => do
    let (filter, localTable) ← op.hashBlock compare searchMetadata offsets blockIndex
    return { s with
      filters := s.filters.set blockIndex filter
      localTables := s.localTables.insert blockIndex localTable }
  | .merge blockIndex => do
    let localTable ← s.localTables.lookup blockIndex
    return { s with hashTable := merge s.hashTable (iterate localTable) }

/--
`Execute`, with the tasks of the blocks in the order in which they are done.
-/
def execute (op : SelectBuildHash) (tasks : List BlockTask) : Option State := do
  let offsets ← chunkRowOffsets op.table
  tasks.foldlM (op.step compare searchMetadata iterate offsets) op.init

end

/-! `ForEachBatch`. -/

/--
The number of hardware threads is taken to be known.
-/
def batchSize (hardwareConcurrency numBlocks : Nat) : Nat :=
  if numBlocks / hardwareConcurrency = 0 then numBlocks else numBlocks / hardwareConcurrency

def batchBlocks (size numBlocks batchIndex : Nat) : List Nat :=
  let baseIndex := batchIndex * size
  let batchLimit := min (baseIndex + size) numBlocks
  List.range' baseIndex (batchLimit - baseIndex)

def batches (hardwareConcurrency numBlocks : Nat) : List (List Nat) :=
  let size := batchSize hardwareConcurrency numBlocks
  (List.range (1 + (numBlocks - 1) / size)).map (batchBlocks size numBlocks)

def blockTasks (blockIndex : Nat) : List BlockTask :=
  [.hash blockIndex, .merge blockIndex]

/--
An order of the tasks of all blocks in which every batch goes through its blocks one after the other.
-/
structure IsSchedule (batches : List (List Nat)) (tasks : List BlockTask) : Prop where
  perm : tasks.Perm (batches.flatten.flatMap blockTasks)
  ordered : ∀ batch ∈ batches, (batch.flatMap blockTasks).Sublist tasks

/-! What is read of the operator. -/

def joinCol (op : SelectBuildHash) : Option (Chunked (BitVec 64)) :=
  (List.range op.table.blocks.entries.length).mapM fun (i : Nat) => do
    let b ← op.table.getBlock (i : Int)
    op.blockData b

def outputFilter (op : SelectBuildHash) (s : State) : Option (Option (Chunked Bool)) :=
  match op.tree with
  | none => some none
  | some _ => do
    let filters ← s.filters.mapM id
    return some (filters.map BooleanArray.bits)

/--
The table has exactly the rows that pass the filter: their number in the table and the number of their block.
-/
structure HashesRows (t : HashTable) (col : Chunked (BitVec 64)) (filter : Option (Chunked Bool)) : Prop where
  nodup : ∀ key, (t.find key).Nodup
  mem_find : ∀ key id, id ∈ t.find key ↔ ∃ (i r : Nat) (chunk : List (BitVec 64)), col[i]? = some chunk ∧
    chunk[r]? = some key ∧ (∀ f, filter = some f → ∃ bits, f[i]? = some bits ∧ bits[r]? = some true) ∧
    id = ⟨((col.take i).map List.length).sum + r, i⟩
  lookup_none : ∀ key, t.lookup key = none ↔ t.find key = []

/--
The tables are the same maps from keys to multisets of rows.
-/
def SameRows (t t' : HashTable) : Prop :=
  ∀ key, (t.find key).Perm (t'.find key) ∧ (t.lookup key = none ↔ t'.lookup key = none)

/-! Offsets. -/

/--
The loop up to block `m`.
-/
theorem foldlM_nextOffset {t : DBTable} (h : t.Indexed) {offsets : List Nat} (hzero : offsets[0]? = some 0) {m : Nat}
    (hm : m < t.blocks.entries.length) (hsize : m < offsets.length)
    : ∃ offsets', (List.range' 1 m).foldlM (nextOffset t) offsets = some offsets' ∧
        offsets'.length = offsets.length ∧ ∀ i ≤ m, offsets'[i]? = some (t.rowsBefore i) := by
  induction m with
  | zero =>
    refine ⟨offsets, rfl, rfl, ?_⟩
    intro i hi
    rw [Nat.le_zero.mp hi]
    exact hzero
  | succ m ih =>
    obtain ⟨offsets', hfold, hlen, hget⟩ := ih (by omega) (by omega)
    obtain ⟨b, hb⟩ := h.getBlock (show m < t.blocks.entries.length by omega)
    refine ⟨offsets'.set (m + 1) (t.rowsBefore (m + 1)), ?_, ?_, ?_⟩
    . rw [List.range'_concat, List.foldlM_append, hfold]
      have hlast := hget m le_rfl
      simp [nextOffset, Nat.add_comm 1 m, hlast, hb, setOffset, hlen, hsize, DBTable.rowsBefore_succ hb]
    . rw [List.length_set, hlen]
    . intro i hi
      rw [List.getElem?_set]
      split
      . next heq =>
        rw [if_pos (by omega), heq]
      . exact hget i (by omega)

theorem chunkRowOffsets_eq {t : DBTable} (h : t.Indexed) (hpos : 0 < t.numRows)
    (hle : (t.blocks.entries.length : Int) ≤ t.numRows)
    : ∃ offsets, chunkRowOffsets t = some offsets ∧ offsets.length = t.numRows.toNat ∧
        ∀ i < t.blocks.entries.length, offsets[i]? = some (t.rowsBefore i) := by
  have hsize : 0 < (List.replicate t.numRows.toNat 0).length := by
    rw [List.length_replicate]
    omega
  have hfirst : ((List.replicate t.numRows.toNat 0).set 0 0)[0]? = some 0 := List.getElem?_set_self hsize
  unfold chunkRowOffsets
  rw [setOffset, if_pos hsize, Option.bind_eq_bind, Option.bind_some]
  cases hblocks : t.blocks.entries.length with
  | zero => exact ⟨_, rfl, by simp, fun i hi => absurd hi (Nat.not_lt_zero i)⟩
  | succ m =>
    obtain ⟨offsets, hfold, hlen, hget⟩ := foldlM_nextOffset h hfirst (m := m) (by omega) (by simp; omega)
    refine ⟨offsets, hfold, ?_, ?_⟩
    . rw [hlen, List.length_set, List.length_replicate]
    . intro i hi
      exact hget i (by omega)

theorem length_nextOffset {t : DBTable} {offsets offsets' : List Nat} {i : Nat}
    (h : nextOffset t offsets i = some offsets') : i < offsets.length ∧ offsets'.length = offsets.length := by
  obtain ⟨offset, -, h⟩ := Option.bind_eq_some_iff.mp h
  obtain ⟨b, -, h⟩ := Option.bind_eq_some_iff.mp h
  unfold setOffset at h
  split at h
  . next hlt =>
    cases h
    exact ⟨hlt, List.length_set⟩
  . cases h

theorem lt_of_foldlM_nextOffset {t : DBTable} {is : List Nat} {offsets offsets' : List Nat}
    (h : is.foldlM (nextOffset t) offsets = some offsets') : ∀ i ∈ is, i < offsets.length := by
  induction is generalizing offsets with
  | nil => simp
  | cons j is ih =>
    rw [List.foldlM_cons] at h
    obtain ⟨offsets₁, hnext, h⟩ := Option.bind_eq_some_iff.mp h
    obtain ⟨hlt, hlen⟩ := length_nextOffset hnext
    intro i hi
    rcases List.mem_cons.mp hi with rfl | hi
    . exact hlt
    . rw [← hlen]
      exact ih h i hi

theorem of_chunkRowOffsets {t : DBTable} {offsets : List Nat} (hoffsets : chunkRowOffsets t = some offsets)
    : 0 < t.numRows ∧ (t.blocks.entries.length : Int) ≤ t.numRows := by
  obtain ⟨first, hfirst, hfold⟩ := Option.bind_eq_some_iff.mp hoffsets
  unfold setOffset at hfirst
  split at hfirst
  . next hsize =>
    cases hfirst
    rw [List.length_replicate] at hsize
    have hlt := lt_of_foldlM_nextOffset hfold
    rw [List.length_set, List.length_replicate] at hlt
    by_cases hblocks : t.blocks.entries.length ≤ 1
    . omega
    . have := hlt (t.blocks.entries.length - 1) (by rw [List.mem_range'_1]; omega)
      omega
  . cases hfirst

section

variable (compare : List (List UInt8) → List UInt8 → CompareOperator → BooleanArray)
  (searchMetadata : Nat → String → BitVec 64 → CompareOperator → Bool)

/--
The offsets can be computed, and there is one for every block that has a row to hash.
-/
def OffsetsInBounds (op : SelectBuildHash) : Prop :=
  ∃ offsets, chunkRowOffsets op.table = some offsets ∧
    ∀ (i : Nat) b filter rows, op.table.getBlock i = some b →
      op.filterBlock compare searchMetadata i b = some (filter, rows) → rows ≠ [] → i < offsets.length

/--
Whatever has been done to a table before, the offsets are in bounds if and only if the table has a row, and no fewer
rows than blocks.
-/
theorem offsetsInBounds_iff (pick : List Int → Nat) (simpleAtoi : List UInt8 → Option (BitVec 64)) (start t : DBTable)
    (hstart : start.IsNew) (calls : List DBTable.Call)
    (hcalls : calls.foldlM (DBTable.step pick simpleAtoi) start = some t) (names : List String)
    (tree : Option Select.Node) (joinColumn : String)
    : (⟨t, names, tree, joinColumn⟩ : SelectBuildHash).OffsetsInBounds compare searchMetadata ↔
        0 < t.numRows ∧ (t.blocks.entries.length : Int) ≤ t.numRows := by
  have h : t.Indexed := hstart.indexed.run hcalls
  constructor
  . rintro ⟨offsets, hoffsets, -⟩
    exact of_chunkRowOffsets hoffsets
  . rintro ⟨hpos, hle⟩
    obtain ⟨offsets, hoffsets, hlen, -⟩ := chunkRowOffsets_eq h hpos hle
    refine ⟨offsets, hoffsets, ?_⟩
    intro i b filter rows hb _ _
    have := h.lt_of_getBlock hb
    omega

end

/--
A table with one row.
-/
theorem offsetsInBounds_iff_row
    : ∃ t, [DBTable.Call.insertCsvRecord [[49], [97]] [8, 1]].foldlM (DBTable.step (fun _ => 0) Storage.decimalAtoi)
          (DBTable.new Storage.tagSchema 60 false) = some t ∧
        (⟨t, ["n", "s"], none, "n"⟩ : SelectBuildHash).OffsetsInBounds Select.compareEach fun _ _ _ _ => true := by
  have hrun : ([DBTable.Call.insertCsvRecord [[49], [97]] [8, 1]].foldlM
      (DBTable.step (fun _ => 0) Storage.decimalAtoi) (DBTable.new Storage.tagSchema 60 false)).map
        (fun t => (t.numRows, t.blocks.entries.length)) = some (1, 1) := by decide +kernel
  obtain ⟨t, ht, hcounts⟩ := Option.map_eq_some_iff.mp hrun
  obtain ⟨hrows, hblocks⟩ := Prod.mk.inj hcounts
  refine ⟨t, ht, (offsetsInBounds_iff Select.compareEach (fun _ _ _ _ => true) (fun _ => 0) Storage.decimalAtoi _ t
    (.inl ⟨_, _, _, rfl⟩) _ ht ["n", "s"] none "n").mpr ?_⟩
  rw [hrows, hblocks]
  decide

/--
A table without blocks. The first offset is written to a vector that is empty.
-/
theorem not_offsetsInBounds_new
    : (DBTable.new Storage.tagSchema 60 false).IsNew ∧
        ¬ (⟨DBTable.new Storage.tagSchema 60 false, ["n", "s"], none, "n"⟩ : SelectBuildHash).OffsetsInBounds
          Select.compareEach fun _ _ _ _ => true := by
  refine ⟨.inl ⟨_, _, _, rfl⟩, ?_⟩
  rintro ⟨offsets, hoffsets, -⟩
  have hnone : chunkRowOffsets (DBTable.new Storage.tagSchema 60 false) = none := by decide
  rw [hnone] at hoffsets
  cases hoffsets

/-! Merging. -/

theorem lookup_mergeEntry (t : HashTable) (entry : (_ : BitVec 64) × List RecordID) (key : BitVec 64)
    : (mergeEntry t entry).lookup key = if key = entry.1 then some (t.find key ++ entry.2) else t.lookup key := by
  unfold mergeEntry HashTable.find
  split
  . next ids hids =>
    rw [Map.lookup_insert_eq]
    split
    . next heq => rw [heq, hids, Option.getD_some]
    . rfl
  . next hnone =>
    rw [Map.lookup_insert_eq]
    split
    . next heq => rw [heq, hnone, Option.getD_none, List.nil_append]
    . rfl

theorem lookup_foldl_mergeEntry (t : HashTable) {entries : List ((_ : BitVec 64) × List RecordID)}
    (hnodup : entries.NodupKeys) (key : BitVec 64)
    : (entries.foldl mergeEntry t).lookup key
        =
      match entries.dlookup key with
      | some ids => some (t.find key ++ ids)
      | none => t.lookup key := by
  induction entries generalizing t with
  | nil => rfl
  | cons entry entries ih =>
    obtain ⟨key', ids⟩ := entry
    obtain ⟨hfresh, hnodup⟩ := List.nodupKeys_cons.mp hnodup
    rw [List.foldl_cons, ih _ hnodup]
    by_cases heq : key = key'
    . subst heq
      rw [List.dlookup_eq_none.mpr hfresh, List.dlookup_cons_eq, lookup_mergeEntry, if_pos rfl]
    . have hfind : (mergeEntry t ⟨key', ids⟩).find key = t.find key := by
        rw [HashTable.find, lookup_mergeEntry, if_neg heq]
        rfl
      rw [List.dlookup_cons_ne _ _ heq, hfind, lookup_mergeEntry, if_neg heq]

theorem lookup_merge (t localTable : HashTable) (key : BitVec 64)
    : (merge t localTable).lookup key
        =
      match localTable.lookup key with
      | some ids => some (t.find key ++ ids)
      | none => t.lookup key :=
  lookup_foldl_mergeEntry t localTable.nodupKeys key

theorem find_merge (t localTable : HashTable) (key : BitVec 64)
    : (merge t localTable).find key = t.find key ++ localTable.find key := by
  rw [HashTable.find, lookup_merge, HashTable.find, HashTable.find]
  cases localTable.lookup key with
  | none => simp
  | some ids => rfl

/-! The table that a list of rows is hashed into. -/

/--
The rows of the table are the given ones, in some order.
-/
structure Stores (t : HashTable) (rows : List (RecordID × BitVec 64)) : Prop where
  find_perm : ∀ key, (t.find key).Perm ((rows.filter fun x => x.2 = key).map Prod.fst)
  lookup_none : ∀ key, t.lookup key = none ↔ t.find key = []

theorem stores_empty : Stores ∅ [] where
  find_perm _ := List.Perm.refl _
  lookup_none key := by simp [HashTable.find]

theorem stores_foldl_push (rows : List (RecordID × BitVec 64)) : Stores (rows.foldl HashTable.push ∅) rows where
  find_perm key := by
    rw [HashTable.find, HashTable.lookup_foldl_push]
    split
    . next hnil => simp [hnil]
    . rw [Option.getD_some]
      exact List.Perm.refl _
  lookup_none key := by
    rw [HashTable.find, HashTable.lookup_foldl_push]
    split
    . simp
    . next hne => simp [HashTable.find, hne]

theorem Stores.merge {t localTable : HashTable} {rows new : List (RecordID × BitVec 64)} (h : Stores t rows)
    (hlocal : Stores localTable new) : Stores (merge t localTable) (rows ++ new) where
  find_perm key := by
    rw [find_merge, List.filter_append, List.map_append]
    exact (h.find_perm key).append (hlocal.find_perm key)
  lookup_none key := by
    rw [find_merge, lookup_merge, List.append_eq_nil_iff, ← h.lookup_none, ← hlocal.lookup_none]
    cases localTable.lookup key with
    | none => simp
    | some ids => simp

theorem Stores.of_perm {t : HashTable} {rows rows' : List (RecordID × BitVec 64)} (h : Stores t rows)
    (hperm : rows.Perm rows') : Stores t rows' where
  find_perm key := (h.find_perm key).trans ((hperm.filter _).map _)
  lookup_none := h.lookup_none

theorem Stores.sameRows {t t' : HashTable} {rows : List (RecordID × BitVec 64)} (h : Stores t rows)
    (h' : Stores t' rows) : SameRows t t' := by
  intro key
  have hperm := (h.find_perm key).trans (h'.find_perm key).symm
  refine ⟨hperm, ?_⟩
  rw [h.lookup_none, h'.lookup_none, List.perm_nil.symm, List.perm_nil.symm]
  exact ⟨fun h => hperm.symm.trans h, fun h => hperm.trans h⟩

theorem Stores.iterate {t t' : HashTable} {rows : List (RecordID × BitVec 64)} (h : Stores t rows)
    (hperm : t'.entries.Perm t.entries) : Stores t' rows := by
  have hlookup : ∀ key, t'.lookup key = t.lookup key := fun key => AList.perm_lookup hperm
  constructor
  . intro key
    rw [HashTable.find, hlookup]
    exact h.find_perm key
  . intro key
    rw [HashTable.find, hlookup]
    exact h.lookup_none key

/-! The rows that pass. -/

/--
The rows of chunk `i` that pass, with their numbers.
-/
def selectedRows (col : Chunked (BitVec 64)) (pass : Nat → Nat → Bool) (i : Nat) : List (RecordID × BitVec 64) :=
  ((List.range (col.getD i []).length).filter (pass i)).map fun row =>
    (⟨((col.take i).map List.length).sum + row, i⟩, (col.getD i []).getD row 0)

/--
The filter that lets these rows pass.
-/
def filterOf (col : Chunked (BitVec 64)) (pass : Nat → Nat → Bool) : Chunked Bool :=
  (List.range col.length).map fun i => (List.range (col.getD i []).length).map (pass i)

theorem numbered_eq_map (offset chunk : Nat) (vs : List (BitVec 64))
    : numbered offset chunk vs
        =
      (List.range vs.length).map fun row => (⟨offset + row, chunk % 2 ^ 16⟩, vs.getD row 0) := by
  induction vs generalizing offset with
  | nil => rfl
  | cons v vs ih =>
    rw [numbered, ih, List.length_cons, List.range_succ_eq_map, List.map_cons, List.map_map]
    congr 1
    apply List.map_congr_left
    intro row _
    simp only [Function.comp_apply, Nat.succ_eq_add_one, List.getD_cons_succ]
    congr 2
    omega

theorem numberedFrom_eq_map {col : Chunked (BitVec 64)} (hlen : col.length ≤ 2 ^ 16)
    : numberedFrom 0 0 col
        =
      (List.range col.length).map fun i => (List.range (col.getD i []).length).map fun row =>
        (⟨((col.take i).map List.length).sum + row, i⟩, (col.getD i []).getD row 0) := by
  apply List.ext_getElem?
  intro i
  by_cases hi : i < col.length
  . have hchunk := List.getElem?_eq_getElem hi
    rw [HashTable.getElem?_numberedFrom hchunk, numbered_eq_map, List.getElem?_map,
      List.getElem?_eq_getElem (by simpa using hi), Option.map_some, List.getElem_range, List.getD_eq_getElem?_getD,
      hchunk, Option.getD_some, length_flatten_take, List.map_take, Nat.zero_add, Nat.zero_add,
      Nat.mod_eq_of_lt (by omega)]
  . rw [List.getElem?_eq_none (by rw [HashTable.length_numberedFrom]; omega),
      List.getElem?_eq_none (by simpa using hi)]

/--
The rows that the loops of `BuildHashTable` select.
-/
theorem applyFilter_filterOf {col : Chunked (BitVec 64)} (hlen : col.length ≤ 2 ^ 16) (pass : Nat → Nat → Bool)
    : applyFilter (numberedFrom 0 0 col) (some (filterOf col pass))
        =
      some ((List.range col.length).map (selectedRows col pass)) := by
  have hselect : ∀ is : List Nat, selectChunks
      (is.map fun i => (List.range (col.getD i []).length).map fun row =>
        ((⟨((col.take i).map List.length).sum + row, i⟩, (col.getD i []).getD row 0) : RecordID × BitVec 64))
      (is.map fun i => (List.range (col.getD i []).length).map (pass i)) = some (is.map (selectedRows col pass)) := by
    intro is
    induction is with
    | nil => rfl
    | cons i is ih =>
      rw [List.map_cons, List.map_cons, selectChunks, ih, selectBits_eq_some (by simp), List.zip_map', List.filter_map,
        List.map_map]
      rfl
  rw [numberedFrom_eq_map hlen]
  exact hselect (List.range col.length)

theorem applyFilter_none {col : Chunked (BitVec 64)} (hlen : col.length ≤ 2 ^ 16) {pass : Nat → Nat → Bool}
    (hpass : ∀ i row, pass i row = true)
    : applyFilter (numberedFrom 0 0 col) none = some ((List.range col.length).map (selectedRows col pass)) := by
  rw [numberedFrom_eq_map hlen]
  show some _ = some _
  congr 1
  apply List.map_congr_left
  intro i _
  rw [selectedRows, List.filter_eq_self.mpr fun row _ => hpass i row]

theorem selectedRows_fst_nodup (col : Chunked (BitVec 64)) (pass : Nat → Nat → Bool) {is : List Nat} (his : is.Nodup)
    : ((is.flatMap (selectedRows col pass)).map Prod.fst).Nodup := by
  rw [List.map_flatMap, List.nodup_flatMap]
  constructor
  . intro i _
    rw [selectedRows, List.map_map]
    apply (List.nodup_range.filter _).map
    intro row row' heq
    simp only [Function.comp_apply, RecordID.mk.injEq, and_true] at heq
    omega
  . apply his.imp
    intro i j hne id hi hj
    obtain ⟨x, hx, rfl⟩ := List.mem_map.mp hi
    obtain ⟨y, hy, heq⟩ := List.mem_map.mp hj
    obtain ⟨row, -, rfl⟩ := List.mem_map.mp hx
    obtain ⟨row', -, rfl⟩ := List.mem_map.mp hy
    simp only [RecordID.mk.injEq] at heq
    exact hne heq.2.symm

theorem mem_selectedRows {col : Chunked (BitVec 64)} {pass : Nat → Nat → Bool} {id : RecordID} {key : BitVec 64}
    : (id, key) ∈ (List.range col.length).flatMap (selectedRows col pass) ↔
        ∃ (i r : Nat) (chunk : List (BitVec 64)), col[i]? = some chunk ∧ chunk[r]? = some key ∧ pass i r = true ∧
          id = ⟨((col.take i).map List.length).sum + r, i⟩ := by
  simp only [selectedRows, List.mem_flatMap, List.mem_map, List.mem_filter, List.mem_range, Prod.mk.injEq]
  constructor
  . rintro ⟨i, hi, r, ⟨hr, hpass⟩, rfl, rfl⟩
    have hchunk : col.getD i [] = col[i] := by simp [hi]
    rw [hchunk] at hr
    refine ⟨i, r, col[i], List.getElem?_eq_getElem hi, ?_, hpass, rfl⟩
    simp [hi, hr]
  . rintro ⟨i, r, chunk, hchunk, hkey, hpass, rfl⟩
    obtain ⟨hi, rfl⟩ := List.getElem?_eq_some_iff.mp hchunk
    obtain ⟨hr, rfl⟩ := List.getElem?_eq_some_iff.mp hkey
    refine ⟨i, hi, r, ⟨by simpa [hi] using hr, hpass⟩, rfl, by simp [hi, hr]⟩

theorem Stores.hashesRows {t : HashTable} {col : Chunked (BitVec 64)} {pass : Nat → Nat → Bool}
    {filter : Option (Chunked Bool)}
    (h : Stores t ((List.range col.length).flatMap (selectedRows col pass)))
    (hpass : ∀ i r chunk, col[i]? = some chunk → r < chunk.length →
      (pass i r = true ↔ ∀ f, filter = some f → ∃ bits, f[i]? = some bits ∧ bits[r]? = some true))
    : HashesRows t col filter where
  nodup key := by
    rw [(h.find_perm key).nodup_iff]
    exact (List.filter_sublist.map Prod.fst).nodup (selectedRows_fst_nodup col pass List.nodup_range)
  mem_find key id := by
    rw [(h.find_perm key).mem_iff, List.mem_map]
    constructor
    . rintro ⟨⟨id', key'⟩, hx, rfl⟩
      obtain ⟨hmem, hkey⟩ := List.mem_filter.mp hx
      simp only [decide_eq_true_eq] at hkey
      rw [hkey] at hmem
      obtain ⟨i, r, chunk, hchunk, hr, hp, rfl⟩ := mem_selectedRows.mp hmem
      exact ⟨i, r, chunk, hchunk, hr, (hpass i r chunk hchunk (List.getElem?_eq_some_iff.mp hr).1).mp hp, rfl⟩
    . rintro ⟨i, r, chunk, hchunk, hr, hp, rfl⟩
      have hp := (hpass i r chunk hchunk (List.getElem?_eq_some_iff.mp hr).1).mpr hp
      refine ⟨(⟨_, i⟩, key), List.mem_filter.mpr ⟨mem_selectedRows.mpr ⟨i, r, chunk, hchunk, hr, hp, rfl⟩, ?_⟩, rfl⟩
      simp
  lookup_none := h.lookup_none

/-! Batches and schedules. -/

theorem batchSize_pos {numBlocks : Nat} (h : 0 < numBlocks) (hardwareConcurrency : Nat)
    : 0 < batchSize hardwareConcurrency numBlocks := by
  unfold batchSize
  split
  . exact h
  . next hne => exact Nat.pos_of_ne_zero hne

theorem flatten_batches {numBlocks : Nat} (h : 0 < numBlocks) (hardwareConcurrency : Nat)
    : (batches hardwareConcurrency numBlocks).flatten = List.range numBlocks := by
  have hsize := batchSize_pos h hardwareConcurrency
  rw [batches, ← List.flatMap_def]
  apply Batches.flatMap_batch_eq
  exact Batches.le_pred_div hsize numBlocks

theorem blockTasks_nodup (n : Nat) : ((List.range n).flatMap blockTasks).Nodup := by
  rw [List.nodup_flatMap]
  constructor
  . intro i _
    simp [blockTasks]
  . apply List.nodup_range.imp
    intro i j hne
    simp [Function.onFun, blockTasks, Ne.symm hne]

/--
The blocks whose tables have been merged.
-/
def mergedBlocks (tasks : List BlockTask) : List Nat :=
  tasks.filterMap fun
    | .merge i => some i
    | .hash _ => none

theorem mergedBlocks_append (tasks tasks' : List BlockTask)
    : mergedBlocks (tasks ++ tasks') = mergedBlocks tasks ++ mergedBlocks tasks' :=
  List.filterMap_append

theorem mergedBlocks_perm {tasks tasks' : List BlockTask} (h : tasks.Perm tasks')
    : (mergedBlocks tasks).Perm (mergedBlocks tasks') :=
  h.filterMap _

theorem mergedBlocks_blockTasks (is : List Nat) : mergedBlocks (is.flatMap blockTasks) = is := by
  induction is with
  | nil => rfl
  | cons i is ih =>
    rw [List.flatMap_cons, mergedBlocks_append, ih]
    rfl

variable {n hardwareConcurrency : Nat} {tasks : List BlockTask}

theorem IsSchedule.tasks_perm (hn : 0 < n) (h : IsSchedule (batches hardwareConcurrency n) tasks)
    : tasks.Perm ((List.range n).flatMap blockTasks) := by
  have := h.perm
  rwa [flatten_batches hn] at this

theorem IsSchedule.hashed (hn : 0 < n) (h : IsSchedule (batches hardwareConcurrency n) tasks) {i : Nat}
    {before after : List BlockTask} (hsplit : tasks = before ++ .merge i :: after) : .hash i ∈ before := by
  have hperm := h.tasks_perm hn
  have hnodup := hperm.nodup_iff.mpr (blockTasks_nodup n)
  have hmem : BlockTask.merge i ∈ (List.range n).flatMap blockTasks := by
    rw [← hperm.mem_iff, hsplit]
    simp
  have hi : i ∈ (batches hardwareConcurrency n).flatten := by
    rw [flatten_batches hn]
    obtain ⟨j, hj, hij⟩ := List.mem_flatMap.mp hmem
    simp only [blockTasks, List.mem_cons, reduceCtorEq, BlockTask.merge.injEq, List.not_mem_nil, or_false,
      false_or] at hij
    rwa [hij]
  obtain ⟨batch, hbatch, hi⟩ := List.mem_flatten.mp hi
  have hsub : (blockTasks i).Sublist (batch.flatMap blockTasks) := by
    rw [List.flatMap_def]
    exact List.sublist_flatten_of_mem (List.mem_map_of_mem hi)
  exact Run.mem_before_of_sublist (hsub.trans (h.ordered batch hbatch)) hnodup hsplit

end SelectBuildHash

end Hustle.Operators
