import Hustle.Operators.HashJoin
import Hustle.Operators.HashSchedule

/-!
This module contains the tables that a query reads, with the rows that are stored in their blocks, and what the lazy
table that `SelectBuildHash` makes of one of them says about these rows.
-/

namespace Hustle.Operators

open Resolver (CompareOperator)
open Storage (Block Cell DBTable Row)

/--
A table without metadata that has a block, and a row in every block. `contents` are the rows of its blocks, whose bytes
are counted by an `int`.
-/
structure QueryTable where
  table : DBTable
  names : List String
  contents : List (List Row)
  repr : table.Repr contents
  contents_ne : contents ≠ []
  rows_ne : ∀ rows ∈ contents, rows ≠ []
  numBlocks_lt : contents.length < 2 ^ 16
  numRows_lt : contents.flatten.length < 2 ^ 32
  numRows_le : (contents.flatten.length : Int) ≤ table.numRows
  metadata : ∀ (i : Nat) b, table.getBlock i = some b → b.metadataEnabled = false
  numBytes_lt : ∀ rows ∈ contents, (rows.map Storage.rowSize).sum < 2 ^ 31

namespace QueryTable

/-! What operators read of a table. -/

def chunkLengths (t : QueryTable) : List Nat :=
  t.contents.map List.length

theorem sum_chunkLengths (t : QueryTable) : t.chunkLengths.sum = t.contents.flatten.length := by
  rw [chunkLengths, List.length_flatten]

/--
`get_column_by_name` of a column of integers.
-/
def column (t : QueryTable) (name : String) : Option (Chunked (BitVec 64)) :=
  SelectBuildHash.joinCol ⟨t.table, t.names, none, name⟩

/-! What is stored in a table. -/

def row (t : QueryTable) (r : Nat) : Option Row :=
  t.contents.flatten[r]?

def cell (t : QueryTable) (name : String) (r : Nat) : Option Cell := do
  let row ← t.row r
  let c ← Select.fieldIndex t.names name
  row[c]?

def Selects (t : QueryTable) (tree : Option Select.Node) (r : Nat) : Prop :=
  ∃ row, t.row r = some row ∧ ∀ node, tree = some node → node.eval t.names row = true

def HasInt64 (t : QueryTable) (name : String) : Prop :=
  ∃ c, Select.fieldIndex t.names name = some c ∧ t.table.schema.fields[c]? = some .int64

/--
The comparisons of the tree are between columns and constants of the same type.
-/
def WellTyped (t : QueryTable) (tree : Option Select.Node) : Prop :=
  ∀ node, tree = some node → node.WellTyped t.names t.table.schema.fields

variable {t : QueryTable} {name : String}

theorem length_blockData {op : SelectBuildHash} {b : Block} {id : Int} {schema : Storage.Schema} {capacity : Int}
    {rows : List Row} (h : b.Repr id schema capacity rows) {values : List (BitVec 64)}
    (hvalues : op.blockData b = some values)
    : values.length = rows.length := by
  obtain ⟨array, harray, hvalues⟩ := Option.bind_eq_some_iff.mp hvalues
  obtain ⟨i, -, harray⟩ := Option.bind_eq_some_iff.mp harray
  obtain ⟨c, hc, harray⟩ := Option.bind_eq_some_iff.mp harray
  cases harray
  rw [h.columns_eq] at hc
  obtain ⟨type, cells, rfl, hlen⟩ := Storage.Column.mem_ofRows (List.mem_of_getElem? hc)
  rw [← hlen]
  cases type with
  | int64 =>
    cases hvalues
    exact List.length_map _
  | string => cases hvalues

theorem column_aligned {col : Chunked (BitVec 64)} (h : t.column name = some col)
    : col.map List.length = t.chunkLengths := by
  have hlen : col.length = t.contents.length := by
    rw [Run.length_mapM h, List.length_range]
    exact t.repr.numBlocks_eq
  apply List.ext_getElem?
  intro i
  rw [List.getElem?_map, chunkLengths, List.getElem?_map]
  by_cases hi : i < t.contents.length
  . obtain ⟨b, hb, hrepr⟩ := t.repr.getBlock_eq (List.getElem?_eq_getElem hi)
    obtain ⟨values, hvalues, hchunk⟩ := Run.getElem?_mapM h (List.getElem?_range (t.repr.numBlocks_eq ▸ hi))
    dsimp only at hvalues
    rw [hb, Option.bind_eq_bind, Option.bind_some] at hvalues
    rw [hchunk, List.getElem?_eq_getElem hi, Option.map_some, Option.map_some, length_blockData hrepr hvalues]
  . rw [List.getElem?_eq_none (by omega), List.getElem?_eq_none (by omega), Option.map_none, Option.map_none]

theorem numBlocks_le (t : QueryTable) : (t.contents.length : Int) ≤ t.table.numRows := by
  have hle : t.contents.length ≤ t.contents.flatten.length := by
    rw [List.length_flatten, ← List.length_map (f := List.length)]
    apply List.length_le_sum_of_one_le
    intro n hn
    obtain ⟨rows, hrows, rfl⟩ := List.mem_map.mp hn
    exact List.length_pos_iff.mpr (t.rows_ne rows hrows)
  have := t.numRows_le
  omega

section

variable {compare : List (List UInt8) → List UInt8 → CompareOperator → BooleanArray}
  {searchMetadata : Nat → String → BitVec 64 → CompareOperator → Bool} {tree : Option Select.Node}

theorem hashable (hcompare : Select.Pointwise compare) (htree : t.WellTyped tree) {c : Nat}
    (hc : Select.fieldIndex t.names name = some c) (htype : t.table.schema.fields[c]? = some .int64)
    : SelectBuildHash.Hashable compare searchMetadata ⟨t.table, t.names, tree, name⟩ t.contents c where
  repr := t.repr
  contents_ne := t.contents_ne
  rows_ne := t.rows_ne
  numBlocks_lt := t.numBlocks_lt
  numRows_lt := t.numRows_lt
  numBlocks_le := t.numBlocks_le
  tree root hroot i b hb := by
    obtain ⟨j, rows, -, -, hrepr⟩ := t.repr.of_getBlock hb
    obtain ⟨out, hout, -⟩ := @Select.filter_marks compare (searchMetadata i) _ _ _ _ _ _ hcompare hrepr
      (t.metadata i b hb) root (htree root hroot)
    rw [hout]
    rfl
  fieldIndex_eq := hc
  fieldType_eq := htype

end

/-! Integer columns. -/

theorem column_eq {c : Nat} (hc : Select.fieldIndex t.names name = some c)
    (htype : t.table.schema.fields[c]? = some .int64)
    : t.column name = some (SelectBuildHash.columnOf t.contents c) :=
  (@hashable t name Select.compareEach (fun _ _ _ _ => true) none Select.compareEach_pointwise
    (fun _ h => by cases h) c hc htype).joinCol_eq

theorem hasType_of_mem {rows : List Row} {row : Row} (hrows : rows ∈ t.contents) (hrow : row ∈ rows)
    : Row.HasType t.table.schema.fields row := by
  obtain ⟨i, hi, rfl⟩ := List.getElem_of_mem hrows
  obtain ⟨b, -, hrepr⟩ := t.repr.getBlock_eq (List.getElem?_eq_getElem hi)
  exact hrepr.hasType row hrow

theorem getElem?_column (hint : t.HasInt64 name) (r : Nat) (v : BitVec 64)
    : (t.column name).bind (fun col => col.flatten[r]?) = some v ↔ t.cell name r = some (.int64 v) := by
  obtain ⟨c, hc, htype⟩ := hint
  have hflat : (SelectBuildHash.columnOf t.contents c).flatten
      = t.contents.flatten.map fun row => (row.getD c default).toInt64 := by
    rw [SelectBuildHash.columnOf, List.map_flatten]
    congr 1
    apply List.map_congr_left
    intro rows _
    rw [List.map_map]
    rfl
  rw [column_eq hc htype, Option.bind_some, hflat, List.getElem?_map, cell, row, hc]
  cases hrow : t.contents.flatten[r]? with
  | none => simp
  | some row =>
    obtain ⟨rows, hrows, hmem⟩ := List.mem_flatten.mp (List.mem_of_getElem? hrow)
    have hfields := hasType_of_mem hrows hmem
    rw [Row.HasType] at hfields
    rw [← hfields, List.getElem?_map] at htype
    obtain ⟨cell, hcell, hfield⟩ := Option.map_eq_some_iff.mp htype
    simp only [Option.map_some, Option.bind_eq_bind, Option.bind_some, List.getD_eq_getElem?_getD, hcell,
      Option.getD_some, Option.some.injEq]
    cases cell with
    | int64 w => simp [Cell.toInt64]
    | string bytes => cases hfield

/-! Filtered tables. -/

theorem selects_none (t : QueryTable) {r : Nat} (hr : r < t.chunkLengths.sum) : t.Selects none r := by
  rw [sum_chunkLengths] at hr
  exact ⟨_, List.getElem?_eq_getElem hr, fun _ h => by cases h⟩

/--
The values of a tree for the rows, as a filter.
-/
def marked (t : QueryTable) (node : Select.Node) : Chunked Bool :=
  t.contents.map fun rows => rows.map fun row => node.eval t.names row

theorem length_marked (node : Select.Node) : (t.marked node).map List.length = t.chunkLengths := by
  simp [marked, chunkLengths, Function.comp_def]

theorem passes_marked (node : Select.Node) {r : Nat} (hr : r < t.chunkLengths.sum)
    : Passes (some (t.marked node)) r ↔ t.Selects (some node) r := by
  rw [sum_chunkLengths] at hr
  have hrow : t.row r = some t.contents.flatten[r] := List.getElem?_eq_getElem hr
  simp only [marked, Passes, Option.some.injEq, forall_eq', Selects, hrow, exists_eq_left', ← List.map_flatten,
    List.getElem?_map, List.getElem?_eq_getElem hr, Option.map_some]

section

variable {compare : List (List UInt8) → List UInt8 → CompareOperator → BooleanArray}
  {searchMetadata : Nat → String → BitVec 64 → CompareOperator → Bool} {tree : Option Select.Node}

theorem filterOf_eq (hcompare : Select.Pointwise compare) {node : Select.Node}
    (htree : node.WellTyped t.names t.table.schema.fields) (c : Nat)
    : SelectBuildHash.filterOf (SelectBuildHash.columnOf t.contents c)
          (SelectBuildHash.pass compare searchMetadata ⟨t.table, t.names, some node, name⟩)
        =
      t.marked node := by
  apply List.ext_getElem?
  intro i
  rw [SelectBuildHash.filterOf, marked, List.getElem?_map, List.getElem?_map, SelectBuildHash.length_columnOf]
  by_cases hi : i < t.contents.length
  . obtain ⟨b, hb, hrepr⟩ := t.repr.getBlock_eq (List.getElem?_eq_getElem hi)
    obtain ⟨out, hout, hmarks⟩ := @Select.filter_marks compare (searchMetadata i) _ _ _ _ _ _ hcompare hrepr
      (t.metadata i b hb) node htree
    have hblock : SelectBuildHash.blockFilter compare searchMetadata ⟨t.table, t.names, some node, name⟩ i
        = some out := by
      simp [SelectBuildHash.blockFilter, hb, hout]
    rw [List.getElem?_range hi, List.getElem?_eq_getElem hi, Option.map_some, Option.map_some, Option.some.injEq,
      List.getD_eq_getElem?_getD, SelectBuildHash.columnOf_getElem? (List.getElem?_eq_getElem hi), Option.getD_some,
      List.length_map, List.length_map]
    apply List.ext_getElem
    . simp
    . intro k hk hk'
      have hbit := hmarks.holds k
      have hlt : k < t.contents[i].length := by simpa using hk
      simp [SelectBuildHash.pass, hblock, hbit, hlt]
  . rw [List.getElem?_eq_none (by simpa using hi), List.getElem?_eq_none (by omega), Option.map_none, Option.map_none]

/--
A row of the table passes the filter that `SelectBuildHash` makes if it satisfies the tree.
-/
theorem passes_iff (hcompare : Select.Pointwise compare) (htree : t.WellTyped tree) (c : Nat) {r : Nat}
    (hr : r < t.chunkLengths.sum)
    : Passes (tree.map fun _ => SelectBuildHash.filterOf (SelectBuildHash.columnOf t.contents c)
          (SelectBuildHash.pass compare searchMetadata ⟨t.table, t.names, tree, name⟩)) r ↔ t.Selects tree r := by
  cases tree with
  | none =>
    constructor
    . intro _
      exact t.selects_none hr
    . intro _
      exact passes_none r
  | some node =>
    rw [Option.map_some, filterOf_eq hcompare (htree node rfl)]
    exact passes_marked node hr

end

/-! Tables from record batches. -/

theorem metadataEnabled_foldlM {batches : List Storage.RecordBatch} {enableMetadata : Bool} {table t : DBTable}
    (hrun : batches.foldlM (fun t batch => do
      let block ← Block.ofBatch t.blockCounter batch Storage.blockSize enableMetadata
      return t.addBlock block) table = some t)
    (h : ∀ b ∈ table.heap, b.metadataEnabled = enableMetadata)
    : ∀ b ∈ t.heap, b.metadataEnabled = enableMetadata := by
  induction batches generalizing table with
  | nil =>
    cases hrun
    exact h
  | cons batch batches ih =>
    obtain ⟨next, hnext, hrun⟩ := Option.bind_eq_some_iff.mp hrun
    obtain ⟨block, hblock, hnext⟩ := Option.bind_eq_some_iff.mp hnext
    obtain ⟨columns, -, hblock⟩ := Option.bind_eq_some_iff.mp hblock
    cases hnext
    cases hblock
    apply ih hrun
    intro b hb
    rcases List.mem_append.mp hb with hb | hb
    . exact h b hb
    . rw [List.mem_singleton.mp hb]

theorem metadataEnabled_ofBatches {batches : List Storage.RecordBatch} {capacity : Int} {enableMetadata : Bool}
    {t : DBTable} (h : DBTable.ofBatches batches capacity enableMetadata = some t)
    : ∀ b ∈ t.heap, b.metadataEnabled = enableMetadata := by
  obtain ⟨first, -, h⟩ := Option.bind_eq_some_iff.mp h
  obtain ⟨loaded, hloaded, h⟩ := Option.bind_eq_some_iff.mp h
  obtain ⟨ptr, -, h⟩ := Option.bind_eq_some_iff.mp h
  obtain ⟨block, -, h⟩ := Option.bind_eq_some_iff.mp h
  have hheap : t.heap = loaded.heap := by
    split at h <;> (cases h; rfl)
  rw [hheap]
  exact metadataEnabled_foldlM hloaded fun b hb => by cases hb

theorem exists_ofBatches (schema : Storage.Schema) (names : List String) {contents : List (List Row)}
    (hcontents : ∀ rows ∈ contents, ∀ row ∈ rows, Row.HasType schema.fields row) (hne : contents ≠ [])
    (hrows : ∀ rows ∈ contents, rows ≠ []) (hblocks : contents.length < 2 ^ 16)
    (hnumRows : contents.flatten.length < 2 ^ 32)
    (hnumBytes : ∀ rows ∈ contents, (rows.map Storage.rowSize).sum < 2 ^ 31)
    : ∃ t : QueryTable,
        DBTable.ofBatches (contents.map (Storage.batchOf schema)) Storage.blockSize false = some t.table ∧
        t.names = names ∧ t.contents = contents ∧ t.table.schema = schema ∧
        t.table.blocks.entries.length = contents.length := by
  obtain ⟨table, htable, hrepr, hschema, hnum⟩ := DBTable.ofBatches_repr schema false hne hcontents
  refine ⟨⟨table, names, contents, hrepr, hne, hrows, hblocks, hnumRows, le_of_eq hnum.symm, ?_, hnumBytes⟩,
    htable, rfl, rfl, hschema, hrepr.numBlocks_eq⟩
  intro i b hb
  obtain ⟨ptr, -, hb⟩ := Option.bind_eq_some_iff.mp hb
  exact metadataEnabled_ofBatches htable b (List.mem_of_getElem? hb)

end QueryTable

/-! Databases. -/

/--
The tables of a database by their pointers.
-/
abbrev QueryDatabase := List QueryTable

namespace QueryDatabase

def tables (db : QueryDatabase) : Tables where
  chunkLengths t := (db[t]?.map QueryTable.chunkLengths).getD []
  column t name := db[t]?.bind fun table => table.column name
  column_aligned := by
    intro t name col h
    obtain ⟨table, htable, hcol⟩ := Option.bind_eq_some_iff.mp h
    rw [htable, Option.map_some, Option.getD_some]
    exact table.column_aligned hcol

variable {db : QueryDatabase} {t : Nat} {table : QueryTable} {name : String}

theorem chunkLengths_eq (ht : db[t]? = some table) : db.tables.chunkLengths t = table.chunkLengths := by
  simp [tables, ht]

theorem numRows_eq (ht : db[t]? = some table) : db.tables.numRows t = table.chunkLengths.sum := by
  rw [Tables.numRows, chunkLengths_eq ht]

theorem chunkLengths_ne_nil (ht : db[t]? = some table) : db.tables.chunkLengths t ≠ [] := by
  rw [chunkLengths_eq ht, QueryTable.chunkLengths, ne_eq, List.map_eq_nil_iff]
  exact table.contents_ne

theorem column_eq (ht : db[t]? = some table) (name : String) : db.tables.column t name = table.column name := by
  simp [tables, ht]

theorem value_eq_some_iff (ht : db[t]? = some table) (hint : table.HasInt64 name) (r : Nat) (v : BitVec 64)
    : db.tables.value t name r = some v ↔ table.cell name r = some (.int64 v) := by
  rw [← table.getElem?_column hint, Tables.value, column_eq ht]
  rfl

theorem fresh_all (ht : db[t]? = some table) : LazyTable.Fresh db.tables ⟨t, none, none, none, none⟩ where
  indices := rfl
  indexChunks := rfl
  filter f hf := by cases hf
  chunks := chunkLengths_ne_nil ht

theorem fresh_marked (ht : db[t]? = some table) (node : Select.Node)
    : LazyTable.Fresh db.tables ⟨t, some (table.marked node), none, none, none⟩ where
  indices := rfl
  indexChunks := rfl
  filter f hf := by
    cases hf
    rw [chunkLengths_eq ht, table.length_marked]
  chunks := chunkLengths_ne_nil ht

theorem exists_column (ht : db[t]? = some table) (hint : table.HasInt64 name)
    : ∃ col, db.tables.column t name = some col := by
  obtain ⟨c, hc, htype⟩ := hint
  exact ⟨_, by rw [column_eq ht, table.column_eq hc htype]⟩

/--
What `SelectBuildHash` makes of a table, whatever the order of its tasks is: the filter lets the rows pass that satisfy
the tree, and the hash table has these rows.
-/
theorem selectBuildHash_eq_some {compare : List (List UInt8) → List UInt8 → CompareOperator → BooleanArray}
    {searchMetadata : Nat → String → BitVec 64 → CompareOperator → Bool} {iterate : HashTable → HashTable}
    (hcompare : Select.Pointwise compare) (hiterate : ∀ t, (iterate t).entries.Perm t.entries)
    {tree : Option Select.Node} (ht : db[t]? = some table) (htree : table.WellTyped tree) (hint : table.HasInt64 name)
    {hardwareConcurrency : Nat} {tasks : List SelectBuildHash.BlockTask}
    (htasks : SelectBuildHash.IsSchedule
      (SelectBuildHash.batches hardwareConcurrency table.table.blocks.entries.length) tasks)
    : ∃ s filter,
        SelectBuildHash.execute compare searchMetadata iterate ⟨table.table, table.names, tree, name⟩ tasks = some s ∧
        SelectBuildHash.outputFilter ⟨table.table, table.names, tree, name⟩ s = some filter ∧
        LazyTable.Fresh db.tables ⟨t, filter, none, none, some s.hashTable⟩ ∧
        (∀ r < table.chunkLengths.sum, Passes filter r ↔ table.Selects tree r) ∧
        ∀ p : JoinPredicate, p.rightTable = t → p.rightCol = name →
          FindsMatching db.tables p ⟨t, filter, none, none, some s.hashTable⟩ := by
  obtain ⟨c, hc, htype⟩ := hint
  have hashable := @table.hashable name compare searchMetadata tree hcompare htree c hc htype
  obtain ⟨s, hs, hfilter, hstores⟩ := SelectBuildHash.execute_stores hcompare hiterate hashable htasks
  obtain ⟨built, hbuilt, hbuiltStores⟩ := hashable.build_stores
  have hcol := table.column_eq hc htype
  have hfresh : LazyTable.Fresh db.tables ⟨t, tree.map fun _ => SelectBuildHash.filterOf
      (SelectBuildHash.columnOf table.contents c) (SelectBuildHash.pass compare searchMetadata
        ⟨table.table, table.names, tree, name⟩), none, none, some s.hashTable⟩ := by
    refine ⟨rfl, rfl, ?_, chunkLengths_ne_nil ht⟩
    intro f hf
    obtain ⟨node, -, rfl⟩ := Option.map_eq_some_iff.mp hf
    rw [chunkLengths_eq ht, ← table.column_aligned hcol]
    simp only [SelectBuildHash.filterOf, List.map_map]
    apply List.ext_getElem
    . simp
    . intro i hi hi'
      simp at hi'
      simp [hi']
  refine ⟨s, _, hs, hfilter, hfresh, fun r hr => table.passes_iff hcompare htree c hr, ?_⟩
  rintro p rfl rfl
  have hcol' : db.tables.column p.rightTable p.rightCol = some (SelectBuildHash.columnOf table.contents c) := by
    rw [column_eq ht, hcol]
  refine ⟨fun ρ => (s.hashTable.find (db.tables.key p.leftTable p.leftCol (ρ p.leftTable))).map RecordID.index,
    ⟨_, s.hashTable, hcol', rfl, fun _ => rfl⟩, ?_⟩
  intro ρ
  obtain ⟨built', hbuilt', hfind⟩ := HashTable.find_build (Tables.column_ne_nil hcol' hfresh.chunks)
    (hfresh.aligned hcol')
  rw [hbuilt, Option.some.injEq] at hbuilt'
  rw [joinRows_eq hcol', ← (hfind _).1, ← hbuilt']
  exact ((hstores.sameRows hbuiltStores _).1).map _

end QueryDatabase

end Hustle.Operators
