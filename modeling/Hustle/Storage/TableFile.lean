import Hustle.Storage.FilledTable

/-!
This module contains writing a table to a file and reading it back. Arrow writes record batches, which are the buffers
of the blocks after `TruncateBuffers` has cut them to the sizes that the block has counted. The constructor that reads
them computes the sizes again.
-/

namespace Hustle.Storage

def blockSize : Int := 2 ^ 20

/--
An `arrow::RecordBatch`.
-/
structure RecordBatch where
  schema : Schema
  numRows : Nat
  columns : List ArrayData
  deriving DecidableEq

namespace Column

/--
`TruncateBuffers` for a column. A buffer that is resized to more than was written to it has undefined contents.
-/
def truncate (numRows : Nat) (c : Column) : Option Column :=
  match c.array.buffers with
  | .int64 values =>
    if numRows ≤ values.length then
      some { c with array := { c.array with buffers := .int64 (values.take numRows) } }
    else
      none
  | .string offsets data =>
    if c.size.toNat ≤ data.length ∧ numRows + 1 ≤ offsets.length then
      some { c with array := { c.array with
        buffers := .string (offsets.take (numRows + 1)) (data.take c.size.toNat) } }
    else
      none

/--
`ComputeByteSize` for a column.
-/
def ofArray (numRows : Nat) (a : ArrayData) : Option Column :=
  match a.buffers with
  | .int64 _ => some ⟨a, fieldSize * a.length⟩
  | .string offsets _ => do
    let size ← offsets[numRows]?
    return ⟨a, size⟩

end Column

namespace Block

def truncateBuffers (b : Block) : Option Block := do
  let columns ← b.columns.mapM (Column.truncate b.numRows)
  return { b with columns := columns }

def getRecords (b : Block) : RecordBatch :=
  ⟨b.schema, b.numRows, b.columns.map Column.array⟩

def ofBatch (id : Int) (batch : RecordBatch) (capacity : Int) (metadataEnabled : Bool) : Option Block := do
  let columns ← batch.columns.mapM (Column.ofArray batch.numRows)
  return {
    id := id
    schema := batch.schema
    capacity := capacity
    metadataEnabled := metadataEnabled
    valid := List.replicate batch.numRows true
    columns := columns
    rowIdMap := ∅
    numBytes := Column.totalSize columns
    numRows := batch.numRows
  }

end Block

namespace DBTable

/--
A block behind the others. The offset that is added is the one of the next block.
-/
def addBlock (t : DBTable) (block : Block) : DBTable :=
  { t with
    heap := t.heap ++ [block]
    blocks := t.blocks.emplace t.blockCounter t.heap.length
    blockCounter := t.blockCounter + 1
    numRows := t.numRows + block.numRows
    blockRowOffsets := t.blockRowOffsets ++ [t.numRows + block.numRows] }

/--
The constructor of a table from record batches.
-/
def ofBatches (batches : List RecordBatch) (blockCapacity : Int) (enableMetadata : Bool) : Option DBTable := do
  let first ← batches.head?
  let t ← batches.foldlM
    (fun t batch => do
      let block ← Block.ofBatch t.blockCounter batch blockSize enableMetadata
      return t.addBlock block)
    { new first.schema blockCapacity enableMetadata with blockRowOffsets := [0] }
  let ptr ← t.blocks.lookup (t.blocks.entries.length - 1 : Int)
  let block ← t.block ptr
  if t.fixedRecordWidth < block.getBytesLeft then
    return { t with
      insertPool := t.insertPool.insert block.id ptr
      blockRowOffsets := t.blockRowOffsets.set (t.blockRowOffsets.length - 1) (-1) }
  else
    return t

end DBTable

/--
`write_to_file`, the record batches that are written.
-/
def writeToFile (t : DBTable) : Option (List RecordBatch) :=
  (List.range t.blocks.entries.length).mapM fun (i : Nat) => do
    let block ← t.getBlock (i : Int)
    let block ← block.truncateBuffers
    return block.getRecords

def readFromFile (batches : List RecordBatch) : Option DBTable :=
  DBTable.ofBatches batches blockSize true

/-! Blocks. -/

def batchOf (schema : Schema) (rows : List Row) : RecordBatch :=
  ⟨schema, rows.length, (Column.ofRows schema.fields rows).map Column.array⟩

namespace Column

theorem truncate_ofCells (type : FieldType) (cells : List Cell)
    : truncate cells.length (ofCells type cells) = some (ofCells type cells) := by
  cases type with
  | int64 => simp [truncate, ofCells, ofInts]
  | string =>
    have hoffsets := length_offsetsFrom 0 (cells.map Cell.toBytes)
    rw [List.length_map] at hoffsets
    simp only [truncate, ofCells, ofStrings, Int.toNat_natCast, le_refl, hoffsets, and_self, if_true, List.take_length]
    rw [List.take_of_length_le (by omega)]

theorem ofArray_ofCells (type : FieldType) (cells : List Cell)
    : ofArray cells.length (ofCells type cells).array = some (ofCells type cells) := by
  cases type with
  | int64 => simp [ofArray, ofCells, ofInts]
  | string =>
    have h := offsetsFrom_getElem? 0 (cells.map Cell.toBytes) cells.length (by simp)
    rw [List.take_of_length_le (by simp), Int.zero_add] at h
    simp only [ofArray, ofCells, ofStrings, h, Option.bind_eq_bind, Option.bind_some]
    rfl

theorem mapM_ofRows {f : Column → Option Column} {n : Nat}
    (hf : ∀ type (cells : List Cell), cells.length = n → f (ofCells type cells) = some (ofCells type cells))
    (fields : List FieldType) {rows : List Row} (hrows : rows.length = n)
    : (ofRows fields rows).mapM f = some (ofRows fields rows) := by
  have hcols : ∀ c ∈ ofRows fields rows, f c = some c := by
    intro c hc
    obtain ⟨type, cells, rfl, hlen⟩ := Column.mem_ofRows hc
    exact hf type cells (hlen.trans hrows)
  rw [Run.mapM_eq_some hcols, List.map_id']

end Column

namespace Block

variable {b : Block} {id : Int} {schema : Schema} {capacity : Int} {rows : List Row}

theorem Repr.truncateBuffers (h : b.Repr id schema capacity rows)
    : ∃ b', b.truncateBuffers = some b' ∧ b'.getRecords = batchOf schema rows := by
  have hcols : b.columns.mapM (Column.truncate b.numRows) = some b.columns := by
    rw [h.columns_eq, h.numRows_eq]
    apply Column.mapM_ofRows _ _ rfl
    intro type cells hlen
    rw [← hlen]
    exact Column.truncate_ofCells type cells
  refine ⟨b, ?_, ?_⟩
  . simp [Block.truncateBuffers, hcols]
  . simp [getRecords, batchOf, h.schema_eq, h.numRows_eq, h.columns_eq]

theorem ofBatch_repr (id : Int) (schema : Schema) (capacity : Int) (metadataEnabled : Bool) {rows : List Row}
    (hrows : ∀ row ∈ rows, Row.HasType schema.fields row)
    : ∃ b, ofBatch id (batchOf schema rows) capacity metadataEnabled = some b ∧ b.Repr id schema capacity rows ∧
        b.numRows = rows.length := by
  have hcols : ((Column.ofRows schema.fields rows).map Column.array).mapM (Column.ofArray rows.length)
      = some (Column.ofRows schema.fields rows) := by
    rw [List.mapM_map]
    apply Column.mapM_ofRows (n := rows.length) _ _ rfl
    intro type cells hlen
    rw [← hlen]
    exact Column.ofArray_ofCells type cells
  refine ⟨_, by simp only [ofBatch, batchOf, hcols, Option.bind_eq_bind, Option.bind_some]; rfl, ?_, rfl⟩
  constructor
  . rfl
  . rfl
  . rfl
  . rfl
  . rfl
  . rfl
  . intro r hr
    simp [getValid, hr]
  . simp
  . exact hrows

end Block

/-! Tables. -/

/--
The number of the entries of a map whose keys are the numbers below `n`.
-/
theorem Map.length_entries {ν : Type} {m : Map Int ν} {n : Nat}
    (h : ∀ k, (m.lookup k).isSome ↔ 0 ≤ k ∧ k < n) : m.entries.length = n := by
  have hperm : m.keys.Perm ((List.range n).map fun (i : Nat) => (i : Int)) := by
    rw [List.perm_ext_iff_of_nodup m.keys_nodup]
    . intro k
      rw [← AList.mem_keys, ← AList.lookup_isSome, h, List.mem_map]
      constructor
      . rintro ⟨hk, hlt⟩
        obtain ⟨i, rfl⟩ := Int.eq_ofNat_of_zero_le hk
        exact ⟨i, List.mem_range.mpr (by omega), rfl⟩
      . rintro ⟨i, hi, rfl⟩
        have := List.mem_range.mp hi
        omega
    . apply List.nodup_range.map
      intro i j hij
      exact Int.ofNat.inj hij
  have hlen := hperm.length_eq
  rw [List.length_map, List.length_range] at hlen
  rw [← hlen, AList.keys, List.keys, List.length_map]

namespace DBTable

variable {t : DBTable} {contents : List (List Row)}

theorem Repr.numBlocks_eq (h : t.Repr contents) : t.blocks.entries.length = contents.length := by
  apply Map.length_entries
  intro k
  rw [Option.isSome_iff_exists]
  constructor
  . rintro ⟨ptr, hptr⟩
    obtain ⟨i, hi, hlt⟩ := h.keys k ptr hptr
    omega
  . rintro ⟨hk, hlt⟩
    obtain ⟨i, rfl⟩ := Int.eq_ofNat_of_zero_le hk
    obtain ⟨ptr, -, hptr, -⟩ := h.block i _ (List.getElem?_eq_getElem (by omega))
    exact ⟨ptr, hptr⟩

theorem Repr.writeToFile_eq (h : t.Repr contents)
    : writeToFile t = some (contents.map (batchOf t.schema)) := by
  unfold writeToFile
  have hblock : ∀ i ∈ List.range contents.length, (do
      let block ← t.getBlock (i : Int)
      let block ← block.truncateBuffers
      return block.getRecords) = some (batchOf t.schema (contents.getD i [])) := by
    intro i hi
    have hlt := List.mem_range.mp hi
    obtain ⟨b, hb, hrepr⟩ := h.getBlock_eq (List.getElem?_eq_getElem hlt)
    obtain ⟨b', hb', hrecords⟩ := hrepr.truncateBuffers
    rw [List.getD_eq_getElem?_getD, List.getElem?_eq_getElem hlt, Option.getD_some, ← hrecords]
    simp [hb, hb']
  rw [h.numBlocks_eq, Run.mapM_eq_some hblock, Option.some.injEq]
  apply List.ext_getElem
  . simp
  . intro i hi hi'
    rw [List.length_map] at hi'
    simp [hi']

theorem addBlock_newBlock (t : DBTable) (b : Block) : NewBlock t b (t.addBlock b) :=
  ⟨rfl, rfl, rfl, rfl, rfl, rfl⟩

theorem Repr.foldlM_ofBatch (h : t.Repr contents) (hcapacity : t.blockCapacity = blockSize)
    (hpool : t.insertPool = ∅) (enableMetadata : Bool) {rest : List (List Row)}
    (hrest : ∀ rows ∈ rest, ∀ row ∈ rows, Row.HasType t.schema.fields row)
    : ∃ t', (rest.map (batchOf t.schema)).foldlM
          (fun t batch => do
            let block ← Block.ofBatch t.blockCounter batch blockSize enableMetadata
            return t.addBlock block) t = some t' ∧
        t'.Repr (contents ++ rest) ∧ t'.schema = t.schema ∧ t'.blockCapacity = blockSize ∧ t'.insertPool = ∅ ∧
        t'.numRows = t.numRows + rest.flatten.length := by
  induction rest generalizing t contents with
  | nil => exact ⟨t, rfl, by simpa using h, rfl, hcapacity, hpool, by simp⟩
  | cons rows rest ih =>
    obtain ⟨b, hb, hbrepr, hnum⟩ := Block.ofBatch_repr t.blockCounter t.schema blockSize enableMetadata
      (hrest rows (by simp))
    rw [h.counter_eq, ← hcapacity] at hbrepr
    have hnew := h.newBlock (t.addBlock_newBlock b) hbrepr
    obtain ⟨t', ht', hrepr, hschema, hcap, hpool', hcount⟩ := ih hnew hcapacity hpool
      (fun rows' hrows' => hrest rows' (by simp [hrows']))
    refine ⟨t', ?_, ?_, hschema, hcap, hpool', ?_⟩
    . rw [List.map_cons, List.foldlM_cons, hb]
      exact ht'
    . rw [List.append_assoc, List.singleton_append] at hrepr
      exact hrepr
    . rw [hcount, List.flatten_cons, List.length_append]
      simp only [addBlock, hnum]
      omega

/--
A table from the record batches of blocks has these blocks.
-/
theorem ofBatches_repr (schema : Schema) (enableMetadata : Bool) (hne : contents ≠ [])
    (hcontents : ∀ rows ∈ contents, ∀ row ∈ rows, Row.HasType schema.fields row)
    : ∃ t, ofBatches (contents.map (batchOf schema)) blockSize enableMetadata = some t ∧ t.Repr contents ∧
        t.schema = schema ∧ t.numRows = contents.flatten.length := by
  obtain ⟨rows, rest, rfl⟩ := List.exists_cons_of_ne_nil hne
  have hinit : ({ new schema blockSize enableMetadata with blockRowOffsets := [0] } : DBTable).Repr [] :=
    (new_repr schema blockSize enableMetadata).of_sameBlocks ⟨rfl, rfl, rfl, rfl, rfl, by simp [new]⟩
  obtain ⟨t, ht, hrepr, hschema, hcap, hpool, hnum⟩ := hinit.foldlM_ofBatch rfl rfl enableMetadata hcontents
  rw [List.nil_append] at hrepr
  have hlast : (rows :: rest)[rest.length]? = some ((rows :: rest).getLast (by simp)) := by
    rw [List.getLast_eq_getElem, ← List.getElem?_eq_getElem]
    rfl
  obtain ⟨ptr, b, hptr, hb, hbrepr⟩ := hrepr.block _ _ hlast
  have hkey : ((t.blocks.entries.length : Int) - 1) = (rest.length : Int) := by
    rw [hrepr.numBlocks_eq, List.length_cons]
    omega
  have hstart : (rows :: rest).flatten.length = t.numRows := by
    rw [hnum]
    simp [new]
  unfold ofBatches
  rw [List.map_cons, List.head?_cons, ← List.map_cons]
  simp only [Option.bind_eq_bind, Option.bind_some]
  have ht' : ((rows :: rest).map (batchOf schema)).foldlM
      (fun t batch => (Block.ofBatch t.blockCounter batch blockSize enableMetadata).bind fun block =>
        pure (t.addBlock block))
      ({ new (batchOf schema rows).schema blockSize enableMetadata with blockRowOffsets := [0] } : DBTable)
        = some t := ht
  rw [ht']
  rw [Option.bind_some, hkey]
  simp only [hptr, DBTable.block, hb, Option.bind_some]
  by_cases hleft : t.fixedRecordWidth < b.getBytesLeft
  . rw [if_pos hleft]
    refine ⟨_, rfl, ?_, hschema, hstart.symm⟩
    refine hrepr.of_sameBlocks ⟨rfl, rfl, rfl, rfl, rfl, ?_⟩
    intro k ptr' hlookup
    dsimp only at hlookup
    rw [hpool, Map.lookup_insert_eq] at hlookup
    split at hlookup
    . next hk =>
      cases hlookup
      rw [hk, hbrepr.id_eq]
      exact hptr
    . simp at hlookup
  . rw [if_neg hleft]
    exact ⟨t, rfl, hrepr, hschema, hstart.symm⟩

/-! Tables that are written and read. -/

/--
The blocks of `t'` have the rows and the sizes of the blocks of `t`.
-/
structure SameContents (t t' : DBTable) : Prop where
  numRows_eq : t'.numRows = t.numRows
  numBlocks_eq : t'.blocks.entries.length = t.blocks.entries.length
  block : ∀ i b, t.getBlock i = some b → ∃ b', t'.getBlock i = some b' ∧ b'.numRows = b.numRows ∧
    (∀ r, b'.row r = b.row r) ∧ b'.columns.map Column.size = b.columns.map Column.size ∧ b'.numBytes = b.numBytes

/--
A table that has a block can be written, and what is written is read as a table with the same contents.
-/
def RoundTrips (t : DBTable) : Prop :=
  t.blocks.entries ≠ [] → ∃ file t', writeToFile t = some file ∧ readFromFile file = some t' ∧ t.SameContents t'

theorem Repr.sameContents {t' : DBTable} (h : t.Repr contents) (h' : t'.Repr contents)
    (hschema : t'.schema = t.schema) (hnum : t'.numRows = t.numRows) : t.SameContents t' := by
  refine ⟨hnum, by rw [h.numBlocks_eq, h'.numBlocks_eq], ?_⟩
  intro k b hb
  obtain ⟨i, rows, rfl, hrows, hrepr⟩ := h.of_getBlock hb
  obtain ⟨b', hb', hrepr'⟩ := h'.getBlock_eq hrows
  have hcolumns : b'.columns = b.columns := by
    rw [hrepr'.columns_eq, hrepr.columns_eq, hschema]
  refine ⟨b', hb', ?_, ?_, ?_, ?_⟩
  . rw [hrepr'.numRows_eq, hrepr.numRows_eq]
  . intro r
    rw [Block.row, Block.row, hcolumns]
  . rw [hcolumns]
  . rw [hrepr'.numBytes_eq, hrepr.numBytes_eq, hcolumns]

theorem Repr.roundTrips (h : t.Repr contents) (hnum : t.numRows = contents.flatten.length) : t.RoundTrips := by
  intro hne
  have hcontents : contents ≠ [] := by
    rintro rfl
    exact hne (List.eq_nil_of_length_eq_zero h.numBlocks_eq)
  have htype : ∀ rows ∈ contents, ∀ row ∈ rows, Row.HasType t.schema.fields row := by
    intro rows hrows
    obtain ⟨i, hi⟩ := List.mem_iff_getElem?.mp hrows
    obtain ⟨b, -, hrepr⟩ := h.getBlock_eq hi
    exact hrepr.hasType
  obtain ⟨t', ht', hrepr, hschema, hnum'⟩ := ofBatches_repr t.schema true hcontents htype
  exact ⟨_, t', h.writeToFile_eq, ht', h.sameContents hrepr hschema (hnum'.trans hnum.symm)⟩

end DBTable

namespace SizedTable

/--
For every sequence of inserts into a new table in which every record fits, what is written to a file is read as a table
with the same contents.
-/
theorem calls_roundTrips (roundUp : Nat → Nat) (hround : ∀ n, n ≤ roundUp n)
    (simpleAtoi : List UInt8 → Option (BitVec 64)) (pick : List Int → Nat) (schema : Schema) (blockCapacity : Int)
    (metadataEnabled : Bool) (hcapacity : blockCapacity ≤ maxInt) (hroomy : Roomy schema blockCapacity)
    (calls : List Call) (hcalls : ∀ call ∈ calls, call.WellFormed simpleAtoi schema)
    (hfits : Run.Meets (step roundUp simpleAtoi pick) (fun t call => call.Fits roundUp simpleAtoi pick maxInt t)
      (new schema blockCapacity metadataEnabled) calls)
    : Run.Always (step roundUp simpleAtoi pick) (fun t => t.table.RoundTrips) (fun _ _ _ => True)
        (new schema blockCapacity metadataEnabled) calls := by
  refine Run.always_of_meets ?_ ?_ (new_hasRoom schema blockCapacity maxInt metadataEnabled)
    (hfits.and_forall hcalls)
  . rintro t ⟨contents, h⟩
    exact h.ok.repr.roundTrips h.numRows_eq
  . rintro t call ⟨contents, h⟩ ⟨hfits, hwell⟩
    obtain ⟨t', ht', -, hroom⟩ := h.step hround hroomy hcapacity le_rfl hwell hfits
    exact ⟨t', ht', trivial, hroom⟩

theorem calls_roundTrips_tagCalls
    : Run.Always (step roundUpToMultipleOf64 decimalAtoi fun _ => 0) (fun t => t.table.RoundTrips) (fun _ _ _ => True)
        (new tagSchema 60 false) tagCalls :=
  calls_roundTrips roundUpToMultipleOf64 le_roundUpToMultipleOf64 decimalAtoi (fun _ => 0) tagSchema 60 false
    (by decide) ⟨by decide, by decide⟩ tagCalls tagCalls_wellFormed (by decide +kernel)

def mixedCalls : List Call :=
  List.replicate 8 (.csv [[49], [97]] [8, 1]) ++ [.record [⟨8, [1, 0, 0, 0, 0, 0, 0, 0]⟩, ⟨1, [97]⟩]]

/--
The record is written behind the buffer of the integers.
-/
theorem not_calls_roundTrips_mixedCalls
    : (∀ call ∈ mixedCalls, call.WellFormed decimalAtoi tagSchema) ∧
        ¬ Run.Always (step roundUpToMultipleOf64 decimalAtoi fun _ => 0) (fun t => t.table.RoundTrips)
          (fun _ _ _ => True) (new tagSchema 100 false) mixedCalls := by
  constructor
  . intro call hmem
    rcases List.mem_append.mp hmem with hmem | hmem
    . rw [List.eq_of_mem_replicate hmem]
      exact ⟨rfl, by decide +kernel⟩
    . rw [List.mem_singleton.mp hmem]
      exact .cons (by decide) (.cons (by decide) .nil)
  . intro halways
    have hfails : mixedCalls.foldlM (step roundUpToMultipleOf64 decimalAtoi fun _ => 0) (new tagSchema 100 false)
        = none := by decide +kernel
    obtain ⟨t, ht, -⟩ := halways.foldlM
    rw [hfails] at ht
    cases ht

end SizedTable

end Hustle.Storage
