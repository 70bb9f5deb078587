import Hustle.Storage.BulkLoad
import Hustle.Storage.TableRepr

/-!
This module contains the insert functions of a table together with the memory of its blocks. They return `none` where
a block is created or written to behind the capacity of a buffer.
-/

namespace Hustle.Storage

namespace DBTable

/--
What all insert functions end with: a block that may have room for another record goes back to the insert pool.
-/
def offerBlock (t : DBTable) (ptr : BlockPtr) (block : Block) : DBTable :=
  if t.fixedRecordWidth < block.getBytesLeft then
    { t with insertPool := t.insertPool.insert block.id ptr }
  else
    t

theorem Repr.offerBlock {t : DBTable} {contents : List (List Row)} (h : t.Repr contents) {i : Nat} {ptr : BlockPtr}
    {b : Block} (hptr : t.blocks.lookup (i : Int) = some ptr) (hid : b.id = i)
    : SameBlocks t (t.offerBlock ptr b) := by
  unfold DBTable.offerBlock
  split
  . refine ⟨rfl, rfl, rfl, rfl, rfl, ?_⟩
    intro k ptr' hlookup
    dsimp only at hlookup
    rw [Map.lookup_insert_eq] at hlookup
    split at hlookup
    . next hk =>
      cases hlookup
      rw [hk, hid]
      exact hptr
    . exact h.pool k ptr' hlookup
  . exact ⟨rfl, rfl, rfl, rfl, rfl, h.pool⟩

theorem offerBlock_sameRows (t : DBTable) (ptr : BlockPtr) (b : Block) : SameRows t (t.offerBlock ptr b) := by
  unfold DBTable.offerBlock
  split
  . exact ⟨rfl, rfl, rfl, rfl⟩
  . exact SameRows.refl t

end DBTable

structure SizedTable where
  table : DBTable
  memory : List (Allocation × List ColumnMemory)
  deriving DecidableEq

namespace SizedTable

def new (schema : Schema) (blockCapacity : Int) (metadataEnabled : Bool) : SizedTable :=
  ⟨.new schema blockCapacity metadataEnabled, []⟩

def block (t : SizedTable) (ptr : BlockPtr) : Option SizedBlock := do
  let b ← t.table.block ptr
  let m ← t.memory[ptr]?
  return ⟨b, m.1, m.2⟩

def setBlock (t : SizedTable) (ptr : BlockPtr) (s : SizedBlock) : SizedTable :=
  ⟨t.table.setBlock ptr s.block, t.memory.set ptr (s.valid, s.memory)⟩

section

variable (roundUp : Nat → Nat) (simpleAtoi : List UInt8 → Option (BitVec 64)) (pick : List Int → Nat)

def createBlock (t : SizedTable) : Option (BlockPtr × SizedTable) := do
  let s ← SizedBlock.new roundUp t.table.blockCounter t.table.schema t.table.blockCapacity t.table.metadataEnabled
  let (ptr, table) := t.table.createBlock
  return (ptr, ⟨table, t.memory ++ [(s.valid, s.memory)]⟩)

def getBlockForInsert (t : SizedTable) : Option (BlockPtr × SizedTable) :=
  let keys := t.table.insertPool.keys
  match t.table.insertPool.entries[pick keys % keys.length]? with
  | none => t.createBlock roundUp
  | some ⟨key, ptr⟩ =>
    some (ptr, { t with table := { t.table with insertPool := t.table.insertPool.erase key } })

/--
The block for a record of the given size: one from the insert pool if the record fits.
-/
def blockForRecord (t : SizedTable) (recordSize : Int) : Option (BlockPtr × SizedTable) := do
  let (ptr, t) ← t.getBlockForInsert roundUp pick
  let s ← t.block ptr
  if s.block.getBytesLeft < recordSize then t.createBlock roundUp else return (ptr, t)

/--
What both functions that insert one record do. The result of the block is not checked.
-/
def insertWith (t : SizedTable) (recordSize : Int) (insert : SizedBlock → Option (Int × SizedBlock))
    : Option (BlockInfo × SizedTable) := do
  let (ptr, t) ← t.blockForRecord roundUp pick recordSize
  let s ← t.block ptr
  let (rowNum, s) ← insert s
  let t := t.setBlock ptr s
  let table := { t.table with numRows := t.table.numRows + 1 }
  return (⟨s.block.id, rowNum⟩, { t with table := table.offerBlock ptr s.block })

/--
`DBTable::InsertRecord(uint8_t*, int32_t*)`.
-/
def insertRecord (t : SizedTable) (record : List UInt8) (byteWidths : List Int) : Option (BlockInfo × SizedTable) :=
  t.insertWith roundUp pick (t.table.getRecordSize byteWidths) fun s => s.insertRecord roundUp record byteWidths

/--
`DBTable::InsertRecord(std::vector<std::string_view>, int32_t*)`. The size of the record is the sum of the widths.
-/
def insertCsvRecord (t : SizedTable) (values : List (List UInt8)) (byteWidths : List Int)
    : Option (BlockInfo × SizedTable) :=
  t.insertWith roundUp pick (byteWidths.take t.table.schema.fields.length).sum fun s =>
    s.insertCsvRecord roundUp simpleAtoi values byteWidths

def loader : Loader SizedTable where
  bytesLeft t ptr := (t.block ptr).map fun s => s.block.getBytesLeft
  insertRecords t ptr columnData := do
    let s ← t.block ptr
    let (_, s) ← s.insertRecords roundUp columnData
    return t.setBlock ptr s
  createBlock t := t.createBlock roundUp

def insertRecords (t : SizedTable) (columnData : List ArrayData) : Option SizedTable := do
  let first ← columnData.head?
  let (ptr, t) ← t.getBlockForInsert roundUp pick
  let (ptr, t) ← (loader roundUp).load columnData first.length ptr t
  let s ← t.block ptr
  let table := t.table.offerBlock ptr s.block
  return { t with table := { table with numRows := table.numRows + first.length } }

end

/--
Block `i` of the table holds exactly `contents[i]`, and its buffers have room for these rows.
-/
structure Ok (t : SizedTable) (contents : List (List Row)) : Prop where
  repr : t.table.Repr contents
  length_eq : t.memory.length = t.table.heap.length
  block : ∀ {i : Nat} {rows : List Row} {ptr : BlockPtr}, contents[i]? = some rows →
    t.table.blocks.lookup (i : Int) = some ptr →
    ∃ s, t.block ptr = some s ∧ s.Ok i t.table.schema t.table.blockCapacity rows

variable {roundUp : Nat → Nat} {pick : List Int → Nat} {t : SizedTable} {contents : List (List Row)}

theorem new_ok (schema : Schema) (blockCapacity : Int) (metadataEnabled : Bool)
    : (new schema blockCapacity metadataEnabled).Ok [] where
  repr := DBTable.new_repr schema blockCapacity metadataEnabled
  length_eq := rfl
  block := by simp

theorem Ok.of_sameBlocks {table : DBTable} (h : t.Ok contents) (hsame : DBTable.SameBlocks t.table table)
    : (⟨table, t.memory⟩ : SizedTable).Ok contents where
  repr := h.repr.of_sameBlocks hsame
  length_eq := by rw [hsame.heap_eq, h.length_eq]
  block := by
    intro i rows ptr hrows hptr
    rw [hsame.blocks_eq] at hptr
    obtain ⟨s, hs, hok⟩ := h.block hrows hptr
    refine ⟨s, ?_, ?_⟩
    . rw [SizedTable.block, DBTable.block, hsame.heap_eq]
      exact hs
    . rw [hsame.schema_eq, hsame.blockCapacity_eq]
      exact hok

/--
The constructor of a block has memory for a row if it needs some for the first offset of a string column.
-/
structure Roomy (schema : Schema) (blockCapacity : Int) : Prop where
  nonneg : 0 ≤ blockCapacity
  string : .string ∈ schema.fields → 0 < SizedBlock.initRows schema blockCapacity

theorem Roomy.initRows_nonneg {schema : Schema} {blockCapacity : Int} (h : Roomy schema blockCapacity)
    : 0 ≤ SizedBlock.initRows schema blockCapacity := by
  apply Int.tdiv_nonneg h.nonneg
  have : 0 ≤ computeFixedRecordWidth schema := by
    unfold computeFixedRecordWidth
    apply List.sum_nonneg
    intro width hwidth
    obtain ⟨type, -, rfl⟩ := List.mem_map.mp hwidth
    cases type <;> decide
  have hstrings : (0 : Int) ≤ estimatedStrLen * (schema.fields.count .string : Nat) := by
    apply Int.mul_nonneg <;> omega
  exact Int.add_nonneg this hstrings

theorem Ok.createBlock (hround : ∀ n, n ≤ roundUp n) (hroomy : Roomy t.table.schema t.table.blockCapacity)
    (h : t.Ok contents)
    : ∃ ptr t', t.createBlock roundUp = some (ptr, t') ∧ t'.Ok (contents ++ [[]]) ∧
        t'.table.blocks.lookup (contents.length : Int) = some ptr ∧ DBTable.SameRows t.table t'.table ∧
        t'.table.insertPool = t.table.insertPool := by
  obtain ⟨s, hs, hok⟩ := SizedBlock.new_ok hround t.table.blockCounter t.table.metadataEnabled
    hroomy.initRows_nonneg hroomy.string
  have hblock : s.block
      = Block.new t.table.blockCounter t.table.schema t.table.blockCapacity t.table.metadataEnabled := by
    unfold SizedBlock.new at hs
    split at hs
    . cases hs
    . obtain ⟨memory, -, hs⟩ := Option.bind_eq_some_iff.mp hs
      cases hs
      rfl
  obtain ⟨hrepr, hptr, hsame⟩ := h.repr.createBlock
  refine ⟨t.table.createBlock.1, ⟨t.table.createBlock.2, t.memory ++ [(s.valid, s.memory)]⟩, ?_, ?_, hptr, hsame, rfl⟩
  . simp [SizedTable.createBlock, hs]
  . refine ⟨hrepr, ?_, ?_⟩
    . simp [DBTable.createBlock, h.length_eq]
    . intro i rows ptr hrows hlookup
      rw [t.table.createBlock_newBlock.lookup h.repr] at hlookup
      split at hlookup
      . next hi =>
        have hi : i = contents.length := by omega
        cases hlookup
        refine ⟨s, ?_, ?_⟩
        . have hmemory : (t.memory ++ [(s.valid, s.memory)])[t.table.heap.length]? = some (s.valid, s.memory) := by
            rw [← h.length_eq, List.getElem?_concat_length]
          simp [SizedTable.block, DBTable.block, DBTable.createBlock, ← hblock, hmemory]
        . rw [hi, List.getElem?_concat_length, Option.some.injEq] at hrows
          rw [← hrows, hi, ← h.repr.counter_eq]
          exact hok
      . next hi =>
        have hlt : i < contents.length := by
          have := (List.getElem?_eq_some_iff.mp hrows).1
          simp at this
          omega
        rw [List.getElem?_append_left hlt] at hrows
        obtain ⟨s', hs', hok'⟩ := h.block hrows hlookup
        have hptr := h.repr.ptr_lt hlookup
        refine ⟨s', ?_, hok'⟩
        rw [← hs', SizedTable.block, SizedTable.block, DBTable.block, DBTable.block, DBTable.createBlock,
          List.getElem?_append_left hptr, List.getElem?_append_left (by rw [h.length_eq]; exact hptr)]

/--
Block `i` is one of the `n` blocks of the table and in its insert pool, or the pool is empty and `i` is the next block.
-/
def FromPool (t : DBTable) (n k i : Nat) : Prop :=
  (t.insertPool.lookup (i : Int)).isSome ∧ k = 0 ∨ t.insertPool.entries = [] ∧ k = 1 ∧ i = n

theorem Ok.getBlockForInsert (hround : ∀ n, n ≤ roundUp n) (hroomy : Roomy t.table.schema t.table.blockCapacity)
    (h : t.Ok contents) (pick : List Int → Nat)
    : ∃ ptr t', ∃ (k i : Nat), t.getBlockForInsert roundUp pick = some (ptr, t') ∧
        i < contents.length + k ∧ t'.Ok (contents ++ List.replicate k []) ∧
        t'.table.blocks.lookup (i : Int) = some ptr ∧ DBTable.SameRows t.table t'.table ∧
        FromPool t.table contents.length k i := by
  unfold SizedTable.getBlockForInsert
  dsimp only
  split
  . next heq =>
    obtain ⟨ptr, t', hcreate, hok, hptr, hsame, -⟩ := h.createBlock hround hroomy
    refine ⟨ptr, t', 1, contents.length, hcreate, by omega, hok, hptr, hsame, .inr ⟨?_, rfl, rfl⟩⟩
    rw [List.getElem?_eq_none_iff] at heq
    cases hentries : t.table.insertPool.entries with
    | nil => rfl
    | cons entry entries =>
      have hlen : t.table.insertPool.keys.length = entries.length + 1 := by
        simp [AList.keys, List.keys, hentries]
      have := Nat.mod_lt (pick t.table.insertPool.keys) (show 0 < t.table.insertPool.keys.length by omega)
      rw [hentries, List.length_cons] at heq
      omega
  . next key ptr heq =>
    have hlookup : t.table.insertPool.lookup key = some ptr := by
      have := AList.mem_lookup_iff.mpr (List.mem_of_getElem? heq)
      simpa using this
    have hptr := h.repr.pool key ptr hlookup
    obtain ⟨i, hi, hlt⟩ := h.repr.keys key ptr hptr
    have hpool : FromPool t.table contents.length 0 i := .inl ⟨by rw [← hi, hlookup]; rfl, rfl⟩
    refine ⟨ptr, _, 0, i, rfl, by omega, ?_, by rw [← hi]; exact hptr, ⟨rfl, rfl, rfl, rfl⟩, hpool⟩
    rw [List.replicate_zero, List.append_nil]
    apply h.of_sameBlocks
    refine ⟨rfl, rfl, rfl, rfl, rfl, ?_⟩
    intro k ptr' hlookup'
    dsimp only at hlookup'
    rw [Map.lookup_erase_eq] at hlookup'
    split at hlookup'
    . cases hlookup'
    . exact h.repr.pool k ptr' hlookup'

theorem Ok.setBlock (h : t.Ok contents) {i : Nat} {ptr : BlockPtr} {s : SizedBlock} {rows : List Row}
    (hptr : t.table.blocks.lookup (i : Int) = some ptr)
    (hs : s.Ok i t.table.schema t.table.blockCapacity rows)
    : (t.setBlock ptr s).Ok (contents.set i rows) where
  repr := h.repr.setBlock hptr hs.repr
  length_eq := by simp [SizedTable.setBlock, DBTable.setBlock, h.length_eq]
  block := by
    intro j rows' ptr' hj hptr'
    have hlt := h.repr.ptr_lt hptr
    rw [List.getElem?_set] at hj
    by_cases hij : i = j
    . subst hij
      have hp : ptr = ptr' := Option.some.inj (hptr.symm.trans hptr')
      subst hp
      simp only [↓reduceIte] at hj
      split at hj
      . rw [Option.some.injEq] at hj
        rw [← hj]
        refine ⟨s, ?_, hs⟩
        have hlt' : ptr < t.memory.length := by rw [h.length_eq]; exact hlt
        simp [SizedTable.block, SizedTable.setBlock, DBTable.block, DBTable.setBlock, hlt, hlt']
      . cases hj
    . rw [if_neg hij] at hj
      obtain ⟨s', hs', hok'⟩ := h.block hj hptr'
      refine ⟨s', ?_, hok'⟩
      have hne : ptr ≠ ptr' := by
        rintro rfl
        have := h.repr.inj _ _ _ hptr hptr'
        omega
      rw [← hs']
      simp [SizedTable.block, SizedTable.setBlock, DBTable.block, DBTable.setBlock, List.getElem?_set_ne hne]

end SizedTable

end Hustle.Storage
