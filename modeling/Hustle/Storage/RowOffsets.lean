import Hustle.Storage.TableCalls

/-!
This module contains `block_row_offsets`, which is to have the number of rows in front of every block. Entries are
added with new blocks and never changed, so they are right as long as rows are added to and removed from the last block
only, and all rows have been counted when a block is created.
-/

namespace Hustle.Storage

namespace DBTable

/--
There is an entry for every block, the number of rows in front of it.
-/
def OffsetsOk (t : DBTable) : Prop :=
  ∀ i < t.blocks.entries.length, t.blockRowOffsets[i]? = some (t.rowsBefore i : Int)

def totalRows (t : DBTable) : Nat :=
  t.rowsBefore t.blocks.entries.length

/--
The entry that the next block gets is the number of rows: the last one if the vector has one entry more than there are
blocks, or the one that is pushed.
-/
def NextOffset (t : DBTable) : Prop :=
  t.numRows = t.totalRows ∧ (t.blockRowOffsets ++ [t.numRows])[t.blocks.entries.length]? = some t.numRows

def IsLast (t : DBTable) (ptr : BlockPtr) : Prop :=
  t.blocks.lookup (t.blockCounter - 1) = some ptr

/--
There is no room for another record in the last block.
-/
def LastFull (t : DBTable) : Prop :=
  ∀ ptr ∈ t.blocks.lookup (t.blocks.entries.length - 1 : Int), ∀ b ∈ t.block ptr, b.getBytesLeft ≤ t.fixedRecordWidth

/--
The index and the size of the vector wherever a call writes to `block_row_offsets` other than by `push_back`.
-/
def offsetWrites (t : DBTable) : Call → List (Nat × Nat)
  | .insertBlocks inputBlocks =>
    match inputBlocks.getLast? with
    | none => []
    | some b =>
      if t.fixedRecordWidth < b.getBytesLeft then
        let size := (inputBlocks.foldl addBlock t).blockRowOffsets.length
        [(size, size)]
      else
        []
  | _ => []

def WritesInside (t : DBTable) (call : Call) : Prop :=
  ∀ write ∈ t.offsetWrites call, write.1 < write.2

section

variable (pick : List Int → Nat)

/--
A record goes to the last block, which may be a new one if `next` holds.
-/
def RecordKeeps (t : DBTable) (next : Prop) (recordSize : Int) : Prop :=
  ∀ x ∈ t.blockForSize pick recordSize, x.2.IsLast x.1 ∧ (x.2.blockCounter ≠ t.blockCounter → next)

/--
The rows of a load all go to the last block, or none of them fits and they all go to a new one.
-/
def LoadKeeps (t : DBTable) (next : Prop) (columnData : List ArrayData) : Prop :=
  ∀ first ∈ columnData.head?, ∀ sizes ∈ (List.range first.length).mapM (recordSize columnData),
    ∀ b ∈ (t.getBlockForInsert pick).2.block (t.getBlockForInsert pick).1,
      ((t.getBlockForInsert pick).2.IsLast (t.getBlockForInsert pick).1 ∧
        ((t.getBlockForInsert pick).2.blockCounter ≠ t.blockCounter → next) ∧
        ∀ k < sizes.length, (sizes.take (k + 1)).sum ≤ b.getBytesLeft) ∨
      next ∧ (∀ size ∈ sizes.head?, b.getBytesLeft < size) ∧
        ∀ k < sizes.length, 0 < k → (sizes.take (k + 1)).sum ≤ t.blockCapacity

end

/--
A table and what happened to it: whether it was made from record batches, and what `num_rows` was when its last block
was added. The latter is none while that is a block of the batches that is not full.
-/
structure Watched where
  table : DBTable
  fromBatches : Bool
  rowsThen : Option Int

namespace Watched

/--
The table after a call that adds blocks by `CreateBlock` only, before it counts rows.
-/
def after (s : Watched) (t : DBTable) : Watched :=
  { s with
    table := t
    rowsThen := if t.blockCounter = s.table.blockCounter then s.rowsThen else some s.table.numRows }

section

variable (pick : List Int → Nat) (simpleAtoi : List UInt8 → Option (BitVec 64))

def load (s : Watched) (columnData : List ArrayData) : Option Watched :=
  (s.table.insertRecords pick columnData).map s.after

def step (s : Watched) : Call → Option Watched
  | .insertBlocks inputBlocks =>
    (s.table.insertBlocks inputBlocks).map fun t =>
      { s with table := t, rowsThen := if inputBlocks = [] then s.rowsThen else some t.numRows }
  | .insertChunks chunks => chunks.foldlM (load pick) s
  | call => (s.table.step pick simpleAtoi call).map s.after

/--
All rows are counted. If the table was made from record batches, their last block was full, and no rows have come or
gone since the last block was added.
-/
def Counted (s : Watched) : Prop :=
  s.table.numRows = s.table.totalRows ∧ (s.fromBatches = true → s.rowsThen = some s.table.numRows)

/--
Blocks that are inserted have no rows, unless the table was made from record batches. The last one is full.
-/
def BlocksKeep (s : Watched) (inputBlocks : List Block) : Prop :=
  (inputBlocks ≠ [] → s.Counted) ∧ (s.fromBatches = false → ∀ b ∈ inputBlocks, b.numRows = 0) ∧
  ∀ b ∈ inputBlocks.getLast?, b.getBytesLeft ≤ s.table.fixedRecordWidth

/--
The calls that keep the offsets.
-/
def KeepsOffsets (s : Watched) (call : Call) : Prop :=
  match call with
  | .createBlock => s.Counted
  | .insertBlocks inputBlocks => s.BlocksKeep inputBlocks
  | .insertRecords columnData => s.table.LoadKeeps pick s.Counted columnData
  | .insertChunks chunks =>
    Run.Meets (load pick) (fun s columnData => s.table.LoadKeeps pick s.Counted columnData) s chunks
  | .insertRecord _ byteWidths => s.table.RecordKeeps pick s.Counted (s.table.getRecordSize byteWidths)
  | .insertCsvRecord _ byteWidths =>
    s.table.RecordKeeps pick s.Counted (byteWidths.take s.table.schema.fields.length).sum
  | .insertRecordTable _ _ byteWidths => s.table.RecordKeeps pick s.Counted (s.table.getRecordSize byteWidths)
  | .deleteRecordTable rowId =>
    ∀ info ∈ s.table.blockMap.lookup (rowKey rowId), info.blockId + 1 = s.table.blockCounter

end

end Watched

instance (t : DBTable) : Decidable t.OffsetsOk :=
  inferInstanceAs (Decidable (∀ i < _, _))

instance (t : DBTable) (ptr : BlockPtr) : Decidable (t.IsLast ptr) :=
  inferInstanceAs (Decidable (_ = _))

instance (t : DBTable) : Decidable t.LastFull :=
  inferInstanceAs (Decidable (∀ _ ∈ _, ∀ _ ∈ _, _))

instance (pick : List Int → Nat) (t : DBTable) (next : Prop) [Decidable next] (recordSize : Int)
    : Decidable (t.RecordKeeps pick next recordSize) :=
  inferInstanceAs (Decidable (∀ _ ∈ _, _ ∧ (_ → _)))

instance (pick : List Int → Nat) (t : DBTable) (next : Prop) [Decidable next] (columnData : List ArrayData)
    : Decidable (t.LoadKeeps pick next columnData) :=
  inferInstanceAs (Decidable (∀ _ ∈ _, ∀ _ ∈ _, ∀ _ ∈ _, _ ∨ _))

namespace Watched

instance (s : Watched) : Decidable s.Counted :=
  inferInstanceAs (Decidable (_ ∧ (_ → _)))

instance (s : Watched) (inputBlocks : List Block) : Decidable (s.BlocksKeep inputBlocks) :=
  inferInstanceAs (Decidable ((_ → _) ∧ (_ → _) ∧ ∀ _ ∈ _, _))

instance (pick : List Int → Nat) (s : Watched) (call : Call) : Decidable (s.KeepsOffsets pick call) :=
  match call with
  | .createBlock => inferInstanceAs (Decidable s.Counted)
  | .insertBlocks inputBlocks => inferInstanceAs (Decidable (s.BlocksKeep inputBlocks))
  | .insertRecords columnData => inferInstanceAs (Decidable (s.table.LoadKeeps pick s.Counted columnData))
  | .insertChunks chunks =>
    inferInstanceAs (Decidable (Run.Meets (load pick)
      (fun s columnData => s.table.LoadKeeps pick s.Counted columnData) s chunks))
  | .insertRecord _ _ => inferInstanceAs (Decidable (s.table.RecordKeeps pick s.Counted _))
  | .insertCsvRecord _ _ => inferInstanceAs (Decidable (s.table.RecordKeeps pick s.Counted _))
  | .insertRecordTable _ _ _ => inferInstanceAs (Decidable (s.table.RecordKeeps pick s.Counted _))
  | .deleteRecordTable _ => inferInstanceAs (Decidable (∀ _ ∈ _, _))

theorem foldlM_load_table (pick : List Int → Nat) (chunks : List (List ArrayData)) (s : Watched)
    : (chunks.foldlM (load pick) s).map Watched.table = s.table.insertChunks pick chunks := by
  unfold DBTable.insertChunks
  induction chunks generalizing s with
  | nil => rfl
  | cons columnData chunks ih =>
    rw [List.foldlM_cons, List.foldlM_cons, load]
    cases s.table.insertRecords pick columnData with
    | none => rfl
    | some t => exact ih (s.after t)

theorem step_table (pick : List Int → Nat) (simpleAtoi : List UInt8 → Option (BitVec 64)) (s : Watched) (call : Call)
    : (s.step pick simpleAtoi call).map Watched.table = s.table.step pick simpleAtoi call := by
  cases call with
  | insertChunks chunks => exact foldlM_load_table pick chunks s
  | _ =>
    simp only [step, Option.map_map]
    exact congrFun Option.map_id _

end Watched

structure OffsetsInv (t : DBTable) : Prop where
  indexed : t.Indexed
  length_eq : t.blockRowOffsets.length = t.blocks.entries.length ∨
    t.blockRowOffsets.length = t.blocks.entries.length + 1
  offsets : t.OffsetsOk

variable {t t' : DBTable} {pick : List Int → Nat} {simpleAtoi : List UInt8 → Option (BitVec 64)}

/--
`InsertBlocks` writes behind the end of the vector only if the last block is not full.
-/
theorem writesInside_insertBlocks_iff {inputBlocks : List Block}
    : t.WritesInside (.insertBlocks inputBlocks) ↔
        ∀ b ∈ inputBlocks.getLast?, b.getBytesLeft ≤ t.fixedRecordWidth := by
  cases hlast : inputBlocks.getLast? with
  | none => simp [WritesInside, offsetWrites, hlast]
  | some b =>
    by_cases hroom : t.fixedRecordWidth < b.getBytesLeft
    . simp [WritesInside, offsetWrites, hlast, hroom]
    . simp [WritesInside, offsetWrites, hlast, hroom, Int.not_lt.mp hroom]

/-! Tables whose blocks have the same rows. -/

theorem numBlocks_eq_of_counter (h : t.Indexed) (h' : t'.Indexed) (hcounter : t'.blockCounter = t.blockCounter)
    : t'.blocks.entries.length = t.blocks.entries.length := by
  have hlen := h.numBlocks_eq
  have hlen' := h'.numBlocks_eq
  omega

theorem OffsetsInv.of_last (h : t.OffsetsInv) (h' : t'.Indexed) (hcounter : t'.blockCounter = t.blockCounter)
    (hoffsets : t'.blockRowOffsets = t.blockRowOffsets)
    (hblocks : ∀ i : Nat, (i + 1 : Int) < t.blockCounter → t'.getBlock (i : Int) = t.getBlock (i : Int))
    : t'.OffsetsInv := by
  have hnum := numBlocks_eq_of_counter h.indexed h' hcounter
  have hlen := h.indexed.numBlocks_eq
  refine ⟨h', ?_, ?_⟩
  . rw [hoffsets, hnum]
    exact h.length_eq
  . intro i hi
    rw [hnum] at hi
    rw [hoffsets, h.offsets i hi, rowsBefore_congr]
    intro j hj
    exact (hblocks j (by omega)).symm

theorem OffsetsInv.setLast (h : t.OffsetsInv) {ptr : BlockPtr} (hlast : t.IsLast ptr) (b : Block)
    : (t.setBlock ptr b).OffsetsInv := by
  apply h.of_last (h.indexed.setBlock ptr b) rfl rfl
  intro i hi
  have hne : ∀ ptr', t.blocks.lookup (i : Int) = some ptr' → ptr' ≠ ptr := by
    rintro ptr' hptr' rfl
    have := h.indexed.inj _ _ _ hlast hptr'
    omega
  show (t.blocks.lookup (i : Int)).bind (fun ptr' => (t.heap.set ptr b)[ptr']?) = _
  cases hlookup : t.blocks.lookup (i : Int) with
  | none => simp [getBlock, hlookup]
  | some ptr' => simp [getBlock, hlookup, block, List.getElem?_set_ne (Ne.symm (hne ptr' hlookup))]

theorem offerBlock_offsets (t : DBTable) (ptr : BlockPtr) (b : Block)
    : (t.offerBlock ptr b).blockCounter = t.blockCounter ∧ (t.offerBlock ptr b).blockRowOffsets = t.blockRowOffsets ∧
        (t.offerBlock ptr b).numRows = t.numRows ∧ ∀ i, (t.offerBlock ptr b).getBlock i = t.getBlock i := by
  unfold DBTable.offerBlock
  split
  . exact ⟨rfl, rfl, rfl, fun _ => rfl⟩
  . exact ⟨rfl, rfl, rfl, fun _ => rfl⟩

theorem OffsetsInv.offerBlock (h : t.OffsetsInv) (ptr : BlockPtr) (b : Block) : (t.offerBlock ptr b).OffsetsInv := by
  obtain ⟨hcounter, hoffsets, -, hblocks⟩ := t.offerBlock_offsets ptr b
  exact h.of_last (h.indexed.offerBlock ptr b) hcounter hoffsets fun i _ => hblocks i

/-! New blocks. -/

theorem NewBlock.getBlock_old {b : Block} (hnew : NewBlock t b t') (h : t.Indexed) {i : Nat}
    (hi : i < t.blocks.entries.length) : t'.getBlock (i : Int) = t.getBlock (i : Int) := by
  have hlen := h.numBlocks_eq
  obtain ⟨ptr, hptr⟩ := Option.isSome_iff_exists.mp ((h.keys i).mpr (by omega))
  simp only [getBlock, hnew.lookup_indexed h, if_neg (show (i : Int) ≠ t.blockCounter by omega), hptr, block,
    hnew.heap_eq, Option.bind_eq_bind, Option.bind_some]
  exact List.getElem?_append_left (h.ptr_lt i ptr hptr)

theorem NewBlock.getBlock_new {b : Block} (hnew : NewBlock t b t') (h : t.Indexed)
    : t'.getBlock (t.blocks.entries.length : Int) = some b := by
  simp only [getBlock, hnew.lookup_indexed h, if_pos h.numBlocks_eq, block, hnew.heap_eq, Option.bind_eq_bind,
    Option.bind_some]
  exact List.getElem?_concat_length

theorem NewBlock.numBlocks_eq {b : Block} (hnew : NewBlock t b t') (h : t.Indexed)
    : t'.blocks.entries.length = t.blocks.entries.length + 1 := by
  have hlen := h.numBlocks_eq
  have hlen' := (h.newBlock hnew).numBlocks_eq
  rw [hnew.blockCounter_eq] at hlen'
  omega

theorem NewBlock.rowsBefore_eq {b : Block} (hnew : NewBlock t b t') (h : t.Indexed) {i : Nat}
    (hi : i ≤ t.blocks.entries.length) : t'.rowsBefore i = t.rowsBefore i := by
  apply rowsBefore_congr
  intro j hj
  exact hnew.getBlock_old h (by omega)

theorem NewBlock.totalRows_eq {b : Block} (hnew : NewBlock t b t') (h : t.Indexed)
    : t'.totalRows = t.totalRows + b.numRows := by
  rw [totalRows, hnew.numBlocks_eq h, rowsBefore_succ (hnew.getBlock_new h), hnew.rowsBefore_eq h le_rfl, totalRows]

theorem OffsetsInv.newBlock (h : t.OffsetsInv) {b : Block} (hnew : NewBlock t b t') {offset : Int}
    (hoffsets : t'.blockRowOffsets = t.blockRowOffsets ++ [offset])
    (hnext : (t.blockRowOffsets ++ [offset])[t.blocks.entries.length]? = some (t.totalRows : Int))
    : t'.OffsetsInv := by
  have hnum := hnew.numBlocks_eq h.indexed
  have hlen := h.length_eq
  refine ⟨h.indexed.newBlock hnew, ?_, ?_⟩
  . rw [hoffsets, hnum, List.length_append, List.length_singleton]
    omega
  . intro i hi
    rw [hnum] at hi
    rw [hoffsets, hnew.rowsBefore_eq h.indexed (by omega)]
    by_cases hlast : i = t.blocks.entries.length
    . rw [hlast]
      exact hnext
    . rw [List.getElem?_append_left (by omega)]
      exact h.offsets i (by omega)

theorem createBlock_totalRows (h : t.Indexed) : t.createBlock.2.totalRows = t.totalRows :=
  t.createBlock_newBlock.totalRows_eq h

theorem OffsetsInv.createBlock (h : t.OffsetsInv) (hnext : t.NextOffset)
    : t.createBlock.2.OffsetsInv ∧ t.createBlock.2.NextOffset ∧ t.createBlock.2.IsLast t.createBlock.1 := by
  have hnum := t.createBlock_newBlock.numBlocks_eq h.indexed
  have hlen := h.length_eq
  obtain ⟨hcount, hentry⟩ := hnext
  refine ⟨h.newBlock t.createBlock_newBlock rfl (by rw [← hcount]; exact hentry), ⟨?_, ?_⟩, ?_⟩
  . rw [createBlock_totalRows h.indexed]
    exact hcount
  . rw [hnum]
    show (t.blockRowOffsets ++ [t.numRows] ++ [t.numRows])[t.blocks.entries.length + 1]? = some t.numRows
    rcases hlen with hlen | hlen
    . rw [List.getElem?_append_right (by simp; omega)]
      simp [hlen]
    . rw [List.getElem?_append_left (by simp; omega), List.getElem?_append_right (by omega)]
      simp [hlen]
  . show t.createBlock.2.blocks.lookup (t.blockCounter + 1 - 1) = some t.heap.length
    rw [t.createBlock_newBlock.lookup_indexed h.indexed, if_pos (by omega)]

/-! Inserts. -/

theorem createBlock_counter_ne (t : DBTable) : t.createBlock.2.blockCounter ≠ t.blockCounter := by
  show t.blockCounter + 1 ≠ t.blockCounter
  omega

theorem OffsetsInv.erase (h : t.OffsetsInv) (key : Int)
    : ({ t with insertPool := t.insertPool.erase key } : DBTable).OffsetsInv :=
  h.of_last (h.indexed.of_sameDirectory ⟨rfl, rfl, le_rfl⟩) rfl rfl fun _ _ => rfl

theorem OffsetsInv.getBlockForInsert (h : t.OffsetsInv)
    (hnext : (t.getBlockForInsert pick).2.blockCounter ≠ t.blockCounter → t.NextOffset)
    : (t.getBlockForInsert pick).2.OffsetsInv := by
  obtain ⟨-, heq⟩ | ⟨key, ptr, -, heq⟩ := t.getBlockForInsert_cases pick
  . rw [heq] at hnext ⊢
    exact (h.createBlock (hnext t.createBlock_counter_ne)).1
  . rw [heq]
    exact h.erase key

theorem OffsetsInv.createSecond (h : t.OffsetsInv) (hnext : t.NextOffset)
    : (t.getBlockForInsert pick).2.createBlock.2.OffsetsInv ∧
        (t.getBlockForInsert pick).2.createBlock.2.IsLast (t.getBlockForInsert pick).2.createBlock.1 := by
  obtain ⟨-, heq⟩ | ⟨key, ptr, -, heq⟩ := t.getBlockForInsert_cases pick
  . rw [heq]
    obtain ⟨h₁, hnext₁, -⟩ := h.createBlock hnext
    exact ⟨(h₁.createBlock hnext₁).1, (h₁.createBlock hnext₁).2.2⟩
  . rw [heq]
    obtain ⟨h₁, -, hlast⟩ := (h.erase key).createBlock hnext
    exact ⟨h₁, hlast⟩

theorem getBlockForInsert_counter_le (t : DBTable) (pick : List Int → Nat)
    : t.blockCounter ≤ (t.getBlockForInsert pick).2.blockCounter := by
  obtain ⟨-, heq⟩ | ⟨key, ptr, -, heq⟩ := t.getBlockForInsert_cases pick
  . rw [heq]
    show t.blockCounter ≤ t.blockCounter + 1
    omega
  . rw [heq]

theorem OffsetsInv.blockForSize (h : t.OffsetsInv) {recordSize : Int} {x : BlockPtr × DBTable}
    (hblock : t.blockForSize pick recordSize = some x)
    (hnext : x.2.blockCounter ≠ t.blockCounter → t.NextOffset) : x.2.OffsetsInv := by
  obtain ⟨b, -, ⟨-, rfl⟩ | ⟨-, rfl⟩⟩ := blockForSize_cases hblock
  . have hcounter : (t.getBlockForInsert pick).2.createBlock.2.blockCounter ≠ t.blockCounter := by
      have := t.getBlockForInsert_counter_le pick
      show (t.getBlockForInsert pick).2.blockCounter + 1 ≠ t.blockCounter
      omega
    exact (h.createSecond (hnext hcounter)).1
  . exact h.getBlockForInsert hnext

theorem OffsetsInv.recordInserted (h : t.OffsetsInv) {recordSize : Int} {ptr : BlockPtr} {t₁ : DBTable} {b b' : Block}
    (hkeeps : t.RecordKeeps pick t.NextOffset recordSize) (hinsert : RecordInserted t pick recordSize ptr t₁ b b' t')
    : t'.OffsetsInv := by
  obtain ⟨hlast, hnext⟩ := hkeeps (ptr, t₁) hinsert.blockForSize_eq
  have hset := (h.blockForSize hinsert.blockForSize_eq hnext).setLast hlast b'
  have hcounted : ({ t₁.setBlock ptr b' with numRows := t₁.numRows + 1 } : DBTable).OffsetsInv :=
    hset.of_last (hset.indexed.of_sameDirectory ⟨rfl, rfl, le_rfl⟩) rfl rfl fun _ _ => rfl
  rw [hinsert.eq]
  exact hcounted.offerBlock ptr b'

/-! Loads. -/

theorem mapM_recordSize_of_foldlM {columnData : List ArrayData} {rows : List Nat} {start s : Loader.State DBTable}
    (hfold : rows.foldlM (loader.loadRow columnData) start = some s)
    : ∃ sizes, rows.mapM (recordSize columnData) = some sizes := by
  induction rows generalizing start with
  | nil => exact ⟨[], rfl⟩
  | cons row rows ih =>
    rw [List.foldlM_cons] at hfold
    obtain ⟨s₁, hrow, hfold⟩ := Option.bind_eq_some_iff.mp hfold
    obtain ⟨size, hsize, -⟩ := Option.bind_eq_some_iff.mp hrow
    obtain ⟨sizes, hsizes⟩ := ih hfold
    exact ⟨size :: sizes, by simp [hsize, hsizes]⟩

theorem foldlM_loadRow {columnData : List ArrayData} {l : Nat} {sizes : List Int}
    (hsizes : (List.range l).mapM (recordSize columnData) = some sizes) {left : Int} {start s : Loader.State DBTable}
    {first n : Nat} (hn : first + n ≤ l) (hleft : loader.bytesLeft start.table start.block = some left)
    (hstart : start.dataSize = (sizes.take first).sum)
    (hfits : ∀ k < sizes.length, first ≤ k → (sizes.take (k + 1)).sum ≤ left)
    (hfold : (List.range' first n).foldlM (loader.loadRow columnData) start = some s)
    : s = { start with dataSize := (sizes.take (first + n)).sum } := by
  induction n generalizing s with
  | zero =>
    cases hfold
    rw [Nat.add_zero, ← hstart]
  | succ n ih =>
    rw [List.range'_concat, List.foldlM_append, Nat.one_mul] at hfold
    obtain ⟨s₁, hs₁, hfold⟩ := Option.bind_eq_some_iff.mp hfold
    rw [List.foldlM_cons] at hfold
    obtain ⟨s₂, hrow, hfold⟩ := Option.bind_eq_some_iff.mp hfold
    cases hfold
    have hlen := Run.length_mapM hsizes
    rw [List.length_range] at hlen
    obtain ⟨size, hsize, hget⟩ := Run.getElem?_mapM hsizes
      (show (List.range l)[first + n]? = some (first + n) by rw [List.getElem?_range (by omega)])
    have hsum : (sizes.take (first + n + 1)).sum = (sizes.take (first + n)).sum + size := by
      rw [List.take_add_one, hget, Option.toList_some, List.sum_append, List.sum_singleton]
    have hle := hfits (first + n) (by omega) (by omega)
    rw [hsum] at hle
    have hs₁ := ih (by omega) hs₁
    subst hs₁
    simp only [Loader.loadRow, hsize, hleft, Option.bind_eq_bind, Option.bind_some] at hrow
    split at hrow
    . cases hrow
    . rw [if_neg (by omega)] at hrow
      cases hrow
      rw [← Nat.add_assoc, hsum]

theorem setBlock_self {ptr : BlockPtr} {b : Block} (hb : t.block ptr = some b) : t.setBlock ptr b = t := by
  obtain ⟨hlt, hget⟩ := List.getElem?_eq_some_iff.mp hb
  have hheap : t.heap.set ptr b = t.heap := by
    rw [← hget]
    exact List.set_getElem_self hlt
  rw [setBlock, hheap]

theorem loader_insertRecords_nil {ptr : BlockPtr} {columnData : List ArrayData} {offset : Nat}
    (hinsert : loader.insertRecords t ptr (sliceAll columnData offset 0) = some t') : t' = t := by
  obtain ⟨b, hb, hinsert⟩ := Option.bind_eq_some_iff.mp hinsert
  obtain ⟨⟨rowNum, b'⟩, hb', hinsert⟩ := Option.bind_eq_some_iff.mp hinsert
  cases hinsert
  obtain ⟨first, hfirst, hb'⟩ := Option.bind_eq_some_iff.mp hb'
  have hlen : first.length = 0 := by
    cases columnData with
    | nil => cases hfirst
    | cons a as =>
      cases hfirst
      rfl
  rw [if_pos hlen] at hb'
  cases hb'
  exact setBlock_self hb

theorem OffsetsInv.insertLast (h : t.OffsetsInv) {ptr : BlockPtr} (hlast : t.IsLast ptr) {columnData : List ArrayData}
    (hinsert : loader.insertRecords t ptr columnData = some t') : t'.OffsetsInv := by
  obtain ⟨b, -, hinsert⟩ := Option.bind_eq_some_iff.mp hinsert
  obtain ⟨⟨rowNum, b'⟩, -, hinsert⟩ := Option.bind_eq_some_iff.mp hinsert
  cases hinsert
  exact h.setLast hlast b'

theorem block_of_load {columnData : List ArrayData} {l : Nat} {ptr : BlockPtr} {x : BlockPtr × DBTable}
    (hload : loader.load columnData l ptr t = some x) : ∃ b, t.block ptr = some b := by
  obtain ⟨s, hfold, hrest⟩ := Option.bind_eq_some_iff.mp hload
  cases l with
  | zero =>
    cases hfold
    obtain ⟨t₁, ht₁, -⟩ := Option.bind_eq_some_iff.mp hrest
    obtain ⟨b, hb, -⟩ := Option.bind_eq_some_iff.mp ht₁
    exact ⟨b, hb⟩
  | succ l =>
    rw [List.range_succ_eq_map, List.foldlM_cons] at hfold
    obtain ⟨s₁, hrow, -⟩ := Option.bind_eq_some_iff.mp hfold
    obtain ⟨size, -, hrow⟩ := Option.bind_eq_some_iff.mp hrow
    obtain ⟨left, hleft, -⟩ := Option.bind_eq_some_iff.mp hrow
    obtain ⟨b, hb, -⟩ := Option.map_eq_some_iff.mp hleft
    exact ⟨b, hb⟩

theorem load_uncut {columnData : List ArrayData} {l : Nat} {sizes : List Int} {ptr ptr' : BlockPtr} {b : Block}
    (hsizes : (List.range l).mapM (recordSize columnData) = some sizes) (hb : t.block ptr = some b)
    (hfits : ∀ k < sizes.length, (sizes.take (k + 1)).sum ≤ b.getBytesLeft)
    (hload : loader.load columnData l ptr t = some (ptr', t'))
    : loader.insertRecords t ptr (sliceAll columnData 0 l) = some t' := by
  obtain ⟨s, hfold, hrest⟩ := Option.bind_eq_some_iff.mp hload
  rw [List.range_eq_range'] at hfold
  have hs := foldlM_loadRow hsizes (by omega) (show loader.bytesLeft t ptr = some b.getBytesLeft by simp [loader, hb])
    (by simp) (fun k hk _ => hfits k hk) hfold
  subst hs
  obtain ⟨t₁, ht₁, hrest⟩ := Option.bind_eq_some_iff.mp hrest
  cases hrest
  exact ht₁

theorem load_cutFirst {columnData : List ArrayData} {l : Nat} {sizes : List Int} {ptr ptr' : BlockPtr} {b : Block}
    (hsizes : (List.range (l + 1)).mapM (recordSize columnData) = some sizes) (hb : t.block ptr = some b)
    (hfull : ∀ size ∈ sizes.head?, b.getBytesLeft < size)
    (hfits : ∀ k < sizes.length, 0 < k → (sizes.take (k + 1)).sum ≤ t.blockCapacity)
    (hload : loader.load columnData (l + 1) ptr t = some (ptr', t'))
    : loader.insertRecords t.createBlock.2 t.createBlock.1 (sliceAll columnData 0 (l + 1)) = some t' := by
  obtain ⟨s, hfold, hrest⟩ := Option.bind_eq_some_iff.mp hload
  rw [List.range_eq_range', List.range'_succ, List.foldlM_cons] at hfold
  obtain ⟨s₁, hrow, hfold⟩ := Option.bind_eq_some_iff.mp hfold
  obtain ⟨size, hsize, hget⟩ := Run.getElem?_mapM hsizes
    (show (List.range (l + 1))[0]? = some 0 by rw [List.getElem?_range (by omega)])
  have hleft := hfull size (by rw [List.head?_eq_getElem?]; exact hget)
  have hbytes : loader.bytesLeft t ptr = some b.getBytesLeft := by simp [loader, hb]
  -- there are no rows in front of the first one
  have hs₁ : s₁ = ⟨t.createBlock.2, t.createBlock.1, 0, size⟩ := by
    simp only [Loader.loadRow, hsize, hbytes, Option.bind_eq_bind, Option.bind_some, Nat.sub_self] at hrow
    split at hrow
    . cases hrow
    . rw [if_pos (by omega)] at hrow
      obtain ⟨t₁, ht₁, hrow⟩ := Option.bind_eq_some_iff.mp hrow
      rw [loader_insertRecords_nil ht₁] at hrow
      cases hrow
      rfl
  subst hs₁
  have hnew : loader.bytesLeft t.createBlock.2 t.createBlock.1 = some t.blockCapacity := by
    have hblock : t.createBlock.2.block t.createBlock.1
        = some (Block.new t.blockCounter t.schema t.blockCapacity t.metadataEnabled) := List.getElem?_concat_length
    simp [loader, hblock, Block.getBytesLeft, Block.new]
  have hs := foldlM_loadRow hsizes (by omega) hnew (by simp [List.take_one, List.head?_eq_getElem?, hget])
    (fun k hk hpos => hfits k hk (by omega)) hfold
  subst hs
  obtain ⟨t₁, ht₁, hrest⟩ := Option.bind_eq_some_iff.mp hrest
  cases hrest
  exact ht₁

theorem getBlockForInsert_blockCapacity (t : DBTable) (pick : List Int → Nat)
    : (t.getBlockForInsert pick).2.blockCapacity = t.blockCapacity := by
  obtain ⟨-, heq⟩ | ⟨key, ptr, -, heq⟩ := t.getBlockForInsert_cases pick
  . rw [heq]
    rfl
  . rw [heq]

theorem OffsetsInv.insertRecords (h : t.OffsetsInv) {columnData : List ArrayData}
    (hkeeps : t.LoadKeeps pick t.NextOffset columnData) (hinsert : t.insertRecords pick columnData = some t')
    : t'.OffsetsInv := by
  obtain ⟨first, ptr, t₁, b', hfirst, hload, -, rfl⟩ := insertRecords_cases hinsert
  suffices h₁ : t₁.OffsetsInv by
    have hoffer := h₁.offerBlock ptr b'
    exact hoffer.of_last (hoffer.indexed.of_sameDirectory ⟨rfl, rfl, le_rfl⟩) rfl rfl fun _ _ => rfl
  obtain ⟨b, hb⟩ := block_of_load hload
  obtain ⟨s, hfold, -⟩ := Option.bind_eq_some_iff.mp hload
  obtain ⟨sizes, hsizes⟩ := mapM_recordSize_of_foldlM hfold
  rcases hkeeps first hfirst sizes hsizes b hb with ⟨hlast, hnext, hfits⟩ | ⟨hnext, hfull, hfits⟩
  . exact (h.getBlockForInsert hnext).insertLast hlast (load_uncut hsizes hb hfits hload)
  . cases hl : first.length with
    | zero =>
      rw [hl] at hsizes hload
      cases hsizes
      have := load_uncut rfl hb (by simp) hload
      rw [loader_insertRecords_nil this]
      exact h.getBlockForInsert fun _ => hnext
    | succ l =>
      rw [hl] at hsizes hload
      rw [← t.getBlockForInsert_blockCapacity pick] at hfits
      obtain ⟨h₁, hlast⟩ := h.createSecond hnext
      exact h₁.insertLast hlast (load_cutFirst hsizes hb hfull hfits hload)

/-! Deletes. -/

theorem OffsetsInv.rowDeleted (h : t.OffsetsInv) {info : BlockInfo} {ptr : BlockPtr} {b : Block}
    {s : Block.RebuildState} (hdelete : RowDeleted t info ptr b s t') (hlast : info.blockId + 1 = t.blockCounter)
    : t'.OffsetsInv := by
  apply h.of_last (h.indexed.rowDeleted hdelete) hdelete.blockCounter_eq hdelete.blockRowOffsets_eq
  intro i hi
  have hne : (i : Int) ≠ info.blockId := by omega
  unfold getBlock
  rw [hdelete.blocks_eq, Map.lookup_insert_eq, if_neg hne]
  cases hlookup : t.blocks.lookup (i : Int) with
  | none => rfl
  | some ptr' =>
    have hptr : ptr ≠ ptr' := by
      rintro rfl
      exact hne (h.indexed.inj _ _ _ hlookup hdelete.lookup_eq)
    simp only [Option.bind_eq_bind, Option.bind_some, block, hdelete.heap_eq]
    rw [List.getElem?_append_left (by simpa using h.indexed.ptr_lt _ _ hlookup), List.getElem?_set_ne hptr]

/-! Entries that are pushed. -/

/--
New blocks, whose entries are all pushed when the table counts `n` rows.
-/
structure Grown (n : Int) (t t' : DBTable) : Prop where
  numRows_eq : t'.numRows = n
  pushed : ∃ m : Nat, t'.blockRowOffsets = t.blockRowOffsets ++ List.replicate m n ∧ t'.blockCounter = t.blockCounter + m

theorem Grown.refl (t : DBTable) : Grown t.numRows t t :=
  ⟨rfl, 0, by simp, by simp⟩

theorem Grown.trans {n : Int} {t₁ t₂ : DBTable} (h : Grown n t t₁) (h' : Grown n t₁ t₂) : Grown n t t₂ := by
  obtain ⟨m, hoffsets, hcounter⟩ := h.pushed
  obtain ⟨m', hoffsets', hcounter'⟩ := h'.pushed
  refine ⟨h'.numRows_eq, m + m', ?_, ?_⟩
  . rw [hoffsets', hoffsets, List.append_assoc, List.replicate_append_replicate]
  . rw [hcounter', hcounter]
    omega

theorem Grown.createBlock {n : Int} (hn : t.numRows = n) : Grown n t t.createBlock.2 :=
  ⟨hn, 1, by rw [← hn]; rfl, rfl⟩

theorem Grown.of_eq {n : Int} (hn : t'.numRows = n) (hoffsets : t'.blockRowOffsets = t.blockRowOffsets)
    (hcounter : t'.blockCounter = t.blockCounter) : Grown n t t' :=
  ⟨hn, 0, by simp [hoffsets], by simp [hcounter]⟩

theorem grown_getBlockForInsert (t : DBTable) (pick : List Int → Nat)
    : Grown t.numRows t (t.getBlockForInsert pick).2 := by
  obtain ⟨-, heq⟩ | ⟨key, ptr, -, heq⟩ := t.getBlockForInsert_cases pick
  . rw [heq]
    exact .createBlock rfl
  . rw [heq]
    exact .of_eq rfl rfl rfl

theorem grown_blockForSize {recordSize : Int} {x : BlockPtr × DBTable}
    (hblock : t.blockForSize pick recordSize = some x) : Grown t.numRows t x.2 := by
  have hget := grown_getBlockForInsert t pick
  obtain ⟨b, -, ⟨-, rfl⟩ | ⟨-, rfl⟩⟩ := blockForSize_cases hblock
  . exact hget.trans (.createBlock hget.numRows_eq)
  . exact hget

theorem grown_loader_insertRecords {n : Int} (hn : t.numRows = n) {ptr : BlockPtr} {columnData : List ArrayData}
    (hinsert : loader.insertRecords t ptr columnData = some t') : Grown n t t' := by
  obtain ⟨b, -, hinsert⟩ := Option.bind_eq_some_iff.mp hinsert
  obtain ⟨⟨rowNum, b'⟩, -, hinsert⟩ := Option.bind_eq_some_iff.mp hinsert
  cases hinsert
  exact .of_eq hn rfl rfl

theorem grown_load {n : Int} (hn : t.numRows = n) {columnData : List ArrayData} {l : Nat} {ptr ptr' : BlockPtr}
    (hload : loader.load columnData l ptr t = some (ptr', t')) : Grown n t t' := by
  have hrow : ∀ s row s', Grown n t s.table → True → loader.loadRow columnData s row = some s' →
      Grown n t s'.table := by
    intro s row s' hs _ hrow
    obtain ⟨size, -, hrow⟩ := Option.bind_eq_some_iff.mp hrow
    obtain ⟨left, -, hrow⟩ := Option.bind_eq_some_iff.mp hrow
    split at hrow
    . cases hrow
    . split at hrow
      . obtain ⟨t₁, ht₁, hrow⟩ := Option.bind_eq_some_iff.mp hrow
        cases hrow
        have hinserted := hs.trans (grown_loader_insertRecords hs.numRows_eq ht₁)
        exact hinserted.trans (.createBlock hinserted.numRows_eq)
      . cases hrow
        exact hs
  obtain ⟨s, hs, hload⟩ := Option.bind_eq_some_iff.mp hload
  obtain ⟨t₁, ht₁, hload⟩ := Option.bind_eq_some_iff.mp hload
  cases hload
  have hmeets := Run.meets_true (loader.loadRow columnData) ⟨t, ptr, 0, 0⟩ (List.range l)
  have hgrown := hmeets.invariant hrow (hn ▸ Grown.refl t) hs
  exact hgrown.trans (grown_loader_insertRecords hgrown.numRows_eq ht₁)

/--
What all calls do to the vector, `InsertBlocks` excepted: entries with the old number of rows are pushed.
-/
def Pushes (t t' : DBTable) : Prop :=
  ∃ m : Nat, t'.blockRowOffsets = t.blockRowOffsets ++ List.replicate m t.numRows ∧
    t'.blockCounter = t.blockCounter + m

theorem pushes_recordInserted {recordSize : Int} {ptr : BlockPtr} {t₁ : DBTable} {b b' : Block}
    (hinsert : RecordInserted t pick recordSize ptr t₁ b b' t') : t.Pushes t' := by
  obtain ⟨m, hpushed, hcount⟩ := (grown_blockForSize hinsert.blockForSize_eq).pushed
  obtain ⟨hcounter, hoffsets, -, -⟩ := offerBlock_offsets { t₁.setBlock ptr b' with numRows := t₁.numRows + 1 } ptr b'
  rw [hinsert.eq]
  exact ⟨m, hoffsets.trans hpushed, hcounter.trans hcount⟩

theorem pushes_insertRecords {columnData : List ArrayData} (hinsert : t.insertRecords pick columnData = some t')
    : t.Pushes t' := by
  obtain ⟨first, ptr, t₁, b', -, hload, -, rfl⟩ := insertRecords_cases hinsert
  have hget := grown_getBlockForInsert t pick
  obtain ⟨m, hpushed, hcount⟩ := (hget.trans (grown_load hget.numRows_eq hload)).pushed
  obtain ⟨hcounter, hoffsets, -, -⟩ := t₁.offerBlock_offsets ptr b'
  exact ⟨m, hoffsets.trans hpushed, hcounter.trans hcount⟩

theorem pushes_of_offsets (hcounter : t'.blockCounter = t.blockCounter) (hoffsets : t'.blockRowOffsets = t.blockRowOffsets)
    : t.Pushes t' :=
  ⟨0, by simp [hoffsets], by simp [hcounter]⟩

theorem pushes_step {call : Call} (hblocks : ∀ inputBlocks, call ≠ .insertBlocks inputBlocks)
    (hchunks : ∀ chunks, call ≠ .insertChunks chunks) (hstep : t.step pick simpleAtoi call = some t') : t.Pushes t' := by
  cases call with
  | createBlock =>
    cases hstep
    exact (Grown.createBlock rfl).pushed
  | insertBlocks inputBlocks => exact absurd rfl (hblocks inputBlocks)
  | insertRecords columnData => exact pushes_insertRecords hstep
  | insertChunks chunks => exact absurd rfl (hchunks chunks)
  | insertRecord record byteWidths =>
    obtain ⟨⟨info, t₁, record₁⟩, hinsert, hstep⟩ := Option.bind_eq_some_iff.mp hstep
    cases hstep
    obtain ⟨ptr, t₁, b, b', rowNum, hinserted, -, -⟩ := insertRecord_cases hinsert
    exact pushes_recordInserted hinserted
  | insertCsvRecord values byteWidths =>
    obtain ⟨ptr, t₁, b, b', rowNum, hinserted, -⟩ := insertCsvRecord_cases hstep
    exact pushes_recordInserted hinserted
  | insertRecordTable rowId record byteWidths =>
    obtain ⟨⟨t₁, record₁⟩, hinsert, hstep⟩ := Option.bind_eq_some_iff.mp hstep
    cases hstep
    unfold DBTable.insertRecordTable at hinsert
    obtain ⟨⟨info, t₂, record₂⟩, hinsert, hstep⟩ := Option.bind_eq_some_iff.mp hinsert
    cases hstep
    obtain ⟨ptr, t₁, b, b', rowNum, hinserted, -, -⟩ := insertRecord_cases hinsert
    obtain ⟨m, hpushed, hcount⟩ := pushes_recordInserted hinserted
    exact ⟨m, hpushed, hcount⟩
  | deleteRecordTable rowId =>
    rcases deleteRecordTable_cases hstep with ⟨-, rfl⟩ | ⟨info, ptr, b, s, -, hdeleted⟩
    . exact pushes_of_offsets rfl rfl
    . exact pushes_of_offsets hdeleted.blockCounter_eq hdeleted.blockRowOffsets_eq

/-! Runs. -/

theorem new_offsetsInv (schema : Schema) (blockCapacity : Int) (metadataEnabled : Bool)
    : (new schema blockCapacity metadataEnabled).OffsetsInv :=
  ⟨new_indexed schema blockCapacity metadataEnabled, .inl rfl, fun i hi => absurd hi (Nat.not_lt_zero i)⟩

/--
A table while it is made from record batches, which has the offset of the next block already.
-/
structure Ahead (t : DBTable) : Prop where
  inv : t.OffsetsInv
  length_eq : t.blockRowOffsets.length = t.blocks.entries.length + 1
  numRows_eq : t.numRows = t.totalRows
  next : t.blockRowOffsets[t.blocks.entries.length]? = some (t.totalRows : Int)

theorem Ahead.addBlock (h : t.Ahead) (b : Block) : (t.addBlock b).Ahead := by
  have hnew := t.addBlock_newBlock b
  have hnum := hnew.numBlocks_eq h.inv.indexed
  have htotal := hnew.totalRows_eq h.inv.indexed
  have hlen := h.length_eq
  have hcount : (t.addBlock b).numRows = (t.addBlock b).totalRows := by
    rw [htotal]
    show t.numRows + b.numRows = _
    rw [h.numRows_eq]
    omega
  refine ⟨h.inv.newBlock hnew rfl ?_, ?_, hcount, ?_⟩
  . rw [List.getElem?_append_left (by omega)]
    exact h.next
  . rw [hnum]
    show (t.blockRowOffsets ++ [_]).length = _
    rw [List.length_append, List.length_singleton, hlen]
  . rw [hnum, ← hcount, ← hlen]
    exact List.getElem?_concat_length

theorem Ahead.foldl_addBlock (h : t.Ahead) (bs : List Block) : (bs.foldl DBTable.addBlock t).Ahead := by
  induction bs generalizing t with
  | nil => exact h
  | cons b bs ih => exact ih (h.addBlock b)

/--
A table that has an offset for every block and no other, and counts its rows.
-/
structure Level (t : DBTable) : Prop where
  inv : t.OffsetsInv
  length_eq : t.blockRowOffsets.length = t.blocks.entries.length
  numRows_eq : t.numRows = t.totalRows

theorem Level.addBlock (h : t.Level) {b : Block} (hb : b.numRows = 0) : (t.addBlock b).Level := by
  have hnew := t.addBlock_newBlock b
  have hcount : (t.addBlock b).numRows = t.numRows := by
    show t.numRows + b.numRows = t.numRows
    rw [hb]
    exact Int.add_zero _
  have hoffsets : (t.addBlock b).blockRowOffsets = t.blockRowOffsets ++ [t.numRows] := by
    rw [← hcount]
    rfl
  refine ⟨h.inv.newBlock hnew hoffsets ?_, ?_, ?_⟩
  . rw [← h.length_eq, List.getElem?_concat_length, h.numRows_eq]
  . rw [hnew.numBlocks_eq h.inv.indexed, hoffsets, List.length_append, List.length_singleton, h.length_eq]
  . rw [hcount, hnew.totalRows_eq h.inv.indexed, hb, Nat.add_zero, h.numRows_eq]

theorem Level.foldl_addBlock (h : t.Level) {bs : List Block} (hbs : ∀ b ∈ bs, b.numRows = 0)
    : (bs.foldl DBTable.addBlock t).Level := by
  induction bs generalizing t with
  | nil => exact h
  | cons b bs ih =>
    exact ih (h.addBlock (hbs b List.mem_cons_self)) fun b' hb' => hbs b' (List.mem_cons_of_mem _ hb')

theorem insertBlocks_cases {inputBlocks : List Block} (hinsert : t.insertBlocks inputBlocks = some t')
    : t' = inputBlocks.foldl addBlock t := by
  unfold DBTable.insertBlocks at hinsert
  split at hinsert
  . next hnil =>
    cases hinsert
    rw [hnil]
    rfl
  . obtain ⟨ptr, -, hinsert⟩ := Option.bind_eq_some_iff.mp hinsert
    obtain ⟨b, -, hinsert⟩ := Option.bind_eq_some_iff.mp hinsert
    split at hinsert
    . cases hinsert
    . cases hinsert
      rfl

theorem ofBatches_offsetsInv {batches : List RecordBatch} {blockCapacity : Int} {metadataEnabled : Bool}
    (h : ofBatches batches blockCapacity metadataEnabled = some t)
    : t.OffsetsInv ∧ t.blockRowOffsets.length = t.blocks.entries.length + 1 ∧
        (t.LastFull → t.blockRowOffsets[t.blocks.entries.length]? = some t.numRows) := by
  unfold ofBatches at h
  obtain ⟨first, -, h⟩ := Option.bind_eq_some_iff.mp h
  obtain ⟨t₁, hfold, h⟩ := Option.bind_eq_some_iff.mp h
  obtain ⟨ptr, hptr, h⟩ := Option.bind_eq_some_iff.mp h
  obtain ⟨b, hb, h⟩ := Option.bind_eq_some_iff.mp h
  have hnew : ({ new first.schema blockCapacity metadataEnabled with blockRowOffsets := [0] } : DBTable).Ahead :=
    ⟨⟨(new_indexed first.schema blockCapacity metadataEnabled).of_sameDirectory ⟨rfl, rfl, le_rfl⟩, .inr rfl,
      fun i hi => absurd hi (Nat.not_lt_zero i)⟩, rfl, rfl, rfl⟩
  have hadd : ∀ (t : DBTable) batch t', t.Ahead → True → (do
      let block ← Block.ofBatch t.blockCounter batch blockSize metadataEnabled
      return t.addBlock block) = some t' → t'.Ahead := by
    intro t batch t' h _ hadd
    obtain ⟨b, -, hadd⟩ := Option.bind_eq_some_iff.mp hadd
    cases hadd
    exact h.addBlock b
  have h₁ := (Run.meets_true _ _ batches).invariant hadd hnew hfold
  have hlen := h₁.length_eq
  split at h
  . next hroom =>
    cases h
    refine ⟨⟨h₁.inv.indexed.of_sameDirectory ⟨rfl, rfl, le_rfl⟩, ?_, ?_⟩, ?_, ?_⟩
    . rw [List.length_set]
      exact h₁.inv.length_eq
    . -- the entry that is overwritten is the one of the next block
      intro i hi
      have hlt : i < t₁.blocks.entries.length := hi
      show (t₁.blockRowOffsets.set (t₁.blockRowOffsets.length - 1) (-1))[i]? = _
      rw [List.getElem?_set_ne (by omega)]
      exact h₁.inv.offsets i hi
    . rw [List.length_set]
      exact hlen
    . intro hfull
      have := hfull ptr hptr b hb
      exact absurd this (by show ¬_ ≤ t₁.fixedRecordWidth; omega)
  . cases h
    exact ⟨h₁.inv, hlen, fun _ => h₁.numRows_eq ▸ h₁.next⟩

namespace Watched

variable {s s' : Watched}

def IsNew (s : Watched) : Prop :=
  (∃ schema blockCapacity metadataEnabled, s = ⟨new schema blockCapacity metadataEnabled, false, none⟩) ∨
    ∃ batches blockCapacity metadataEnabled t, ofBatches batches blockCapacity metadataEnabled = some t ∧
      s = ⟨t, true, if t.LastFull then some t.numRows else none⟩

/--
The invariant between calls: the vector of a table that was made from record batches has the entry of the next block.
-/
structure Inv (s : Watched) : Prop where
  offsets : s.table.OffsetsInv
  length_eq : s.table.blockRowOffsets.length = s.table.blocks.entries.length + s.fromBatches.toNat
  next : s.fromBatches = true → ∀ rows, s.rowsThen = some rows →
    s.table.blockRowOffsets[s.table.blocks.entries.length]? = some rows

theorem IsNew.inv (h : s.IsNew) : s.Inv := by
  rcases h with ⟨schema, blockCapacity, metadataEnabled, rfl⟩ | ⟨batches, blockCapacity, metadataEnabled, t, ht, rfl⟩
  . exact ⟨new_offsetsInv schema blockCapacity metadataEnabled, rfl, fun h => by cases h⟩
  . obtain ⟨hinv, hlen, hnext⟩ := ofBatches_offsetsInv ht
    refine ⟨hinv, hlen, ?_⟩
    intro _ rows hrows
    dsimp only at hrows ⊢
    split at hrows
    . next hfull =>
      cases hrows
      exact hnext hfull
    . cases hrows

theorem Inv.nextOffset (h : s.Inv) (hcounted : s.Counted) : s.table.NextOffset := by
  have hlen := h.length_eq
  refine ⟨hcounted.1, ?_⟩
  cases hbatches : s.fromBatches with
  | false =>
    rw [hbatches, Bool.toNat_false, Nat.add_zero] at hlen
    rw [← hlen]
    exact List.getElem?_concat_length
  | true =>
    rw [hbatches] at hlen
    rw [List.getElem?_append_left (by rw [hlen]; exact Nat.lt_succ_self _)]
    exact h.next hbatches _ (hcounted.2 hbatches)

theorem Inv.after (h : s.Inv) {t : DBTable} (hinv : t.OffsetsInv) (hpushes : s.table.Pushes t) : (s.after t).Inv := by
  obtain ⟨m, hoffsets, hcounter⟩ := hpushes
  have hnum := h.offsets.indexed.numBlocks_eq
  have hnum' := hinv.indexed.numBlocks_eq
  have hblocks : t.blocks.entries.length = s.table.blocks.entries.length + m := by omega
  have hlen := h.length_eq
  refine ⟨hinv, ?_, ?_⟩
  . show t.blockRowOffsets.length = t.blocks.entries.length + s.fromBatches.toNat
    rw [hoffsets, List.length_append, List.length_replicate, hblocks]
    omega
  . intro hbatches rows hrows
    have hbatches : s.fromBatches = true := hbatches
    rw [hbatches, Bool.toNat_true] at hlen
    dsimp only [Watched.after] at hrows ⊢
    rw [hblocks, hoffsets]
    split at hrows
    . next hsame =>
      obtain rfl : m = 0 := by omega
      rw [List.replicate_zero, List.append_nil, Nat.add_zero]
      exact h.next hbatches rows hrows
    . next hdiff =>
      cases hrows
      rw [List.getElem?_append_right (by omega), List.getElem?_replicate, if_pos (by omega)]

theorem RecordKeeps.mono {t : DBTable} {next next' : Prop} {pick : List Int → Nat} {recordSize : Int}
    (h : t.RecordKeeps pick next recordSize) (himp : next → next') : t.RecordKeeps pick next' recordSize :=
  fun x hx => ⟨(h x hx).1, fun hne => himp ((h x hx).2 hne)⟩

theorem LoadKeeps.mono {t : DBTable} {next next' : Prop} {pick : List Int → Nat} {columnData : List ArrayData}
    (h : t.LoadKeeps pick next columnData) (himp : next → next') : t.LoadKeeps pick next' columnData := by
  intro first hfirst sizes hsizes b hb
  rcases h first hfirst sizes hsizes b hb with ⟨hlast, hnext, hfits⟩ | ⟨hnext, hfull, hfits⟩
  . exact .inl ⟨hlast, fun hne => himp (hnext hne), hfits⟩
  . exact .inr ⟨himp hnext, hfull, hfits⟩

theorem Inv.load (h : s.Inv) {columnData : List ArrayData} (hkeeps : s.table.LoadKeeps pick s.Counted columnData)
    (hload : s.load pick columnData = some s') : s'.Inv := by
  obtain ⟨t, ht, rfl⟩ := Option.map_eq_some_iff.mp hload
  exact h.after (h.offsets.insertRecords (LoadKeeps.mono hkeeps h.nextOffset) ht) (pushes_insertRecords ht)

theorem Inv.insertBlocks (h : s.Inv) {inputBlocks : List Block} (hkeeps : s.BlocksKeep inputBlocks)
    (hstep : s.step pick simpleAtoi (.insertBlocks inputBlocks) = some s') : s'.Inv := by
  obtain ⟨t, ht, rfl⟩ := Option.map_eq_some_iff.mp hstep
  obtain ⟨hcounted, hempty, -⟩ := hkeeps
  obtain rfl := insertBlocks_cases ht
  by_cases hnil : inputBlocks = []
  . subst hnil
    exact ⟨h.offsets, h.length_eq, h.next⟩
  . have hcounted := hcounted hnil
    have hlen := h.length_eq
    cases hbatches : s.fromBatches with
    | false =>
      rw [hbatches] at hlen
      have hlevel := (Level.mk h.offsets hlen hcounted.1).foldl_addBlock (hempty hbatches)
      exact ⟨hlevel.inv, hlevel.length_eq, fun htrue => by cases htrue⟩
    | true =>
      rw [hbatches] at hlen
      have hnext := h.next hbatches _ (hcounted.2 hbatches)
      have hahead := (Ahead.mk h.offsets hlen hcounted.1 (hcounted.1 ▸ hnext)).foldl_addBlock inputBlocks
      refine ⟨hahead.inv, hahead.length_eq, ?_⟩
      . intro _ rows hrows
        dsimp only at hrows ⊢
        rw [if_neg hnil] at hrows
        cases hrows
        rw [hahead.numRows_eq]
        exact hahead.next

theorem step_after {call : Call} (hblocks : ∀ inputBlocks, call ≠ .insertBlocks inputBlocks)
    (hchunks : ∀ chunks, call ≠ .insertChunks chunks) (hstep : s.step pick simpleAtoi call = some s')
    : ∃ t, s.table.step pick simpleAtoi call = some t ∧ s.after t = s' := by
  cases call with
  | insertBlocks inputBlocks => exact absurd rfl (hblocks inputBlocks)
  | insertChunks chunks => exact absurd rfl (hchunks chunks)
  | _ =>
    simp only [Watched.step] at hstep
    exact Option.map_eq_some_iff.mp hstep

theorem Inv.step (h : s.Inv) {call : Call} (hkeeps : s.KeepsOffsets pick call)
    (hstep : s.step pick simpleAtoi call = some s') : s'.Inv := by
  have hrecord : ∀ {recordSize : Int}, s.table.RecordKeeps pick s.Counted recordSize →
      s.table.RecordKeeps pick s.table.NextOffset recordSize := fun hkeeps => RecordKeeps.mono hkeeps h.nextOffset
  cases call with
  | insertBlocks inputBlocks => exact h.insertBlocks hkeeps hstep
  | insertChunks chunks => exact hkeeps.invariant (fun _ _ _ hs hload hstep => hs.load hload hstep) h hstep
  | insertRecords columnData => exact h.load hkeeps hstep
  | createBlock =>
    obtain ⟨t, ht, rfl⟩ := step_after (by simp) (by simp) hstep
    have hpushes := pushes_step (by simp) (by simp) ht
    cases ht
    exact h.after (h.offsets.createBlock (h.nextOffset hkeeps)).1 hpushes
  | insertRecord record byteWidths =>
    obtain ⟨t, ht, rfl⟩ := step_after (by simp) (by simp) hstep
    refine h.after ?_ (pushes_step (by simp) (by simp) ht)
    obtain ⟨⟨info, t₁, record₁⟩, hinsert, ht⟩ := Option.bind_eq_some_iff.mp ht
    cases ht
    obtain ⟨ptr, t₁, b, b', rowNum, hinserted, -, -⟩ := insertRecord_cases hinsert
    exact h.offsets.recordInserted (hrecord hkeeps) hinserted
  | insertCsvRecord values byteWidths =>
    obtain ⟨t, ht, rfl⟩ := step_after (by simp) (by simp) hstep
    obtain ⟨ptr, t₁, b, b', rowNum, hinserted, -⟩ := insertCsvRecord_cases ht
    exact h.after (h.offsets.recordInserted (hrecord hkeeps) hinserted) (pushes_recordInserted hinserted)
  | insertRecordTable rowId record byteWidths =>
    obtain ⟨t, ht, rfl⟩ := step_after (by simp) (by simp) hstep
    refine h.after ?_ (pushes_step (by simp) (by simp) ht)
    obtain ⟨⟨t₁, record₁⟩, hinsert, ht⟩ := Option.bind_eq_some_iff.mp ht
    cases ht
    unfold DBTable.insertRecordTable at hinsert
    obtain ⟨⟨info, t₂, record₂⟩, hinsert, ht⟩ := Option.bind_eq_some_iff.mp hinsert
    cases ht
    obtain ⟨ptr, t₁, b, b', rowNum, hinserted, -, -⟩ := insertRecord_cases hinsert
    have hinv := h.offsets.recordInserted (hrecord hkeeps) hinserted
    exact hinv.of_last (hinv.indexed.of_sameDirectory ⟨rfl, rfl, le_rfl⟩) rfl rfl fun _ _ => rfl
  | deleteRecordTable rowId =>
    obtain ⟨t, ht, rfl⟩ := step_after (by simp) (by simp) hstep
    refine h.after ?_ (pushes_step (by simp) (by simp) ht)
    rcases deleteRecordTable_cases ht with ⟨-, rfl⟩ | ⟨info, ptr, b, s, hinfo, hdeleted⟩
    . exact h.offsets
    . exact h.offsets.rowDeleted hdeleted (hkeeps info hinfo)

theorem KeepsOffsets.writesInside {call : Call} (hkeeps : s.KeepsOffsets pick call) : s.table.WritesInside call := by
  cases call with
  | insertBlocks inputBlocks => exact writesInside_insertBlocks_iff.mpr hkeeps.2.2
  | _ => exact List.forall_mem_nil _

end Watched

/--
For every sequence of calls that keep the offsets, every block has the number of rows in front of it as its offset, and
nothing is written behind the end of the vector.
-/
theorem calls_offsetsOk (pick : List Int → Nat) (simpleAtoi : List UInt8 → Option (BitVec 64)) (start : Watched)
    (hstart : start.IsNew) (calls : List Call)
    (hkeeps : Run.Meets (Watched.step pick simpleAtoi) (Watched.KeepsOffsets pick) start calls)
    : Run.Throughout (Watched.step pick simpleAtoi) (fun s => s.table.OffsetsOk) (fun s call => s.table.WritesInside call)
        start calls :=
  Run.throughout_of_meets (fun _ h => h.offsets.offsets) (fun _ _ _ hkeeps => hkeeps.writesInside)
    (fun _ _ _ h hkeeps hstep => h.step hkeeps hstep) hstart.inv hkeeps

def tailCalls : List Call :=
  [.insertRecordTable 1 (recordBytes [⟨1, [7]⟩, ⟨1, [97]⟩]) (recordWidths [⟨1, [7]⟩, ⟨1, [97]⟩]),
    .insertRecords [⟨2, 0, .int64 [1, 2]⟩, ⟨2, 0, .string [0, 1, 3] [97, 98, 98]⟩], .createBlock,
    .insertRecordTable 2 (recordBytes [⟨1, [7]⟩, ⟨40, List.replicate 40 97⟩])
      (recordWidths [⟨1, [7]⟩, ⟨40, List.replicate 40 97⟩]), .deleteRecordTable 2]

theorem calls_offsetsOk_tailCalls
    : Run.Throughout (Watched.step (fun _ => 0) decimalAtoi) (fun s => s.table.OffsetsOk)
        (fun s call => s.table.WritesInside call) ⟨new tagSchema 60 false, false, none⟩ tailCalls :=
  calls_offsetsOk (fun _ => 0) decimalAtoi _ (.inl ⟨_, _, _, rfl⟩) tailCalls (by decide +kernel)

def numberSchema : Schema := ⟨[.int64], List.cons_ne_nil _ _⟩

/--
A load of two rows into blocks that have room for one. The second block is created before the rows are counted.
-/
theorem not_calls_offsetsOk_load
    : (⟨new numberSchema 8 false, false, none⟩ : Watched).IsNew ∧
        ¬ Run.Throughout (Watched.step (fun _ => 0) decimalAtoi) (fun s => s.table.OffsetsOk)
          (fun s call => s.table.WritesInside call) ⟨new numberSchema 8 false, false, none⟩
          [.insertRecords [⟨2, 0, .int64 [1, 2]⟩]] := by
  refine ⟨.inl ⟨_, _, _, rfl⟩, ?_⟩
  rintro ⟨-, -, hreached⟩
  have hstep : (Watched.step (fun _ => 0) decimalAtoi ⟨new numberSchema 8 false, false, none⟩
      (.insertRecords [⟨2, 0, .int64 [1, 2]⟩])).map (fun s => decide s.table.OffsetsOk) = some false := by decide +kernel
  obtain ⟨s, hs, hoffsets⟩ := Option.map_eq_some_iff.mp hstep
  exact of_decide_eq_false hoffsets (hreached s hs)

end DBTable

end Hustle.Storage
