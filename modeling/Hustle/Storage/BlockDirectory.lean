import Hustle.Storage.RowOffsets

/-!
This module contains what `blocks` and `insert_pool` say of the blocks of a table. Most functions register a block under
its own id, but `InsertBlocks` registers the blocks it is given under the next numbers, whatever their ids are.
-/

namespace Hustle.Storage

namespace DBTable

/--
The keys of `blocks` are the numbers below `block_counter`, every block has its key as its id, and every block in the
insert pool is the one of its key and has room for another record.
-/
structure Directory (t : DBTable) : Prop where
  keys : ∀ k, (t.blocks.lookup k).isSome ↔ 0 ≤ k ∧ k < t.blockCounter
  ids : ∀ k ptr, t.blocks.lookup k = some ptr → ∃ b, t.block ptr = some b ∧ b.id = k
  pool : ∀ k ptr, t.insertPool.lookup k = some ptr → t.blocks.lookup k = some ptr
  room : ∀ k ptr b, t.insertPool.lookup k = some ptr → t.block ptr = some b → t.fixedRecordWidth < b.getBytesLeft

/--
The arguments are a record with a width for every column, fields that can be parsed, arrays of the types of the columns,
or blocks with the columns of the table that have been filled by the functions of a block.
-/
def Call.WellFormed (simpleAtoi : List UInt8 → Option (BitVec 64)) (schema : Schema) : Call → Prop
  | .createBlock => True
  | .insertBlocks inputBlocks => ∀ b ∈ inputBlocks, ∃ rows, b.Repr b.id schema b.capacity rows
  | .insertRecords columnData => ∃ input, SizedTable.IsBatch schema columnData input
  | .insertChunks chunks => ∀ columnData ∈ chunks, ∃ input, SizedTable.IsBatch schema columnData input
  | .insertRecord record byteWidths => ∃ xs, IsRecord schema.fields xs ∧ record = recordBytes xs ∧
    byteWidths = recordWidths xs
  | .insertCsvRecord values byteWidths => byteWidths.length = schema.fields.length ∧
    (Column.csvRow simpleAtoi schema.fields values).isSome
  | .insertRecordTable _ record byteWidths => ∃ xs, IsRecord schema.fields xs ∧ record = recordBytes xs ∧
    byteWidths = recordWidths xs
  | .deleteRecordTable _ => True

/--
`InsertBlocks` is given blocks that have the next numbers as their ids, and the last one is full.
-/
def Numbered (t : DBTable) (call : Call) : Prop :=
  match call with
  | .insertBlocks inputBlocks => (∀ x ∈ inputBlocks.zipIdx, x.1.id = t.blockCounter + x.2) ∧
    ∀ b ∈ inputBlocks.getLast?, b.getBytesLeft ≤ t.fixedRecordWidth
  | _ => True

def ConstructedFrom (schema : Schema) (t : DBTable) : Prop :=
  (∃ blockCapacity metadataEnabled, t = new schema blockCapacity metadataEnabled) ∨
    ∃ (contents : List (List Row)) (blockCapacity : Int) (metadataEnabled : Bool),
      (∀ rows ∈ contents, ∀ row ∈ rows, Row.HasType schema.fields row) ∧
      ofBatches (contents.map (batchOf schema)) blockCapacity metadataEnabled = some t

structure Kept (schema : Schema) (t : DBTable) : Prop where
  indexed : t.Indexed
  schema_eq : t.schema = schema
  blocks : ∀ k ptr b, t.blocks.lookup k = some ptr → t.block ptr = some b → ∃ rows, b.Repr k schema b.capacity rows
  pool : ∀ k ptr, t.insertPool.lookup k = some ptr → t.blocks.lookup k = some ptr
  room : ∀ k ptr b, t.insertPool.lookup k = some ptr → t.block ptr = some b →
    computeFixedRecordWidth schema < b.getBytesLeft

structure Taken (t : DBTable) (k : Int) (ptr : BlockPtr) : Prop where
  lookup : t.blocks.lookup k = some ptr
  pool : t.insertPool.lookup k = none

variable {schema : Schema} {t t' : DBTable} {k : Int} {ptr : BlockPtr} {pick : List Int → Nat}
  {simpleAtoi : List UInt8 → Option (BitVec 64)}

theorem Indexed.exists_block (h : t.Indexed) (hptr : t.blocks.lookup k = some ptr) : ∃ b, t.block ptr = some b :=
  ⟨_, List.getElem?_eq_getElem (h.ptr_lt k ptr hptr)⟩

theorem Kept.directory (h : Kept schema t) : t.Directory where
  keys := h.indexed.keys
  ids k ptr hptr := by
    obtain ⟨b, hb⟩ := h.indexed.exists_block hptr
    obtain ⟨rows, hrepr⟩ := h.blocks k ptr b hptr hb
    exact ⟨b, hb, hrepr.id_eq⟩
  pool := h.pool
  room := by
    rw [fixedRecordWidth, h.schema_eq]
    exact h.room

theorem Kept.congr (h : Kept schema t) (hschema : t'.schema = t.schema) (hheap : t'.heap = t.heap)
    (hblocks : t'.blocks = t.blocks) (hpool : t'.insertPool = t.insertPool) (hcounter : t'.blockCounter = t.blockCounter)
    : Kept schema t' where
  indexed := h.indexed.of_sameDirectory ⟨hblocks, hcounter, by rw [hheap]⟩
  schema_eq := hschema.trans h.schema_eq
  blocks := by
    rw [hblocks]
    unfold DBTable.block
    rw [hheap]
    exact h.blocks
  pool := by
    rw [hblocks, hpool]
    exact h.pool
  room := by
    rw [hpool]
    unfold DBTable.block
    rw [hheap]
    exact h.room

theorem new_kept (schema : Schema) (blockCapacity : Int) (metadataEnabled : Bool)
    : Kept schema (new schema blockCapacity metadataEnabled) where
  indexed := new_indexed schema blockCapacity metadataEnabled
  schema_eq := rfl
  blocks := by simp [new]
  pool := by simp [new]
  room := by simp [new]

/-! New blocks. -/

theorem Kept.newBlock {b : Block} {rows : List Row} (h : Kept schema t) (hnew : NewBlock t b t')
    (hb : b.Repr t.blockCounter schema b.capacity rows)
    : Kept schema t' ∧ t'.Taken t.blockCounter t.heap.length := by
  have hlookup := hnew.lookup_indexed h.indexed
  have hold : ∀ {ptr b'}, ptr ≠ t.heap.length → t'.block ptr = some b' → t.block ptr = some b' := by
    intro ptr b' hne hb'
    rw [DBTable.block, hnew.heap_eq] at hb'
    have hlt := (List.getElem?_eq_some_iff.mp hb').1
    rw [List.length_append, List.length_singleton] at hlt
    rw [List.getElem?_append_left (by omega)] at hb'
    exact hb'
  refine ⟨⟨h.indexed.newBlock hnew, hnew.schema_eq.trans h.schema_eq, ?_, ?_, ?_⟩, ?_, ?_⟩
  . intro k ptr b' hptr hb'
    rw [hlookup] at hptr
    split at hptr
    . next hk =>
      cases hptr
      rw [DBTable.block, hnew.heap_eq, List.getElem?_concat_length, Option.some.injEq] at hb'
      rw [hk, ← hb']
      exact ⟨rows, hb⟩
    . exact h.blocks k ptr b' hptr (hold (Nat.ne_of_lt (h.indexed.ptr_lt k ptr hptr)) hb')
  . intro k ptr hptr
    rw [hnew.insertPool_eq] at hptr
    have hold := h.pool k ptr hptr
    rw [hlookup, if_neg, hold]
    rintro rfl
    rw [h.indexed.lookup_counter] at hold
    cases hold
  . intro k ptr b' hptr hb'
    rw [hnew.insertPool_eq] at hptr
    exact h.room k ptr b' hptr (hold (Nat.ne_of_lt (h.indexed.ptr_lt k ptr (h.pool k ptr hptr))) hb')
  . rw [hlookup, if_pos rfl]
  . rw [hnew.insertPool_eq]
    cases hpool : t.insertPool.lookup t.blockCounter with
    | none => rfl
    | some ptr =>
      have := h.pool _ ptr hpool
      rw [h.indexed.lookup_counter] at this
      cases this

theorem Kept.createBlock (h : Kept schema t)
    : Kept schema t.createBlock.2 ∧ t.createBlock.2.Taken t.blockCounter t.createBlock.1 := by
  apply h.newBlock t.createBlock_newBlock
  rw [h.schema_eq]
  exact Block.new_repr t.blockCounter schema t.blockCapacity t.metadataEnabled

theorem Kept.getBlockForInsert (h : Kept schema t) (pick : List Int → Nat)
    : Kept schema (t.getBlockForInsert pick).2 ∧
        ∃ k, (t.getBlockForInsert pick).2.Taken k (t.getBlockForInsert pick).1 := by
  obtain ⟨-, heq⟩ | ⟨key, ptr, hlookup, heq⟩ := t.getBlockForInsert_cases pick
  . rw [heq]
    exact ⟨h.createBlock.1, _, h.createBlock.2⟩
  . rw [heq]
    have hpool : ∀ {k ptr'}, AList.lookup k (AList.erase key t.insertPool) = some ptr' →
        t.insertPool.lookup k = some ptr' := by
      intro k ptr' hk
      rw [Map.lookup_erase_eq] at hk
      split at hk
      . cases hk
      . exact hk
    refine ⟨⟨h.indexed.of_sameDirectory ⟨rfl, rfl, le_rfl⟩, h.schema_eq, h.blocks, ?_, ?_⟩, key, ?_, ?_⟩
    . intro k ptr' hk
      exact h.pool k ptr' (hpool hk)
    . intro k ptr' b hk
      exact h.room k ptr' b (hpool hk)
    . exact h.pool key ptr hlookup
    . rw [Map.lookup_erase_eq, if_pos rfl]

theorem Kept.blockForSize (h : Kept schema t) {recordSize : Int} {x : BlockPtr × DBTable}
    (hblock : t.blockForSize pick recordSize = some x)
    : Kept schema x.2 ∧ ∃ k, x.2.Taken k x.1 := by
  have hget := h.getBlockForInsert pick
  obtain ⟨b, -, ⟨-, rfl⟩ | ⟨-, rfl⟩⟩ := blockForSize_cases hblock
  . exact ⟨hget.1.createBlock.1, _, hget.1.createBlock.2⟩
  . exact hget

/-! Blocks that change. -/

theorem Kept.setBlock (h : Kept schema t) (htaken : t.Taken k ptr) {b : Block} {rows : List Row}
    (hb : b.Repr k schema b.capacity rows)
    : Kept schema (t.setBlock ptr b) ∧ (t.setBlock ptr b).Taken k ptr := by
  have hlt := h.indexed.ptr_lt k ptr htaken.lookup
  have hblock : ∀ ptr', (t.setBlock ptr b).block ptr' = if ptr' = ptr then some b else t.block ptr' := by
    intro ptr'
    simp only [DBTable.block, DBTable.setBlock, List.getElem?_set, hlt, if_true, eq_comm]
  refine ⟨⟨h.indexed.setBlock ptr b, h.schema_eq, ?_, h.pool, ?_⟩, htaken.lookup, htaken.pool⟩
  . intro k' ptr' b' hptr' hb'
    rw [hblock] at hb'
    split at hb'
    . next heq =>
      cases hb'
      subst heq
      rw [h.indexed.inj k' k ptr' hptr' htaken.lookup]
      exact ⟨rows, hb⟩
    . exact h.blocks k' ptr' b' hptr' hb'
  . intro k' ptr' b' hpool hb'
    rw [hblock] at hb'
    split at hb'
    . next heq =>
      subst heq
      have hk := h.indexed.inj k' k ptr' (h.pool k' ptr' hpool) htaken.lookup
      have hnone := htaken.pool
      rw [← hk] at hnone
      exact absurd (hnone.symm.trans hpool) (by simp)
    . exact h.room k' ptr' b' hpool hb'

theorem Kept.offerBlock (h : Kept schema t) (hptr : t.blocks.lookup k = some ptr) {b : Block}
    (hb : t.block ptr = some b)
    : Kept schema (t.offerBlock ptr b) := by
  obtain ⟨rows, hrepr⟩ := h.blocks k ptr b hptr hb
  unfold DBTable.offerBlock
  split
  . next hroom =>
    rw [fixedRecordWidth, h.schema_eq] at hroom
    refine ⟨h.indexed.of_sameDirectory ⟨rfl, rfl, le_rfl⟩, h.schema_eq, h.blocks, ?_, ?_⟩
    . intro k' ptr' hpool
      dsimp only at hpool
      rw [Map.lookup_insert_eq] at hpool
      split at hpool
      . next hk =>
        cases hpool
        rw [hk, hrepr.id_eq]
        exact hptr
      . exact h.pool k' ptr' hpool
    . intro k' ptr' b' hpool hb'
      dsimp only at hpool
      rw [Map.lookup_insert_eq] at hpool
      split at hpool
      . cases hpool
        cases hb.symm.trans hb'
        exact hroom
      . exact h.room k' ptr' b' hpool hb'
  . exact h

/-! Inserts. -/

theorem Kept.recordInserted (h : Kept schema t) {recordSize : Int} {t₁ : DBTable} {b b' : Block}
    (hinsert : RecordInserted t pick recordSize ptr t₁ b b' t')
    (hb' : ∀ {id capacity rows}, b.Repr id schema capacity rows → ∃ rows', b'.Repr id schema capacity rows')
    : Kept schema t' := by
  obtain ⟨h₁, k, htaken⟩ := h.blockForSize hinsert.blockForSize_eq
  obtain ⟨rows, hrepr⟩ := h₁.blocks k ptr b htaken.lookup hinsert.block_eq
  obtain ⟨rows', hrepr'⟩ := hb' hrepr
  rw [← hrepr'.capacity_eq] at hrepr'
  obtain ⟨h₂, htaken₂⟩ := h₁.setBlock htaken hrepr'
  have hblock : (t₁.setBlock ptr b').block ptr = some b' := by
    simp [DBTable.block, DBTable.setBlock, h₁.indexed.ptr_lt k ptr htaken.lookup]
  have h₃ : Kept schema { t₁.setBlock ptr b' with numRows := t₁.numRows + 1 } := h₂.congr rfl rfl rfl rfl rfl
  rw [hinsert.eq]
  exact h₃.offerBlock htaken₂.lookup hblock

theorem Kept.insertRecord (h : Kept schema t) {xs : List Field} (hrec : IsRecord schema.fields xs) {info : BlockInfo}
    {record' : List UInt8} (hinsert : t.insertRecord pick (recordBytes xs) (recordWidths xs) = some (info, t', record'))
    : Kept schema t' := by
  obtain ⟨ptr, t₁, b, b', rowNum, hinserted, hb', -⟩ := insertRecord_cases hinsert
  apply h.recordInserted hinserted
  intro id capacity rows hrepr
  by_cases hfit : (recordWidths xs).sum ≤ b.getBytesLeft
  . obtain ⟨b₁, hb₁, hrepr₁⟩ := hrepr.insertRecord hrec hfit
    rw [hb₁, Option.some.injEq] at hb'
    cases hb'
    exact ⟨_, hrepr₁⟩
  . have hwidths : (recordWidths xs).length = b.columns.length := by
      rw [hrepr.columns_eq, Column.length_ofRows, length_recordWidths, hrec.length_eq]
    rw [Block.insertRecord, if_neg (by omega), ← hwidths, List.take_length, if_pos (by omega), Option.some.injEq] at hb'
    cases hb'
    exact ⟨rows, hrepr⟩

theorem Kept.insertCsvRecord (h : Kept schema t) {values : List (List UInt8)} {byteWidths : List Int}
    (hwidths : byteWidths.length = schema.fields.length)
    (hrow : (Column.csvRow simpleAtoi schema.fields values).isSome)
    (hinsert : t.insertCsvRecord pick simpleAtoi values byteWidths = some t')
    : Kept schema t' := by
  obtain ⟨row, hrow⟩ := Option.isSome_iff_exists.mp hrow
  obtain ⟨ptr, t₁, b, b', rowNum, hinserted, hb'⟩ := insertCsvRecord_cases hinsert
  apply h.recordInserted hinserted
  intro id capacity rows hrepr
  by_cases hfit : byteWidths.sum ≤ b.getBytesLeft
  . obtain ⟨b₁, hb₁, hrepr₁⟩ := hrepr.insertCsvRecord hrow hwidths hfit
    rw [hb₁, Option.some.injEq] at hb'
    cases hb'
    exact ⟨_, hrepr₁⟩
  . have hlen : b.columns.length = byteWidths.length := by
      rw [hrepr.columns_eq, Column.length_ofRows, hwidths]
    rw [Block.insertCsvRecord, if_neg (by omega), hlen, List.take_length, if_pos (by omega), Option.some.injEq] at hb'
    cases hb'
    exact ⟨rows, hrepr⟩

theorem Kept.loaderInsert (h : Kept schema t) (htaken : t.Taken k ptr) {columnData : List ArrayData} {new : List Row}
    (hdata : ArrayData.HoldRows schema.fields columnData new) (htype : ∀ row ∈ new, Row.HasType schema.fields row)
    (hoffset : ∀ a ∈ columnData, ∀ a' ∈ columnData, a.offset = a'.offset)
    (hinsert : loader.insertRecords t ptr columnData = some t')
    : Kept schema t' ∧ t'.Taken k ptr := by
  obtain ⟨b, hb, hinsert⟩ := Option.bind_eq_some_iff.mp hinsert
  obtain ⟨⟨rowNum, b'⟩, hb', hinsert⟩ := Option.bind_eq_some_iff.mp hinsert
  cases hinsert
  obtain ⟨rows, hrepr⟩ := h.blocks k ptr b htaken.lookup hb
  obtain ⟨⟨first, hfirst, hlength⟩, -⟩ := ArrayData.sliceRows_eq hdata htype
  have hmem := List.mem_of_mem_head? hfirst
  rcases List.eq_nil_or_concat new with rfl | hne
  . rw [Block.insertRecords, hfirst] at hb'
    simp only [hlength, List.length_nil, if_true, Option.bind_eq_bind, Option.bind_some, Option.pure_def,
      Option.some.injEq] at hb'
    cases hb'
    exact h.setBlock htaken hrepr
  . have hne : new ≠ [] := by
      obtain ⟨front, row, rfl⟩ := hne
      simp
    obtain ⟨b₁, hb₁, hrepr₁⟩ := hrepr.insertSlices hfirst (fun a ha => hoffset a ha first hmem) hlength hne hdata htype
    rw [hb₁, Option.some.injEq] at hb'
    cases hb'
    rw [← hrepr₁.capacity_eq] at hrepr₁
    exact h.setBlock htaken hrepr₁

structure Loading (schema : Schema) (input : List Row) (s : Loader.State DBTable) : Prop where
  kept : Kept schema s.table
  taken : ∃ k, s.table.Taken k s.block
  offset_le : s.offset ≤ input.length

theorem Loading.insertSlice {input : List Row} {s : Loader.State DBTable} (h : Loading schema input s)
    {columnData : List ArrayData} (hbatch : SizedTable.IsBatch schema columnData input) {n : Nat}
    (hinsert : loader.insertRecords s.table s.block (sliceAll columnData s.offset n) = some t')
    : Kept schema t' ∧ ∃ k, t'.Taken k s.block := by
  obtain ⟨k, htaken⟩ := h.taken
  have hinserted := h.kept.loaderInsert htaken (hbatch.holdRows.slice h.offset_le n)
    (fun row hrow => hbatch.hasType row (List.mem_of_mem_drop (List.mem_of_mem_take hrow))) (by
      intro a ha a' ha'
      obtain ⟨c, hc, rfl⟩ := List.mem_map.mp ha
      obtain ⟨c', hc', rfl⟩ := List.mem_map.mp ha'
      simp only [ArrayData.slice, hbatch.offset c hc, hbatch.offset c' hc']) hinsert
  exact ⟨hinserted.1, k, hinserted.2⟩

theorem Loading.loadRow {input : List Row} {s s' : Loader.State DBTable} (h : Loading schema input s)
    {columnData : List ArrayData} (hbatch : SizedTable.IsBatch schema columnData input) {row : Nat}
    (hrow : row < input.length) (hload : loader.loadRow columnData s row = some s')
    : Loading schema input s' := by
  obtain ⟨size, -, hload⟩ := Option.bind_eq_some_iff.mp hload
  obtain ⟨left, -, hload⟩ := Option.bind_eq_some_iff.mp hload
  split at hload
  . cases hload
  . split at hload
    . obtain ⟨t₁, ht₁, hload⟩ := Option.bind_eq_some_iff.mp hload
      cases hload
      have hcreated := (h.insertSlice hbatch ht₁).1.createBlock
      exact ⟨hcreated.1, ⟨_, hcreated.2⟩, Nat.le_of_lt hrow⟩
    . cases hload
      exact ⟨h.kept, h.taken, h.offset_le⟩

theorem Kept.insertRecords (h : Kept schema t) {columnData : List ArrayData} {input : List Row}
    (hbatch : SizedTable.IsBatch schema columnData input) (hinsert : t.insertRecords pick columnData = some t')
    : Kept schema t' := by
  obtain ⟨first, ptr, t₁, b, hfirst, hload, hb, rfl⟩ := insertRecords_cases hinsert
  obtain ⟨⟨first', hfirst', hlength⟩, -⟩ := ArrayData.sliceRows_eq hbatch.holdRows hbatch.hasType
  rw [hfirst, Option.some.injEq] at hfirst'
  subst hfirst'
  obtain ⟨s, hs, hload⟩ := Option.bind_eq_some_iff.mp hload
  obtain ⟨t₂, ht₂, hload⟩ := Option.bind_eq_some_iff.mp hload
  cases hload
  obtain ⟨hget, htaken⟩ := h.getBlockForInsert pick
  have hstart : Loading schema input ⟨(t.getBlockForInsert pick).2, (t.getBlockForInsert pick).1, 0, 0⟩ :=
    ⟨hget, htaken, Nat.zero_le _⟩
  have hmeets := (Run.meets_true (loader.loadRow columnData)
    ⟨(t.getBlockForInsert pick).2, (t.getBlockForInsert pick).1, 0, 0⟩ (List.range first.length)).and_forall
    (fun row hrow => List.mem_range.mp hrow)
  have hloading : Loading schema input s := hmeets.invariant
    (fun s row s' hs hrow hstep => hs.loadRow hbatch (hlength ▸ hrow.2) hstep) hstart hs
  obtain ⟨h₁, k, htaken₁⟩ := hloading.insertSlice hbatch ht₂
  exact (h₁.offerBlock htaken₁.lookup hb).congr rfl rfl rfl rfl rfl

theorem Kept.insertChunks (h : Kept schema t) {chunks : List (List ArrayData)}
    (hchunks : ∀ columnData ∈ chunks, ∃ input, SizedTable.IsBatch schema columnData input)
    (hinsert : t.insertChunks pick chunks = some t')
    : Kept schema t' := by
  have hmeets := (Run.meets_true (fun t columnData => DBTable.insertRecords pick t columnData) t chunks).and_forall
    hchunks
  refine hmeets.invariant ?_ h hinsert
  rintro s columnData s' hs ⟨-, input, hbatch⟩ hstep
  exact hs.insertRecords hbatch hstep

/-! Blocks from outside. -/

theorem Indexed.addBlocks (h : t.Indexed) (bs : List Block)
    : (bs.foldl addBlock t).Indexed ∧
        (bs.foldl addBlock t).blocks.entries.length = t.blocks.entries.length + bs.length ∧
        (bs.foldl addBlock t).schema = t.schema ∧
        ∀ x ∈ bs.zipIdx,
          (bs.foldl addBlock t).getBlock ((t.blocks.entries.length + x.2 : Nat) : Int) = some x.1 := by
  induction bs using List.reverseRecOn with
  | nil => exact ⟨h, rfl, rfl, by simp⟩
  | append_singleton bs b ih =>
    obtain ⟨hindexed, hlen, hschema, hget⟩ := ih
    have hnew := (bs.foldl addBlock t).addBlock_newBlock b
    rw [List.foldl_append, List.foldl_cons, List.foldl_nil]
    refine ⟨hindexed.newBlock hnew, ?_, hschema, ?_⟩
    . rw [hnew.numBlocks_eq hindexed, hlen, List.length_append, List.length_singleton, Nat.add_assoc]
    . intro x hx
      rw [List.zipIdx_append, List.mem_append] at hx
      rcases hx with hx | hx
      . have hlt := (List.getElem?_eq_some_iff.mp (List.mem_zipIdx_iff_getElem?.mp hx)).1
        rw [hnew.getBlock_old hindexed (by omega), hget x hx]
      . rw [List.zipIdx_singleton, List.mem_singleton] at hx
        subst hx
        have hlast := hnew.getBlock_new hindexed
        rw [hlen] at hlast
        simpa using hlast

theorem Indexed.insertBlocks_eq (h : t.Indexed) {inputBlocks : List Block}
    (hinside : t.WritesInside (.insertBlocks inputBlocks))
    : t.insertBlocks inputBlocks = some (inputBlocks.foldl addBlock t) := by
  rcases List.eq_nil_or_concat inputBlocks with rfl | ⟨bs, b, rfl⟩
  . rfl
  . rw [List.concat_eq_append] at hinside ⊢
    obtain ⟨-, hlen, hschema, hget⟩ := h.addBlocks (bs ++ [b])
    have hlast := hget (b, bs.length) (by simp [List.zipIdx_append])
    rw [DBTable.insertBlocks, if_neg (by simp)]
    generalize (bs ++ [b]).foldl addBlock t = t₁ at hlen hschema hlast ⊢
    obtain ⟨ptr, hptr, hblock⟩ := Option.bind_eq_some_iff.mp hlast
    have hkey : ((t.blocks.entries.length + bs.length : Nat) : Int) = (t₁.blocks.entries.length : Int) - 1 := by
      rw [hlen, List.length_append, List.length_singleton]
      omega
    have hfull : ¬ t₁.fixedRecordWidth < b.getBytesLeft := by
      rw [fixedRecordWidth, hschema]
      exact Int.not_lt.mpr (writesInside_insertBlocks_iff.mp hinside b (by simp))
    dsimp only at hptr hblock
    rw [hkey] at hptr
    simp only [hptr, hblock, hfull, if_false, Option.bind_eq_bind, Option.bind_some, Option.pure_def]

theorem Kept.addBlocks (h : Kept schema t) {bs : List Block}
    (hbs : ∀ b ∈ bs, ∃ rows, b.Repr b.id schema b.capacity rows)
    (hids : ∀ x ∈ bs.zipIdx, x.1.id = t.blockCounter + x.2)
    : Kept schema (bs.foldl addBlock t) := by
  induction bs using List.reverseRecOn with
  | nil => exact h
  | append_singleton bs b ih =>
    have hkept := ih (fun b hb => hbs b (List.mem_append_left _ hb)) (by
      intro x hx
      apply hids
      rw [List.zipIdx_append]
      exact List.mem_append_left _ hx)
    obtain ⟨hindexed, hlen, -, -⟩ := h.indexed.addBlocks bs
    have hcounter := hindexed.numBlocks_eq
    have hcounter' := h.indexed.numBlocks_eq
    have hid : b.id = (bs.foldl addBlock t).blockCounter := by
      rw [hids (b, bs.length) (by simp [List.zipIdx_append])]
      omega
    obtain ⟨rows, hrepr⟩ := hbs b (by simp)
    rw [hid] at hrepr
    rw [List.foldl_append, List.foldl_cons, List.foldl_nil]
    exact (hkept.newBlock ((bs.foldl addBlock t).addBlock_newBlock b) hrepr).1

theorem Indexed.ids_of_directory (h : t.Indexed) {bs : List Block} (hdir : (bs.foldl addBlock t).Directory)
    : ∀ x ∈ bs.zipIdx, x.1.id = t.blockCounter + x.2 := by
  intro x hx
  obtain ⟨-, -, -, hget⟩ := h.addBlocks bs
  obtain ⟨ptr, hptr, hblock⟩ := Option.bind_eq_some_iff.mp (hget x hx)
  obtain ⟨b, hb, hid⟩ := hdir.ids _ ptr hptr
  have hcounter := h.numBlocks_eq
  rw [hblock, Option.some.injEq] at hb
  rw [hb, hid]
  omega

/-! Deletes. -/

theorem Kept.rowDeleted (h : Kept schema t) {info : BlockInfo} {b : Block} {s : Block.RebuildState}
    (hdelete : RowDeleted t info ptr b s t') : Kept schema t' := by
  obtain ⟨rows, hrepr⟩ := h.blocks _ ptr b hdelete.lookup_eq hdelete.block_eq
  have hlt := h.indexed.ptr_lt _ ptr hdelete.lookup_eq
  -- the block is rebuilt from the rows that are still valid
  have hcolumns : b.getColumns = (Column.ofRows schema.fields rows).map Column.array := by
    rw [Block.getColumns, hrepr.columns_eq]
  obtain ⟨s', hs', hrepr', -⟩ := (Block.new_repr info.blockId schema b.capacity false).insertRecordsFrom
    (b.setValid info.rowNum.toNat false).valid rows t.blockMap b.rowIdMap hrepr.rowIdMap_eq hrepr.hasType
  have hrebuild := hdelete.rebuild_eq
  rw [h.schema_eq, hcolumns, hs', Option.some.injEq] at hrebuild
  subst hrebuild
  have hleft : b.getBytesLeft ≤ s'.block.getBytesLeft := by
    have := Block.sum_validRows_le (b.setValid info.rowNum.toNat false).valid rows
    rw [hrepr.getBytesLeft_eq, hrepr'.getBytesLeft_eq]
    omega
  rw [← hrepr'.capacity_eq] at hrepr'
  have hnew : t'.block t.heap.length = some s'.block := by
    rw [DBTable.block, hdelete.heap_eq, List.getElem?_append_right (by simp)]
    simp
  have hold : ∀ k' ptr', k' ≠ info.blockId → t.blocks.lookup k' = some ptr' → t'.block ptr' = t.block ptr' := by
    intro k' ptr' hk' hptr'
    have hlt' := h.indexed.ptr_lt k' ptr' hptr'
    have hne : ptr ≠ ptr' := by
      rintro rfl
      exact hk' (h.indexed.inj k' _ ptr hptr' hdelete.lookup_eq)
    rw [DBTable.block, hdelete.heap_eq, List.getElem?_append_left (by simpa using hlt'), List.getElem?_set_ne hne]
    rfl
  have hblocks : ∀ k', t'.blocks.lookup k' = if k' = info.blockId then some t.heap.length else t.blocks.lookup k' := by
    intro k'
    rw [hdelete.blocks_eq]
    exact Map.lookup_insert_eq _ _ _ _
  have hpool : ∀ k' ptr', t'.insertPool.lookup k' = some ptr' →
      k' = info.blockId ∧ ptr' = t.heap.length ∧ t.insertPool.lookup k' = some ptr ∨
        k' ≠ info.blockId ∧ t.insertPool.lookup k' = some ptr' := by
    intro k' ptr' hpool
    rw [hdelete.insertPool_eq] at hpool
    split at hpool
    . next hsome =>
      obtain ⟨ptr₀, hptr₀⟩ := Option.isSome_iff_exists.mp hsome
      rw [Map.lookup_insert_eq] at hpool
      split at hpool
      . next hk' =>
        cases hpool
        cases hdelete.lookup_eq.symm.trans (h.pool _ ptr₀ hptr₀)
        exact .inl ⟨hk', rfl, hk' ▸ hptr₀⟩
      . next hk' => exact .inr ⟨hk', hpool⟩
    . next hnone =>
      refine .inr ⟨?_, hpool⟩
      rintro rfl
      exact hnone (by rw [hpool]; rfl)
  refine ⟨h.indexed.rowDeleted hdelete, hdelete.schema_eq.trans h.schema_eq, ?_, ?_, ?_⟩
  . intro k' ptr' b' hptr' hb'
    rw [hblocks] at hptr'
    split at hptr'
    . next hk' =>
      cases hptr'
      rw [hnew, Option.some.injEq] at hb'
      rw [hk', ← hb']
      exact ⟨_, hrepr'⟩
    . next hk' =>
      rw [hold k' ptr' hk' hptr'] at hb'
      exact h.blocks k' ptr' b' hptr' hb'
  . intro k' ptr' hk'
    rw [hblocks]
    obtain ⟨hkey, rfl, -⟩ | ⟨hkey, hold⟩ := hpool k' ptr' hk'
    . rw [if_pos hkey]
    . rw [if_neg hkey]
      exact h.pool k' ptr' hold
  . intro k' ptr' b' hk' hb'
    obtain ⟨-, rfl, hold'⟩ | ⟨hkey, hold'⟩ := hpool k' ptr' hk'
    . rw [hnew, Option.some.injEq] at hb'
      rw [← hb']
      exact (h.room k' ptr b hold' hdelete.block_eq).trans_le hleft
    . rw [hold k' ptr' hkey (h.pool k' ptr' hold')] at hb'
      exact h.room k' ptr' b' hold' hb'

/-! Calls. -/

theorem Kept.step (h : Kept schema t) {call : Call} (hcall : call.WellFormed simpleAtoi schema)
    (hnumbered : t.Numbered call) (hstep : t.step pick simpleAtoi call = some t')
    : Kept schema t' := by
  cases call with
  | createBlock =>
    cases hstep
    exact h.createBlock.1
  | insertBlocks inputBlocks =>
    rw [DBTable.step, h.indexed.insertBlocks_eq (writesInside_insertBlocks_iff.mpr hnumbered.2)] at hstep
    cases hstep
    exact h.addBlocks hcall hnumbered.1
  | insertRecords columnData =>
    obtain ⟨input, hbatch⟩ := hcall
    exact h.insertRecords hbatch hstep
  | insertChunks chunks => exact h.insertChunks hcall hstep
  | insertRecord record byteWidths =>
    obtain ⟨xs, hrec, rfl, rfl⟩ := hcall
    obtain ⟨⟨info, t₁, record₁⟩, hinsert, hstep⟩ := Option.bind_eq_some_iff.mp hstep
    cases hstep
    exact h.insertRecord hrec hinsert
  | insertCsvRecord values byteWidths => exact h.insertCsvRecord hcall.1 hcall.2 hstep
  | insertRecordTable rowId record byteWidths =>
    obtain ⟨xs, hrec, rfl, rfl⟩ := hcall
    obtain ⟨⟨t₁, record₁⟩, hinsert, hstep⟩ := Option.bind_eq_some_iff.mp hstep
    cases hstep
    obtain ⟨⟨info, t₂, record₂⟩, hinsert, hstep⟩ := Option.bind_eq_some_iff.mp hinsert
    cases hstep
    exact (h.insertRecord hrec hinsert).congr rfl rfl rfl rfl rfl
  | deleteRecordTable rowId =>
    rcases deleteRecordTable_cases hstep with ⟨-, rfl⟩ | ⟨info, ptr, b, s, -, hdeleted⟩
    . exact h
    . exact h.rowDeleted hdeleted

theorem Kept.numbered_iff (h : Kept schema t) {call : Call} (hcall : call.WellFormed simpleAtoi schema)
    : t.Numbered call ↔ t.WritesInside call ∧ ∀ t', t.step pick simpleAtoi call = some t' → t'.Directory := by
  have hkept : t.Numbered call → ∀ t', t.step pick simpleAtoi call = some t' → t'.Directory :=
    fun hnumbered t' hstep => (h.step hcall hnumbered hstep).directory
  cases call with
  | insertBlocks inputBlocks =>
    constructor
    . exact fun hnumbered => ⟨writesInside_insertBlocks_iff.mpr hnumbered.2, hkept hnumbered⟩
    . rintro ⟨hinside, hdir⟩
      exact ⟨h.indexed.ids_of_directory (hdir _ (h.indexed.insertBlocks_eq hinside)),
        writesInside_insertBlocks_iff.mp hinside⟩
  | _ => exact ⟨fun hnumbered => ⟨List.forall_mem_nil _, hkept hnumbered⟩, fun _ => trivial⟩

theorem ConstructedFrom.kept (h : t.ConstructedFrom schema) : Kept schema t := by
  rcases h with ⟨blockCapacity, metadataEnabled, rfl⟩ | ⟨contents, blockCapacity, metadataEnabled, hrows, h⟩
  . exact new_kept schema blockCapacity metadataEnabled
  . unfold ofBatches at h
    obtain ⟨first, hfirst, h⟩ := Option.bind_eq_some_iff.mp h
    obtain ⟨t₁, hfold, h⟩ := Option.bind_eq_some_iff.mp h
    obtain ⟨ptr, hptr, h⟩ := Option.bind_eq_some_iff.mp h
    obtain ⟨b, hb, h⟩ := Option.bind_eq_some_iff.mp h
    have hschema : first.schema = schema := by
      obtain ⟨rows, -, rfl⟩ := List.mem_map.mp (List.mem_of_mem_head? hfirst)
      rfl
    have hstart : Kept schema { new first.schema blockCapacity metadataEnabled with blockRowOffsets := [0] } := by
      rw [hschema]
      exact (new_kept schema blockCapacity metadataEnabled).congr rfl rfl rfl rfl rfl
    have hadd : ∀ (t : DBTable) batch t', Kept schema t → True ∧ batch ∈ contents.map (batchOf schema) → (do
        let block ← Block.ofBatch t.blockCounter batch blockSize metadataEnabled
        return t.addBlock block) = some t' → Kept schema t' := by
      rintro t batch t' h ⟨-, hbatch⟩ hadd
      obtain ⟨rows, hmem, rfl⟩ := List.mem_map.mp hbatch
      obtain ⟨b, hb, hrepr, -⟩ := Block.ofBatch_repr t.blockCounter schema blockSize metadataEnabled (hrows rows hmem)
      rw [hb] at hadd
      cases hadd
      rw [← hrepr.capacity_eq] at hrepr
      exact (h.newBlock (t.addBlock_newBlock b) hrepr).1
    have h₁ := ((Run.meets_true _ _ _).and_forall fun batch hbatch => hbatch).invariant hadd hstart hfold
    have hoffer := h₁.offerBlock hptr hb
    unfold DBTable.offerBlock at hoffer
    split at h
    . next hroom =>
      cases h
      rw [if_pos hroom] at hoffer
      exact hoffer.congr rfl rfl rfl rfl rfl
    . cases h
      exact h₁

/--
The blocks of a table are in order after every call exactly if all blocks that are inserted have the next numbers as
their ids and the last of them is full.
-/
theorem calls_directory_iff (pick : List Int → Nat) (simpleAtoi : List UInt8 → Option (BitVec 64)) {schema : Schema}
    {start : DBTable} (hstart : start.ConstructedFrom schema) {calls : List Call}
    (hcalls : ∀ call ∈ calls, call.WellFormed simpleAtoi schema)
    : Run.Throughout (DBTable.step pick simpleAtoi) Directory WritesInside start calls ↔
        Run.Meets (DBTable.step pick simpleAtoi) Numbered start calls := by
  apply @Run.throughout_iff_meets_of _ _ _ (Kept schema) Directory Numbered WritesInside
    (Call.WellFormed simpleAtoi schema)
  . exact fun t h => h.directory
  . exact fun t call t' h hcall hnumbered hstep => h.step hcall hnumbered hstep
  . exact fun t call h hcall => h.numbered_iff hcall
  . exact hstart.kept
  . exact hcalls

instance (t : DBTable) (call : Call) : Decidable (t.Numbered call) :=
  match call with
  | .insertBlocks _ => inferInstanceAs (Decidable (_ ∧ ∀ _ ∈ _, _))
  | .createBlock | .insertRecords _ | .insertChunks _ | .insertRecord _ _ | .insertCsvRecord _ _
  | .insertRecordTable _ _ _ | .deleteRecordTable _ => .isTrue trivial

def numberCalls : List Call :=
  [.insertRecordTable 5 (recordBytes [⟨1, [7]⟩]) (recordWidths [⟨1, [7]⟩]),
    .insertBlocks [Block.new 1 numberSchema 8 false], .insertRecords [⟨2, 0, .int64 [1, 2]⟩], .deleteRecordTable 5]

theorem numberCalls_wellFormed : ∀ call ∈ numberCalls, call.WellFormed decimalAtoi numberSchema := by
  intro call hcall
  simp only [numberCalls, List.mem_cons, List.not_mem_nil, or_false] at hcall
  rcases hcall with rfl | rfl | rfl | rfl
  . exact ⟨[⟨1, [7]⟩], .cons (by decide) .nil, rfl, rfl⟩
  . intro b hb
    rw [List.mem_singleton.mp hb]
    exact ⟨[], Block.new_repr 1 numberSchema 8 false⟩
  . exact ⟨[[.int64 1], [.int64 2]], ⟨⟨by decide, by decide, rfl⟩, trivial⟩, by decide, by decide⟩
  . trivial

theorem calls_directory_iff_numberCalls
    : Run.Throughout (DBTable.step (fun _ => 0) decimalAtoi) Directory WritesInside (new numberSchema 40 false)
        numberCalls :=
  (calls_directory_iff (fun _ => 0) decimalAtoi (.inl ⟨40, false, rfl⟩) numberCalls_wellFormed).mpr (by decide +kernel)

/--
The first block that is inserted into a new table has the number 7. It is full.
-/
theorem not_calls_directory
    : (new numberSchema 8 false).ConstructedFrom numberSchema ∧
        (Call.insertBlocks [Block.new 7 numberSchema 8 false]).WellFormed decimalAtoi numberSchema ∧
        ¬Run.Throughout (DBTable.step (fun _ => 0) decimalAtoi) Directory WritesInside (new numberSchema 8 false)
          [.insertBlocks [Block.new 7 numberSchema 8 false]] := by
  refine ⟨.inl ⟨8, false, rfl⟩, ?_, ?_⟩
  . intro b hb
    rw [List.mem_singleton.mp hb]
    exact ⟨[], Block.new_repr 7 numberSchema 8 false⟩
  . rintro ⟨-, hinside, hreached⟩
    have hindexed := new_indexed numberSchema 8 false
    have hdir := hreached _ (hindexed.insertBlocks_eq hinside)
    have hid := hindexed.ids_of_directory hdir (Block.new 7 numberSchema 8 false, 0) (by simp)
    exact absurd hid (by decide)

end DBTable

end Hustle.Storage
