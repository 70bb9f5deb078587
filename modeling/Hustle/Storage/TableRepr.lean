import Hustle.Storage.BlockRepr
import Hustle.Storage.Table

/-!
This module contains the representation invariant of a table and what its functions do in terms of the
rows in its blocks.
-/

namespace Hustle.Storage

namespace DBTable

/--
Block `i` of the table holds exactly the rows `contents[i]`. The blocks of the table are distinct
objects, and a block in the insert pool is the object that `blocks` has under the same id.
-/
structure Repr (t : DBTable) (contents : List (List Row)) : Prop where
  counter_eq : t.blockCounter = contents.length
  block : ∀ (i : Nat) rows, contents[i]? = some rows → ∃ ptr b,
    t.blocks.lookup (i : Int) = some ptr ∧
    t.heap[ptr]? = some b ∧
    b.Repr i t.schema t.blockCapacity rows
  keys : ∀ k ptr, t.blocks.lookup k = some ptr → ∃ i : Nat, k = i ∧ i < contents.length
  inj : ∀ k k' ptr, t.blocks.lookup k = some ptr → t.blocks.lookup k' = some ptr → k = k'
  pool : ∀ k ptr, t.insertPool.lookup k = some ptr → t.blocks.lookup k = some ptr

/--
The fields of a table that choosing a block for an insert does not touch.
-/
structure SameRows (t t' : DBTable) : Prop where
  schema_eq : t'.schema = t.schema
  blockCapacity_eq : t'.blockCapacity = t.blockCapacity
  blockMap_eq : t'.blockMap = t.blockMap
  numRows_eq : t'.numRows = t.numRows

theorem SameRows.refl (t : DBTable) : SameRows t t := ⟨rfl, rfl, rfl, rfl⟩

theorem SameRows.trans {t t' t'' : DBTable} (h : SameRows t t') (h' : SameRows t' t'')
    : SameRows t t'' :=
  ⟨
    h'.schema_eq.trans h.schema_eq,
    h'.blockCapacity_eq.trans h.blockCapacity_eq,
    h'.blockMap_eq.trans h.blockMap_eq,
    h'.numRows_eq.trans h.numRows_eq
  ⟩

theorem length_flatten_set {α : Type} {l : List (List α)} {i : Nat} {old : List α} (h : l[i]? = some old)
    (new : List α)
    : (l.set i new).flatten.length + old.length = l.flatten.length + new.length := by
  induction l generalizing i with
  | nil => cases h
  | cons x l ih =>
    cases i with
    | zero =>
      obtain rfl := Option.some.inj h
      simp only [List.set_cons_zero, List.flatten_cons, List.length_append]
      omega
    | succ i =>
      have := ih h
      simp only [List.set_cons_succ, List.flatten_cons, List.length_append]
      omega

variable {t : DBTable} {contents : List (List Row)}

theorem new_repr (schema : Schema) (blockCapacity : Int) (metadataEnabled : Bool)
    : (new schema blockCapacity metadataEnabled).Repr [] where
  counter_eq := rfl
  block := by simp
  keys := by simp [new]
  inj := by simp [new]
  pool := by simp [new]

theorem Repr.getBlock_eq (h : t.Repr contents) {i : Nat} {rows : List Row}
    (hi : contents[i]? = some rows)
    : ∃ b, t.getBlock i = some b ∧ b.Repr i t.schema t.blockCapacity rows := by
  obtain ⟨ptr, b, hptr, hb, hrepr⟩ := h.block i rows hi
  refine ⟨b, ?_, hrepr⟩
  simp [getBlock, hptr, DBTable.block, hb]

theorem Repr.getBlock_none (h : t.Repr contents) {k : Int}
    (hk : ∀ i : Nat, k = i → contents.length ≤ i)
    : t.getBlock k = none := by
  have : t.blocks.lookup k = none := by
    cases hlookup : t.blocks.lookup k with
    | none => rfl
    | some ptr =>
      obtain ⟨i, hi, hlt⟩ := h.keys k ptr hlookup
      have := hk i hi
      omega
  simp [getBlock, this]

theorem Repr.of_getBlock (h : t.Repr contents) {k : Int} {b : Block} (hb : t.getBlock k = some b)
    : ∃ (i : Nat) (rows : List Row), k = i ∧ contents[i]? = some rows ∧ b.Repr i t.schema t.blockCapacity rows := by
  cases hlookup : t.blocks.lookup k with
  | none => simp [getBlock, hlookup] at hb
  | some ptr =>
    obtain ⟨i, rfl, hi⟩ := h.keys k ptr hlookup
    obtain ⟨b', hb', hrepr⟩ := h.getBlock_eq (List.getElem?_eq_getElem hi)
    rw [hb, Option.some.injEq] at hb'
    subst hb'
    exact ⟨i, _, rfl, List.getElem?_eq_getElem hi, hrepr⟩

/--
Reading a row through `block_map` reads the contents of the table.
-/
theorem Repr.row_eq (h : t.Repr contents) (info : BlockInfo)
    : t.row info
        =
      if 0 ≤ info.blockId ∧ 0 ≤ info.rowNum then
        contents[info.blockId.toNat]?.bind (·[info.rowNum.toNat]?)
      else
        none := by
  unfold row
  by_cases hid : 0 ≤ info.blockId
  . obtain ⟨i, hi⟩ := Int.eq_ofNat_of_zero_le hid
    cases hrows : contents[i]? with
    | none =>
      rw [h.getBlock_none (by
        intro j hj
        have : contents.length ≤ i := by simpa using hrows
        omega)]
      simp [hi, hrows]
    | some rows =>
      obtain ⟨b, hb, hrepr⟩ := h.getBlock_eq hrows
      rw [hi, hb]
      simp only [Option.bind_eq_bind, Option.bind_some, hrepr.row_eq]
      by_cases hrow : info.rowNum < 0
      . rw [if_pos hrow, if_neg (by omega)]
      . rw [if_neg hrow, if_pos (by omega)]
        simp [hrows]
  . rw [h.getBlock_none (by intro i hi; omega)]
    rw [if_neg (by omega)]
    rfl

theorem Repr.row_nat (h : t.Repr contents) (i r : Nat)
    : t.row ⟨i, r⟩ = contents[i]?.bind (·[r]?) := by
  rw [h.row_eq, if_pos (by simp)]
  simp

theorem Repr.row_set {i : Nat} {rows : List Row} {row : Row} (hrows : contents[i]? = some rows)
    (h : t.Repr (contents.set i (rows ++ [row])))
    : t.row ⟨i, rows.length⟩ = some row := by
  have hi := (List.getElem?_eq_some_iff.mp hrows).1
  rw [h.row_nat, List.getElem?_set_self hi, Option.bind_some, List.getElem?_concat_length]

theorem Repr.exists_of_row (h : t.Repr contents) {info : BlockInfo} {row : Row}
    (hrow : t.row info = some row)
    : ∃ (i r : Nat) (rows : List Row), info = ⟨i, r⟩ ∧ contents[i]? = some rows ∧
        rows[r]? = some row := by
  rw [h.row_eq] at hrow
  split at hrow
  . next hnn =>
    obtain ⟨i, hi⟩ := Int.eq_ofNat_of_zero_le hnn.1
    obtain ⟨r, hr⟩ := Int.eq_ofNat_of_zero_le hnn.2
    rw [Option.bind_eq_some_iff] at hrow
    obtain ⟨rows, hrows, hrow⟩ := hrow
    rw [hi, Int.toNat_natCast] at hrows
    rw [hr, Int.toNat_natCast] at hrow
    refine ⟨i, r, rows, ?_, hrows, hrow⟩
    cases info
    simp_all
  . simp at hrow

theorem Repr.ptr_lt (h : t.Repr contents) {k : Int} {ptr : BlockPtr}
    (hptr : t.blocks.lookup k = some ptr)
    : ptr < t.heap.length := by
  obtain ⟨i, hi, hlt⟩ := h.keys k ptr hptr
  obtain ⟨ptr', b, hptr', hb, -⟩ := h.block i contents[i] (List.getElem?_eq_getElem hlt)
  rw [← hi, hptr] at hptr'
  injection hptr' with heq
  rw [heq]
  exact (List.getElem?_eq_some_iff.mp hb).1

/--
The second table has a new block `b` behind the blocks of the first one.
-/
structure NewBlock (t : DBTable) (b : Block) (t' : DBTable) : Prop where
  schema_eq : t'.schema = t.schema
  blockCapacity_eq : t'.blockCapacity = t.blockCapacity
  heap_eq : t'.heap = t.heap ++ [b]
  blocks_eq : t'.blocks = t.blocks.emplace t.blockCounter t.heap.length
  blockCounter_eq : t'.blockCounter = t.blockCounter + 1
  insertPool_eq : t'.insertPool = t.insertPool

theorem NewBlock.lookup {b : Block} {t' : DBTable} (hnew : NewBlock t b t') (h : t.Repr contents) (k : Int)
    : t'.blocks.lookup k = if k = contents.length then some t.heap.length else t.blocks.lookup k := by
  have hfresh : t.blocks.lookup t.blockCounter = none := by
    cases hlookup : t.blocks.lookup t.blockCounter with
    | none => rfl
    | some ptr =>
      obtain ⟨i, hi, hlt⟩ := h.keys _ ptr hlookup
      have := h.counter_eq
      omega
  rw [hnew.blocks_eq, Map.lookup_emplace _ _ _ _ hfresh, h.counter_eq]

theorem Repr.newBlock {b : Block} {t' : DBTable} {rows : List Row} (h : t.Repr contents) (hnew : NewBlock t b t')
    (hb : b.Repr contents.length t.schema t.blockCapacity rows)
    : t'.Repr (contents ++ [rows]) := by
  have hlookup := hnew.lookup h
  constructor
  . simp [hnew.blockCounter_eq, h.counter_eq]
  . intro i rows' hi
    rw [hlookup, hnew.heap_eq, hnew.schema_eq, hnew.blockCapacity_eq]
    by_cases hlt : i < contents.length
    . rw [List.getElem?_append_left hlt] at hi
      obtain ⟨ptr, b', hptr, hb', hrepr⟩ := h.block i rows' hi
      refine ⟨ptr, b', ?_, ?_, hrepr⟩
      . rw [if_neg (by omega), hptr]
      . rw [List.getElem?_append_left (h.ptr_lt hptr), hb']
    . have hlast : i = contents.length := by
        have := (List.getElem?_eq_some_iff.mp hi).1
        simp at this
        omega
      subst hlast
      have hrows : rows' = rows := by simpa using hi.symm
      refine ⟨t.heap.length, b, ?_, List.getElem?_concat_length, ?_⟩
      . rw [if_pos rfl]
      . rw [hrows]
        exact hb
  . intro k ptr hptr
    rw [hlookup] at hptr
    split at hptr
    . next hk => exact ⟨contents.length, hk, by simp⟩
    . obtain ⟨i, hi, hlt⟩ := h.keys k ptr hptr
      exact ⟨i, hi, by simp; omega⟩
  . intro k k' ptr hk hk'
    rw [hlookup] at hk hk'
    split at hk
    . split at hk'
      . omega
      . have := h.ptr_lt hk'
        injection hk with hk
        rw [hk] at this
        exact absurd this (Nat.lt_irrefl _)
    . split at hk'
      . have := h.ptr_lt hk
        injection hk' with hk'
        rw [hk'] at this
        exact absurd this (Nat.lt_irrefl _)
      . exact h.inj k k' ptr hk hk'
  . intro k ptr hptr
    rw [hnew.insertPool_eq] at hptr
    rw [hlookup]
    have hold := h.pool k ptr hptr
    obtain ⟨i, hi, hlt⟩ := h.keys k ptr hold
    rw [if_neg (by omega), hold]

theorem createBlock_newBlock (t : DBTable)
    : NewBlock t (Block.new t.blockCounter t.schema t.blockCapacity t.metadataEnabled) t.createBlock.2 :=
  ⟨rfl, rfl, rfl, rfl, rfl, rfl⟩

theorem Repr.createBlock (h : t.Repr contents)
    : t.createBlock.2.Repr (contents ++ [[]]) ∧
      t.createBlock.2.blocks.lookup (contents.length : Int) = some t.createBlock.1 ∧
      SameRows t t.createBlock.2 := by
  refine ⟨h.newBlock t.createBlock_newBlock ?_, ?_, ⟨rfl, rfl, rfl, rfl⟩⟩
  . rw [← h.counter_eq]
    apply Block.new_repr
  . rw [t.createBlock_newBlock.lookup h, if_pos rfl]
    rfl

/--
The blocks of two tables are the same, and the insert pool of the second one refers to them.
-/
structure SameBlocks (t t' : DBTable) : Prop where
  schema_eq : t'.schema = t.schema
  blockCapacity_eq : t'.blockCapacity = t.blockCapacity
  heap_eq : t'.heap = t.heap
  blocks_eq : t'.blocks = t.blocks
  blockCounter_eq : t'.blockCounter = t.blockCounter
  pool : ∀ k ptr, t'.insertPool.lookup k = some ptr → t.blocks.lookup k = some ptr

theorem Repr.of_sameBlocks {t' : DBTable} (h : t.Repr contents) (hsame : SameBlocks t t')
    : t'.Repr contents where
  counter_eq := by rw [hsame.blockCounter_eq, h.counter_eq]
  block := by
    rw [hsame.blocks_eq, hsame.heap_eq, hsame.schema_eq, hsame.blockCapacity_eq]
    exact h.block
  keys := by
    rw [hsame.blocks_eq]
    exact h.keys
  inj := by
    rw [hsame.blocks_eq]
    exact h.inj
  pool := by
    rw [hsame.blocks_eq]
    exact hsame.pool

theorem getBlockForInsert_cases (t : DBTable) (pick : List Int → Nat)
    : t.insertPool.entries = [] ∧ t.getBlockForInsert pick = t.createBlock ∨
        ∃ key ptr, t.insertPool.lookup key = some ptr ∧
          t.getBlockForInsert pick = (ptr, { t with insertPool := t.insertPool.erase key }) := by
  unfold DBTable.getBlockForInsert
  dsimp only
  split
  . next hnone =>
    refine .inl ⟨?_, rfl⟩
    by_contra hne
    have hlen : t.insertPool.keys.length = t.insertPool.entries.length := by
      rw [AList.keys, List.keys, List.length_map]
    have := List.length_pos_iff.mpr hne
    rw [hlen, List.getElem?_eq_none_iff] at hnone
    have := Nat.mod_lt (pick t.insertPool.keys) this
    omega
  . next key ptr heq =>
    refine .inr ⟨key, ptr, ?_, rfl⟩
    have := AList.mem_lookup_iff.mpr (List.mem_of_getElem? heq)
    simpa using this

theorem Repr.getBlockForInsert (h : t.Repr contents) (pick : List Int → Nat)
    : ∃ (k i : Nat),
        i < contents.length + k ∧
        (t.getBlockForInsert pick).2.Repr (contents ++ List.replicate k []) ∧
        (t.getBlockForInsert pick).2.blocks.lookup (i : Int) = some (t.getBlockForInsert pick).1 ∧
        SameRows t (t.getBlockForInsert pick).2 := by
  obtain ⟨-, heq⟩ | ⟨key, ptr, hlookup, heq⟩ := t.getBlockForInsert_cases pick
  . rw [heq]
    obtain ⟨hrepr, hptr, hsame⟩ := h.createBlock
    exact ⟨1, contents.length, by omega, hrepr, hptr, hsame⟩
  . rw [heq]
    have hptr := h.pool key ptr hlookup
    obtain ⟨i, hi, hlt⟩ := h.keys key ptr hptr
    refine ⟨0, i, by omega, ?_, ?_, ⟨rfl, rfl, rfl, rfl⟩⟩
    . rw [List.replicate_zero, List.append_nil]
      refine h.of_sameBlocks ⟨rfl, rfl, rfl, rfl, rfl, ?_⟩
      intro k ptr' hlookup'
      dsimp only at hlookup'
      rw [Map.lookup_erase_eq] at hlookup'
      split at hlookup'
      . simp at hlookup'
      . exact h.pool k ptr' hlookup'
    . rw [← hi]
      exact hptr

/--
Writing to the object of block `i` changes the contents of that block only.
-/
theorem Repr.setBlock (h : t.Repr contents) {i : Nat} {ptr : BlockPtr} {b : Block} {rows : List Row}
    (hptr : t.blocks.lookup (i : Int) = some ptr) (hb : b.Repr i t.schema t.blockCapacity rows)
    : (t.setBlock ptr b).Repr (contents.set i rows) where
  counter_eq := by simp [DBTable.setBlock, h.counter_eq]
  block := by
    intro j rows' hj
    rw [List.getElem?_set] at hj
    by_cases hij : i = j
    . subst hij
      have hlt := h.ptr_lt hptr
      simp only [↓reduceIte] at hj
      split at hj
      . refine ⟨ptr, b, hptr, ?_, ?_⟩
        . simp [DBTable.setBlock, hlt]
        . simp only [Option.some.injEq] at hj
          rw [← hj]
          exact hb
      . simp at hj
    . rw [if_neg hij] at hj
      obtain ⟨ptr', b', hptr', hb', hrepr'⟩ := h.block j rows' hj
      refine ⟨ptr', b', hptr', ?_, hrepr'⟩
      have hne : ptr ≠ ptr' := by
        intro heq
        subst heq
        have := h.inj _ _ _ hptr hptr'
        omega
      simp [DBTable.setBlock, hne, hb']
  keys := by
    intro k ptr' hk
    simpa using h.keys k ptr' hk
  inj := h.inj
  pool := h.pool

theorem getRecordSize_eq (hrec : IsRecord t.schema.fields xs)
    : t.getRecordSize (recordWidths xs) = storedRowSize t.schema.fields xs := by
  unfold getRecordSize
  generalize t.schema.fields = fields at hrec ⊢
  induction hrec with
  | nil => rfl
  | @cons type x fields xs _ _ ih =>
    simp only [recordWidths_cons, List.zipWith_cons_cons, List.sum_cons, ih, storedRowSize]
    cases type <;> rfl

/--
A record goes to a block that has room for it or to an empty one.
-/
theorem Repr.blockForRecord (h : t.Repr contents) (pick : List Int → Nat) (byteWidths : List Int)
    : ∃ ptr t' b rows, ∃ (k i : Nat),
        t.blockForRecord pick byteWidths = some (ptr, t') ∧
        t'.Repr (contents ++ List.replicate k []) ∧
        SameRows t t' ∧
        t'.blocks.lookup (i : Int) = some ptr ∧
        t'.block ptr = some b ∧
        (contents ++ List.replicate k [])[i]? = some rows ∧
        b.Repr i t.schema t.blockCapacity rows ∧
        (t.getRecordSize byteWidths ≤ b.getBytesLeft ∨ b.getBytesLeft = t.blockCapacity) := by
  obtain ⟨k, i, hi, hrepr, hptr, hsame⟩ := h.getBlockForInsert pick
  generalize hget : t.getBlockForInsert pick = res at hrepr hptr hsame
  obtain ⟨ptr, t₁⟩ := res
  dsimp only at hrepr hptr hsame
  have hlt : i < (contents ++ List.replicate k []).length := by simpa using hi
  obtain ⟨ptr', b, hptr', hb, hbrepr⟩ := hrepr.block i _ (List.getElem?_eq_getElem hlt)
  rw [hptr] at hptr'
  injection hptr' with hptr'
  subst hptr'
  rw [hsame.schema_eq, hsame.blockCapacity_eq] at hbrepr
  have hsize : t₁.getRecordSize byteWidths = t.getRecordSize byteWidths := by
    unfold getRecordSize
    rw [hsame.schema_eq]
  unfold DBTable.blockForRecord
  simp only [hget, DBTable.block, hb, Option.bind_eq_bind, Option.bind_some, hsize]
  by_cases hfull : b.getBytesLeft < t.getRecordSize byteWidths
  . obtain ⟨hrepr', hptr', hsame'⟩ := hrepr.createBlock
    have hlast : (contents ++ List.replicate (k + 1) [])[(contents ++ List.replicate k []).length]?
        = some [] := by
      rw [List.replicate_succ', ← List.append_assoc, List.getElem?_concat_length]
    rw [if_pos hfull]
    rw [List.append_assoc, ← List.replicate_succ'] at hrepr'
    obtain ⟨ptr₂, b₂, hptr₂, hb₂, hbrepr₂⟩ := hrepr'.block _ _ hlast
    rw [hptr'] at hptr₂
    injection hptr₂ with hptr₂
    subst hptr₂
    rw [hsame'.schema_eq, hsame'.blockCapacity_eq, hsame.schema_eq, hsame.blockCapacity_eq] at hbrepr₂
    refine ⟨_, _, b₂, [], k + 1, _, rfl, hrepr', hsame.trans hsame', hptr', hb₂, hlast, hbrepr₂, ?_⟩
    right
    rw [hbrepr₂.getBytesLeft_eq]
    simp
  . rw [if_neg hfull]
    refine ⟨_, _, b, _, k, i, rfl, hrepr, hsame, hptr, hb, List.getElem?_eq_getElem hlt, hbrepr, ?_⟩
    left
    omega

theorem Repr.insertRecord (h : t.Repr contents) (pick : List Int → Nat)
    (hrec : IsRecord t.schema.fields xs) (hfit : (recordWidths xs).sum ≤ t.blockCapacity)
    : ∃ t' rows, ∃ (k i : Nat),
        t.insertRecord pick (recordBytes xs) (recordWidths xs)
          = some (⟨i, rows.length⟩, t', recordBytes (insertedRecord t.schema.fields xs)) ∧
        (contents ++ List.replicate k [])[i]? = some rows ∧
        t'.Repr ((contents ++ List.replicate k []).set i
          (rows ++ [storedRow t.schema.fields xs])) ∧
        t'.schema = t.schema ∧
        t'.blockCapacity = t.blockCapacity ∧
        t'.blockMap = t.blockMap ∧
        t'.numRows = t.numRows + 1 := by
  obtain ⟨ptr, t₁, b, rows, k, i, hblock, hrepr, hsame, hptr, hb, hrows, hbrepr, hroom⟩ :=
    h.blockForRecord pick (recordWidths xs)
  have hfit' : (recordWidths xs).sum ≤ b.getBytesLeft := by
    have := recordWidths_sum_le_storedRowSize hrec
    rw [getRecordSize_eq hrec] at hroom
    omega
  obtain ⟨b', hinsert, hbrepr'⟩ := hbrepr.insertRecord hrec hfit'
  have hset := hrepr.setBlock hptr (by
    rw [hsame.schema_eq, hsame.blockCapacity_eq]
    exact hbrepr')
  unfold DBTable.insertRecord
  simp only [hblock, hb, hinsert, Option.bind_eq_bind, Option.bind_some, hbrepr'.id_eq]
  refine ⟨_, rows, k, i, rfl, hrows, ?_, ?_, ?_, ?_, ?_⟩
  . split
    . refine hset.of_sameBlocks ⟨rfl, rfl, rfl, rfl, rfl, ?_⟩
      intro k' ptr' hlookup
      dsimp only at hlookup
      rw [Map.lookup_insert_eq] at hlookup
      split at hlookup
      . next hk =>
        injection hlookup with hlookup
        rw [hk, ← hlookup]
        exact hptr
      . exact hset.pool k' ptr' hlookup
    . exact hset.of_sameBlocks ⟨rfl, rfl, rfl, rfl, rfl, hset.pool⟩
  . split <;> exact hsame.schema_eq
  . split <;> exact hsame.blockCapacity_eq
  . split <;> exact hsame.blockMap_eq
  . split <;> simp [hsame.numRows_eq]

/--
Deleting erases a row of a block. All rows that stay are renumbered as if they had row id 0.
-/
theorem Repr.deleteRecordTable (h : t.Repr contents) {rowId : UInt32} {i r : Nat} {rows : List Row}
    (hmap : t.blockMap.lookup (rowKey rowId) = some ⟨i, r⟩) (hrows : contents[i]? = some rows)
    : ∃ t',
        t.deleteRecordTable rowId = some t' ∧
        t'.Repr (contents.set i (rows.eraseIdx r)) ∧
        t'.schema = t.schema ∧
        t'.blockCapacity = t.blockCapacity ∧
        t'.blockMap = Block.renumber t.blockMap ((List.range rows.length).filter (· ≠ r)) ∧
        t'.numRows = t.numRows - 1 := by
  obtain ⟨ptr, b, hptr, hb, hbrepr⟩ := h.block i rows hrows
  have hi : i < contents.length := (List.getElem?_eq_some_iff.mp hrows).1
  obtain ⟨s, heq, hsrepr, hsmap⟩ :=
    (Block.new_repr i t.schema t.blockCapacity false).insertRecordsFrom (b.setValid r false).valid rows
      t.blockMap b.rowIdMap hbrepr.rowIdMap_eq hbrepr.hasType
  rw [Block.validRows_filterMap _ _ _ (hbrepr.getValid_setValid r)] at hsrepr
  rw [hbrepr.validRows_setValid] at hsmap
  unfold DBTable.deleteRecordTable
  rw [hmap]
  have hcols : (b.setValid r false).getColumns
      = (Column.ofRows t.schema.fields rows).map Column.array := by
    rw [← hbrepr.columns_eq]
    rfl
  have hcap : (b.setValid r false).capacity = t.blockCapacity := hbrepr.capacity_eq
  have hrowIds : (b.setValid r false).rowIdMap = b.rowIdMap := rfl
  have hneg : ¬((r : Int) < 0) := by omega
  simp only [DBTable.block, hptr, hb, Option.bind_eq_bind, Option.bind_some, hneg, ↓reduceIte,
    Int.toNat_natCast, hcols, hcap, hrowIds, heq]
  refine ⟨_, rfl, ?_, rfl, rfl, hsmap, rfl⟩
  have hlookup : ∀ k, (AList.insert (i : Int) t.heap.length t.blocks).lookup k
      = if k = i then some t.heap.length else t.blocks.lookup k := by
    intro k
    rw [Map.lookup_insert_eq]
  constructor
  . simp [h.counter_eq]
  . intro j rows' hj
    dsimp only
    rw [List.getElem?_set] at hj
    by_cases hij : i = j
    . subst hij
      rw [if_pos rfl, if_pos hi] at hj
      injection hj with hj
      refine ⟨t.heap.length, s.block, ?_, ?_, ?_⟩
      . rw [hlookup, if_pos rfl]
      . simp
      . rw [← hj]
        exact hsrepr
    . rw [if_neg hij] at hj
      obtain ⟨ptr', b', hptr', hb', hrepr'⟩ := h.block j rows' hj
      have hne : ptr ≠ ptr' := by
        intro heq
        subst heq
        have := h.inj _ _ _ hptr hptr'
        omega
      refine ⟨ptr', b', ?_, ?_, hrepr'⟩
      . rw [hlookup, if_neg (by omega), hptr']
      . rw [List.getElem?_append_left (by simpa using h.ptr_lt hptr')]
        rw [List.getElem?_set_ne hne, hb']
  . intro k ptr' hk
    dsimp only at hk
    rw [hlookup] at hk
    split at hk
    . next hki => exact ⟨i, hki, by simpa using hi⟩
    . simpa using h.keys k ptr' hk
  . intro k k' ptr' hk hk'
    dsimp only at hk hk'
    rw [hlookup] at hk hk'
    split at hk
    . split at hk'
      . omega
      . have := h.ptr_lt hk'
        injection hk with hk
        rw [hk] at this
        exact absurd this (Nat.lt_irrefl _)
    . split at hk'
      . have := h.ptr_lt hk
        injection hk' with hk'
        rw [hk'] at this
        exact absurd this (Nat.lt_irrefl _)
      . exact h.inj k k' ptr' hk hk'
  . intro k ptr' hk
    dsimp only at hk ⊢
    rw [hlookup]
    split at hk
    . rw [Map.lookup_insert_eq] at hk
      split at hk
      . next hki => rw [if_pos hki, hk]
      . next hki => rw [if_neg hki, h.pool k ptr' hk]
    . next hnone =>
      have hki : k ≠ i := by
        intro hki
        rw [hki, hnone] at hk
        simp at hk
      rw [if_neg hki, h.pool k ptr' hk]

/--
Inserting gives the new row a place that no row had before and leaves all others where they are.
-/
theorem Repr.insertRecordTable (h : t.Repr contents)
    (pick : List Int → Nat) (rowId : UInt32) (hrec : IsRecord t.schema.fields xs)
    (hfit : (recordWidths xs).sum ≤ t.blockCapacity)
    : ∃ t' contents', ∃ (i r : Nat),
        t.insertRecordTable pick rowId (recordBytes xs) (recordWidths xs)
          = some (t', recordBytes (insertedRecord t.schema.fields xs)) ∧
        t'.Repr contents' ∧
        t'.schema = t.schema ∧
        t'.blockCapacity = t.blockCapacity ∧
        t'.blockMap = t.blockMap.insert (rowKey rowId) ⟨i, r⟩ ∧
        t'.numRows = t.numRows + 1 ∧
        t.row ⟨i, r⟩ = none ∧
        ∀ info, t'.row info = if info = ⟨i, r⟩ then some (storedRow t.schema.fields xs) else t.row info := by
  obtain ⟨t', rows, k, i, heq, hrows, hrepr, hschema, hcap, hmap, hnum⟩ :=
    h.insertRecord pick hrec hfit
  have hold : ∀ (j r : Nat), ((contents ++ List.replicate k [])[j]?).bind (·[r]?)
      = contents[j]?.bind (·[r]?) := by
    intro j r
    by_cases hj : j < contents.length
    . rw [List.getElem?_append_left hj]
    . rw [List.getElem?_append_right (by omega), List.getElem?_eq_none (l := contents) (by omega)]
      rw [List.getElem?_replicate]
      split <;> simp
  have hi : i < (contents ++ List.replicate k []).length := (List.getElem?_eq_some_iff.mp hrows).1
  unfold DBTable.insertRecordTable
  simp only [heq, Option.bind_eq_bind, Option.bind_some]
  refine ⟨_, _, i, rows.length, rfl,
    hrepr.of_sameBlocks ⟨rfl, rfl, rfl, rfl, rfl, hrepr.pool⟩, hschema, hcap, ?_, hnum, ?_, ?_⟩
  . simp [hmap]
  . rw [h.row_nat, ← hold, hrows]
    simp
  . intro info
    have hrow' : DBTable.row { t' with blockMap := t'.blockMap.insert (rowKey rowId) ⟨i, rows.length⟩ } info
        = t'.row info := rfl
    rw [hrow', hrepr.row_eq, h.row_eq]
    by_cases hnn : 0 ≤ info.blockId ∧ 0 ≤ info.rowNum
    . obtain ⟨j, hj⟩ := Int.eq_ofNat_of_zero_le hnn.1
      obtain ⟨r, hr⟩ := Int.eq_ofNat_of_zero_le hnn.2
      have hinfo : info = ⟨j, r⟩ := by
        cases info
        simp_all
      subst hinfo
      simp only [if_pos hnn, Int.toNat_natCast, ← hold j r, List.getElem?_set]
      by_cases hij : i = j
      . subst hij
        rw [if_pos rfl, if_pos hi, hrows]
        simp only [Option.bind_some, BlockInfo.mk.injEq, true_and, Int.natCast_inj]
        by_cases hlast : r = rows.length
        . subst hlast
          simp
        . rw [if_neg hlast]
          by_cases hlt : r < rows.length
          . rw [List.getElem?_append_left hlt]
          . rw [List.getElem?_eq_none (l := rows) (by omega), List.getElem?_eq_none]
            simp
            omega
      . have : ¬(j : Int) = i := by omega
        simp [hij, this]
    . have : info ≠ ⟨i, rows.length⟩ := by
        intro hinfo
        apply hnn
        rw [hinfo]
        simp
      rw [if_neg hnn, if_neg hnn, if_neg this]

/--
A record that cannot be stored gets the row number `-1`, if the program survives.
-/
theorem Repr.insertRecordTable_rejected (h : t.Repr contents) {pick : List Int → Nat} {rowId : UInt32}
    (hlen : t.schema.fields.length = xs.length) (hxs : ∀ x ∈ xs, x.bytes.length = x.byteWidth.toNat)
    (hbad : ¬(IsRecord t.schema.fields xs ∧ (recordWidths xs).sum ≤ t.blockCapacity))
    {t' : DBTable} {record : List UInt8}
    (heq : t.insertRecordTable pick rowId (recordBytes xs) (recordWidths xs) = some (t', record))
    : ∃ i, t'.blockMap.lookup (rowKey rowId) = some ⟨i, -1⟩ := by
  obtain ⟨ptr, t₁, b, rows, k, i, hblock, -, hsame, -, hb, -, hbrepr, -⟩ :=
    h.blockForRecord pick (recordWidths xs)
  unfold DBTable.insertRecordTable DBTable.insertRecord at heq
  simp only [hblock, hb, Option.bind_eq_bind, Option.bind_some] at heq
  cases hbrepr.insertRecord_rejected hlen hxs hbad with
  | inl hnone => simp [hnone] at heq
  | inr hfull =>
    simp only [hfull, Option.bind_some, Option.pure_def, Option.some.injEq, Prod.mk.injEq] at heq
    rw [← heq.1]
    exact ⟨b.id, by simp⟩

/--
Rebuilding a block of which the last row is gone keeps the entries of all row ids but 0, and the one
of row id 0 if it is the row before the last one.
-/
theorem renumber_range_lookup {blockMap : Map Int BlockInfo} {r : Nat} {k : Int}
    (h : r = 0 ∨ k ≠ 0 ∨ (blockMap.lookup 0).map BlockInfo.rowNum = some ((r : Int) - 1))
    : (Block.renumber blockMap (List.range r)).lookup k = blockMap.lookup k := by
  rw [Block.renumber_lookup]
  split
  . next hk =>
    cases r with
    | zero => rfl
    | succ r =>
      have hzero : (blockMap.lookup 0).map BlockInfo.rowNum = some ((r : Int) + 1 - 1) := by
        simpa [hk] using h
      rw [Option.map_eq_some_iff] at hzero
      obtain ⟨info, hinfo, hrowNum⟩ := hzero
      rw [List.range_succ, List.getLast?_concat, hk, hinfo]
      simp only [Map.get, hinfo, Option.getD_some, Option.some.injEq]
      cases info
      simp_all
  . rfl

/--
Deleting the last row of a block frees its place and leaves all others where they are.
-/
theorem Repr.deleteRecordTable_last (h : t.Repr contents) {rowId : UInt32} {info : BlockInfo} {row : Row}
    (hmap : t.blockMap.lookup (rowKey rowId) = some info) (hrow : t.row info = some row)
    (hlast : (t.getBlock info.blockId).map (fun b => (b.numRows : Int)) = some (info.rowNum + 1))
    : ∃ t' contents', ∃ r : Nat,
        info.rowNum = r ∧
        t.deleteRecordTable rowId = some t' ∧
        t'.Repr contents' ∧
        t'.schema = t.schema ∧
        t'.blockCapacity = t.blockCapacity ∧
        t'.blockMap = Block.renumber t.blockMap (List.range r) ∧
        t'.numRows = t.numRows - 1 ∧
        ∀ info', t'.row info' = if info' = info then none else t.row info' := by
  obtain ⟨i, r, rows, rfl, hrows, -⟩ := h.exists_of_row hrow
  have hlength : rows.length = r + 1 := by
    obtain ⟨b, hb, hbrepr⟩ := h.getBlock_eq hrows
    dsimp only at hlast
    rw [hb, Option.map_some, hbrepr.numRows_eq] at hlast
    injection hlast with hlast
    omega
  have hkept : (List.range rows.length).filter (· ≠ r) = List.range r := by
    rw [hlength, List.range_succ, List.filter_append, List.filter_eq_self.mpr]
    . simp
    . intro k hk
      have := List.mem_range.mp hk
      simp
      omega
  obtain ⟨t', heq, hrepr, hschema, hcap, hblockMap, hnum⟩ := h.deleteRecordTable hmap hrows
  rw [hkept] at hblockMap
  refine ⟨t', _, r, rfl, heq, hrepr, hschema, hcap, hblockMap, hnum, ?_⟩
  have hlt : i < contents.length := (List.getElem?_eq_some_iff.mp hrows).1
  intro info'
  rw [hrepr.row_eq, h.row_eq]
  split
  . next hnn' =>
    rw [List.getElem?_set]
    by_cases hij : i = info'.blockId.toNat
    . rw [if_pos hij, if_pos (hij ▸ hlt), ← hij, hrows]
      simp only [Option.bind_some]
      by_cases hplace : info' = ⟨i, r⟩
      . rw [if_pos hplace, hplace]
        simp only [Int.toNat_natCast, List.getElem?_eq_none_iff]
        rw [List.length_eraseIdx_of_lt (by omega)]
        omega
      . have hne : info'.rowNum.toNat ≠ r := by
          intro hrowNum
          apply hplace
          cases info'
          simp_all
          omega
        rw [if_neg hplace, List.getElem?_eraseIdx]
        split
        . rfl
        . rw [List.getElem?_eq_none (by omega), List.getElem?_eq_none (by omega)]
    . have hplace : info' ≠ ⟨i, r⟩ := by
        intro hinfo'
        apply hij
        simp [hinfo']
      rw [if_neg hij, if_neg hplace]
  . simp

end DBTable

end Hustle.Storage
