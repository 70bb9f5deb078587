import Mathlib.Algebra.Order.BigOperators.Group.List
import Hustle.Storage.BlockLemmas

/-!
This module contains the representation invariant of a block and what the insert functions do in terms
of the rows that a block holds.
-/

namespace Hustle.Storage

namespace Column

theorem totalSize_ofRows_append (fields : List FieldType) (rows rows' : List Row)
    : totalSize (ofRows fields (rows ++ rows'))
        =
      totalSize (ofRows fields rows) + totalSize (ofRows fields rows') := by
  induction fields generalizing rows rows' with
  | nil => rfl
  | cons type fields ih =>
    have := ih (rows.map List.tail) (rows'.map List.tail)
    have := size_ofCells_append type (rows.map fun row => row.headD default)
      (rows'.map fun row => row.headD default)
    simp only [totalSize, ofRows, List.map_append, List.map_cons, List.sum_cons] at *
    omega

theorem totalSize_ofRows_singleton (h : Row.HasType fields row)
    : totalSize (ofRows fields [row]) = rowSize row := by
  subst h
  induction row with
  | nil => rfl
  | cons c row ih =>
    simp only [List.map_cons, totalSize, ofRows, rowSize, List.sum_cons, List.headD_cons,
      List.tail_cons, List.map_nil] at ih ⊢
    rw [ih]
    congr 1
    cases c <;> simp [ofCells, Cell.fieldType, ofInts, ofStrings, Cell.toBytes]

theorem totalSize_ofRows (h : ∀ row ∈ rows, Row.HasType fields row)
    : totalSize (ofRows fields rows) = (rows.map rowSize).sum := by
  induction rows with
  | nil =>
    clear h
    induction fields with
    | nil => rfl
    | cons type fields ih =>
      simp only [totalSize, ofRows, List.map_nil, List.map_cons, List.sum_cons, List.sum_nil] at ih ⊢
      rw [ih]
      cases type <;> rfl
  | cons row rows ih =>
    rw [← List.singleton_append, totalSize_ofRows_append]
    rw [totalSize_ofRows_singleton (h row (by simp))]
    rw [ih (by intro row' hrow'; exact h row' (by simp [hrow']))]
    simp

theorem ofRows_nil (fields : List FieldType) : ofRows fields [] = fields.map Column.empty := by
  induction fields with
  | nil => rfl
  | cons type fields ih =>
    simp only [ofRows, List.map_nil, List.map_cons, ih, List.cons.injEq, and_true]
    cases type <;> rfl

theorem length_ofRows (fields : List FieldType) (rows : List Row)
    : (ofRows fields rows).length = fields.length := by
  induction fields generalizing rows with
  | nil => rfl
  | cons type fields ih => simp [ofRows, ih]

theorem mem_ofRows {c : Column} {fields : List FieldType} {rows : List Row}
    (h : c ∈ ofRows fields rows)
    : ∃ type cells, c = ofCells type cells ∧ cells.length = rows.length := by
  induction fields generalizing rows with
  | nil => cases h
  | cons type fields ih =>
    rcases List.mem_cons.mp h with rfl | h
    . exact ⟨type, _, rfl, by simp⟩
    . obtain ⟨type', cells, hc, hlen⟩ := ih h
      exact ⟨type', cells, hc, by simpa using hlen⟩

end Column

namespace Block

/--
`b` is the block `id` of a table with the given schema and holds exactly `rows`. Nothing in the
program writes row ids to `row_id_map`, all it ever holds are value initialized entries.
-/
structure Repr (b : Block) (id : Int) (schema : Schema) (capacity : Int) (rows : List Row)
    : Prop where
  id_eq : b.id = id
  schema_eq : b.schema = schema
  capacity_eq : b.capacity = capacity
  numRows_eq : b.numRows = rows.length
  columns_eq : b.columns = Column.ofRows schema.fields rows
  numBytes_eq : b.numBytes = Column.totalSize b.columns
  valid_eq : ∀ r, r < rows.length → getValid b.valid r = true
  rowIdMap_eq : ∀ k v, b.rowIdMap.lookup k = some v → v = 0
  hasType : ∀ row ∈ rows, Row.HasType schema.fields row

theorem new_repr (id : Int) (schema : Schema) (capacity : Int) (metadataEnabled : Bool)
    : (new id schema capacity metadataEnabled).Repr id schema capacity [] where
  id_eq := rfl
  schema_eq := rfl
  capacity_eq := rfl
  numRows_eq := rfl
  columns_eq := by simp [new, Column.ofRows_nil]
  numBytes_eq := by
    simp only [new]
    rw [← Column.ofRows_nil, Column.totalSize_ofRows (by simp)]
    rfl
  valid_eq := by simp
  rowIdMap_eq := by simp [new]
  hasType := by simp

variable {id : Int} {schema : Schema} {capacity : Int} {rows : List Row} {xs : List Field}

theorem Repr.row_eq {b : Block} (h : b.Repr id schema capacity rows) (r : Nat)
    : b.row r = rows[r]? := by
  unfold row
  rw [h.columns_eq]
  by_cases hr : r < rows.length
  . exact Column.mapM_cell_ofRows _ _ _ hr h.hasType
  . rw [List.getElem?_eq_none (by omega)]
    cases hfields : schema.fields with
    | nil => exact absurd hfields schema.fields_ne_nil
    | cons type fields =>
      cases type <;>
        simp [Column.ofRows, Column.ofCells, Column.ofInts, Column.ofStrings, ArrayData.cell, hr]

theorem Repr.getBytesLeft_eq {b : Block} (h : b.Repr id schema capacity rows)
    : b.getBytesLeft = capacity - (rows.map rowSize).sum := by
  unfold getBytesLeft
  rw [h.capacity_eq, h.numBytes_eq, h.columns_eq, Column.totalSize_ofRows h.hasType]

theorem getValid_writeAt (valid : List Bool) (r k : Nat) (val : Bool)
    : getValid (Buffer.writeAt valid r [val]) k = if k = r then val else getValid valid k := by
  unfold getValid Buffer.writeAt
  simp only [List.getD_eq_getElem?_getD, List.getElem?_append, List.length_append, List.length_take,
    List.length_replicate, List.length_cons, List.length_nil, List.getElem?_take,
    List.getElem?_replicate, List.getElem?_drop]
  by_cases hkr : k = r
  . subst hkr
    rw [if_pos (by omega), if_neg (by omega), if_pos rfl]
    have : k - (min k valid.length + (k - valid.length)) = 0 := by omega
    simp [this]
  . rw [if_neg hkr]
    by_cases hlt : k < r
    . rw [if_pos (by omega), if_pos (by omega)]
      split
      . simp
      . next hge =>
        have : valid[k]? = none := List.getElem?_eq_none (by omega)
        rw [if_pos (by omega)]
        simp [this]
    . rw [if_neg (by omega)]
      congr 2
      omega

theorem getValid_setValid (b : Block) (r k : Nat) (val : Bool)
    : getValid (b.setValid r val).valid k = if k = r then val else getValid b.valid k := by
  unfold setValid
  rw [getValid_writeAt]

/--
Inserting a record that fits appends its row.
-/
theorem Repr.insertRecord {b : Block} (h : b.Repr id schema capacity rows)
    (hrec : IsRecord schema.fields xs) (hfit : (recordWidths xs).sum ≤ b.getBytesLeft)
    : ∃ b',
        b.insertRecord (recordBytes xs) (recordWidths xs)
          = some ((rows.length : Int), b', recordBytes (insertedRecord schema.fields xs)) ∧
        b'.Repr id schema capacity (rows ++ [storedRow schema.fields xs]) := by
  have hlen := hrec.length_eq
  have hwidths : (recordWidths xs).length = b.columns.length := by
    rw [h.columns_eq, Column.length_ofRows, length_recordWidths, hlen]
  have hall := Column.insertAll_ofRows hrec rows []
  simp only [List.nil_append, List.length_nil] at hall
  unfold Block.insertRecord
  rw [if_neg (by omega), ← hwidths, List.take_length, if_neg (by omega)]
  simp only [setValid, h.numRows_eq, h.columns_eq, hall, Option.bind_eq_bind, Option.bind_some]
  refine ⟨_, rfl, ?_⟩
  constructor
  . exact h.id_eq
  . exact h.schema_eq
  . exact h.capacity_eq
  . simp
  . rfl
  . have hrow := storedRow_hasType hrec
    have hsize := storedRowSize_eq_rowSize hrec
    have hone := Column.totalSize_ofRows_singleton hrow
    have hold := h.numBytes_eq
    rw [h.columns_eq] at hold
    simp only
    rw [Column.totalSize_ofRows_append]
    omega
  . intro r hr
    rw [getValid_writeAt]
    split
    . rfl
    . apply h.valid_eq
      simp at hr
      omega
  . exact h.rowIdMap_eq
  . intro row hrow
    rw [List.mem_append, List.mem_singleton] at hrow
    cases hrow with
    | inl hmem => exact h.hasType row hmem
    | inr heq =>
      rw [heq]
      exact storedRow_hasType hrec

theorem rowSize_nonneg (row : Row) : 0 ≤ rowSize row := by
  unfold rowSize
  apply List.sum_nonneg
  intro size hmem
  rw [List.mem_map] at hmem
  obtain ⟨c, -, hc⟩ := hmem
  rw [← hc]
  cases c with
  | int64 v => simp [fieldSize]
  | string bytes => simp

theorem Repr.getBytesLeft_le {b : Block} (h : b.Repr id schema capacity rows)
    : b.getBytesLeft ≤ capacity := by
  rw [h.getBytesLeft_eq]
  have : 0 ≤ (rows.map rowSize).sum := by
    apply List.sum_nonneg
    intro size hmem
    rw [List.mem_map] at hmem
    obtain ⟨row, -, hrow⟩ := hmem
    rw [← hrow]
    exact rowSize_nonneg row
  omega

theorem Repr.insertRecord_rejected {b : Block} (h : b.Repr id schema capacity rows)
    (hlen : schema.fields.length = xs.length) (hxs : ∀ x ∈ xs, x.bytes.length = x.byteWidth.toNat)
    (hbad : ¬(IsRecord schema.fields xs ∧ (recordWidths xs).sum ≤ capacity))
    : b.insertRecord (recordBytes xs) (recordWidths xs) = none ∨
      b.insertRecord (recordBytes xs) (recordWidths xs) = some (-1, b, recordBytes xs) := by
  have hwidths : (recordWidths xs).length = b.columns.length := by
    rw [h.columns_eq, Column.length_ofRows, length_recordWidths, hlen]
  unfold Block.insertRecord
  rw [if_neg (by omega), ← hwidths, List.take_length]
  split
  . exact Or.inr rfl
  . next hroom =>
    left
    have hcap := h.getBytesLeft_le
    have hrec : ¬IsRecord schema.fields xs := fun hrec => hbad ⟨hrec, by omega⟩
    have hall := Column.insertAll_ofRows_eq_none hlen hxs hrec rows []
    simp only [List.nil_append, List.length_nil] at hall
    simp only [setValid, h.numRows_eq, h.columns_eq, hall, Option.bind_eq_bind, Option.bind_none]

theorem setValidRange_eq (b : Block) (n : Nat)
    : ∃ valid, b.setValidRange n = { b with valid := valid } ∧
        ∀ k, getValid valid k = if b.numRows ≤ k ∧ k < b.numRows + n then true else getValid b.valid k := by
  unfold setValidRange
  induction n with
  | zero =>
    refine ⟨b.valid, rfl, ?_⟩
    intro k
    rw [if_neg (by omega)]
  | succ n ih =>
    obtain ⟨valid, heq, hvalid⟩ := ih
    rw [List.range_succ, List.foldl_append, heq]
    refine ⟨Buffer.writeAt valid (b.numRows + n) [true], rfl, ?_⟩
    intro k
    rw [getValid_writeAt, hvalid]
    split
    . rw [if_pos (by omega)]
    . congr 1
      apply propext
      omega

/--
Inserting `n` rows of another block's columns appends them.
-/
theorem Repr.insertRecords {b : Block} (h : b.Repr id schema capacity rows) (src : List Row)
    (offset n : Nat) (hn : 0 < n) (hsrc : offset + n ≤ src.length)
    (htype : ∀ row ∈ src, Row.HasType schema.fields row)
    : ∃ res b',
        b.insertRecords
          ((Column.ofRows schema.fields src).map fun c => c.array.slice offset n) = some (res, b') ∧
        b'.Repr id schema capacity (rows ++ (src.drop offset).take n) ∧
        b'.rowIdMap = b.rowIdMap := by
  obtain ⟨type, fields, hfields⟩ := List.exists_cons_of_ne_nil schema.fields_ne_nil
  have hslices := Column.insertSlices_ofRows schema.fields rows src (·.slice offset n) offset n
    (by intro; rfl) hsrc
  have hhead : ((Column.ofRows schema.fields src).map fun c => c.array.slice offset n).head?
      = some ((Column.ofCells type (src.map fun row => row.headD default)).array.slice offset n) := by
    rw [hfields]
    rfl
  have hlength : ((Column.ofCells type (src.map fun row => row.headD default)).array.slice
      offset n).length = n := by
    cases type <;> simp [ArrayData.slice, Column.ofCells, Column.ofInts, Column.ofStrings] <;> omega
  have hoffset : ((Column.ofCells type (src.map fun row => row.headD default)).array.slice
      offset n).offset = offset := by
    cases type <;> simp [ArrayData.slice, Column.ofCells, Column.ofInts, Column.ofStrings]
  have hsub : ∀ row ∈ (src.drop offset).take n, Row.HasType schema.fields row := by
    intro row hmem
    exact htype row (List.mem_of_mem_drop (List.mem_of_mem_take hmem))
  obtain ⟨valid, heq, hvalid⟩ := setValidRange_eq b n
  unfold Block.insertRecords
  rw [hhead]
  simp only [Option.bind_eq_bind, Option.bind_some, hlength, hoffset, heq, h.numRows_eq,
    h.columns_eq, hslices]
  rw [if_neg (by omega)]
  refine ⟨_, _, rfl, ?_, rfl⟩
  constructor
  . exact h.id_eq
  . exact h.schema_eq
  . exact h.capacity_eq
  . simp
    omega
  . rfl
  . have hold := h.numBytes_eq
    rw [h.columns_eq] at hold
    simp only
    rw [Column.totalSize_ofRows_append, hold]
  . intro r hr
    simp only
    rw [hvalid]
    split
    . rfl
    . apply h.valid_eq
      have := h.numRows_eq
      simp at hr
      omega
  . exact h.rowIdMap_eq
  . intro row hmem
    rw [List.mem_append] at hmem
    cases hmem with
    | inl hmem => exact h.hasType row hmem
    | inr hmem => exact hsub row hmem

def validRows (valid : List Bool) (n : Nat) : List Nat :=
  (List.range n).filter fun row => getValid valid row

/--
What rebuilding a block does to `block_map`. As no block knows the row ids of its rows, every row that
is copied is recorded as the place of row id 0.
-/
def renumber (blockMap : Map Int BlockInfo) (rows : List Nat) : Map Int BlockInfo :=
  rows.foldl (fun m row => m.insert 0 ⟨(m.get 0).blockId, row⟩) blockMap

theorem renumber_append (blockMap : Map Int BlockInfo) (rows : List Nat) (row : Nat)
    : renumber blockMap (rows ++ [row])
        =
      (renumber blockMap rows).insert 0 ⟨((renumber blockMap rows).get 0).blockId, row⟩ := by
  simp [renumber]

theorem renumber_get_blockId (blockMap : Map Int BlockInfo) (rows : List Nat)
    : ((renumber blockMap rows).get 0).blockId = (blockMap.get 0).blockId := by
  induction rows using List.reverseRecOn with
  | nil => rfl
  | append_singleton rows row ih =>
    rw [renumber_append]
    simp only [Map.get, AList.lookup_insert, Option.getD_some]
    exact ih

theorem renumber_lookup (blockMap : Map Int BlockInfo) (rows : List Nat) (k : Int)
    : (renumber blockMap rows).lookup k
        =
      if k = 0 then
        match rows.getLast? with
        | some row => some ⟨(blockMap.get 0).blockId, row⟩
        | none => blockMap.lookup k
      else
        blockMap.lookup k := by
  induction rows using List.reverseRecOn with
  | nil => simp [renumber]
  | append_singleton rows row ih =>
    rw [renumber_append, Map.lookup_insert_eq, renumber_get_blockId]
    split
    . simp
    . next hk =>
      rw [ih]
      simp [hk]

section

variable (validColumn : List Bool) (src : List Row)

theorem rebuildRow_valid {s : RebuildState} (hs : s.block.Repr id schema capacity rows)
    (hmap : ∀ k v, s.rowMap.lookup k = some v → v = 0)
    (htype : ∀ row ∈ src, Row.HasType schema.fields row) (k : Nat) (hk : k < src.length)
    (hvalid : getValid validColumn k = true)
    : ∃ s', rebuildRow validColumn ((Column.ofRows schema.fields src).map Column.array) s k = some s' ∧
        s'.block.Repr id schema capacity (rows ++ [src[k]]) ∧
        s'.blockMap = s.blockMap.insert 0 ⟨(s.blockMap.get 0).blockId, k⟩ ∧
        (∀ k v, s'.rowMap.lookup k = some v → v = 0) := by
  have hget : ∀ k, s.rowMap.get k = 0 := by
    intro k
    exact Map.get_eq_of_forall hmap rfl k
  have hblock : { s.block with rowIdMap := s.block.rowIdMap.insert (k : Int) (0 : Int) }.Repr
      id schema capacity rows := by
    constructor
    . exact hs.id_eq
    . exact hs.schema_eq
    . exact hs.capacity_eq
    . exact hs.numRows_eq
    . exact hs.columns_eq
    . exact hs.numBytes_eq
    . exact hs.valid_eq
    . intro k' v hlookup
      dsimp only at hlookup
      rw [Map.lookup_insert_eq] at hlookup
      split at hlookup
      . simpa using hlookup.symm
      . exact hs.rowIdMap_eq k' v hlookup
    . exact hs.hasType
  obtain ⟨res, b', hinsert, hrepr, -⟩ := hblock.insertRecords src k 1 (by omega) (by omega) htype
  rw [List.take_one_drop_eq_of_lt_length hk] at hrepr
  have hslices : ((Column.ofRows schema.fields src).map Column.array).map (·.slice k 1)
      = (Column.ofRows schema.fields src).map fun c => c.array.slice k 1 := by
    simp
  unfold rebuildRow
  rw [if_pos hvalid]
  dsimp only
  rw [hget, hslices, hinsert]
  refine ⟨_, rfl, hrepr, rfl, ?_⟩
  intro k' v hlookup
  dsimp only [Map.touch] at hlookup
  split at hlookup
  . exact hmap k' v hlookup
  . rw [Map.lookup_insert_eq] at hlookup
    split at hlookup
    . simpa using hlookup.symm
    . exact hmap k' v hlookup

theorem foldlM_rebuildRow {b : Block} (hb : b.Repr id schema capacity [])
    (blockMap : Map Int BlockInfo) (rowMap : Map Int Int)
    (hmap : ∀ k v, rowMap.lookup k = some v → v = 0)
    (htype : ∀ row ∈ src, Row.HasType schema.fields row) (n : Nat) (hn : n ≤ src.length)
    : ∃ s,
        (List.range n).foldlM
          (rebuildRow validColumn ((Column.ofRows schema.fields src).map Column.array))
          ⟨b, blockMap, rowMap, 0⟩ = some s ∧
        s.block.Repr id schema capacity ((validRows validColumn n).filterMap (src[·]?)) ∧
        s.blockMap = renumber blockMap (validRows validColumn n) ∧
        (∀ k v, s.rowMap.lookup k = some v → v = 0) := by
  induction n with
  | zero => exact ⟨_, rfl, hb, rfl, hmap⟩
  | succ n ih =>
    obtain ⟨s, heq, hrepr, hblockMap, hrowMap⟩ := ih (by omega)
    rw [List.range_succ, List.foldlM_append, heq]
    simp only [Option.bind_eq_bind, Option.bind_some, List.foldlM_cons, List.foldlM_nil]
    cases hvalid : getValid validColumn n with
    | true =>
      obtain ⟨s', heq', hrepr', hblockMap', hrowMap'⟩ :=
        rebuildRow_valid validColumn src hrepr hrowMap htype n (by omega) hvalid
      have hrows : validRows validColumn (n + 1) = validRows validColumn n ++ [n] := by
        simp [validRows, List.range_succ, hvalid]
      rw [heq', hrows]
      refine ⟨s', rfl, ?_, ?_, hrowMap'⟩
      . rw [List.filterMap_append]
        have : n < src.length := by omega
        simpa [this] using hrepr'
      . rw [hblockMap', hblockMap, renumber_append]
    | false =>
      have hrows : validRows validColumn (n + 1) = validRows validColumn n := by
        simp [validRows, List.range_succ, hvalid]
      rw [hrows]
      simp only [rebuildRow, hvalid, Bool.false_eq_true, ↓reduceIte]
      exact ⟨_, rfl, hrepr, hblockMap, hrowMap⟩

theorem Repr.insertRecordsFrom {b : Block} (hb : b.Repr id schema capacity [])
    (blockMap : Map Int BlockInfo) (rowMap : Map Int Int)
    (hmap : ∀ k v, rowMap.lookup k = some v → v = 0)
    (htype : ∀ row ∈ src, Row.HasType schema.fields row)
    : ∃ s,
        b.insertRecordsFrom blockMap rowMap validColumn
          ((Column.ofRows schema.fields src).map Column.array) = some s ∧
        s.block.Repr id schema capacity ((validRows validColumn src.length).filterMap (src[·]?)) ∧
        s.blockMap = renumber blockMap (validRows validColumn src.length) := by
  obtain ⟨type, fields, hfields⟩ := List.exists_cons_of_ne_nil schema.fields_ne_nil
  obtain ⟨s, heq, hrepr, hblockMap, -⟩ := foldlM_rebuildRow validColumn src hb blockMap rowMap hmap
    htype src.length (Nat.le_refl _)
  have hhead : ((Column.ofRows schema.fields src).map Column.array).head?
      = some (Column.ofCells type (src.map fun row => row.headD default)).array := by
    rw [hfields]
    rfl
  have hlength : (Column.ofCells type (src.map fun row => row.headD default)).array.length
      = src.length := by
    cases type <;> simp [Column.ofCells, Column.ofInts, Column.ofStrings]
  unfold Block.insertRecordsFrom
  rw [hhead]
  simp only [Option.bind_eq_bind, Option.bind_some, hlength]
  exact ⟨s, heq, hrepr, hblockMap⟩

end

theorem sum_validRows_le (valid : List Bool) (rows : List Row)
    : (((validRows valid rows.length).filterMap (rows[·]?)).map rowSize).sum ≤ (rows.map rowSize).sum := by
  have hmap : (List.range rows.length).map (rows[·]?) = rows.map some := by
    apply List.ext_getElem
    . simp
    . intro i hi hi'
      rw [List.length_map] at hi'
      simp [List.getElem?_eq_getElem hi']
  have hall : (List.range rows.length).filterMap (rows[·]?) = rows := by
    rw [← Function.id_comp (rows[·]?), ← List.filterMap_map, hmap, List.filterMap_map]
    exact List.filterMap_some
  have hsub : ((validRows valid rows.length).filterMap (rows[·]?)).Sublist rows := by
    have := (List.filter_sublist (l := List.range rows.length)
      (p := fun row => getValid valid row)).filterMap (rows[·]?)
    rw [hall] at this
    exact this
  apply (hsub.map rowSize).sum_le_sum
  intro size hsize
  obtain ⟨row, -, rfl⟩ := List.mem_map.mp hsize
  exact rowSize_nonneg row

theorem Repr.getValid_setValid {b : Block} {id : Int} {schema : Schema} {capacity : Int} {rows : List Row}
    (h : b.Repr id schema capacity rows) (r : Nat)
    : ∀ k, k < rows.length → getValid (b.setValid r false).valid k = decide (k ≠ r) := by
  intro k hk
  rw [Block.getValid_setValid]
  split
  . next hkr => simp [hkr]
  . next hkr => simp [hkr, h.valid_eq k hk]

/--
The rows that are kept when row `r` is deleted.
-/
theorem Repr.validRows_setValid {b : Block} {id : Int} {schema : Schema} {capacity : Int} {rows : List Row}
    (h : b.Repr id schema capacity rows) (r : Nat)
    : validRows (b.setValid r false).valid rows.length = (List.range rows.length).filter (· ≠ r) := by
  unfold validRows
  apply List.filter_congr
  intro k hk
  exact h.getValid_setValid r k (List.mem_range.mp hk)

/--
Skipping exactly the row `r` is erasing it.
-/
theorem validRows_filterMap (valid : List Bool) (src : List Row) (r : Nat)
    (h : ∀ k, k < src.length → getValid valid k = decide (k ≠ r))
    : (validRows valid src.length).filterMap (src[·]?) = src.eraseIdx r := by
  have hfilter : validRows valid src.length = (List.range src.length).filter fun k => decide (k ≠ r) := by
    unfold validRows
    apply List.filter_congr
    intro k hk
    exact h k (List.mem_range.mp hk)
  rw [hfilter]
  clear h hfilter
  induction src using List.reverseRecOn with
  | nil => simp
  | append_singleton src row ih =>
    have hcongr : ((List.range src.length).filter fun k => decide (k ≠ r)).filterMap
        ((src ++ [row])[·]?) = src.eraseIdx r := by
      rw [← ih]
      apply List.filterMap_congr
      intro k hk
      have : k < src.length := List.mem_range.mp (List.mem_of_mem_filter hk)
      rw [List.getElem?_append_left this]
    rw [List.length_append, List.length_singleton, List.range_succ, List.filter_append,
      List.filterMap_append, hcongr]
    by_cases hlt : r < src.length
    . have hne : src.length ≠ r := by omega
      rw [List.eraseIdx_append_of_lt_length hlt]
      simp [hne]
    . rw [List.eraseIdx_append_of_length_le (by omega), List.eraseIdx_of_length_le (by omega)]
      by_cases heq : r = src.length
      . simp [heq]
      . have hne : src.length ≠ r := by omega
        have hone : 1 ≤ r - src.length := by omega
        rw [List.eraseIdx_of_length_le (by simpa using hone)]
        simp [hne]

end Block

end Hustle.Storage
