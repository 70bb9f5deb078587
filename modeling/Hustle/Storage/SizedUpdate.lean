import Hustle.Storage.SimilarTables
import Hustle.Storage.UpdatedTable
import Hustle.Util.Run

/-!
This module contains `UpdateRecordTable` together with the memory of the blocks. An integer is written into a row that
is there. A string deletes the row and inserts the record again, which writes behind the buffers of the block unless
they have room for it.
-/

namespace Hustle.Storage

/--
`Block::UpdateColumnValue` writes eight bytes into row `rowNum`.
-/
def ColumnMemory.updateValue (m : ColumnMemory) (rowNum : Nat) : Option ColumnMemory :=
  match m with
  | .int64 values => do
    let values ← values.write (fieldSize * rowNum + fieldSize)
    return .int64 values
  | .string _ _ => none

namespace SizedTable

/--
The variables of the loop in `DBTable::UpdateRecordTable`.
-/
structure UpdateState where
  table : SizedTable
  record : List UInt8
  offset : Int
  currOffsetCol : Nat

def UpdateState.bare (s : UpdateState) : DBTable.UpdateState :=
  ⟨s.table.table, s.record, s.offset, s.currOffsetCol⟩

section

variable (roundUp : Nat → Nat) (pick : List Int → Nat)

/--
One iteration of the loop in `DBTable::UpdateRecordTable`.
-/
def updateColumn (rowId : UInt32) (ptr : BlockPtr) (rowNum : Nat) (byteWidths : List Int) (s : UpdateState)
    (info : UpdateMetaInfo) : Option UpdateState := do
  let colNum := info.colNum
  let skipped := (byteWidths.drop s.currOffsetCol).take (colNum - s.currOffsetCol)
  let offset := s.offset + skipped.sum
  let currOffsetCol := max s.currOffsetCol colNum
  let byteWidth ← byteWidths[colNum]?
  match ← s.table.table.schema.fields[colNum]? with
  | .int64 =>
    let b ← s.table.block ptr
    let memory ← b.memory[colNum]?
    let _ ← memory.updateValue rowNum
    let (block, record) ← b.block.updateColumnValue colNum rowNum s.record offset byteWidth
    return ⟨{ s.table with table := s.table.table.setBlock ptr block }, record, offset, currOffsetCol⟩
  | .string =>
    let t ← s.table.deleteRecordTable roundUp rowId
    let (t, record) ← t.insertRecordTable roundUp pick rowId s.record byteWidths
    return ⟨t, record, offset, currOffsetCol⟩

def updateRecordTable (t : SizedTable) (rowId : UInt32) (updateMetaInfo : List UpdateMetaInfo) (record : List UInt8)
    (byteWidths : List Int) : Option (SizedTable × List UInt8) :=
  match t.table.blockMap.lookup (rowKey rowId) with
  | none => some (t, record)
  | some info => do
    let ptr ← t.table.blocks.lookup info.blockId
    if info.rowNum < 0 then
      none
    else
      let step := updateColumn roundUp pick rowId ptr info.rowNum.toNat byteWidths
      let s ← updateMetaInfo.foldlM step ⟨t, record, 0, 0⟩
      return (s.table, s.record)

/--
The row of `rowId` can be deleted and the record inserted again `n` times.
-/
def Reinserts (rowId : UInt32) (xs : List Field) : Nat → SizedTable → Prop
  | 0, _ => True
  | n + 1, t => ∀ t₁ ∈ t.deleteRecordTable roundUp rowId,
    t₁.FindsRoom roundUp pick xs ∧
    ∀ x ∈ t₁.insertRecordTable roundUp pick rowId (recordBytes xs) (recordWidths xs), Reinserts rowId xs n x.1

instance instDecidableReinserts (rowId : UInt32) (xs : List Field) (n : Nat) (t : SizedTable)
    : Decidable (Reinserts roundUp pick rowId xs n t) :=
  match n with
  | 0 => .isTrue trivial
  | n + 1 =>
    have (t : SizedTable) := instDecidableReinserts rowId xs n t
    inferInstanceAs (Decidable (∀ _ ∈ _, _ ∧ ∀ _ ∈ _, _))

end

/-! One iteration with the memory of the blocks, and one without. -/

variable {roundUp : Nat → Nat} {pick : List Int → Nat} {rowId : UInt32} {ptr : BlockPtr} {r : Nat} {widths : List Int}
  {s : UpdateState} {info : UpdateMetaInfo} {u : DBTable.UpdateState}

theorem updateColumn_int (hc : s.table.table.schema.fields[info.colNum]? = some .int64)
    {m : Allocation × List ColumnMemory} (hm : s.table.memory[ptr]? = some m)
    (hvalue : (m.2[info.colNum]?.bind fun memory => memory.updateValue r).isSome)
    (h : DBTable.updateColumn pick rowId ptr r widths s.bare info = some u)
    : ∃ s' block, updateColumn roundUp pick rowId ptr r widths s info = some s' ∧ s'.bare = u ∧
        s'.table = ⟨s.table.table.setBlock ptr block, s.table.memory⟩ := by
  obtain ⟨memory', hmemory'⟩ := Option.isSome_iff_exists.mp hvalue
  obtain ⟨memory, hmemory, hwrite⟩ := Option.bind_eq_some_iff.mp hmemory'
  obtain ⟨byteWidth, hwidth, h⟩ := Option.bind_eq_some_iff.mp h
  obtain ⟨type, htype, h⟩ := Option.bind_eq_some_iff.mp h
  change s.table.table.schema.fields[info.colNum]? = some type at htype
  rw [hc] at htype
  cases htype
  obtain ⟨b, hb, h⟩ := Option.bind_eq_some_iff.mp h
  obtain ⟨⟨block, record⟩, hblock, h⟩ := Option.bind_eq_some_iff.mp h
  cases h
  have hsized : s.table.block ptr = some ⟨b, m.1, m.2⟩ := by
    unfold SizedTable.block
    change s.table.table.block ptr = some b at hb
    simp only [hb, hm, Option.bind_eq_bind, Option.bind_some, Option.pure_def]
  refine ⟨⟨{ s.table with table := s.table.table.setBlock ptr block }, record,
    s.offset + ((widths.drop s.currOffsetCol).take (info.colNum - s.currOffsetCol)).sum,
    max s.currOffsetCol info.colNum⟩, block, ?_, rfl, rfl⟩
  unfold updateColumn
  simp only [hwidth, hc, hsized, hmemory, hwrite, Option.bind_eq_bind, Option.bind_some]
  exact Option.bind_eq_some_iff.mpr ⟨(block, record), hblock, rfl⟩

theorem updateColumn_string (hc : s.table.table.schema.fields[info.colNum]? = some .string) {t₁ t₂ : SizedTable}
    {reversed : List UInt8} (hdelete : s.table.deleteRecordTable roundUp rowId = some t₁)
    (hinsert : t₁.insertRecordTable roundUp pick rowId s.record widths = some (t₂, reversed))
    (h : DBTable.updateColumn pick rowId ptr r widths s.bare info = some u)
    : ∃ s', updateColumn roundUp pick rowId ptr r widths s info = some s' ∧ s'.bare = u ∧ s'.table = t₂ := by
  obtain ⟨byteWidth, hwidth, h⟩ := Option.bind_eq_some_iff.mp h
  obtain ⟨type, htype, h⟩ := Option.bind_eq_some_iff.mp h
  change s.table.table.schema.fields[info.colNum]? = some type at htype
  rw [hc] at htype
  cases htype
  obtain ⟨table, htable, h⟩ := Option.bind_eq_some_iff.mp h
  obtain ⟨⟨table', record⟩, htable', h⟩ := Option.bind_eq_some_iff.mp h
  cases h
  change s.table.table.deleteRecordTable rowId = some table at htable
  rw [deleteRecordTable_table hdelete] at htable
  cases htable
  change t₁.table.insertRecordTable pick rowId s.record widths = some (table', record) at htable'
  rw [insertRecordTable_table hinsert] at htable'
  cases htable'
  refine ⟨⟨t₂, reversed, s.offset + ((widths.drop s.currOffsetCol).take (info.colNum - s.currOffsetCol)).sum,
    max s.currOffsetCol info.colNum⟩, ?_, rfl, rfl⟩
  unfold updateColumn
  simp only [hwidth, hc, hdelete, hinsert, Option.bind_eq_bind, Option.bind_some]
  rfl

theorem updateColumn_table {s' : UpdateState} (h : updateColumn roundUp pick rowId ptr r widths s info = some s')
    : DBTable.updateColumn pick rowId ptr r widths s.bare info = some s'.bare := by
  obtain ⟨byteWidth, hwidth, h⟩ := Option.bind_eq_some_iff.mp h
  obtain ⟨type, htype, h⟩ := Option.bind_eq_some_iff.mp h
  have htype' : s.bare.table.schema.fields[info.colNum]? = some type := htype
  unfold DBTable.updateColumn
  simp only [hwidth, htype', Option.bind_eq_bind, Option.bind_some]
  cases type with
  | int64 =>
    obtain ⟨b, hb, h⟩ := Option.bind_eq_some_iff.mp h
    obtain ⟨memory, -, h⟩ := Option.bind_eq_some_iff.mp h
    obtain ⟨_, -, h⟩ := Option.bind_eq_some_iff.mp h
    obtain ⟨⟨block, record⟩, hblock, h⟩ := Option.bind_eq_some_iff.mp h
    cases h
    exact Option.bind_eq_some_iff.mpr ⟨b.block, block_table hb, Option.bind_eq_some_iff.mpr ⟨_, hblock, rfl⟩⟩
  | string =>
    obtain ⟨t₁, hdelete, h⟩ := Option.bind_eq_some_iff.mp h
    obtain ⟨⟨t₂, record⟩, hinsert, h⟩ := Option.bind_eq_some_iff.mp h
    cases h
    exact Option.bind_eq_some_iff.mpr ⟨t₁.table, deleteRecordTable_table hdelete,
      Option.bind_eq_some_iff.mpr ⟨_, insertRecordTable_table hinsert, rfl⟩⟩

theorem updateRecordTable_table {t t' : SizedTable} {infos : List UpdateMetaInfo} {record record' : List UInt8}
    (h : t.updateRecordTable roundUp pick rowId infos record widths = some (t', record'))
    : t.table.updateRecordTable pick rowId infos record widths = some (t'.table, record') := by
  unfold SizedTable.updateRecordTable at h
  unfold DBTable.updateRecordTable
  cases hplace : t.table.blockMap.lookup (rowKey rowId) with
  | none =>
    simp only [hplace] at h ⊢
    cases h
    rfl
  | some place =>
    simp only [hplace] at h ⊢
    obtain ⟨ptr, hptr, h⟩ := Option.bind_eq_some_iff.mp h
    split at h
    . cases h
    . next hneg =>
      obtain ⟨s', hs', h⟩ := Option.bind_eq_some_iff.mp h
      cases h
      have hrun := Run.foldlM_map UpdateState.bare (fun _ _ _ => updateColumn_table) hs'
      simp only [UpdateState.bare] at hrun
      simp only [hptr, if_neg hneg, hrun, Option.bind_eq_bind, Option.bind_some, Option.pure_def]

/-! The memory of the block that the loop patches. -/

/--
The buffers behind `ptr` have room for row `r`.
-/
def HoldsRow (fields : List FieldType) (ptr : BlockPtr) (r : Nat) (t : SizedTable) : Prop :=
  ∃ m rows, t.memory[ptr]? = some m ∧ ColumnMemory.OkRows m.2 fields rows ∧ r < rows.length

theorem updateValue_isSome {fields : List FieldType} {c : Nat} {ms : List ColumnMemory} {rows : List Row}
    (h : ColumnMemory.OkRows ms fields rows) (hc : fields[c]? = some .int64) (hr : r < rows.length)
    : (ms[c]?.bind fun memory => memory.updateValue r).isSome := by
  induction fields generalizing c ms rows with
  | nil => cases hc
  | cons type fields ih =>
    obtain ⟨m, ms, rfl, hm, hms⟩ := h.cons
    cases c with
    | zero =>
      cases hc
      cases m with
      | string offsets data => exact hm.elim
      | int64 values =>
        have hcapacity : fieldSize * r + fieldSize ≤ values.capacity := by
          simp only [ColumnMemory.Ok, List.length_map] at hm
          rw [← Nat.mul_succ]
          exact le_trans (Nat.mul_le_mul_left _ hr) hm
        simp [ColumnMemory.updateValue, Allocation.write_eq hcapacity]
    | succ c =>
      rw [List.getElem?_cons_succ]
      exact ih hms hc (by simpa using hr)

theorem memory_createBlock {t t' : SizedTable} (h : t.createBlock roundUp = some (ptr, t')) : t.memory <+: t'.memory := by
  obtain ⟨s, -, h⟩ := Option.bind_eq_some_iff.mp h
  cases h
  exact List.prefix_append _ _

theorem memory_blockForRecord {t t' : SizedTable} {recordSize : Int}
    (h : t.blockForRecord roundUp pick recordSize = some (ptr, t')) : t.memory <+: t'.memory := by
  obtain ⟨⟨p, t₁⟩, hget, h⟩ := Option.bind_eq_some_iff.mp h
  obtain ⟨s, -, h⟩ := Option.bind_eq_some_iff.mp h
  have hfirst : t.memory <+: t₁.memory := by
    unfold SizedTable.getBlockForInsert at hget
    dsimp only at hget
    split at hget
    . exact memory_createBlock hget
    . cases hget
      exact List.prefix_refl _
  split at h
  . exact hfirst.trans (memory_createBlock h)
  . cases h
    exact hfirst

theorem HoldsRow.of_memory {fields : List FieldType} {t t' : SizedTable} (h : t.HoldsRow fields ptr r)
    (hmemory : t.memory <+: t'.memory) : t'.HoldsRow fields ptr r := by
  obtain ⟨m, rows, hm, hok, hr⟩ := h
  refine ⟨m, rows, ?_, hok, hr⟩
  obtain ⟨rest, hrest⟩ := hmemory
  rw [← hrest, List.getElem?_append_left (List.getElem?_eq_some_iff.mp hm).1, hm]

/-! Tables after an integer has been patched. -/

theorem okRows_congr {ms : List ColumnMemory} {fields : List FieldType} {rows rows' : List Row}
    (h : ColumnMemory.OkRows ms fields rows) (hshapes : rows.map Row.shape = rows'.map Row.shape)
    : ColumnMemory.OkRows ms fields rows' := by
  induction fields generalizing ms rows rows' with
  | nil =>
    cases ms with
    | nil => trivial
    | cons m ms => exact h.elim
  | cons type fields ih =>
    obtain ⟨m, ms, rfl, hm, hms⟩ := h.cons
    obtain ⟨hhead, htail⟩ := shapes_cons hshapes
    refine ⟨?_, ih hms htail⟩
    have hlength := congrArg List.length hhead
    simp only [List.length_map] at hlength
    cases type with
    | int64 =>
      cases m with
      | string offsets data => exact hm.elim
      | int64 values =>
        simp only [ColumnMemory.Ok, List.length_map] at hm ⊢
        rw [← hlength]
        exact hm
    | string =>
      cases m with
      | int64 values => exact hm.elim
      | string offsets data =>
        obtain ⟨hoffsets, hdata⟩ := hm
        rw [length_flatten_toBytes, hhead, ← length_flatten_toBytes] at hdata
        simp only [List.length_map] at hoffsets
        rw [hlength] at hoffsets
        exact ⟨by simpa using hoffsets, hdata⟩

theorem shape_set_int64 {fields : List FieldType} {row : Row} {c : Nat} (h : Row.HasType fields row)
    (hc : fields[c]? = some .int64) (v : BitVec 64) : Row.shape (row.set c (.int64 v)) = row.shape := by
  induction fields generalizing row c with
  | nil => cases hc
  | cons type fields ih =>
    obtain ⟨cell, row, rfl, hcell, hrow⟩ := h.cons
    cases c with
    | zero =>
      cases hc
      cases cell with
      | int64 v' => rfl
      | string bytes => cases hcell
    | succ c =>
      have := ih hrow hc
      unfold Row.shape at this ⊢
      rw [List.set_cons_succ, List.map_cons, List.map_cons, this]

variable {schema : Schema} {blockCapacity : Int} {t v : SizedTable} {contents contents' : List (List Row)}

/--
A table that differs from a well formed one in its integers only is well formed.
-/
theorem Filled.of_similar (h : Filled schema blockCapacity maxInt t contents) (hsimilar : t.Similar v)
    (hrepr : v.table.Repr contents') (hlength : v.memory.length = v.table.heap.length)
    : Filled schema blockCapacity maxInt v contents' := by
  have hcontents : contents'.length = contents.length := by
    have := h.ok.repr.counter_eq
    have := hrepr.counter_eq
    have := hsimilar.blockCounter_eq
    omega
  have hshapes : ∀ i : Nat, ∀ rows rows', contents[i]? = some rows → contents'[i]? = some rows' →
      rows.map Row.shape = rows'.map Row.shape := by
    intro i rows rows' hrows hrows'
    apply List.ext_getElem?
    intro k
    have := hsimilar.rows_eq ⟨i, k⟩
    rw [h.ok.repr.row_eq, hrepr.row_eq] at this
    simpa [hrows, hrows'] using this.symm
  have hall : contents.map (List.map Row.shape) = contents'.map (List.map Row.shape) := by
    apply List.ext_getElem
    . simp [hcontents]
    . intro i hi hi'
      rw [List.length_map] at hi hi'
      rw [List.getElem_map, List.getElem_map]
      exact hshapes i _ _ (List.getElem?_eq_getElem hi) (List.getElem?_eq_getElem hi')
  have hcount : contents'.flatten.length = contents.flatten.length := by
    have := congrArg (List.map List.length) hall
    simp only [List.map_map, Function.comp_def, List.length_map] at this
    rw [List.length_flatten, List.length_flatten, this]
  have hnum := h.numRows_eq
  have hle := h.numRows_le
  have hsame := hsimilar.numRows_eq
  refine ⟨⟨hrepr, hlength, ?_⟩, hsimilar.schema_eq.trans h.schema_eq,
    hsimilar.blockCapacity_eq.trans h.blockCapacity_eq, by omega, by omega, ?_⟩
  . intro i rows' ptr hrows' hptr
    have hi : i < contents.length := hcontents ▸ (List.getElem?_eq_some_iff.mp hrows').1
    have hrows := List.getElem?_eq_getElem hi
    obtain ⟨ptr', b, hptr', hb, hbrepr⟩ := hrepr.block i rows' hrows'
    rw [hptr] at hptr'
    cases hptr'
    rw [hsimilar.blocks_eq] at hptr
    obtain ⟨s, hs, hok⟩ := h.ok.block hrows hptr
    have hm : t.memory[ptr]? = some (s.valid, s.memory) := by
      obtain ⟨b', -, hs⟩ := Option.bind_eq_some_iff.mp hs
      obtain ⟨m, hm, hs⟩ := Option.bind_eq_some_iff.mp hs
      cases hs
      exact hm
    refine ⟨⟨b, s.valid, s.memory⟩, ?_, hbrepr, ?_, ?_, hok.capacity⟩
    . unfold SizedTable.block DBTable.block
      rw [hb, hsimilar.memory_eq i ptr hptr, hm]
      rfl
    . rw [hsimilar.schema_eq]
      exact okRows_congr hok.memory (hshapes i _ _ hrows hrows')
    . have := congrArg List.length (hshapes i _ _ hrows hrows')
      simp only [List.length_map] at this
      rw [← this]
      exact hok.valid
  . intro rows' hrows'
    obtain ⟨i, hi, rfl⟩ := List.getElem_of_mem hrows'
    have hi' : i < contents.length := hcontents ▸ hi
    obtain ⟨-, b, -, -, hbrepr⟩ := hrepr.block i _ (List.getElem?_eq_getElem hi)
    obtain ⟨-, b', -, -, hbrepr'⟩ := h.ok.repr.block i _ (List.getElem?_eq_getElem hi')
    rw [hsimilar.schema_eq] at hbrepr
    rw [← SizedBlock.Similar.sum_rowSize_eq hbrepr'.hasType hbrepr.hasType
      (hshapes i _ _ (List.getElem?_eq_getElem hi') (List.getElem?_eq_getElem hi))]
    exact h.fits _ (List.getElem_mem hi')

theorem shape_storedRow {fields : List FieldType} {xs ys : List Field} (hxs : IsRecord fields xs)
    (hys : IsRecord fields ys) (hwidths : recordWidths ys = recordWidths xs)
    : (storedRow fields ys).shape = (storedRow fields xs).shape := by
  induction hxs generalizing ys with
  | nil =>
    cases hys
    rfl
  | @cons type x fields xs hx hxs ih =>
    cases hys with
    | @cons _ y _ ys hy hys =>
      simp only [recordWidths_cons, List.cons.injEq] at hwidths
      have hrest := ih hys hwidths.2
      unfold storedRow Row.shape at hrest ⊢
      rw [List.zipWith_cons_cons, List.zipWith_cons_cons, List.map_cons, List.map_cons, hrest]
      cases type with
      | int64 => rfl
      | string =>
        have hlength : x.bytes.length = x.byteWidth.toNat := hx.1
        have hlength' : y.bytes.length = y.byteWidth.toNat := hy.1
        simp only [Field.stored, Cell.toBytes, hlength, hlength', hwidths.1]

/-! The loop. -/

/--
The table in the loop differs in its integers only from one in which the rows have been replaced without patching
integers. That one finds room for the `n` inserts that remain.
-/
structure Follows (roundUp : Nat → Nat) (pick : List Int → Nat) (schema : Schema) (blockCapacity : Int)
    (rowId : UInt32) (xs : List Field) (ptr : BlockPtr) (r n : Nat) (t v : SizedTable) : Prop where
  filled : ∃ contents, Filled schema blockCapacity maxInt t contents
  filled' : ∃ contents, Filled schema blockCapacity maxInt v contents
  similar : t.Similar v
  reinserts : t.Reinserts roundUp pick rowId xs n
  holdsRow : v.HoldsRow schema.fields ptr r

variable {t₀ : DBTable} {place₀ place : BlockInfo} {live : Bool} {xs ys : List Field} {row : Row} {n : Nat}

theorem Follows.int (hfollows : Follows roundUp pick schema blockCapacity rowId xs ptr r n t s.table)
    (hschema : t₀.schema = schema) (h : DBTable.UpdateInv t₀ rowId place₀ ptr r live ys row place s.bare) {y : Field}
    (hcol : s.currOffsetCol ≤ info.colNum) (hc : schema.fields[info.colNum]? = some .int64)
    (hy : ys[info.colNum]? = some y) (hnn : 0 ≤ y.byteWidth → ∀ w ∈ (recordWidths ys).take info.colNum, 0 ≤ w)
    : ∃ s',
        updateColumn roundUp pick rowId ptr r (recordWidths ys) s info = some s' ∧
        DBTable.UpdateInv t₀ rowId place₀ ptr r live (ys.set info.colNum (y.inserted .int64))
          (if live then row.set info.colNum (y.stored .int64) else row) place s'.bare ∧
        s'.currOffsetCol = info.colNum ∧
        s'.bare.table.blockMap = s.bare.table.blockMap ∧
        (∀ info', info' ≠ place → s'.bare.table.row info' = s.bare.table.row info') ∧
        Follows roundUp pick schema blockCapacity rowId xs ptr r n t s'.table := by
  subst hschema
  obtain ⟨u, heq, h', hcol', hmap, hrows⟩ := h.updateColumn_int pick hcol hc hy hnn
  obtain ⟨contents, hfilled⟩ := hfollows.filled
  obtain ⟨contents', hfilled'⟩ := hfollows.filled'
  obtain ⟨m, rows, hm, hok, hr⟩ := hfollows.holdsRow
  obtain ⟨s', block, hs', rfl, htable⟩ := @updateColumn_int roundUp pick rowId ptr r (recordWidths ys) s info u
    (by rw [hfilled'.schema_eq]; exact hc) m hm (updateValue_isSome hok hc hr) heq
  refine ⟨s', hs', h', hcol', hmap, hrows, ?_⟩
  have htype : Row.HasType t₀.schema.fields row := by
    obtain ⟨i, k, rows, rfl, hrows, hrow⟩ := hfilled'.ok.repr.exists_of_row h.row_eq
    obtain ⟨-, b, -, -, hbrepr⟩ := hfilled'.ok.repr.block i rows hrows
    rw [← hfilled'.schema_eq]
    exact hbrepr.hasType row (List.mem_of_getElem? hrow)
  have hpatched : s.table.Similar s'.table := by
    rw [htable]
    refine ⟨rfl, rfl, rfl, rfl, rfl, rfl, rfl, ?_, fun _ _ _ => rfl, ?_⟩
    . simp [DBTable.setBlock]
    . intro info'
      by_cases hplace : info' = place
      . have hnew := h'.row_eq
        have hold := h.row_eq
        change s'.table.table.row place = _ at hnew
        change s.table.table.row place = _ at hold
        rw [htable] at hnew
        rw [hplace, hnew, hold, Option.map_some, Option.map_some]
        cases live with
        | true => rw [if_pos rfl, Field.stored, shape_set_int64 htype hc]
        | false => rfl
      . have := hrows info' hplace
        change s'.table.table.row info' = s.table.table.row info' at this
        rw [htable] at this
        rw [this]
  obtain ⟨contents'', hrepr⟩ := h'.repr
  have hlength : s'.table.memory.length = s'.table.table.heap.length := by
    rw [htable]
    simp [DBTable.setBlock, hfilled'.ok.length_eq]
  refine ⟨hfollows.filled, ⟨contents'', hfilled'.of_similar hpatched hrepr hlength⟩, hfollows.similar.trans hpatched,
    hfollows.reinserts, m, rows, ?_, hok, hr⟩
  rw [htable]
  exact hm

theorem HoldsRow.insertRecordTable (hround : ∀ n, n ≤ roundUp n) (hroomy : Roomy schema blockCapacity)
    (hcapacity : blockCapacity ≤ maxInt) (hfilled : Filled schema blockCapacity maxInt t contents)
    (hys : IsRecord schema.fields ys) (hsize : (recordWidths ys).sum ≤ blockCapacity)
    (hroom : t.FindsRoom roundUp pick ys) {reversed : List UInt8}
    (hinsert : t.insertRecordTable roundUp pick rowId (recordBytes ys) (recordWidths ys) = some (v, reversed))
    (hstale : ∀ k, v.table.blocks.lookup k ≠ some ptr) (h : t.HoldsRow schema.fields ptr r)
    : v.HoldsRow schema.fields ptr r := by
  obtain ⟨ptr', t₁, -, s', i, rows, -, hblock, -, hptr', -, -, -, -, heq⟩ :=
    hfilled.storeRow hround hroomy hcapacity hys hsize hroom hinsert
  obtain ⟨m, rows', hm, hok, hr⟩ := h.of_memory (memory_blockForRecord hblock)
  rw [storeRow, offerBlock_eq] at heq
  subst heq
  have hne : ptr' ≠ ptr := by
    rintro rfl
    exact hstale i hptr'
  refine ⟨m, rows', ?_, hok, hr⟩
  change (t₁.memory.set ptr' _)[ptr]? = some m
  rw [List.getElem?_set_ne hne, hm]

theorem Follows.string (hround : ∀ n, n ≤ roundUp n) (hroomy : Roomy schema blockCapacity)
    (hcapacity : blockCapacity ≤ maxInt)
    (hfollows : Follows roundUp pick schema blockCapacity rowId xs ptr r (n + 1) t s.table)
    (hschema : t₀.schema = schema) (hcap : t₀.blockCapacity = blockCapacity)
    (h : DBTable.UpdateInv t₀ rowId place₀ ptr r live ys row place s.bare) (hxs : IsRecord schema.fields xs)
    (hwidths : recordWidths ys = recordWidths xs) (hcol : s.currOffsetCol ≤ info.colNum)
    (hc : IsString schema.fields info.colNum)
    (hlast : s.bare.table.row ⟨place.blockId, place.rowNum + 1⟩ = none)
    (hfit : (recordWidths ys).sum ≤ blockCapacity)
    (hzero : rowId = 0 ∨ (∀ info ∈ t₀.blockMap.lookup 0, info = place₀ ∨ t₀.row info = none) ∨
      place.rowNum = 0 ∨ (s.bare.table.blockMap.lookup 0).map BlockInfo.rowNum = some (place.rowNum - 1))
    : ∃ s' t' place',
        updateColumn roundUp pick rowId ptr r (recordWidths ys) s info = some s' ∧
        DBTable.UpdateInv t₀ rowId place₀ ptr r false (insertedRecord schema.fields ys)
          (storedRow schema.fields ys) place' s'.bare ∧
        s'.currOffsetCol = info.colNum ∧
        s'.bare.table.row ⟨place'.blockId, place'.rowNum + 1⟩ = none ∧
        Follows roundUp pick schema blockCapacity rowId xs ptr r n t' s'.table := by
  subst hschema hcap
  obtain ⟨u, place', heq, h', hcol', hlast'⟩ := h.updateColumn_string pick hcol hc hlast hfit hzero
  obtain ⟨contents, hfilled⟩ := hfollows.filled
  obtain ⟨contents', hfilled'⟩ := hfollows.filled'
  have hsimilar := hfollows.similar
  have hys := DBTable.isRecord_of_short h.fields
  have hshape := shape_storedRow hxs hys hwidths
  have hrecordSize : storedRowSize t₀.schema.fields ys = storedRowSize t₀.schema.fields xs := by
    rw [storedRowSize_eq_rowSize hxs, storedRowSize_eq_rowSize hys]
    exact rowSize_eq_of_shape (storedRow_hasType hys) (storedRow_hasType hxs) hshape
  -- the row in the table without patches
  have hmap : t.table.blockMap.lookup (rowKey rowId) = some place := by
    rw [← hsimilar.blockMap_eq]
    exact h.updated.lookup_eq
  obtain ⟨row', hrow⟩ : ∃ row', t.table.row place = some row' := by
    have := hsimilar.rows_eq place
    rw [show s.table.table.row place = some row from h.row_eq] at this
    obtain ⟨row', hrow', -⟩ := Option.map_eq_some_iff.mp this.symm
    exact ⟨row', hrow'⟩
  have hlastT : t.table.row ⟨place.blockId, place.rowNum + 1⟩ = none := by
    have := hsimilar.rows_eq ⟨place.blockId, place.rowNum + 1⟩
    rw [show s.table.table.row _ = none from hlast] at this
    exact Option.map_eq_none_iff.mp this.symm
  -- the delete
  obtain ⟨t₁, c₁, hdelete, hfilled₁⟩ := hfilled.deleteRecordTable hround hroomy hmap hrow
  obtain ⟨v₁, c₁', hdelete', hfilled₁'⟩ := hfilled'.deleteRecordTable hround hroomy h.updated.lookup_eq h.row_eq
  have hsimilar₁ := hsimilar.deleteRecordTable hround hroomy hfilled hfilled' hmap hrow hlastT hdelete hdelete'
  -- the insert
  obtain ⟨hroom, hrest⟩ := hfollows.reinserts t₁ hdelete
  have hroom' := hsimilar₁.findsRoom hround hroomy hfilled₁ hfilled₁' hwidths hrecordSize hroom
  obtain ⟨t₂, reversed, c₂, hinsert, hfilled₂⟩ :=
    hfilled₁.insertRecordTable hround hroomy hcapacity hxs (by rw [← hwidths]; exact hfit) hroom rowId
  obtain ⟨v₂, reversed', c₂', hinsert', hfilled₂'⟩ :=
    hfilled₁'.insertRecordTable hround hroomy hcapacity hys hfit hroom' rowId
  have hsimilar₂ := hsimilar₁.insertRecordTable hround hroomy hcapacity hfilled₁ hfilled₁' hxs hys hwidths hshape
    (by rw [← hwidths]; exact hfit) hroom hinsert hinsert'
  rw [show recordBytes ys = s.record from h.record_eq.symm] at hinsert'
  obtain ⟨s', hs', rfl, htable⟩ := updateColumn_string (by rw [hfilled'.schema_eq]; exact hc) hdelete' hinsert' heq
  refine ⟨s', t₂, place', hs', h', hcol', hlast', ⟨c₂, hfilled₂⟩, ⟨c₂', by rw [htable]; exact hfilled₂'⟩,
    by rw [htable]; exact hsimilar₂, hrest _ hinsert, ?_⟩
  -- the block that the loop patches is one that the table does not refer to any more
  have hstale := h'.patches.1
  rw [show s'.bare.table = v₂.table by rw [← htable]; rfl] at hstale
  rw [htable]
  rw [show s.record = recordBytes ys from h.record_eq] at hinsert'
  apply HoldsRow.insertRecordTable hround hroomy hcapacity hfilled₁' hys hfit hroom' hinsert' hstale
  obtain ⟨_, _, _, _, -, -, -, -, hmemory⟩ := deleteRecordTable_memory h.updated.lookup_eq hdelete'
  apply hfollows.holdsRow.of_memory
  rw [hmemory]
  exact List.prefix_append _ _

theorem Follows.run (hround : ∀ n, n ≤ roundUp n) (hroomy : Roomy schema blockCapacity)
    (hcapacity : blockCapacity ≤ maxInt) (hschema : t₀.schema = schema) (hcap : t₀.blockCapacity = blockCapacity)
    (hxs : IsRecord schema.fields xs) (infos : List UpdateMetaInfo)
    (h : DBTable.UpdateInv t₀ rowId place₀ ptr r live ys row place s.bare) (hwidths : recordWidths ys = recordWidths xs)
    (hremaining : DBTable.Remaining t₀ rowId place₀ (recordWidths xs) (infos.map UpdateMetaInfo.colNum) place s.bare)
    (hfollows : Follows roundUp pick schema blockCapacity rowId xs ptr r
      ((infos.map UpdateMetaInfo.colNum).countP (IsString schema.fields ·)) t s.table)
    : ∃ s' live' ys' place',
        infos.foldlM (updateColumn roundUp pick rowId ptr r (recordWidths xs)) s = some s' ∧
        DBTable.UpdateInv t₀ rowId place₀ ptr r live' ys'
          (replay schema.fields live (infos.map UpdateMetaInfo.colNum) ys row) place' s'.bare := by
  induction infos generalizing live ys row place s t with
  | nil => exact ⟨s, live, ys, place, rfl, h⟩
  | cons info infos ih =>
    rw [List.map_cons] at hremaining hfollows ⊢
    unfold replay
    by_cases hc : IsString schema.fields info.colNum
    . have hstring : ∃ c ∈ info.colNum :: infos.map UpdateMetaInfo.colNum, IsString t₀.schema.fields c :=
        ⟨_, List.mem_cons_self, by rw [hschema]; exact hc⟩
      rw [List.countP_cons_of_pos (by simpa using hc)] at hfollows
      obtain ⟨s', t', place', heq, h', hcol', hlast', hfollows'⟩ := hfollows.string hround hroomy hcapacity hschema hcap
        h hxs hwidths hremaining.currOffsetCol_le hc (hremaining.last hstring)
        (by rw [hwidths, ← hcap]; exact hremaining.fits hstring)
        (hremaining.zero_string (by rw [hschema]; exact hc))
      rw [hwidths] at heq
      rw [List.foldlM_cons, heq, if_pos hc]
      refine ih h' ?_ (hremaining.tail_string (by rw [hschema]; exact hc) hcol' hlast') hfollows'
      rw [recordWidths_insertedRecord (by rw [← hschema]; exact DBTable.isRecord_of_short h.fields), hwidths]
    . obtain ⟨hint, y, hy⟩ := h.int_of_not_string (hremaining.bounds _ List.mem_cons_self).2 (by rw [hschema]; exact hc)
      rw [List.countP_cons_of_neg (by simpa using hc)] at hfollows
      have hpositions := hremaining.positions _ List.mem_cons_self hint y.byteWidth (by
        rw [← hwidths]
        simp [recordWidths, hy])
      rw [← hwidths] at hpositions
      obtain ⟨s', heq, h', hcol', hmap', hrow', hfollows'⟩ := hfollows.int hschema h hremaining.currOffsetCol_le
        (by rw [← hschema]; exact hint) hy hpositions
      rw [hwidths] at heq
      rw [List.foldlM_cons, heq, if_neg hc, hy]
      refine ih h' ?_ (hremaining.tail_int (by rw [hschema]; exact hc) hcol' hmap' hrow') hfollows'
      rw [DBTable.recordWidths_set hy, hwidths]

/--
An update that goes well and finds room replaces the row of `rowId` by the record and leaves everything else as it is.
-/
theorem updateRecordTable_updatedAt (hround : ∀ n, n ≤ roundUp n) (hroomy : Roomy schema blockCapacity)
    (hcapacity : blockCapacity ≤ maxInt) {t : SizedTable} (ht : HasRoom schema blockCapacity maxInt t)
    (pick : List Int → Nat) {rowId : UInt32} {place : BlockInfo} {row : Row}
    (hmap : t.table.blockMap.lookup (rowKey rowId) = some place) (hrow : t.table.row place = some row)
    {infos : List UpdateMetaInfo} (hsorted : (infos.map UpdateMetaInfo.colNum).Pairwise (· < ·))
    (hcols : ∀ c ∈ infos.map UpdateMetaInfo.colNum, c < schema.fields.length)
    {xs : List Field} (hxs : List.Forall₂ Field.Short schema.fields xs)
    (hagree : ∀ k, k ∉ infos.map UpdateMetaInfo.colNum → row[k]? = (recordRow schema.fields xs)[k]?)
    (hsafe : DBTable.UpdateSafe t.table rowId place (infos.map UpdateMetaInfo.colNum) xs)
    (hroom : t.Reinserts roundUp pick rowId xs
      ((infos.map UpdateMetaInfo.colNum).countP (IsString schema.fields ·)))
    : ∃ t' record' place',
        t.updateRecordTable roundUp pick rowId infos (recordBytes xs) (recordWidths xs) = some (t', record') ∧
        DBTable.UpdatedAt t.table t'.table rowId place place' (recordRow schema.fields xs) := by
  obtain ⟨contents, hfilled⟩ := ht
  obtain ⟨i, r, rows, rfl, hrows, hr⟩ := hfilled.ok.repr.exists_of_row hrow
  obtain ⟨ptr, b, hptr, hb, hbrepr⟩ := hfilled.ok.repr.block i rows hrows
  obtain ⟨s, hs, hok⟩ := hfilled.ok.block hrows hptr
  rw [hfilled.schema_eq] at hbrepr
  have hlen : row.length = schema.fields.length := by
    have htype := hbrepr.hasType row (List.mem_of_getElem? hr)
    rw [← htype, List.length_map]
  have hkept : DBTable.UpdatedAt t.table t.table rowId ⟨i, r⟩ ⟨i, r⟩ row := by
    refine ⟨hmap, .inl rfl, ?_, fun _ _ _ hinfo _ _ => hinfo, rfl⟩
    intro info
    split
    . next hinfo => rw [hinfo, hrow]
    . rfl
  have hinv : DBTable.UpdateInv t.table rowId ⟨i, r⟩ ptr r true xs row ⟨i, r⟩
      (⟨t, recordBytes xs, 0, 0⟩ : UpdateState).bare :=
    ⟨⟨contents, hfilled.ok.repr⟩, rfl, rfl, hkept, ⟨rfl, hptr⟩, rfl, by simp [UpdateState.bare],
      by rw [hfilled.schema_eq]; exact hxs⟩
  have hmemory : t.memory[ptr]? = some (s.valid, s.memory) := by
    obtain ⟨b', -, hs⟩ := Option.bind_eq_some_iff.mp hs
    obtain ⟨m, hm, hs⟩ := Option.bind_eq_some_iff.mp hs
    cases hs
    exact hm
  have hfollows : Follows roundUp pick schema blockCapacity rowId xs ptr r
      ((infos.map UpdateMetaInfo.colNum).countP (IsString schema.fields ·)) t t :=
    ⟨⟨contents, hfilled⟩, ⟨contents, hfilled⟩, .refl t, hroom,
      _, rows, hmemory, by rw [← hfilled.schema_eq]; exact hok.memory, (List.getElem?_eq_some_iff.mp hr).1⟩
  obtain ⟨s', live', ys', place', heq, hinv'⟩ := Follows.run (s := ⟨t, recordBytes xs, 0, 0⟩) hround hroomy hcapacity
    hfilled.schema_eq hfilled.blockCapacity_eq (DBTable.isRecord_of_short hxs) infos hinv rfl
    (hsafe.remaining hsorted (by rw [hfilled.schema_eq]; exact hcols) _) hfollows
  rw [replay_eq_recordRow hxs hcols (hsorted.imp Nat.ne_of_lt) hlen hagree] at hinv'
  . refine ⟨s'.table, s'.record, place', ?_, hinv'.updated⟩
    have hneg : ¬((r : Int) < 0) := by omega
    unfold SizedTable.updateRecordTable
    simp only [hmap, hptr, Option.bind_eq_bind, Option.bind_some, hneg, ↓reduceIte, Int.toNat_natCast,
      heq, Option.pure_def]
  . intro c x hc hx
    have horder := hsafe.order
    rw [hfilled.schema_eq] at horder
    exact horder c (List.getElem?_eq_some_iff.mp hc).1 x hx hc

def twoRowSchema : Schema := ⟨[.string, .int64, .string], by simp⟩

def insertRow (t : SizedTable) (rowId : UInt32) (row : Row) : SizedTable :=
  let xs := recordOfRow row
  (t.insertRecordTable roundUpToMultipleOf64 (fun _ => 0) rowId (recordBytes xs) (recordWidths xs)).elim t Prod.fst

def twoRowTable : SizedTable :=
  ((new twoRowSchema 100 false).insertRow 1 [.string [97], .int64 1, .string [98]]).insertRow 2
    [.string [99], .int64 2, .string [100]]

theorem twoRowSchema_roomy : Roomy twoRowSchema 100 :=
  ⟨by decide, by decide⟩

theorem HasRoom.insertRow {t : SizedTable} (h : HasRoom twoRowSchema 100 maxInt t) {rowId : UInt32} {row : Row}
    (hrow : Row.HasType twoRowSchema.fields row) (hsize : rowSize row ≤ 100)
    (hroom : t.FindsRoom roundUpToMultipleOf64 (fun _ => 0) (recordOfRow row))
    : HasRoom twoRowSchema 100 maxInt (t.insertRow rowId row) := by
  obtain ⟨contents, hfilled⟩ := h
  obtain ⟨t', reversed, contents', heq, hfilled'⟩ := hfilled.insertRecordTable le_roundUpToMultipleOf64
    twoRowSchema_roomy (by decide) (recordOfRow_isRecord hrow) (by rw [recordWidths_recordOfRow_sum]; exact hsize) hroom
    rowId
  unfold SizedTable.insertRow
  dsimp only
  rw [heq]
  exact ⟨contents', hfilled'⟩

theorem twoRowTable_hasRoom : HasRoom twoRowSchema 100 maxInt twoRowTable := by
  apply HasRoom.insertRow _ (by decide) (by decide) (by decide +kernel)
  apply HasRoom.insertRow _ (by decide) (by decide) (by decide +kernel)
  exact new_hasRoom twoRowSchema 100 maxInt false

theorem updateRecordTable_updatedAt_twoRowTable
    : ∃ t' record' place',
        twoRowTable.updateRecordTable roundUpToMultipleOf64 (fun _ => 0) 2 [⟨0, 0⟩, ⟨0, 1⟩, ⟨0, 2⟩] [120, 121, 1, 44]
          [2, 2, 0] = some (t', record') ∧
        DBTable.UpdatedAt twoRowTable.table t'.table 2 ⟨0, 1⟩ place' [.string [120, 121], .int64 300, .string []] := by
  have hrow : twoRowTable.table.row ⟨0, 1⟩ = some [.string [99], .int64 2, .string [100]] := by decide +kernel
  have hxs : List.Forall₂ Field.Short twoRowSchema.fields [⟨2, [120, 121]⟩, ⟨2, [1, 44]⟩, ⟨0, []⟩] := by decide
  have hcols : ∀ c ∈ [(⟨0, 0⟩ : UpdateMetaInfo), ⟨0, 1⟩, ⟨0, 2⟩].map UpdateMetaInfo.colNum,
      c < twoRowSchema.fields.length := by decide
  apply updateRecordTable_updatedAt le_roundUpToMultipleOf64 twoRowSchema_roomy (by decide) twoRowTable_hasRoom
    (fun _ => 0) (by decide +kernel) hrow (by decide) hcols hxs
  . intro k hk
    have hlt : 3 ≤ k := by
      simp at hk
      omega
    rw [List.getElem?_eq_none hlt, List.getElem?_eq_none hlt]
  . exact of_decide_eq_true (by decide +kernel)
  . decide +kernel

/--
An integer before a string is reversed when it is patched and again when the record is inserted, so
300 is stored as 11265.
-/
theorem not_updateRecordTable_updatedAt
    : ¬∀ (roundUp : Nat → Nat) (schema : Schema) (blockCapacity : Int) (t : SizedTable) (pick : List Int → Nat)
          (rowId : UInt32) (place : BlockInfo) (row : Row) (infos : List UpdateMetaInfo) (xs : List Field),
        (∀ n, n ≤ roundUp n) → Roomy schema blockCapacity → blockCapacity ≤ maxInt →
        HasRoom schema blockCapacity maxInt t →
        t.table.blockMap.lookup (rowKey rowId) = some place → t.table.row place = some row →
        (infos.map UpdateMetaInfo.colNum).Pairwise (· < ·) →
        (∀ c ∈ infos.map UpdateMetaInfo.colNum, c < schema.fields.length) →
        List.Forall₂ Field.Short schema.fields xs →
        (∀ k, k ∉ infos.map UpdateMetaInfo.colNum → row[k]? = (recordRow schema.fields xs)[k]?) →
        ∃ t' record' place',
          t.updateRecordTable roundUp pick rowId infos (recordBytes xs) (recordWidths xs) = some (t', record') ∧
          DBTable.UpdatedAt t.table t'.table rowId place place' (recordRow schema.fields xs) := by
  intro h
  obtain ⟨t', record', place', heq, hupdated⟩ := h roundUpToMultipleOf64 twoRowSchema 100 twoRowTable (fun _ => 0) 2
    ⟨0, 1⟩ [.string [99], .int64 2, .string [100]] [⟨0, 1⟩, ⟨0, 2⟩] [⟨1, [99]⟩, ⟨2, [1, 44]⟩, ⟨1, [101]⟩]
    le_roundUpToMultipleOf64 twoRowSchema_roomy (by decide) twoRowTable_hasRoom (by decide +kernel) (by decide +kernel)
    (by decide) (by decide) (by decide) (by
      intro k hk
      match k with
      | 0 => rfl
      | 1 => simp at hk
      | 2 => simp at hk
      | k + 3 => rfl)
  have hstored : (twoRowTable.updateRecordTable roundUpToMultipleOf64 (fun _ => 0) 2 [⟨0, 1⟩, ⟨0, 2⟩]
        (recordBytes [⟨1, [99]⟩, ⟨2, [1, 44]⟩, ⟨1, [101]⟩]) (recordWidths [⟨1, [99]⟩, ⟨2, [1, 44]⟩, ⟨1, [101]⟩])).map
      (fun x => (x.1.table.blockMap.lookup (rowKey 2)).bind x.1.table.row)
      = some (some [.string [99], .int64 11265, .string [101]]) := by
    decide +kernel
  rw [heq, Option.map_some, hupdated.lookup_eq, Option.bind_some, hupdated.row_eq, if_pos rfl] at hstored
  revert hstored
  decide

end SizedTable

end Hustle.Storage
