import Hustle.Storage.SizedDelete
import Hustle.Storage.TableUpdateLemmas

/-!
This module contains tables that differ in their integers only. Their blocks have the same memory, and they still have
it after the same row has been deleted or inserted, as no function looks at the values when it grows a buffer.
-/

namespace Hustle.Storage

/--
What is left of a row without its integers: the lengths of its strings.
-/
def Row.shape (row : Row) : List Nat :=
  row.map fun c => c.toBytes.length

theorem length_flatten_toBytes (cells : List Cell)
    : (cells.map Cell.toBytes).flatten.length = (cells.map fun c => c.toBytes.length).sum := by
  rw [List.length_flatten, List.map_map]
  rfl

theorem rowSize_eq_of_shape {fields : List FieldType} {row row' : Row} (h : Row.HasType fields row)
    (h' : Row.HasType fields row') (hshape : row.shape = row'.shape)
    : rowSize row = rowSize row' := by
  induction fields generalizing row row' with
  | nil =>
    obtain rfl := List.map_eq_nil_iff.mp h
    obtain rfl := List.map_eq_nil_iff.mp h'
    rfl
  | cons type fields ih =>
    obtain ⟨c, row, rfl, hc, hrow⟩ := h.cons
    obtain ⟨c', row', rfl, hc', hrow'⟩ := h'.cons
    obtain ⟨hhead, htail⟩ := List.cons.inj hshape
    have hrest := ih hrow hrow' htail
    unfold rowSize at hrest ⊢
    rw [List.map_cons, List.map_cons, List.sum_cons, List.sum_cons, hrest]
    cases c with
    | int64 v =>
      cases c' with
      | int64 v' => rfl
      | string bytes => rw [← hc'] at hc; cases hc
    | string bytes =>
      cases c' with
      | int64 v' => rw [← hc'] at hc; cases hc
      | string bytes' =>
        dsimp only [Cell.toBytes] at hhead ⊢
        rw [hhead]

theorem shapes_cons {rows rows' : List Row} (h : rows.map Row.shape = rows'.map Row.shape)
    : (rows.map fun row => row.headD default).map (fun c => c.toBytes.length)
          = (rows'.map fun row => row.headD default).map (fun c => c.toBytes.length) ∧
        (rows.map List.tail).map Row.shape = (rows'.map List.tail).map Row.shape := by
  have hhead : ∀ row : Row, (row.headD default).toBytes.length = row.shape.headD 0 := by
    intro row
    cases row <;> rfl
  have htail : ∀ row : Row, Row.shape row.tail = row.shape.tail := by
    intro row
    cases row <;> rfl
  constructor
  . have := congrArg (List.map fun shape : List Nat => shape.headD 0) h
    simpa only [List.map_map, Function.comp_def, hhead] using this
  . have := congrArg (List.map List.tail) h
    simpa only [List.map_map, Function.comp_def, htail] using this

theorem ArrayData.bounds_of_holds {pos n : Nat} {offsets : List Int} {data : List UInt8} {cells : List Cell}
    (h : offsets.head? = some 0 ∧ ∃ start : Nat,
      Buffer.readAt offsets pos (n + 1) = some (Column.offsetsFrom start (cells.map Cell.toBytes)) ∧
      Buffer.readAt data start (cells.map Cell.toBytes).flatten.length = some (cells.map Cell.toBytes).flatten)
    (hn : n = cells.length)
    : ∃ start : Nat, offsets[pos]? = some (start : Int) ∧
        offsets[pos + cells.length]? = some ((start : Int) + (cells.map Cell.toBytes).flatten.length) := by
  subst hn
  obtain ⟨-, start, hwindow, -⟩ := h
  refine ⟨start, ?_, ?_⟩
  . have := Column.getElem?_of_readAt (k := 0) hwindow (by omega)
    rwa [← List.head?_eq_getElem?, Column.head_offsetsFrom] at this
  . rw [Column.getElem?_of_readAt hwindow (by omega), Column.offsetsFrom_getElem? _ _ _ (by simp),
      List.take_of_length_le (by simp)]

namespace ColumnMemory

variable {roundUp : Nat → Nat} {type : FieldType} {cells cells' : List Cell}

theorem insert_congr (m : ColumnMemory)
    (h : cells.map (fun c => c.toBytes.length) = cells'.map (fun c => c.toBytes.length)) (byteWidth : Int)
    : m.insert roundUp (Column.ofCells type cells) cells.length byteWidth
        = m.insert roundUp (Column.ofCells type cells') cells'.length byteWidth := by
  have hlength : cells.length = cells'.length := by simpa using congrArg List.length h
  match type, m with
  | .int64, .int64 values => simp only [insert, Column.ofCells, Column.ofInts, hlength]
  | .int64, .string offsets data => rfl
  | .string, .int64 values => rfl
  | .string, .string offsets data =>
    have hcurr := current_offset cells
    have hcurr' := current_offset cells'
    rw [length_flatten_toBytes, h, ← length_flatten_toBytes] at hcurr
    rw [hlength] at hcurr ⊢
    simp only [insert, Column.ofCells, Column.ofStrings, hcurr, hcurr']

theorem insertAll_congr {fields : List FieldType} {rows rows' : List Row}
    (h : rows.map Row.shape = rows'.map Row.shape) (ms : List ColumnMemory) (byteWidths : List Int)
    : insertAll roundUp rows.length ms (Column.ofRows fields rows) byteWidths
        = insertAll roundUp rows'.length ms (Column.ofRows fields rows') byteWidths := by
  induction fields generalizing rows rows' ms byteWidths with
  | nil => cases ms <;> rfl
  | cons type fields ih =>
    obtain ⟨hhead, htail⟩ := shapes_cons h
    cases ms with
    | nil => rfl
    | cons m ms =>
      cases byteWidths with
      | nil => rfl
      | cons byteWidth byteWidths =>
        have hinsert := @insert_congr roundUp type _ _ m hhead byteWidth
        have hrest := ih htail ms byteWidths
        simp only [List.length_map] at hinsert hrest
        simp only [insertAll, Column.ofRows, hinsert, hrest]

theorem insertSlice_congr (m : ColumnMemory)
    (h : cells.map (fun c => c.toBytes.length) = cells'.map (fun c => c.toBytes.length)) {new new' : List Cell}
    (hnew : new.map (fun c => c.toBytes.length) = new'.map (fun c => c.toBytes.length)) {vals vals' : ArrayData}
    (hvals : vals.Holds type new) (hvals' : vals'.Holds type new')
    : m.insertSlice roundUp (Column.ofCells type cells) cells.length vals.offset vals new.length
        = m.insertSlice roundUp (Column.ofCells type cells') cells'.length vals'.offset vals' new'.length := by
  have hlength : cells.length = cells'.length := by simpa using congrArg List.length h
  have hlengthNew : new.length = new'.length := by simpa using congrArg List.length hnew
  obtain ⟨hcount, -, hvals⟩ := hvals
  obtain ⟨hcount', -, hvals'⟩ := hvals'
  match type, m, hbuf : vals.buffers, hbuf' : vals'.buffers, hvals, hvals' with
  | .int64, .int64 values, .int64 inValues, .int64 inValues', _, _ =>
    simp only [insertSlice, Column.ofCells, Column.ofInts, hbuf, hbuf', List.length_map, hlength, hlengthNew]
  | .int64, .string offsets data, .int64 inValues, .int64 inValues', _, _ =>
    simp only [insertSlice, Column.ofCells, Column.ofInts, hbuf, hbuf']
  | .string, .int64 values, .string inOffsets inData, .string inOffsets' inData', _, _ =>
    simp only [insertSlice, Column.ofCells, Column.ofStrings, hbuf, hbuf']
  | .string, .string offsets data, .string inOffsets inData, .string inOffsets' inData', hvals, hvals' =>
    have hcurr := current_offset cells
    have hcurr' := current_offset cells'
    have hsum : (cells.map Cell.toBytes).flatten.length = (cells'.map Cell.toBytes).flatten.length := by
      rw [length_flatten_toBytes, h, ← length_flatten_toBytes]
    have hsumNew : (new.map Cell.toBytes).flatten.length = (new'.map Cell.toBytes).flatten.length := by
      rw [length_flatten_toBytes, hnew, ← length_flatten_toBytes]
    obtain ⟨start, hstart, hstop⟩ := ArrayData.bounds_of_holds hvals hcount
    obtain ⟨start', hstart', hstop'⟩ := ArrayData.bounds_of_holds hvals' hcount'
    rw [hsum, hlength] at hcurr
    rw [hsumNew, hlengthNew] at hstop
    have hdiff : ∀ (start : Nat) (n : Nat), (start : Int) + n - start = n := by
      intro start n
      omega
    simp only [insertSlice, Column.ofCells, Column.ofStrings, hbuf, hbuf', hcurr, hcurr', hstart, hstart', hlength,
      hlengthNew, hstop, hstop', hdiff, hsum, Option.bind_eq_bind, Option.bind_some]

theorem insertSlices_congr {fields : List FieldType} {rows rows' new new' : List Row}
    (h : rows.map Row.shape = rows'.map Row.shape) (hnew : new.map Row.shape = new'.map Row.shape)
    (ms : List ColumnMemory) {columnData columnData' : List ArrayData} {offset : Nat}
    (hdata : ArrayData.HoldRows fields columnData new) (hoffset : ∀ a ∈ columnData, a.offset = offset)
    (hdata' : ArrayData.HoldRows fields columnData' new') (hoffset' : ∀ a ∈ columnData', a.offset = offset)
    : insertSlices roundUp rows.length offset new.length ms (Column.ofRows fields rows) columnData
        = insertSlices roundUp rows'.length offset new'.length ms (Column.ofRows fields rows') columnData' := by
  induction fields generalizing rows rows' new new' ms columnData columnData' with
  | nil => cases ms <;> rfl
  | cons type fields ih =>
    obtain ⟨hhead, htail⟩ := shapes_cons h
    obtain ⟨hheadNew, htailNew⟩ := shapes_cons hnew
    obtain ⟨a, as, rfl, ha, has⟩ := hdata.cons
    obtain ⟨a', as', rfl, ha', has'⟩ := hdata'.cons
    simp only [List.forall_mem_cons] at hoffset hoffset'
    cases ms with
    | nil => rfl
    | cons m ms =>
      have hinsert := @insertSlice_congr roundUp type _ _ m hhead _ _ hheadNew _ _ ha ha'
      have hrest := ih htail htailNew ms has hoffset.2 has' hoffset'.2
      rw [hoffset.1, hoffset'.1] at hinsert
      simp only [List.length_map] at hinsert hrest
      simp only [insertSlices, Column.ofRows, hinsert, hrest]

theorem size_congr (h : cells.map (fun c => c.toBytes.length) = cells'.map (fun c => c.toBytes.length))
    : (Column.ofCells type cells).size = (Column.ofCells type cells').size := by
  cases type with
  | int64 =>
    have hlength : cells.length = cells'.length := by simpa using congrArg List.length h
    simp only [Column.ofCells, Column.ofInts, List.length_map, hlength]
  | string =>
    simp only [Column.ofCells, Column.ofStrings]
    rw [length_flatten_toBytes, h, ← length_flatten_toBytes]

theorem roomAll_congr {fields : List FieldType} {rows rows' : List Row}
    (h : rows.map Row.shape = rows'.map Row.shape) (ms : List ColumnMemory) (byteWidths : List Int)
    : RoomAll roundUp rows.length ms (Column.ofRows fields rows) byteWidths
        ↔ RoomAll roundUp rows'.length ms (Column.ofRows fields rows') byteWidths := by
  induction fields generalizing rows rows' ms byteWidths with
  | nil =>
    cases ms <;> rfl
  | cons type fields ih =>
    obtain ⟨hhead, htail⟩ := shapes_cons h
    have hlength : rows.length = rows'.length := by simpa using congrArg List.length h
    cases ms with
    | nil => rfl
    | cons m ms =>
      cases byteWidths with
      | nil => rfl
      | cons byteWidth byteWidths =>
        have hrest := ih htail ms byteWidths
        simp only [List.length_map] at hrest
        simp only [RoomAll, Column.ofRows, hrest]
        apply and_congr_left'
        cases m with
        | int64 values => simp only [Room, hlength]
        | string offsets data =>
          simp only [Room, hlength, size_congr hhead]

end ColumnMemory

namespace SizedBlock

/--
Two blocks with the same memory, whose rows differ in their integers only.
-/
structure Similar (s s' : SizedBlock) (id : Int) (schema : Schema) (capacity : Int) (rows rows' : List Row)
    : Prop where
  ok : s.Ok id schema capacity rows
  ok' : s'.Ok id schema capacity rows'
  shapes : rows.map Row.shape = rows'.map Row.shape
  valid_eq : s.valid = s'.valid
  memory_eq : s.memory = s'.memory

namespace Similar

variable {roundUp : Nat → Nat} {s s' : SizedBlock} {id : Int} {schema : Schema} {capacity : Int}
  {rows rows' : List Row}

theorem length_eq (h : s.Similar s' id schema capacity rows rows') : rows.length = rows'.length := by
  simpa using congrArg List.length h.shapes

theorem sum_rowSize_eq {rows rows' : List Row} {fields : List FieldType}
    (htype : ∀ row ∈ rows, Row.HasType fields row) (htype' : ∀ row ∈ rows', Row.HasType fields row)
    (h : rows.map Row.shape = rows'.map Row.shape)
    : (rows.map rowSize).sum = (rows'.map rowSize).sum := by
  induction rows generalizing rows' with
  | nil =>
    obtain rfl := List.map_eq_nil_iff.mp h.symm
    rfl
  | cons row rows ih =>
    cases rows' with
    | nil => cases h
    | cons row' rows' =>
      obtain ⟨hrow, hrows⟩ := List.cons.inj h
      simp only [List.forall_mem_cons] at htype htype'
      rw [List.map_cons, List.map_cons, List.sum_cons, List.sum_cons, rowSize_eq_of_shape htype.1 htype'.1 hrow,
        ih htype.2 htype'.2 hrows]

theorem numBytes_eq (h : s.Similar s' id schema capacity rows rows') : s.block.numBytes = s'.block.numBytes := by
  rw [h.ok.repr.numBytes_eq, h.ok.repr.columns_eq, Column.totalSize_ofRows h.ok.repr.hasType, h.ok'.repr.numBytes_eq,
    h.ok'.repr.columns_eq, Column.totalSize_ofRows h.ok'.repr.hasType]
  exact sum_rowSize_eq h.ok.repr.hasType h.ok'.repr.hasType h.shapes

theorem getBytesLeft_eq (h : s.Similar s' id schema capacity rows rows')
    : s.block.getBytesLeft = s'.block.getBytesLeft := by
  rw [Block.getBytesLeft, Block.getBytesLeft, h.ok.repr.capacity_eq, h.ok'.repr.capacity_eq, h.numBytes_eq]

theorem roomAll_iff (h : s.Similar s' id schema capacity rows rows') (byteWidths : List Int)
    : ColumnMemory.RoomAll roundUp s.block.numRows s.memory s.block.columns byteWidths
        ↔ ColumnMemory.RoomAll roundUp s'.block.numRows s'.memory s'.block.columns byteWidths := by
  rw [h.ok.repr.numRows_eq, h.ok.repr.columns_eq, h.ok'.repr.numRows_eq, h.ok'.repr.columns_eq, h.memory_eq]
  exact ColumnMemory.roomAll_congr h.shapes _ _

theorem insertRecord (h : s.Similar s' id schema capacity rows rows') {record record' : List UInt8}
    {byteWidths : List Int} {res res' : Int} {s₁ s₁' : SizedBlock} (hres : res ≠ -1) (hres' : res' ≠ -1)
    (hinsert : s.insertRecord roundUp record byteWidths = some (res, s₁))
    (hinsert' : s'.insertRecord roundUp record' byteWidths = some (res', s₁'))
    : s₁.valid = s₁'.valid ∧ s₁.memory = s₁'.memory := by
  obtain ⟨hvalid, -, -, hmemory⟩ := SizedBlock.insertRecord_memory hres hinsert
  obtain ⟨hvalid', -, -, hmemory'⟩ := SizedBlock.insertRecord_memory hres' hinsert'
  rw [h.ok.repr.numRows_eq, h.ok.repr.columns_eq, h.memory_eq, ColumnMemory.insertAll_congr h.shapes,
    ← h.ok'.repr.numRows_eq, ← h.ok'.repr.columns_eq, hmemory'] at hmemory
  exact ⟨by rw [hvalid, hvalid', h.valid_eq], (Option.some.inj hmemory).symm⟩

theorem insertRecords_memory {s s₁ : SizedBlock} {columnData : List ArrayData} {first : ArrayData} {res : Int}
    (hfirst : columnData.head? = some first) (hne : first.length ≠ 0)
    (hinsert : s.insertRecords roundUp columnData = some (res, s₁))
    : s₁.valid = s.valid.resize roundUp (s.valid.size + first.length / 8 + 1) ∧
        ColumnMemory.insertSlices roundUp s.block.numRows first.offset first.length s.memory s.block.columns columnData
          = some s₁.memory := by
  unfold SizedBlock.insertRecords at hinsert
  rw [hfirst] at hinsert
  simp only [Option.bind_eq_bind, Option.bind_some, hne, if_false] at hinsert
  obtain ⟨⟨res', block⟩, -, hinsert⟩ := Option.bind_eq_some_iff.mp hinsert
  obtain ⟨valid, hvalid, hinsert⟩ := Option.bind_eq_some_iff.mp hinsert
  obtain ⟨memory, hmemory, hinsert⟩ := Option.bind_eq_some_iff.mp hinsert
  obtain ⟨s₂, hcheck, hinsert⟩ := Option.bind_eq_some_iff.mp hinsert
  cases hinsert
  unfold SizedBlock.check at hcheck
  split at hcheck
  . cases hcheck
    refine ⟨?_, hmemory⟩
    unfold Allocation.write at hvalid
    split at hvalid
    . exact (Option.some.inj hvalid).symm
    . cases hvalid
  . cases hcheck

/--
Rebuilding from rows that differ in their integers only.
-/
theorem insertRows (hround : ∀ n, n ≤ roundUp n) (h : s.Similar s' id schema capacity rows rows')
    {columnData columnData' : List ArrayData} {src src' : List Row}
    (hdata : ArrayData.HoldRows schema.fields columnData src) (htype : ∀ row ∈ src, Row.HasType schema.fields row)
    (hoffset : ∀ a ∈ columnData, a.offset = 0) (hdata' : ArrayData.HoldRows schema.fields columnData' src')
    (htype' : ∀ row ∈ src', Row.HasType schema.fields row) (hoffset' : ∀ a ∈ columnData', a.offset = 0)
    (hshapes : src.map Row.shape = src'.map Row.shape) (ks : List Nat) (hks : ∀ k ∈ ks, k < src.length)
    (hrows : ((rows.length + ks.length : Nat) : Int) ≤ maxInt)
    (hbytes : ((rows ++ ks.filterMap (src[·]?)).map rowSize).sum ≤ maxInt)
    (hbytes' : ((rows' ++ ks.filterMap (src'[·]?)).map rowSize).sum ≤ maxInt) {s₁ s₁' : SizedBlock}
    (hrun : ks.foldlM (fun s row => do
      let (_, s) ← s.insertRecords roundUp (sliceAll columnData row 1)
      return s) s = some s₁)
    (hrun' : ks.foldlM (fun s row => do
      let (_, s) ← s.insertRecords roundUp (sliceAll columnData' row 1)
      return s) s' = some s₁')
    : s₁.valid = s₁'.valid ∧ s₁.memory = s₁'.memory := by
  have hlength : src.length = src'.length := by simpa using congrArg List.length hshapes
  induction ks generalizing s s' rows rows' with
  | nil =>
    cases hrun
    cases hrun'
    exact ⟨h.valid_eq, h.memory_eq⟩
  | cons k ks ih =>
    simp only [List.forall_mem_cons, List.length_cons] at hks hrows
    obtain ⟨hk, hks⟩ := hks
    have hk' : k < src'.length := hlength ▸ hk
    rw [List.filterMap_cons_some (List.getElem?_eq_getElem hk), List.append_cons] at hbytes
    rw [List.filterMap_cons_some (List.getElem?_eq_getElem hk'), List.append_cons] at hbytes'
    have hone := h.length_eq
    obtain ⟨res, s₂, hinsert, hok⟩ := h.ok.insertRow hround hdata htype hoffset hk (by omega) hbytes
    obtain ⟨res', s₂', hinsert', hok'⟩ := h.ok'.insertRow hround hdata' htype' hoffset' hk' (by omega) hbytes'
    obtain ⟨first, hfirst, hfirstLength, hfirstOffset, hslice, hoffsets⟩ :=
      ArrayData.oneRow hdata htype hoffset hk
    obtain ⟨first', hfirst', hfirstLength', hfirstOffset', hslice', hoffsets'⟩ :=
      ArrayData.oneRow hdata' htype' hoffset' hk'
    obtain ⟨hvalid, hmemory⟩ := insertRecords_memory hfirst (by omega) hinsert
    obtain ⟨hvalid', hmemory'⟩ := insertRecords_memory hfirst' (by omega) hinsert'
    have hshape : [src[k]].map Row.shape = [src'[k]].map Row.shape := by
      have := congrArg (·[k]?) hshapes
      simpa [List.getElem?_eq_getElem hk, List.getElem?_eq_getElem hk'] using this
    have hsame := @ColumnMemory.insertSlices_congr roundUp _ _ _ _ _ h.shapes hshape s.memory _ _ _ hslice hoffsets
      hslice' hoffsets'
    rw [h.ok.repr.numRows_eq, h.ok.repr.columns_eq, hfirstOffset, hfirstLength] at hmemory
    rw [h.ok'.repr.numRows_eq, h.ok'.repr.columns_eq, hfirstOffset', hfirstLength', ← h.memory_eq] at hmemory'
    rw [List.length_singleton, List.length_singleton, hmemory, hmemory', Option.some.injEq] at hsame
    rw [List.foldlM_cons, hinsert] at hrun
    rw [List.foldlM_cons, hinsert'] at hrun'
    refine ih ⟨hok, hok', ?_, ?_, hsame⟩ hks (by simp; omega) hbytes hbytes' hrun hrun'
    . rw [List.map_append, List.map_append, h.shapes, hshape]
    . rw [hvalid, hvalid', h.valid_eq, hfirstLength, hfirstLength']

theorem rebuilt (hround : ∀ n, n ≤ roundUp n) {new : SizedBlock} (hnew : new.Ok id schema capacity [])
    (h : s.Similar s' id schema capacity rows rows') (hsmall : SizedTable.Small rows) (hsmall' : SizedTable.Small rows')
    {r : Nat} {filled filled' : SizedBlock}
    (hfilled : new.insertRecordsFrom roundUp (s.block.setValid r false).valid s.block.getColumns = some filled)
    (hfilled' : new.insertRecordsFrom roundUp (s'.block.setValid r false).valid s'.block.getColumns = some filled')
    : filled.valid = filled'.valid ∧ filled.memory = filled'.memory := by
  have hcols : s.block.getColumns = (Column.ofRows schema.fields rows).map Column.array := by
    rw [← h.ok.repr.columns_eq]
    rfl
  have hcols' : s'.block.getColumns = (Column.ofRows schema.fields rows').map Column.array := by
    rw [← h.ok'.repr.columns_eq]
    rfl
  have htype := h.ok.repr.hasType
  have htype' := h.ok'.repr.hasType
  have hempty : new.Similar new id schema capacity [] [] := ⟨hnew, hnew, rfl, rfl, rfl⟩
  have hsum := Block.sum_validRows_le (s.block.setValid r false).valid rows
  have hsum' := Block.sum_validRows_le (s'.block.setValid r false).valid rows'
  rw [h.ok.repr.validRows_setValid] at hsum
  rw [h.ok'.repr.validRows_setValid, ← h.length_eq] at hsum'
  rw [hcols, SizedBlock.Ok.insertRecordsFrom_eq new htype, h.ok.repr.validRows_setValid] at hfilled
  rw [hcols', SizedBlock.Ok.insertRecordsFrom_eq new htype', h.ok'.repr.validRows_setValid, ← h.length_eq] at hfilled'
  have hkept := List.length_filter_le (fun k => decide (k ≠ r)) (List.range rows.length)
  rw [List.length_range] at hkept
  obtain ⟨hlength, hbytes⟩ := hsmall
  obtain ⟨-, hbytes'⟩ := hsmall'
  refine hempty.insertRows hround (ArrayData.holdRows_ofRows htype) htype (SizedBlock.Ok.offset_columns rows)
    (ArrayData.holdRows_ofRows htype') htype' (SizedBlock.Ok.offset_columns rows') h.shapes _
    (fun k hk => List.mem_range.mp (List.mem_of_mem_filter hk)) ?_ ?_ ?_ hfilled hfilled'
  . rw [List.length_nil]
    omega
  . rw [List.nil_append]
    omega
  . rw [List.nil_append]
    omega

end Similar

end SizedBlock

namespace SizedTable

/--
Two tables with the same blocks in memory, whose rows differ in their integers only.
-/
structure Similar (t u : SizedTable) : Prop where
  schema_eq : u.table.schema = t.table.schema
  blockCapacity_eq : u.table.blockCapacity = t.table.blockCapacity
  blockCounter_eq : u.table.blockCounter = t.table.blockCounter
  blocks_eq : u.table.blocks = t.table.blocks
  insertPool_eq : u.table.insertPool = t.table.insertPool
  blockMap_eq : u.table.blockMap = t.table.blockMap
  numRows_eq : u.table.numRows = t.table.numRows
  heap_length_eq : u.table.heap.length = t.table.heap.length
  memory_eq : ∀ k ptr, t.table.blocks.lookup k = some ptr → u.memory[ptr]? = t.memory[ptr]?
  rows_eq : ∀ info, (u.table.row info).map Row.shape = (t.table.row info).map Row.shape

variable {roundUp : Nat → Nat} {pick : List Int → Nat} {t u : SizedTable} {contents contents' : List (List Row)}

theorem Similar.refl (t : SizedTable) : t.Similar t :=
  ⟨rfl, rfl, rfl, rfl, rfl, rfl, rfl, rfl, fun _ _ _ => rfl, fun _ => rfl⟩

theorem Similar.trans {v : SizedTable} (h : t.Similar u) (h' : u.Similar v) : t.Similar v where
  schema_eq := h'.schema_eq.trans h.schema_eq
  blockCapacity_eq := h'.blockCapacity_eq.trans h.blockCapacity_eq
  blockCounter_eq := h'.blockCounter_eq.trans h.blockCounter_eq
  blocks_eq := h'.blocks_eq.trans h.blocks_eq
  insertPool_eq := h'.insertPool_eq.trans h.insertPool_eq
  blockMap_eq := h'.blockMap_eq.trans h.blockMap_eq
  numRows_eq := h'.numRows_eq.trans h.numRows_eq
  heap_length_eq := h'.heap_length_eq.trans h.heap_length_eq
  memory_eq k ptr hptr := (h'.memory_eq k ptr (h.blocks_eq ▸ hptr)).trans (h.memory_eq k ptr hptr)
  rows_eq info := (h'.rows_eq info).trans (h.rows_eq info)

theorem Similar.block (h : t.Similar u) (hok : t.Ok contents) (hok' : u.Ok contents') {k : Int} {ptr : BlockPtr}
    (hptr : t.table.blocks.lookup k = some ptr)
    : ∃ s s' rows rows', ∃ i : Nat, k = i ∧ contents[i]? = some rows ∧ contents'[i]? = some rows' ∧
        t.block ptr = some s ∧ u.block ptr = some s' ∧
        s.Similar s' i t.table.schema t.table.blockCapacity rows rows' := by
  obtain ⟨i, rfl, hi⟩ := hok.repr.keys k ptr hptr
  have hlength : contents'.length = contents.length := by
    have := hok.repr.counter_eq
    have := hok'.repr.counter_eq
    have := h.blockCounter_eq
    omega
  have hrows := List.getElem?_eq_getElem hi
  have hrows' := List.getElem?_eq_getElem (hlength.symm ▸ hi)
  obtain ⟨s, hs, hsok⟩ := hok.block hrows hptr
  obtain ⟨s', hs', hsok'⟩ := hok'.block hrows' (by rw [h.blocks_eq]; exact hptr)
  rw [h.schema_eq, h.blockCapacity_eq] at hsok'
  have hmemory := h.memory_eq i ptr hptr
  have hm : ∀ {v : SizedTable} {b : SizedBlock}, v.block ptr = some b → v.memory[ptr]? = some (b.valid, b.memory) := by
    intro v b hb
    obtain ⟨b', -, hb⟩ := Option.bind_eq_some_iff.mp hb
    obtain ⟨m, hm, hb⟩ := Option.bind_eq_some_iff.mp hb
    cases hb
    exact hm
  rw [hm hs, hm hs', Option.some.injEq, Prod.mk.injEq] at hmemory
  refine ⟨s, s', _, _, i, rfl, hrows, hrows', hs, hs', hsok, hsok', ?_, hmemory.1.symm, hmemory.2.symm⟩
  apply List.ext_getElem?
  intro r
  have := h.rows_eq ⟨i, r⟩
  rw [hok.repr.row_eq, hok'.repr.row_eq] at this
  simpa [hrows, hrows'] using this.symm

section

variable {ptr ptr' : BlockPtr} {t' u' : SizedTable}

theorem createBlock_eq (hok : t.Ok contents) (ht : t.createBlock roundUp = some (ptr, t'))
    : ptr = t.table.heap.length ∧ t'.table = t.table.createBlock.2 ∧
        (∃ memory, t.table.schema.fields.mapM
            (ColumnMemory.allocate roundUp (SizedBlock.initRows t.table.schema t.table.blockCapacity).toNat) = some memory ∧
          t'.memory = t.memory ++ [(Allocation.allocate roundUp 0, memory)]) ∧
        ∀ info, t'.table.row info = t.table.row info := by
  obtain ⟨s, hs, ht⟩ := Option.bind_eq_some_iff.mp ht
  cases ht
  refine ⟨rfl, rfl, ?_, ?_⟩
  . unfold SizedBlock.new at hs
    split at hs
    . cases hs
    . obtain ⟨memory, hmemory, hs⟩ := Option.bind_eq_some_iff.mp hs
      cases hs
      exact ⟨memory, hmemory, rfl⟩
  . intro info
    obtain ⟨hrepr, -, -⟩ := hok.repr.createBlock
    show (t.table.createBlock.2).row info = _
    rw [hrepr.row_eq, hok.repr.row_eq]
    split
    . by_cases hlt : info.blockId.toNat < contents.length
      . rw [List.getElem?_append_left hlt]
      . rw [List.getElem?_append_right (by omega), List.getElem?_eq_none (l := contents) (by omega)]
        cases info.blockId.toNat - contents.length <;> simp
    . rfl

theorem Similar.createBlock (h : t.Similar u) (hok : t.Ok contents) (hok' : u.Ok contents')
    (ht : t.createBlock roundUp = some (ptr, t')) (hu : u.createBlock roundUp = some (ptr', u'))
    : ptr = ptr' ∧ t'.Similar u' := by
  obtain ⟨rfl, htable, ⟨memory, hmemory, hmem⟩, hrows⟩ := createBlock_eq hok ht
  obtain ⟨rfl, htable', ⟨memory', hmemory', hmem'⟩, hrows'⟩ := createBlock_eq hok' hu
  rw [h.schema_eq, h.blockCapacity_eq, hmemory, Option.some.injEq] at hmemory'
  subst hmemory'
  refine ⟨h.heap_length_eq.symm, ?_⟩
  have hcounter : u.table.blockCounter = t.table.blockCounter := h.blockCounter_eq
  refine ⟨?_, ?_, ?_, ?_, ?_, ?_, ?_, ?_, ?_, ?_⟩
  . rw [htable, htable']
    exact h.schema_eq
  . rw [htable, htable']
    exact h.blockCapacity_eq
  . rw [htable, htable']
    simp only [DBTable.createBlock, hcounter]
  . rw [htable, htable']
    simp only [DBTable.createBlock, hcounter, h.blocks_eq, h.heap_length_eq]
  . rw [htable, htable']
    exact h.insertPool_eq
  . rw [htable, htable']
    exact h.blockMap_eq
  . rw [htable, htable']
    exact h.numRows_eq
  . rw [htable, htable']
    simp only [DBTable.createBlock, List.length_append, h.heap_length_eq, List.length_singleton]
  . intro k p hp
    have hlength := hok.length_eq
    have hlength' := hok'.length_eq
    have hheap := h.heap_length_eq
    rw [htable, (DBTable.createBlock_newBlock t.table).lookup hok.repr] at hp
    rw [hmem, hmem']
    split at hp
    . cases hp
      rw [← hlength, List.getElem?_concat_length, hlength, ← hheap, ← hlength', List.getElem?_concat_length]
    . have hlt := hok.repr.ptr_lt hp
      rw [List.getElem?_append_left (by rw [hlength', hheap]; exact hlt),
        List.getElem?_append_left (by rw [hlength]; exact hlt)]
      exact h.memory_eq k p hp
  . intro info
    rw [hrows, hrows']
    exact h.rows_eq info

theorem Similar.getBlockForInsert (h : t.Similar u) (hok : t.Ok contents) (hok' : u.Ok contents')
    (ht : t.getBlockForInsert roundUp pick = some (ptr, t')) (hu : u.getBlockForInsert roundUp pick = some (ptr', u'))
    : ptr = ptr' ∧ t'.Similar u' := by
  unfold SizedTable.getBlockForInsert at ht hu
  rw [h.insertPool_eq] at hu
  dsimp only at ht hu
  split at ht
  . next hnone =>
    rw [hnone] at hu
    exact h.createBlock hok hok' ht hu
  . next hsome =>
    rw [hsome] at hu
    cases ht
    cases hu
    exact ⟨rfl, h.schema_eq, h.blockCapacity_eq, h.blockCounter_eq, h.blocks_eq, rfl, h.blockMap_eq, h.numRows_eq,
      h.heap_length_eq, h.memory_eq, h.rows_eq⟩

theorem Similar.blockForRecord (hround : ∀ n, n ≤ roundUp n)
    (hroomy : Roomy t.table.schema t.table.blockCapacity) (h : t.Similar u) (hok : t.Ok contents)
    (hok' : u.Ok contents') {recordSize : Int} (ht : t.blockForRecord roundUp pick recordSize = some (ptr, t'))
    (hu : u.blockForRecord roundUp pick recordSize = some (ptr', u'))
    : ptr = ptr' ∧ t'.Similar u' := by
  obtain ⟨p, t₁, k, i, hget, -, hok₁, hp, -, -⟩ := hok.getBlockForInsert hround hroomy pick
  obtain ⟨p', u₁, k', i', hget', -, hok₁', -, -, -⟩ :=
    hok'.getBlockForInsert hround (by rw [h.schema_eq, h.blockCapacity_eq]; exact hroomy) pick
  obtain ⟨rfl, hsimilar⟩ := h.getBlockForInsert hok hok' hget hget'
  obtain ⟨s, s', rows, rows', j, -, -, -, hs, hs', hblock⟩ := hsimilar.block hok₁ hok₁' hp
  unfold SizedTable.blockForRecord at ht hu
  simp only [hget, hget', hs, hs', hblock.getBytesLeft_eq, Option.bind_eq_bind, Option.bind_some] at ht hu
  split at ht
  . next hlt =>
    rw [if_pos hlt] at hu
    exact hsimilar.createBlock hok₁ hok₁' ht hu
  . next hlt =>
    rw [if_neg hlt] at hu
    cases ht
    cases hu
    exact ⟨rfl, hsimilar⟩

variable {schema : Schema} {blockCapacity : Int} {xs ys : List Field}

theorem Similar.findsRoom (hround : ∀ n, n ≤ roundUp n) (hroomy : Roomy schema blockCapacity) (h : t.Similar u)
    (ht : Filled schema blockCapacity maxInt t contents) (hu : Filled schema blockCapacity maxInt u contents')
    (hwidths : recordWidths ys = recordWidths xs)
    (hsize : storedRowSize schema.fields ys = storedRowSize schema.fields xs) (hroom : t.FindsRoom roundUp pick xs)
    : u.FindsRoom roundUp pick ys := by
  obtain ⟨hcount, hroom⟩ := hroom
  refine ⟨by rw [h.numRows_eq]; exact hcount, ?_⟩
  rw [ht.schema_eq] at hroom
  rw [hwidths, hu.schema_eq, hsize]
  have hroomyT := ht.roomy hroomy
  have hroomyU := hu.roomy hroomy
  have hrecord : u.table.getRecordSize (recordWidths xs) = t.table.getRecordSize (recordWidths xs) := by
    unfold DBTable.getRecordSize
    rw [h.schema_eq]
  rw [hrecord]
  rintro ⟨ptr, u'⟩ hblock s' hs'
  obtain ⟨ptr', t', s, rows, k, i, hblock', hloading, hs, -⟩ :=
    ht.ok.blockForRecord hround hroomyT pick (t.table.getRecordSize (recordWidths xs))
  obtain ⟨ptr'', u'', -, -, k', i', hblock'', hloading', -⟩ :=
    hu.ok.blockForRecord hround hroomyU pick (t.table.getRecordSize (recordWidths xs))
  rw [Option.mem_def, hblock''] at hblock
  cases hblock
  obtain ⟨rfl, hsimilar⟩ := h.blockForRecord hround hroomyT ht.ok hu.ok hblock' hblock''
  obtain ⟨b, b', rows, rows', j, -, -, -, hb, hb', hsame⟩ := hsimilar.block hloading.ok hloading'.ok hloading.lookup
  rw [Option.mem_def, hb', Option.some.injEq] at hs'
  subst hs'
  obtain ⟨hbytes, hbuffers⟩ := hroom (ptr', t') hblock' b hb
  rw [← hsame.numBytes_eq, ← hsame.roomAll_iff]
  exact ⟨hbytes, hbuffers⟩

theorem offerBlock_eq (t : DBTable) (ptr : BlockPtr) (b : Block)
    : t.offerBlock ptr b = { t with
        insertPool := if t.fixedRecordWidth < b.getBytesLeft then t.insertPool.insert b.id ptr else t.insertPool } := by
  unfold DBTable.offerBlock
  split <;> rfl

/--
The table after the block behind `ptr` has stored a record in row `rowNum`.
-/
def storeRow (t : SizedTable) (ptr : BlockPtr) (s : SizedBlock) (rowNum : Int) (rowId : UInt32) : SizedTable :=
  let table := { (t.setBlock ptr s).table with numRows := t.table.numRows + 1 }.offerBlock ptr s.block
  ⟨{ table with blockMap := table.blockMap.insert (rowKey rowId) ⟨s.block.id, rowNum⟩ }, (t.setBlock ptr s).memory⟩

theorem Filled.storeRow (hround : ∀ n, n ≤ roundUp n) (hroomy : Roomy schema blockCapacity)
    (hcapacity : blockCapacity ≤ maxInt) (h : Filled schema blockCapacity maxInt t contents)
    (hrec : IsRecord schema.fields xs) (hsize : (recordWidths xs).sum ≤ blockCapacity)
    (hroom : t.FindsRoom roundUp pick xs) {rowId : UInt32} {reversed : List UInt8}
    (hinsert : t.insertRecordTable roundUp pick rowId (recordBytes xs) (recordWidths xs) = some (t', reversed))
    : ∃ ptr t₁ s s', ∃ (i : Nat) (rows : List Row) (c : List (List Row)),
        t.blockForRecord roundUp pick (t.table.getRecordSize (recordWidths xs)) = some (ptr, t₁) ∧
        t₁.Ok c ∧ t₁.table.blocks.lookup (i : Int) = some ptr ∧ t₁.block ptr = some s ∧
        s.Ok i schema blockCapacity rows ∧
        s.insertRecord roundUp (recordBytes xs) (recordWidths xs) = some ((rows.length : Int), s') ∧
        s'.Ok i schema blockCapacity (rows ++ [storedRow schema.fields xs]) ∧
        t' = t₁.storeRow ptr s' rows.length rowId := by
  have hroomyT := h.roomy hroomy
  have hrecord := h.getRecordSize_eq hrec
  have hwidths := recordWidths_sum_le_storedRowSize hrec
  obtain ⟨ptr, t₁, s, rows, k, i, hblock, hloading, hs, hrows, hsok, hleft, -⟩ :=
    h.ok.blockForRecord hround hroomyT pick (t.table.getRecordSize (recordWidths xs))
  rw [h.schema_eq, h.blockCapacity_eq] at hsok
  rw [hrecord, h.blockCapacity_eq] at hleft
  obtain ⟨hcount, hroom⟩ := hroom
  obtain ⟨hbytes, hbuffers⟩ := hroom (ptr, t₁) hblock s hs
  rw [h.schema_eq] at hbytes
  have hlens := (List.sublist_flatten_of_mem (List.mem_of_getElem? hrows)).length_le
  rw [List.flatten_append, List.flatten_replicate_nil, List.append_nil] at hlens
  have hnum := h.numRows_eq
  obtain ⟨s', hs', hsok'⟩ := hsok.insertRecord_stored hround hrec (by omega) (by omega)
    (by rw [hsok.repr.numRows_eq]; omega) hbytes hbuffers
  refine ⟨ptr, t₁, s, s', i, rows, _, hblock, hloading.ok, hloading.lookup, hs, hsok, hs', hsok', ?_⟩
  obtain ⟨⟨info, table, reversed'⟩, -, hinsert⟩ := Option.bind_eq_some_iff.mp hinsert
  obtain ⟨⟨info', t₂⟩, hsized, hinsert⟩ := Option.bind_eq_some_iff.mp hinsert
  unfold SizedTable.insertRecord SizedTable.insertWith at hsized
  simp only [hblock, hs, hs', Option.bind_eq_bind, Option.bind_some, Option.pure_def, Option.some.injEq,
    Prod.mk.injEq] at hsized
  obtain ⟨rfl, rfl⟩ := hsized
  cases hinsert
  rfl

/--
The rows after an insert, and the place that `block_map` has for the new one.
-/
theorem Filled.rows_insertRecordTable (h : Filled schema blockCapacity maxInt t contents) (hrec : IsRecord schema.fields xs)
    (hsize : (recordWidths xs).sum ≤ blockCapacity) {rowId : UInt32} {reversed : List UInt8}
    (hinsert : t.insertRecordTable roundUp pick rowId (recordBytes xs) (recordWidths xs) = some (t', reversed))
    : ∃ place, t'.table.blockMap.lookup (rowKey rowId) = some place ∧
        ∀ info, t'.table.row info = if info = place then some (storedRow schema.fields xs) else t.table.row info := by
  rw [← h.schema_eq] at hrec ⊢
  rw [← h.blockCapacity_eq] at hsize
  obtain ⟨table, contents₁, i, r, htable, -, -, -, hmap, -, -, hrow⟩ :=
    h.ok.repr.insertRecordTable pick rowId hrec hsize
  rw [insertRecordTable_table hinsert] at htable
  cases htable
  exact ⟨⟨i, r⟩, by rw [hmap, AList.lookup_insert], hrow⟩

theorem Similar.insertRecordTable (hround : ∀ n, n ≤ roundUp n) (hroomy : Roomy schema blockCapacity)
    (hcapacity : blockCapacity ≤ maxInt) (h : t.Similar u) (ht : Filled schema blockCapacity maxInt t contents)
    (hu : Filled schema blockCapacity maxInt u contents') (hxs : IsRecord schema.fields xs)
    (hys : IsRecord schema.fields ys) (hwidths : recordWidths ys = recordWidths xs)
    (hshape : (storedRow schema.fields ys).shape = (storedRow schema.fields xs).shape)
    (hsize : (recordWidths xs).sum ≤ blockCapacity) (hroom : t.FindsRoom roundUp pick xs) {rowId : UInt32}
    {reversed reversed' : List UInt8}
    (hrun : t.insertRecordTable roundUp pick rowId (recordBytes xs) (recordWidths xs) = some (t', reversed))
    (hrun' : u.insertRecordTable roundUp pick rowId (recordBytes ys) (recordWidths ys) = some (u', reversed'))
    : t'.Similar u' := by
  have hroomyT := ht.roomy hroomy
  have hstoredSize : storedRowSize schema.fields ys = storedRowSize schema.fields xs := by
    rw [storedRowSize_eq_rowSize hxs, storedRowSize_eq_rowSize hys]
    exact rowSize_eq_of_shape (storedRow_hasType hys) (storedRow_hasType hxs) hshape
  have hroom' := h.findsRoom hround hroomy ht hu hwidths hstoredSize hroom
  obtain ⟨ptr, t₁, s, s₁, i, rows, c, hblock, hok, hptr, hs, hsok, hinsert, hsok₁, heq⟩ :=
    ht.storeRow hround hroomy hcapacity hxs hsize hroom hrun
  obtain ⟨ptr', u₁, s', s₁', i', rows', c', hblock', hok', hptr', hs', hsok', hinsert', hsok₁', heq'⟩ :=
    hu.storeRow hround hroomy hcapacity hys (by rw [hwidths]; exact hsize) hroom' hrun'
  have hrecord : u.table.getRecordSize (recordWidths ys) = t.table.getRecordSize (recordWidths xs) := by
    unfold DBTable.getRecordSize
    rw [h.schema_eq, hwidths]
  rw [hrecord] at hblock'
  obtain ⟨rfl, hsimilar⟩ := h.blockForRecord hround hroomyT ht.ok hu.ok hblock hblock'
  obtain ⟨place, hplace, hrows⟩ := ht.rows_insertRecordTable hxs hsize hrun
  obtain ⟨place', hplace', hrows'⟩ := hu.rows_insertRecordTable hys (by rw [hwidths]; exact hsize) hrun'
  -- the block of both tables
  rw [hsimilar.blocks_eq] at hptr'
  have hi : i = i' := by
    have := hok.repr.inj _ _ _ hptr hptr'
    omega
  subst hi
  obtain ⟨b, b', rs, rs', j, hj, -, -, hb, hb', hsame⟩ := hsimilar.block hok hok' hptr
  rw [hs] at hb
  rw [hs'] at hb'
  cases hb
  cases hb'
  rw [hwidths] at hinsert'
  obtain ⟨hvalid, hmemory⟩ := hsame.insertRecord (by omega) (by omega) hinsert hinsert'
  have hlength : rows.length = rows'.length := by
    have := hsame.length_eq
    have := hsok.repr.numRows_eq
    have := hsok'.repr.numRows_eq
    have := hsame.ok.repr.numRows_eq
    have := hsame.ok'.repr.numRows_eq
    omega
  have hid : s₁.block.id = s₁'.block.id := by rw [hsok₁.repr.id_eq, hsok₁'.repr.id_eq]
  have hleft : s₁.block.getBytesLeft = s₁'.block.getBytesLeft := by
    rw [Block.getBytesLeft, Block.getBytesLeft, hsok₁.repr.capacity_eq, hsok₁'.repr.capacity_eq,
      hsok.numBytes_append hsok₁.repr, hsok'.numBytes_append hsok₁'.repr, hsame.numBytes_eq]
    simp only [List.map_singleton, List.sum_singleton]
    rw [rowSize_eq_of_shape (storedRow_hasType hys) (storedRow_hasType hxs) hshape]
  have hplaces : place = place' := by
    rw [heq, SizedTable.storeRow, AList.lookup_insert, Option.some.injEq] at hplace
    rw [heq', SizedTable.storeRow, AList.lookup_insert, Option.some.injEq] at hplace'
    rw [← hplace, ← hplace', hid, hlength]
  rw [SizedTable.storeRow, offerBlock_eq] at heq heq'
  subst heq heq'
  refine ⟨hsimilar.schema_eq, hsimilar.blockCapacity_eq, hsimilar.blockCounter_eq, hsimilar.blocks_eq, ?_, ?_, ?_, ?_,
    ?_, ?_⟩
  . simp only [DBTable.fixedRecordWidth, SizedTable.setBlock, DBTable.setBlock, hsimilar.schema_eq,
      hsimilar.insertPool_eq, hleft, hid]
  . simp only [SizedTable.setBlock, DBTable.setBlock, hsimilar.blockMap_eq, hid, hlength]
  . simp only [hsimilar.numRows_eq]
  . simp only [SizedTable.setBlock, DBTable.setBlock, List.length_set, hsimilar.heap_length_eq]
  . intro k p hp
    have hmem := hsimilar.memory_eq k p hp
    have hold := hsimilar.memory_eq _ _ hptr
    change (u₁.memory.set ptr _)[p]? = (t₁.memory.set ptr _)[p]?
    rw [← hvalid, ← hmemory]
    by_cases hpp : ptr = p
    . subst hpp
      rw [List.getElem?_set_self', List.getElem?_set_self', hold]
    . rw [List.getElem?_set_ne hpp, List.getElem?_set_ne hpp, hmem]
  . intro info
    rw [hrows, hrows', hplaces]
    split
    . rw [Option.map_some, Option.map_some, hshape]
    . exact h.rows_eq info

theorem deleteRecordTable_memory {rowId : UInt32} {info : BlockInfo}
    (hmap : t.table.blockMap.lookup (rowKey rowId) = some info)
    (hdelete : t.deleteRecordTable roundUp rowId = some t')
    : ∃ ptr s new filled, t.table.blocks.lookup info.blockId = some ptr ∧ t.block ptr = some s ∧
        SizedBlock.new roundUp info.blockId t.table.schema s.block.capacity false = some new ∧
        new.insertRecordsFrom roundUp (s.block.setValid info.rowNum.toNat false).valid s.block.getColumns = some filled ∧
        t'.memory = t.memory ++ [(filled.valid, filled.memory)] := by
  unfold SizedTable.deleteRecordTable at hdelete
  rw [hmap] at hdelete
  obtain ⟨ptr, hptr, hdelete⟩ := Option.bind_eq_some_iff.mp hdelete
  obtain ⟨s, hs, hdelete⟩ := Option.bind_eq_some_iff.mp hdelete
  split at hdelete
  . cases hdelete
  . obtain ⟨valid, -, hdelete⟩ := Option.bind_eq_some_iff.mp hdelete
    obtain ⟨new, hnew, hdelete⟩ := Option.bind_eq_some_iff.mp hdelete
    obtain ⟨filled, hfilled, hdelete⟩ := Option.bind_eq_some_iff.mp hdelete
    obtain ⟨table, -, hdelete⟩ := Option.bind_eq_some_iff.mp hdelete
    cases hdelete
    exact ⟨ptr, s, new, filled, hptr, hs, hnew, hfilled, rfl⟩

theorem Similar.deleteRecordTable (hround : ∀ n, n ≤ roundUp n) (hroomy : Roomy schema blockCapacity)
    (h : t.Similar u) (ht : Filled schema blockCapacity maxInt t contents)
    (hu : Filled schema blockCapacity maxInt u contents') {rowId : UInt32} {info : BlockInfo} {row : Row}
    (hmap : t.table.blockMap.lookup (rowKey rowId) = some info) (hrow : t.table.row info = some row)
    (hlast : t.table.row ⟨info.blockId, info.rowNum + 1⟩ = none)
    (hrun : t.deleteRecordTable roundUp rowId = some t') (hrun' : u.deleteRecordTable roundUp rowId = some u')
    : t'.Similar u' := by
  have hroomyT := ht.roomy hroomy
  have hmap' : u.table.blockMap.lookup (rowKey rowId) = some info := by rw [h.blockMap_eq, hmap]
  obtain ⟨row', hrow'⟩ : ∃ row', u.table.row info = some row' := by
    have := h.rows_eq info
    rw [hrow] at this
    obtain ⟨row', hrow', -⟩ := Option.map_eq_some_iff.mp this
    exact ⟨row', hrow'⟩
  have hlast' : u.table.row ⟨info.blockId, info.rowNum + 1⟩ = none := by
    have := h.rows_eq ⟨info.blockId, info.rowNum + 1⟩
    rw [hlast] at this
    exact Option.map_eq_none_iff.mp this
  -- the tables without their memory
  obtain ⟨table, c, r, hr, htable, -, hschema, hcap, hblockMap, hnum, hrows⟩ :=
    ht.ok.repr.deleteRecordTable_last hmap hrow ((ht.ok.repr.numRows_of_last hrow).mpr hlast)
  obtain ⟨table', c', r', hr', htable', -, hschema', hcap', hblockMap', hnum', hrows'⟩ :=
    hu.ok.repr.deleteRecordTable_last hmap' hrow' ((hu.ok.repr.numRows_of_last hrow').mpr hlast')
  have hrr : r = r' := by omega
  subst hrr
  obtain ⟨hnone, -⟩ | ⟨info₁, ptr₁, b, st, hinfo, hdeleted⟩ := DBTable.deleteRecordTable_cases htable
  . rw [hmap] at hnone
    cases hnone
  obtain ⟨hnone, -⟩ | ⟨info₁', ptr₁', b', st', hinfo', hdeleted'⟩ := DBTable.deleteRecordTable_cases htable'
  . rw [hmap'] at hnone
    cases hnone
  rw [hmap] at hinfo
  rw [hmap'] at hinfo'
  cases hinfo
  cases hinfo'
  rw [deleteRecordTable_table hrun] at htable
  rw [deleteRecordTable_table hrun'] at htable'
  cases htable
  cases htable'
  -- the memory of the rebuilt block
  obtain ⟨ptr, s, new, filled, hptr, hs, hnew, hfilled, hmemory⟩ := deleteRecordTable_memory hmap hrun
  obtain ⟨ptr', s', new', filled', hptr', hs', hnew', hfilled', hmemory'⟩ := deleteRecordTable_memory hmap' hrun'
  rw [h.blocks_eq, hptr] at hptr'
  cases hptr'
  obtain ⟨b₁, b₁', rows, rows', i, hi, hcontents, hcontents', hb₁, hb₁', hsame⟩ := h.block ht.ok hu.ok hptr
  rw [hs] at hb₁
  rw [hs'] at hb₁'
  cases hb₁
  cases hb₁'
  have hrebuilt : filled.valid = filled'.valid ∧ filled.memory = filled'.memory := by
    have hcapacity : s.block.capacity = s'.block.capacity := by
      rw [hsame.ok.repr.capacity_eq, hsame.ok'.repr.capacity_eq]
    rw [h.schema_eq, ← hcapacity, hnew] at hnew'
    cases hnew'
    have hnewOk : new.Ok i t.table.schema t.table.blockCapacity [] := by
      obtain ⟨new', hnew', hok⟩ := @SizedBlock.new_ok roundUp hround i t.table.schema t.table.blockCapacity false
        hroomyT.initRows_nonneg hroomyT.string
      rw [← hi, ← hsame.ok.repr.capacity_eq, hnew, Option.some.injEq] at hnew'
      rw [hnew']
      exact hok
    exact SizedBlock.Similar.rebuilt hround hnewOk hsame (ht.small le_rfl rows (List.mem_of_getElem? hcontents))
      (hu.small le_rfl rows' (List.mem_of_getElem? hcontents')) hfilled hfilled'
  refine ⟨?_, ?_, ?_, ?_, ?_, ?_, ?_, ?_, ?_, ?_⟩
  . rw [hschema, hschema', h.schema_eq]
  . rw [hcap, hcap', h.blockCapacity_eq]
  . rw [hdeleted.blockCounter_eq, hdeleted'.blockCounter_eq, h.blockCounter_eq]
  . rw [hdeleted.blocks_eq, hdeleted'.blocks_eq, h.blocks_eq, h.heap_length_eq]
  . rw [hdeleted.insertPool_eq, hdeleted'.insertPool_eq, h.insertPool_eq, h.heap_length_eq]
  . rw [hblockMap, hblockMap', h.blockMap_eq]
  . rw [hnum, hnum', h.numRows_eq]
  . rw [hdeleted.heap_eq, hdeleted'.heap_eq]
    simp [h.heap_length_eq]
  . intro k p hp
    rw [hdeleted.blocks_eq, Map.lookup_insert_eq] at hp
    have hlength := ht.ok.length_eq
    have hlength' := hu.ok.length_eq
    have hheap := h.heap_length_eq
    rw [hmemory, hmemory']
    split at hp
    . cases hp
      rw [← hlength, List.getElem?_concat_length, hlength, ← hheap, ← hlength', List.getElem?_concat_length,
        hrebuilt.1, hrebuilt.2]
    . have hlt := ht.ok.repr.ptr_lt hp
      rw [List.getElem?_append_left (by rw [hlength', hheap]; exact hlt),
        List.getElem?_append_left (by rw [hlength]; exact hlt)]
      exact h.memory_eq k p hp
  . intro info'
    rw [hrows, hrows']
    split
    . rfl
    . exact h.rows_eq info'

end

end SizedTable

end Hustle.Storage
