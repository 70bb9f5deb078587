import Hustle.Storage.BlockMemory
import Hustle.Storage.BlockRepr

/-!
This module contains what the three insert functions of a block do to the rows that it holds, whichever
of them come before, as long as they find room in the buffers.
-/

namespace Hustle.Storage

namespace ArrayData

/--
The slice holds `cells`. Its string offsets may start anywhere, but those of the array that it was taken
from start at 0.
-/
def Holds (a : ArrayData) (type : FieldType) (cells : List Cell) : Prop :=
  a.length = cells.length ∧ (∀ c ∈ cells, c.fieldType = type) ∧
  match type, a.buffers with
  | .int64, .int64 values => Buffer.readAt values a.offset a.length = some (cells.map Cell.toInt64)
  | .string, .string offsets data => offsets.head? = some 0 ∧ ∃ start : Nat,
    Buffer.readAt offsets a.offset (a.length + 1)
      = some (Column.offsetsFrom start (cells.map Cell.toBytes)) ∧
    Buffer.readAt data start (cells.map Cell.toBytes).flatten.length
      = some (cells.map Cell.toBytes).flatten
  | _, _ => False

def HoldRows : List FieldType → List ArrayData → List Row → Prop
  | [], [], _ => True
  | type :: fields, a :: as, rows =>
    a.Holds type (rows.map fun row => row.headD default) ∧ HoldRows fields as (rows.map List.tail)
  | _, _, _ => False

theorem HoldRows.cons {type : FieldType} {fields : List FieldType} {columnData : List ArrayData} {rows : List Row}
    (h : HoldRows (type :: fields) columnData rows)
    : ∃ a as, columnData = a :: as ∧ a.Holds type (rows.map fun row => row.headD default) ∧
        HoldRows fields as (rows.map List.tail) := by
  cases columnData with
  | nil => exact h.elim
  | cons a as => exact ⟨a, as, rfl, h⟩

end ArrayData

theorem Row.HasType.cons {type : FieldType} {fields : List FieldType} {row : Row}
    (h : Row.HasType (type :: fields) row)
    : ∃ cell row', row = cell :: row' ∧ cell.fieldType = type ∧ Row.HasType fields row' := by
  cases row with
  | nil => cases h
  | cons cell row => exact ⟨cell, row, rfl, (List.cons.inj h).1, (List.cons.inj h).2⟩

namespace Column

/-! Slices that hold cells. -/

theorem tail_offsetsFrom_map_add (start d : Int) (ss : List (List UInt8))
    : (offsetsFrom start ss).tail.map (· + d) = (offsetsFrom (start + d) ss).tail := by
  rw [← offsetsFrom_map_add, List.map_tail]

theorem head_offsetsFrom (start : Int) (ss : List (List UInt8))
    : (offsetsFrom start ss).head? = some start := by
  cases ss <;> rfl

theorem readAt_tail {α : Type} {buf xs : List α} {pos n : Nat} (h : Buffer.readAt buf pos (n + 1) = some xs)
    : Buffer.readAt buf (pos + 1) n = some xs.tail := by
  rw [Buffer.readAt_eq_some_iff] at h ⊢
  obtain ⟨hle, rfl⟩ := h
  refine ⟨by omega, ?_⟩
  rw [← List.drop_one, List.drop_take, List.drop_drop, Nat.add_sub_cancel]

theorem getElem?_of_readAt {α : Type} {buf xs : List α} {pos n k : Nat}
    (h : Buffer.readAt buf pos n = some xs) (hk : k < n)
    : buf[pos + k]? = xs[k]? := by
  rw [Buffer.readAt_eq_some_iff] at h
  obtain ⟨-, rfl⟩ := h
  rw [List.getElem?_take_of_lt hk, List.getElem?_drop]

theorem copyOffsets_window (ss new : List (List UInt8)) {inOffsets : List Int} {offset n start : Nat}
    (hhead : inOffsets.head? = some 0)
    (hwindow : Buffer.readAt inOffsets offset (n + 1) = some (offsetsFrom start new))
    : copyOffsets (offsetsFrom 0 ss) inOffsets ss.length offset n (0 + (ss.flatten.length : Int)) start
        =
      some (offsetsFrom 0 (ss ++ new)) := by
  unfold copyOffsets
  split
  . next hzero =>
    subst hzero
    have hstart : (start : Int) = 0 := by
      have := getElem?_of_readAt (k := 0) hwindow (by omega)
      rw [← List.head?_eq_getElem?, ← List.head?_eq_getElem?, hhead, head_offsetsFrom] at this
      simpa using this.symm
    rw [hwindow]
    simp only [Option.bind_eq_bind, Option.bind_some]
    rw [offsetsFrom_map_add, hstart, offsetsFrom_append]
    simp [Buffer.writeAt, length_offsetsFrom]
  . have hend : ss.length + 1 = (offsetsFrom 0 ss).length := by rw [length_offsetsFrom]
    rw [readAt_tail hwindow]
    simp only [Option.bind_eq_bind, Option.bind_some]
    rw [hend, Buffer.writeAt_length_self, tail_offsetsFrom_map_add, offsetsFrom_append_tail]
    congr 4
    omega

theorem insertStrings_window (ss new : List (List UInt8)) {inOffsets : List Int} {inData : List UInt8}
    {vals : ArrayData} {offset n start : Nat} (hvals : vals.buffers = .string inOffsets inData)
    (hhead : inOffsets.head? = some 0) (hn : new.length = n)
    (hwindow : Buffer.readAt inOffsets offset (n + 1) = some (offsetsFrom start new))
    (hdata : Buffer.readAt inData start new.flatten.length = some new.flatten)
    : insertStrings (offsetsFrom 0 ss) ss.flatten (ofStrings ss) ss.length offset vals n
        =
      some (ofStrings (ss ++ new), (ofStrings new).size) := by
  have hstart : inOffsets[offset]? = some (start : Int) := by
    have := getElem?_of_readAt (k := 0) hwindow (by omega)
    rwa [← List.head?_eq_getElem?, head_offsetsFrom] at this
  have hstop : inOffsets[offset + n]? = some ((start : Int) + new.flatten.length) := by
    rw [getElem?_of_readAt hwindow (by omega), offsetsFrom_getElem? _ _ _ (by omega), ← hn,
      List.take_length]
  have hcurr := offsetsFrom_getElem? 0 ss ss.length (Nat.le_refl _)
  have hcurr' := offsetsFrom_getElem? 0 (ss ++ new) ss.length (by simp)
  rw [List.take_length] at hcurr
  rw [List.take_left] at hcurr'
  have hdiff : (start : Int) + new.flatten.length - start = new.flatten.length := by omega
  have hpos : (0 + (ss.flatten.length : Int)).toNat = ss.flatten.length := by omega
  unfold insertStrings
  rw [hvals]
  dsimp only
  rw [hstart, hstop, hcurr]
  simp only [Option.bind_eq_bind, Option.bind_some, copyOffsets_window ss new hhead hwindow, hcurr']
  rw [if_neg (by omega), hdiff, hpos, Int.toNat_natCast, Int.toNat_natCast, hdata]
  simp only [Option.bind_some]
  rw [Buffer.writeAt_length_self]
  simp [ofStrings, hn]

theorem insertSlice_of_holds {type : FieldType} {new : List Cell} {vals : ArrayData} (cells : List Cell)
    (h : vals.Holds type new)
    : (ofCells type cells).insertSlice cells.length vals.offset vals new.length
        =
      some (ofCells type (cells ++ new), (ofCells type new).size) := by
  obtain ⟨hlen, -, h⟩ := h
  match type, hbuf : vals.buffers, h with
  | .int64, .int64 values, h =>
    simp only [insertSlice, ofCells, ofInts, insertValues, hbuf]
    rw [← hlen, h]
    simp only [Option.bind_eq_bind, Option.bind_some]
    have hc : cells.length = (cells.map Cell.toInt64).length := by simp
    rw [hc, Buffer.writeAt_length_self]
    simp [hlen, fieldSize]
    omega
  | .string, .string offsets data, h =>
    obtain ⟨hhead, start, hwindow, hdata⟩ := h
    have hn : (new.map Cell.toBytes).length = vals.length := by simp [hlen]
    have := insertStrings_window (cells.map Cell.toBytes) (new.map Cell.toBytes) hbuf hhead hn hwindow
      hdata
    rw [List.length_map] at this
    simpa [insertSlice, ofCells, ofStrings, ← hlen] using this

theorem insertSlices_of_holdRows {fields : List FieldType} {columnData : List ArrayData}
    {new : List Row} {offset : Nat} (rows : List Row) (h : ArrayData.HoldRows fields columnData new)
    (hoffset : ∀ a ∈ columnData, a.offset = offset)
    : insertSlices rows.length offset new.length (ofRows fields rows) columnData
        =
      some (ofRows fields (rows ++ new), totalSize (ofRows fields new)) := by
  induction fields generalizing columnData rows new with
  | nil => rfl
  | cons type fields ih =>
    obtain ⟨a, as, rfl, hhead, htail⟩ := h.cons
    have hfirst := insertSlice_of_holds (rows.map fun row => row.headD default) hhead
    have hrest := ih (rows.map List.tail) htail fun b hb => hoffset b (List.mem_cons_of_mem _ hb)
    rw [hoffset a List.mem_cons_self] at hfirst
    simp only [List.length_map] at hfirst hrest
    simp only [ofRows, insertSlices, hfirst, hrest, Option.bind_eq_bind, Option.bind_some]
    simp [totalSize]

/-! Fields of a CSV file. -/

section

variable (simpleAtoi : List UInt8 → Option (BitVec 64))

def csvCell : FieldType → List UInt8 → Option Cell
  | .int64, field => (simpleAtoi field).map .int64
  | .string, field => some (.string field)

/--
The row that the fields of a CSV line stand for.
-/
def csvRow : List FieldType → List (List UInt8) → Option Row
  | [], [] => some []
  | type :: fields, field :: record => do
    let cell ← csvCell simpleAtoi type field
    let row ← csvRow fields record
    return cell :: row
  | _, _ => none

end

theorem csvRow_nil {simpleAtoi : List UInt8 → Option (BitVec 64)} {record : List (List UInt8)} {row : Row}
    (h : csvRow simpleAtoi [] record = some row)
    : record = [] ∧ row = [] := by
  cases record with
  | nil => exact ⟨rfl, (Option.some.inj h).symm⟩
  | cons field record => cases h

theorem csvRow_cons {simpleAtoi : List UInt8 → Option (BitVec 64)} {type : FieldType} {fields : List FieldType}
    {record : List (List UInt8)} {row : Row} (h : csvRow simpleAtoi (type :: fields) record = some row)
    : ∃ field record' cell row', record = field :: record' ∧ row = cell :: row' ∧
        csvCell simpleAtoi type field = some cell ∧ csvRow simpleAtoi fields record' = some row' := by
  cases record with
  | nil => cases h
  | cons field record =>
    obtain ⟨cell, hcell, h⟩ := Option.bind_eq_some_iff.mp h
    obtain ⟨row', hrow', h⟩ := Option.bind_eq_some_iff.mp h
    exact ⟨field, record, cell, row', rfl, (Option.some.inj h).symm, hcell, hrow'⟩

theorem insertCsv_ofCells {simpleAtoi : List UInt8 → Option (BitVec 64)} {type : FieldType}
    {field : List UInt8} {cell : Cell} (cells : List Cell)
    (h : csvCell simpleAtoi type field = some cell)
    : (ofCells type cells).insertCsv simpleAtoi cells.length field
        =
      some (ofCells type (cells ++ [cell]), (ofCells type [cell]).size) := by
  cases type with
  | int64 =>
    obtain ⟨v, hv, rfl⟩ := Option.map_eq_some_iff.mp h
    have hc : cells.length = (cells.map Cell.toInt64).length := by simp
    simp only [insertCsv, ofCells, ofInts, insertCsvValue, hv, Option.bind_eq_bind, Option.bind_some]
    rw [hc, Buffer.writeAt_length_self]
    simp [Cell.toInt64, fieldSize]
    omega
  | string =>
    obtain rfl := Option.some.inj h
    have hcurr := offsetsFrom_getElem? 0 (cells.map Cell.toBytes) cells.length (by simp)
    have htake : (cells.map Cell.toBytes).take cells.length = cells.map Cell.toBytes := by
      rw [List.take_of_length_le (by simp)]
    rw [htake] at hcurr
    have hpos : (0 + ((cells.map Cell.toBytes).flatten.length : Int)).toNat
        = (cells.map Cell.toBytes).flatten.length := by omega
    have hend : cells.length + 1 = (offsetsFrom 0 (cells.map Cell.toBytes)).length := by
      rw [length_offsetsFrom, List.length_map]
    simp only [insertCsv, ofCells, ofStrings, insertCsvString, hcurr, Option.bind_eq_bind,
      Option.bind_some]
    rw [hpos, Buffer.writeAt_length_self, hend, Buffer.writeAt_length_self]
    simp [Cell.toBytes, offsetsFrom_append_tail, offsetsFrom]

theorem insertCsvs_ofRows {simpleAtoi : List UInt8 → Option (BitVec 64)} {fields : List FieldType}
    {record : List (List UInt8)} {row : Row} (rows : List Row)
    (h : csvRow simpleAtoi fields record = some row)
    : insertCsvs simpleAtoi rows.length (ofRows fields rows) record
        =
      some (ofRows fields (rows ++ [row]), totalSize (ofRows fields [row])) := by
  induction fields generalizing record rows row with
  | nil => rfl
  | cons type fields ih =>
    obtain ⟨field, record, cell, row', rfl, rfl, hcell, hrow'⟩ := csvRow_cons h
    have hfirst := insertCsv_ofCells (rows.map fun row => row.headD default) hcell
    have hrest := ih (rows.map List.tail) hrow'
    simp only [List.length_map] at hfirst hrest
    simp only [ofRows, insertCsvs, hfirst, hrest, Option.bind_eq_bind, Option.bind_some]
    simp [totalSize]

end Column

namespace Block

variable {id : Int} {schema : Schema} {capacity : Int} {rows new : List Row} {b : Block}

/--
The columns of `new` are appended and the valid bits of its rows are set.
-/
theorem Repr.append (h : b.Repr id schema capacity rows) (new : List Row) (valid : List Bool)
    (hnew : ∀ row ∈ new, Row.HasType schema.fields row)
    (hvalid : ∀ r < rows.length + new.length, getValid valid r = true)
    : { b with
        valid := valid
        columns := Column.ofRows schema.fields (rows ++ new)
        numBytes := b.numBytes + Column.totalSize (Column.ofRows schema.fields new)
        numRows := b.numRows + new.length }.Repr id schema capacity (rows ++ new) where
  id_eq := h.id_eq
  schema_eq := h.schema_eq
  capacity_eq := h.capacity_eq
  numRows_eq := by
    rw [List.length_append, ← h.numRows_eq]
  columns_eq := rfl
  numBytes_eq := by
    have hold := h.numBytes_eq
    rw [h.columns_eq] at hold
    dsimp only
    rw [Column.totalSize_ofRows_append, hold]
  valid_eq := by
    intro r hr
    rw [List.length_append] at hr
    exact hvalid r hr
  rowIdMap_eq := h.rowIdMap_eq
  hasType := by
    intro row hmem
    rcases List.mem_append.mp hmem with hmem | hmem
    . exact h.hasType row hmem
    . exact hnew row hmem

theorem csvRow_hasType {simpleAtoi : List UInt8 → Option (BitVec 64)} {fields : List FieldType}
    {record : List (List UInt8)} {row : Row} (h : Column.csvRow simpleAtoi fields record = some row)
    : Row.HasType fields row := by
  induction fields generalizing record row with
  | nil =>
    obtain ⟨-, rfl⟩ := Column.csvRow_nil h
    rfl
  | cons type fields ih =>
    obtain ⟨field, record, cell, row', rfl, rfl, hcell, hrow'⟩ := Column.csvRow_cons h
    have hrest := ih hrow'
    simp only [Row.HasType, List.map_cons, List.cons.injEq]
    refine ⟨?_, hrest⟩
    cases type with
    | int64 =>
      obtain ⟨v, -, rfl⟩ := Option.map_eq_some_iff.mp hcell
      rfl
    | string =>
      obtain rfl := Option.some.inj hcell
      rfl

theorem Repr.insertCsvRecord {simpleAtoi : List UInt8 → Option (BitVec 64)}
    (h : b.Repr id schema capacity rows) {record : List (List UInt8)} {byteWidths : List Int} {row : Row}
    (hrow : Column.csvRow simpleAtoi schema.fields record = some row)
    (hwidths : byteWidths.length = schema.fields.length) (hfit : byteWidths.sum ≤ b.getBytesLeft)
    : ∃ b', b.insertCsvRecord simpleAtoi record byteWidths = some ((rows.length : Int), b') ∧
        b'.Repr id schema capacity (rows ++ [row]) := by
  have hlen : b.columns.length = byteWidths.length := by
    rw [h.columns_eq, Column.length_ofRows, hwidths]
  have hall := Column.insertCsvs_ofRows rows hrow
  unfold Block.insertCsvRecord
  rw [if_neg (by omega), hlen, List.take_length, if_neg (by omega)]
  simp only [setValid, h.columns_eq, h.numRows_eq, hall, Option.bind_eq_bind, Option.bind_some]
  refine ⟨_, rfl, ?_⟩
  have hrepr := h.append [row] (Buffer.writeAt b.valid rows.length [true])
    (by simpa using csvRow_hasType hrow) ?_
  . simpa only [List.length_singleton, h.numRows_eq] using hrepr
  . intro r hr
    rw [getValid_writeAt]
    split
    . rfl
    . apply h.valid_eq
      simp at hr
      omega

theorem Repr.insertSlices (h : b.Repr id schema capacity rows) {columnData : List ArrayData}
    {first : ArrayData} (hfirst : columnData.head? = some first)
    (hoffset : ∀ a ∈ columnData, a.offset = first.offset) (hlength : first.length = new.length)
    (hnew : new ≠ []) (hrows : ArrayData.HoldRows schema.fields columnData new)
    (htype : ∀ row ∈ new, Row.HasType schema.fields row)
    : ∃ b', b.insertRecords columnData = some (((rows ++ new).length : Int) - 1, b') ∧
        b'.Repr id schema capacity (rows ++ new) := by
  have hpos : new.length ≠ 0 := by simpa using hnew
  have hall := Column.insertSlices_of_holdRows rows hrows hoffset
  obtain ⟨valid, heq, hvalid⟩ := setValidRange_eq b new.length
  unfold Block.insertRecords
  rw [hfirst]
  simp only [Option.bind_eq_bind, Option.bind_some, hlength, hpos, if_false, heq, h.numRows_eq,
    h.columns_eq, hall]
  refine ⟨_, by rw [List.length_append]; rfl, ?_⟩
  have hrepr := h.append new valid htype ?_
  . simpa only [h.numRows_eq] using hrepr
  . intro r hr
    rw [hvalid]
    split
    . rfl
    . apply h.valid_eq
      have := h.numRows_eq
      omega

end Block

end Hustle.Storage
