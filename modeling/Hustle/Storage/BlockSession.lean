import Mathlib.Data.FinEnum
import Hustle.Storage.BlockRoom

/-!
This module contains sequences of inserts into a new block, of all three kinds and in any order. Row by row
the block reads back what was inserted, as long as the inserts of records find room in the buffers.
-/

namespace Hustle.Storage

inductive Insert where
  /-- `Block::InsertRecord(uint8_t*)` of the bytes of a row, with eight bytes for every integer. -/
  | record (row : Row)
  /-- `Block::InsertRecord(std::vector<std::string_view>)`. -/
  | csv (line : List (List UInt8))
  /-- `Block::InsertRecords`. -/
  | slices (columnData : List ArrayData)

/--
The widths of the stored values of a CSV line.
-/
def csvWidths : List FieldType → List (List UInt8) → List Int
  | .int64 :: fields, _ :: line => fieldSize :: csvWidths fields line
  | .string :: fields, field :: line => field.length :: csvWidths fields line
  | _, _ => []

/--
The rows of the slices, read cell by cell.
-/
def sliceRows (columnData : List ArrayData) : Option (List Row) := do
  let first ← columnData.head?
  (List.range first.length).mapM fun r => columnData.mapM (·.cell r)

structure Session where
  sized : SizedBlock
  rows : List Row
  deriving DecidableEq

section

variable (roundUp : Nat → Nat) (simpleAtoi : List UInt8 → Option (BitVec 64))

namespace Insert

def rows (fields : List FieldType) : Insert → Option (List Row)
  | .record row => some [row]
  | .csv line => (Column.csvRow simpleAtoi fields line).map ([·])
  | .slices columnData => sliceRows columnData

def run (s : SizedBlock) : Insert → Option (Int × SizedBlock)
  | .record row => s.insertRecord roundUp (recordBytes (recordOfRow row)) (recordWidths (recordOfRow row))
  | .csv line => s.insertCsvRecord roundUp simpleAtoi line (csvWidths s.block.schema.fields line)
  | .slices columnData => s.insertRecords roundUp columnData

/--
The values have the types of their columns, integers can be parsed, and slices share their offset.
-/
def WellFormed (fields : List FieldType) : Insert → Prop
  | .record row => Row.HasType fields row
  | .csv line => (Column.csvRow simpleAtoi fields line).isSome
  | .slices columnData => ∃ rows, ArrayData.HoldRows fields columnData rows ∧
    (∀ row ∈ rows, Row.HasType fields row) ∧
    ∀ a ∈ columnData, ∀ a' ∈ columnData, a.offset = a'.offset

end Insert

def Session.step (s : Session) (insert : Insert) : Option Session := do
  let (res, sized) ← insert.run roundUp simpleAtoi s.sized
  if res = -1 then
    return { s with sized := sized }
  else
    let rows ← insert.rows simpleAtoi s.sized.block.schema.fields
    return { sized := sized, rows := s.rows ++ rows }

/--
A record finds room in the buffers, and the numbers of rows and bytes stay in the range of `int`.
-/
def Insert.Fits (s : Session) : Insert → Prop
  | .record row => rowSize row ≤ maxInt ∧ (rowSize row ≤ s.sized.block.getBytesLeft →
    (s.sized.block.numRows + 1 : Int) ≤ maxInt ∧
    ColumnMemory.RoomAll roundUp s.sized.block.numRows s.sized.memory s.sized.block.columns
      (recordWidths (recordOfRow row)))
  | .csv line => (csvWidths s.sized.block.schema.fields line).sum ≤ maxInt ∧
    ((csvWidths s.sized.block.schema.fields line).sum ≤ s.sized.block.getBytesLeft →
      (s.sized.block.numRows + 1 : Int) ≤ maxInt)
  | .slices columnData =>
    match sliceRows columnData with
    | none => True
    | some rows => (s.sized.block.numRows + rows.length : Int) ≤ maxInt ∧
      s.sized.block.numBytes + (rows.map rowSize).sum ≤ maxInt

instance (s : Session) (insert : Insert) : Decidable (insert.Fits roundUp s) :=
  match insert with
  | .record _ => inferInstanceAs (Decidable (_ ∧ (_ → _)))
  | .csv _ => inferInstanceAs (Decidable (_ ∧ (_ → _)))
  | .slices columnData =>
    match h : sliceRows columnData with
    | none => .isTrue (by simp [Insert.Fits, h])
    | some rows => decidable_of_iff ((s.sized.block.numRows + rows.length : Int) ≤ maxInt ∧
      s.sized.block.numBytes + (rows.map rowSize).sum ≤ maxInt) (by simp [Insert.Fits, h])

end

namespace Block

structure Represents (b : Block) (rows : List Row) : Prop where
  numRows : b.numRows = rows.length
  lengths : ∀ c ∈ b.columns, c.array.length = b.numRows
  offsets : ∀ c ∈ b.columns, ∀ offsets data, c.array.buffers = .string offsets data →
    offsets.head? = some 0 ∧ offsets.Pairwise (· ≤ ·) ∧ offsets.getLast? = some c.size
  numBytes : b.numBytes = (b.columns.map Column.size).sum
  valid : ∀ r < b.numRows, getValid b.valid r = true
  row : ∀ r, b.row r = rows[r]?

theorem pairwise_offsetsFrom (start : Int) (ss : List (List UInt8))
    : (∀ o ∈ Column.offsetsFrom start ss, start ≤ o) ∧
        (Column.offsetsFrom start ss).Pairwise (· ≤ ·) := by
  induction ss generalizing start with
  | nil => simp [Column.offsetsFrom]
  | cons s ss ih =>
    obtain ⟨hle, hpairwise⟩ := ih (start + s.length)
    have hle' : ∀ o ∈ Column.offsetsFrom (start + s.length) ss, start ≤ o := by
      intro o ho
      have := hle o ho
      omega
    simp only [Column.offsetsFrom, List.mem_cons, forall_eq_or_imp, List.pairwise_cons]
    exact ⟨⟨Int.le_refl _, hle'⟩, hle', hpairwise⟩

theorem getLast_offsetsFrom (start : Int) (ss : List (List UInt8))
    : (Column.offsetsFrom start ss).getLast? = some (start + ss.flatten.length) := by
  rw [List.getLast?_eq_getElem?, Column.length_offsetsFrom, Nat.add_sub_cancel,
    Column.offsetsFrom_getElem? _ _ _ (Nat.le_refl _), List.take_length]

theorem Repr.represents {b : Block} {id : Int} {schema : Schema} {capacity : Int} {rows : List Row}
    (h : b.Repr id schema capacity rows)
    : b.Represents rows where
  numRows := h.numRows_eq
  lengths := by
    intro c hc
    rw [h.columns_eq] at hc
    obtain ⟨type, cells, rfl, hlen⟩ := Column.mem_ofRows hc
    cases type <;> simp [Column.ofCells, Column.ofInts, Column.ofStrings, hlen, h.numRows_eq]
  offsets := by
    intro c hc offsets data hbuf
    rw [h.columns_eq] at hc
    obtain ⟨type, cells, rfl, hlen⟩ := Column.mem_ofRows hc
    cases type with
    | int64 => cases hbuf
    | string =>
      cases hbuf
      refine ⟨Column.head_offsetsFrom _ _, (pairwise_offsetsFrom _ _).2, ?_⟩
      rw [getLast_offsetsFrom]
      simp [Column.ofCells, Column.ofStrings]
  numBytes := h.numBytes_eq
  valid := by
    rw [h.numRows_eq]
    exact h.valid_eq
  row := h.row_eq

end Block

/-! Reading slices. -/

namespace ArrayData

theorem readAt_window {α : Type} {buf xs ys : List α} {start n pos k : Nat}
    (h : Buffer.readAt buf start n = some xs) (h' : Buffer.readAt xs pos k = some ys)
    : Buffer.readAt buf (start + pos) k = some ys := by
  have hlen := Buffer.length_of_readAt_eq_some h
  rw [Buffer.readAt_eq_some_iff] at h h' ⊢
  obtain ⟨hle, rfl⟩ := h
  obtain ⟨hle', rfl⟩ := h'
  refine ⟨by omega, ?_⟩
  rw [List.drop_take, List.take_take, List.drop_drop]
  congr 1
  omega

theorem cell_of_holds {a : ArrayData} {type : FieldType} {cells : List Cell} (h : a.Holds type cells)
    (r : Nat)
    : a.cell r = cells[r]? := by
  obtain ⟨hlen, htype, h⟩ := h
  unfold cell
  split
  . next hr =>
    have hcell : ∃ c, cells[r]? = some c ∧ c.fieldType = type := by
      have hr' : r < cells.length := by omega
      exact ⟨cells[r], List.getElem?_eq_getElem hr', htype _ (List.getElem_mem hr')⟩
    obtain ⟨c, hc, hct⟩ := hcell
    match type, hbuf : a.buffers, h with
    | .int64, .int64 values, h =>
      have hget := Column.getElem?_of_readAt h hr
      rw [List.getElem?_map, hc] at hget
      dsimp only
      rw [hget, hc]
      cases c with
      | int64 v => rfl
      | string bytes => cases hct
    | .string, .string offsets data, h =>
      obtain ⟨-, start, hwindow, hdata⟩ := h
      have hstart := Column.getElem?_of_readAt (k := r) hwindow (by omega)
      have hstop := Column.getElem?_of_readAt (k := r + 1) hwindow (by omega)
      rw [Column.offsetsFrom_getElem? _ _ _ (by simp; omega)] at hstart hstop
      cases c with
      | int64 v => cases hct
      | string bytes =>
        have hone : ((cells.map Cell.toBytes).drop r).take 1 = [bytes] := by
          rw [List.take_one_drop_eq_of_lt_length (by simp; omega)]
          rw [List.getElem?_eq_getElem (by omega)] at hc
          simp [Option.some.inj hc, Cell.toBytes]
        have hread := readAt_window hdata (Column.readAt_flatten (cells.map Cell.toBytes) r 1)
        have hsize := Column.flatten_take_add (cells.map Cell.toBytes) r 1
        rw [hone] at hread hsize
        rw [Buffer.readAt_eq_some_iff] at hread
        simp only [List.flatten_cons, List.flatten_nil, List.append_nil] at hread hsize
        dsimp only
        rw [hstart, Nat.add_assoc, hstop, hc]
        simp only [Option.bind_eq_bind, Option.bind_some, Option.pure_def, Option.some.injEq,
          Cell.string.injEq]
        have hpos : ((start : Int) + (((cells.map Cell.toBytes).take r).flatten.length : Int)).toNat
            = start + ((cells.map Cell.toBytes).take r).flatten.length := by omega
        have hdiff : ((start : Int) + (((cells.map Cell.toBytes).take r).flatten.length
              + bytes.length : Nat)
            - (start + (((cells.map Cell.toBytes).take r).flatten.length : Int))).toNat
            = bytes.length := by
          omega
        rw [hsize, hpos, hdiff]
        exact hread.2
  . next hr => rw [List.getElem?_eq_none (by omega)]

theorem mapM_cell_of_holdRows {fields : List FieldType} {columnData : List ArrayData} {rows : List Row}
    {r : Nat} (hr : r < rows.length) (h : HoldRows fields columnData rows)
    (htype : ∀ row ∈ rows, Row.HasType fields row)
    : columnData.mapM (·.cell r) = rows[r]? := by
  induction fields generalizing columnData rows with
  | nil =>
    cases columnData with
    | nil =>
      have hnil : rows[r] = [] := by simpa [Row.HasType] using htype rows[r] (List.getElem_mem hr)
      simp [List.getElem?_eq_getElem hr, hnil]
    | cons a as => exact h.elim
  | cons type fields ih =>
    obtain ⟨a, as, rfl, ha, has⟩ := h.cons
    have htails : ∀ row ∈ rows.map List.tail, Row.HasType fields row := by
      intro row hmem
      obtain ⟨row', hmem', rfl⟩ := List.mem_map.mp hmem
      obtain ⟨c, row', rfl, -, hrow'⟩ := (htype row' hmem').cons
      exact hrow'
    have hrest := ih (by simpa using hr) has htails
    rw [List.mapM_cons, cell_of_holds ha, hrest]
    obtain ⟨c, row, hcase, -⟩ := (htype rows[r] (List.getElem_mem hr)).cons
    simp only [List.getElem?_map, List.getElem?_eq_getElem hr, Option.map_some, hcase]
    rfl

theorem sliceRows_eq {schema : Schema} {columnData : List ArrayData} {rows : List Row}
    (h : HoldRows schema.fields columnData rows)
    (htype : ∀ row ∈ rows, Row.HasType schema.fields row)
    : (∃ first, columnData.head? = some first ∧ first.length = rows.length) ∧
        sliceRows columnData = some rows := by
  obtain ⟨type, fields, hfields⟩ := List.exists_cons_of_ne_nil schema.fields_ne_nil
  match columnData, hfields ▸ h with
  | a :: as, h' =>
    have hlen : a.length = rows.length := by simpa using h'.1.1
    refine ⟨⟨a, rfl, hlen⟩, ?_⟩
    simp only [sliceRows, List.head?_cons, Option.bind_eq_bind, Option.bind_some, hlen]
    have hcell : ∀ r ∈ List.range rows.length, (a :: as).mapM (·.cell r) = some (rows.getD r []) := by
      intro r hr
      have hr := List.mem_range.mp hr
      rw [mapM_cell_of_holdRows hr h htype, List.getD_eq_getElem?_getD, List.getElem?_eq_getElem hr]
      rfl
    rw [Run.mapM_eq_some hcell, Option.some.injEq]
    apply List.ext_getElem
    . simp
    . intro r _ hr
      simp [List.getElem?_eq_getElem hr]

end ArrayData

/-! Sequences of inserts. -/

/--
The block holds `rows`, and its buffers have room for them.
-/
structure SizedBlock.Ok (s : SizedBlock) (id : Int) (schema : Schema) (capacity : Int)
    (rows : List Row) : Prop where
  repr : s.block.Repr id schema capacity rows
  memory : ColumnMemory.OkRows s.memory schema.fields rows
  valid : rows.length ≤ 8 * s.valid.size
  capacity : s.valid.size ≤ s.valid.capacity

namespace SizedBlock.Ok

variable {roundUp : Nat → Nat} {simpleAtoi : List UInt8 → Option (BitVec 64)} {s : SizedBlock}
  {id : Int} {schema : Schema} {capacity : Int} {rows : List Row}

theorem check_eq {s : SizedBlock} (hrows : (s.block.numRows : Int) ≤ maxInt)
    (hbytes : s.block.numBytes ≤ maxInt)
    : s.check = some s :=
  if_pos ⟨hrows, hbytes⟩

theorem numBytes_append (h : s.Ok id schema capacity rows) {b' : Block} {new : List Row}
    (h' : b'.Repr id schema capacity (rows ++ new))
    : b'.numBytes = s.block.numBytes + (new.map rowSize).sum := by
  have hold := h.repr.numBytes_eq
  have hnew := h'.numBytes_eq
  rw [h.repr.columns_eq, Column.totalSize_ofRows h.repr.hasType] at hold
  rw [h'.columns_eq, Column.totalSize_ofRows h'.hasType, List.map_append, List.sum_append] at hnew
  omega

/--
The valid bits of `n` more rows can be written.
-/
theorem write_valid (hround : ∀ n, n ≤ roundUp n) (valid : Allocation) {n k : Nat} (hn : 0 < n)
    (hk : n ≤ 8 * (valid.size + k))
    : (valid.resize roundUp (valid.size + k)).write ((n - 1) / 8 + 1)
        =
      some (valid.resize roundUp (valid.size + k)) := by
  apply Allocation.write_eq
  have := Allocation.le_capacity_resize (a := valid) hround (valid.size + k)
  omega

/--
The block after `new` has been appended, with as many more bytes for the valid bits as are needed.
-/
theorem appended (hround : ∀ n, n ≤ roundUp n) (h : s.Ok id schema capacity rows) {b' : Block} {new : List Row}
    {ms : List ColumnMemory} (hrepr : b'.Repr id schema capacity (rows ++ new))
    (hok : ColumnMemory.OkRows ms schema.fields (rows ++ new)) {k : Nat} (hk : new.length ≤ 8 * k)
    (hrows : (s.block.numRows + new.length : Int) ≤ maxInt)
    (hbytes : s.block.numBytes + (new.map rowSize).sum ≤ maxInt)
    : SizedBlock.check ⟨b', s.valid.resize roundUp (s.valid.size + k), ms⟩
          = some ⟨b', s.valid.resize roundUp (s.valid.size + k), ms⟩ ∧
        SizedBlock.Ok ⟨b', s.valid.resize roundUp (s.valid.size + k), ms⟩ id schema capacity (rows ++ new) := by
  have hold := h.valid
  constructor
  . apply check_eq
    . rw [hrepr.numRows_eq]
      rw [h.repr.numRows_eq] at hrows
      simpa using hrows
    . have := h.numBytes_append hrepr
      dsimp only
      omega
  . refine ⟨hrepr, hok, ?_, Allocation.le_capacity_resize hround _⟩
    simp [Allocation.resize]
    omega

theorem insertRecord_stored (hround : ∀ n, n ≤ roundUp n) (h : s.Ok id schema capacity rows) {xs : List Field}
    (hrec : IsRecord schema.fields xs) (hfit : (recordWidths xs).sum ≤ s.block.getBytesLeft)
    (hsize : (recordWidths xs).sum ≤ maxInt) (hrows : (s.block.numRows + 1 : Int) ≤ maxInt)
    (hbytes : s.block.numBytes + storedRowSize schema.fields xs ≤ maxInt)
    (hroom : ColumnMemory.RoomAll roundUp s.block.numRows s.memory s.block.columns (recordWidths xs))
    : ∃ s', s.insertRecord roundUp (recordBytes xs) (recordWidths xs) = some ((rows.length : Int), s') ∧
        s'.Ok id schema capacity (rows ++ [storedRow schema.fields xs]) := by
  have hlen : (recordWidths xs).length = s.block.columns.length := by
    rw [h.repr.columns_eq, Column.length_ofRows, length_recordWidths, hrec.length_eq]
  obtain ⟨b', hinsert, hrepr⟩ := h.repr.insertRecord hrec hfit
  rw [h.repr.numRows_eq, h.repr.columns_eq] at hroom
  obtain ⟨ms, hms, hok⟩ := ColumnMemory.insertAll_ok rows h.memory hrec hroom
  have hold := h.valid
  have hvalid := write_valid hround s.valid (n := rows.length + 1) (k := 1) (by omega) (by omega)
  rw [Nat.add_sub_cancel] at hvalid
  obtain ⟨hcheck, hok'⟩ := h.appended hround hrepr hok (k := 1) (by simp) (by simpa using hrows)
    (by rw [storedRowSize_eq_rowSize hrec] at hbytes; simpa using hbytes)
  refine ⟨_, ?_, hok'⟩
  unfold SizedBlock.insertRecord
  rw [← hlen, List.take_length, if_neg (by omega)]
  have hne : ¬ ((rows.length : Int) = -1) := by omega
  simp only [hinsert, Option.bind_eq_bind, Option.bind_some, hne, if_false, h.repr.numRows_eq, hvalid,
    h.repr.columns_eq, hms, hcheck]
  rfl

theorem insertRecord (hround : ∀ n, n ≤ roundUp n) (hcapacity : capacity ≤ maxInt)
    (h : s.Ok id schema capacity rows) {row : Row} (hrow : Row.HasType schema.fields row)
    (hsize : rowSize row ≤ maxInt)
    (hfits : rowSize row ≤ s.block.getBytesLeft → (s.block.numRows + 1 : Int) ≤ maxInt ∧
      ColumnMemory.RoomAll roundUp s.block.numRows s.memory s.block.columns
        (recordWidths (recordOfRow row)))
    : s.insertRecord roundUp (recordBytes (recordOfRow row)) (recordWidths (recordOfRow row))
          = some (-1, s) ∨
        ∃ res s', res ≠ -1 ∧
          s.insertRecord roundUp (recordBytes (recordOfRow row)) (recordWidths (recordOfRow row))
            = some (res, s') ∧ s'.Ok id schema capacity (rows ++ [row]) := by
  have hrec := recordOfRow_isRecord hrow
  have hsum := recordWidths_recordOfRow_sum row
  by_cases hfit : rowSize row ≤ s.block.getBytesLeft
  . right
    obtain ⟨hrows, hroom⟩ := hfits hfit
    have hleft := h.repr.capacity_eq
    have hstored := storedRow_recordOfRow hrow
    obtain ⟨s', hinsert, hok⟩ := h.insertRecord_stored hround hrec (by omega) (by omega) hrows
      (by
        rw [storedRowSize_eq_rowSize hrec, hstored]
        simp only [Block.getBytesLeft] at hfit
        omega) hroom
    rw [hstored] at hok
    exact ⟨rows.length, s', by omega, hinsert, hok⟩
  . left
    have hlen : (recordWidths (recordOfRow row)).length = s.block.columns.length := by
      rw [h.repr.columns_eq, Column.length_ofRows, length_recordWidths, hrec.length_eq]
    have hreject : s.block.insertRecord (recordBytes (recordOfRow row)) (recordWidths (recordOfRow row))
        = some (-1, s.block, recordBytes (recordOfRow row)) := by
      unfold Block.insertRecord
      rw [if_neg (by omega), ← hlen, List.take_length, if_pos (by omega)]
    unfold SizedBlock.insertRecord
    rw [← hlen, List.take_length, if_neg (by omega)]
    simp [hreject]

theorem csvWidths_of_row {fields : List FieldType} {line : List (List UInt8)} {row : Row}
    (h : Column.csvRow simpleAtoi fields line = some row)
    : (csvWidths fields line).length = fields.length ∧ (csvWidths fields line).sum = rowSize row := by
  induction fields generalizing line row with
  | nil =>
    obtain ⟨rfl, rfl⟩ := Column.csvRow_nil h
    exact ⟨rfl, rfl⟩
  | cons type fields ih =>
    obtain ⟨field, line, cell, row', rfl, rfl, hcell, hrow'⟩ := Column.csvRow_cons h
    obtain ⟨hlen, hsum⟩ := ih hrow'
    cases type with
    | int64 =>
      obtain ⟨v, -, rfl⟩ := Option.map_eq_some_iff.mp hcell
      simp only [csvWidths, List.length_cons, hlen, List.sum_cons, hsum, rowSize, List.map_cons]
      exact ⟨trivial, trivial⟩
    | string =>
      obtain rfl := Option.some.inj hcell
      simp only [csvWidths, List.length_cons, hlen, List.sum_cons, hsum, rowSize, List.map_cons]
      exact ⟨trivial, trivial⟩

theorem insertCsvRecord_stored (hround : ∀ n, n ≤ roundUp n) (h : s.Ok id schema capacity rows)
    {line : List (List UInt8)} {row : Row} (hrow : Column.csvRow simpleAtoi schema.fields line = some row)
    {byteWidths : List Int} (hwidths : byteWidths.length = schema.fields.length)
    (hfit : byteWidths.sum ≤ s.block.getBytesLeft) (hsize : byteWidths.sum ≤ maxInt)
    (hrows : (s.block.numRows + 1 : Int) ≤ maxInt) (hbytes : s.block.numBytes + rowSize row ≤ maxInt)
    : ∃ s', s.insertCsvRecord roundUp simpleAtoi line byteWidths = some ((rows.length : Int), s') ∧
        s'.Ok id schema capacity (rows ++ [row]) := by
  have hlen : byteWidths.length = s.block.columns.length := by
    rw [h.repr.columns_eq, Column.length_ofRows, hwidths]
  obtain ⟨b', hinsert, hrepr⟩ := h.repr.insertCsvRecord hrow hwidths hfit
  obtain ⟨ms, hms, hok⟩ := ColumnMemory.insertCsvs_ok hround rows h.memory hrow
  have hold := h.valid
  have hvalid := write_valid hround s.valid (n := rows.length + 1) (k := 1) (by omega) (by omega)
  rw [Nat.add_sub_cancel] at hvalid
  obtain ⟨hcheck, hok'⟩ := h.appended hround hrepr hok (k := 1) (by simp) (by simpa using hrows)
    (by simpa using hbytes)
  refine ⟨_, ?_, hok'⟩
  unfold SizedBlock.insertCsvRecord
  rw [← hlen, List.take_length, if_neg (by omega)]
  have hne : ¬ ((rows.length : Int) = -1) := by omega
  simp only [hinsert, Option.bind_eq_bind, Option.bind_some, hne, if_false, h.repr.numRows_eq, hvalid,
    h.repr.columns_eq, hms, hcheck]
  rfl

theorem insertCsvRecord (hround : ∀ n, n ≤ roundUp n) (hcapacity : capacity ≤ maxInt)
    (h : s.Ok id schema capacity rows) {line : List (List UInt8)} {row : Row}
    (hrow : Column.csvRow simpleAtoi schema.fields line = some row)
    (hsize : (csvWidths schema.fields line).sum ≤ maxInt)
    (hfits : (csvWidths schema.fields line).sum ≤ s.block.getBytesLeft →
      (s.block.numRows + 1 : Int) ≤ maxInt)
    : s.insertCsvRecord roundUp simpleAtoi line (csvWidths schema.fields line) = some (-1, s) ∨
        ∃ res s', res ≠ -1 ∧
          s.insertCsvRecord roundUp simpleAtoi line (csvWidths schema.fields line) = some (res, s') ∧
          s'.Ok id schema capacity (rows ++ [row]) := by
  obtain ⟨hwidths, hsum⟩ := csvWidths_of_row hrow
  by_cases hfit : (csvWidths schema.fields line).sum ≤ s.block.getBytesLeft
  . right
    have hleft := h.repr.capacity_eq
    obtain ⟨s', hinsert, hok⟩ := h.insertCsvRecord_stored hround hrow hwidths hfit hsize (hfits hfit)
      (by
        simp only [Block.getBytesLeft] at hfit
        omega)
    exact ⟨rows.length, s', by omega, hinsert, hok⟩
  . left
    have hlen : (csvWidths schema.fields line).length = s.block.columns.length := by
      rw [h.repr.columns_eq, Column.length_ofRows, hwidths]
    have hreject : s.block.insertCsvRecord simpleAtoi line (csvWidths schema.fields line)
        = some (-1, s.block) := by
      unfold Block.insertCsvRecord
      rw [if_neg (by omega), ← hlen, List.take_length, if_pos (by omega)]
    unfold SizedBlock.insertCsvRecord
    rw [← hlen, List.take_length, if_neg (by omega)]
    simp [hreject]

/--
`ZeroPadding()` does not reach the valid bits of the rows.
-/
theorem zeroPadding (h : s.Ok id schema capacity rows) (valid : Allocation)
    (hsize : s.valid.size ≤ valid.size)
    : (zeroPadding s.block valid).Repr id schema capacity rows := by
  refine ⟨h.repr.id_eq, h.repr.schema_eq, h.repr.capacity_eq, h.repr.numRows_eq, h.repr.columns_eq,
    h.repr.numBytes_eq, ?_, h.repr.rowIdMap_eq, h.repr.hasType⟩
  intro r hr
  have hold := h.valid
  have hbit := h.repr.valid_eq r hr
  simp only [SizedBlock.zeroPadding, Block.getValid, List.getD_eq_getElem?_getD] at hbit ⊢
  rw [List.getElem?_take_of_lt (by omega)]
  exact hbit

theorem insertRecords (hround : ∀ n, n ≤ roundUp n) (h : s.Ok id schema capacity rows)
    {columnData : List ArrayData} {new : List Row}
    (hnew : ArrayData.HoldRows schema.fields columnData new)
    (htype : ∀ row ∈ new, Row.HasType schema.fields row)
    (hoffset : ∀ a ∈ columnData, ∀ a' ∈ columnData, a.offset = a'.offset)
    (hrows : (s.block.numRows + new.length : Int) ≤ maxInt)
    (hbytes : s.block.numBytes + (new.map rowSize).sum ≤ maxInt)
    : s.insertRecords roundUp columnData = some (-1, s) ∧ new = [] ∨
        ∃ res s', res ≠ -1 ∧ s.insertRecords roundUp columnData = some (res, s') ∧
          s'.Ok id schema capacity (rows ++ new) := by
  obtain ⟨⟨first, hfirst, hlength⟩, -⟩ := ArrayData.sliceRows_eq hnew htype
  unfold SizedBlock.insertRecords
  rw [hfirst]
  simp only [Option.bind_eq_bind, Option.bind_some, hlength]
  by_cases hempty : new = []
  . left
    simp [hempty]
  . right
    have hpos : new.length ≠ 0 := by simpa using hempty
    have hoffset' : ∀ a ∈ columnData, a.offset = first.offset :=
      fun a ha => hoffset a ha first (List.mem_of_mem_head? hfirst)
    have hpadded := h.zeroPadding (s.valid.resize roundUp (s.valid.size + new.length / 8 + 1))
      (by simp [Allocation.resize]; omega)
    obtain ⟨b', hinsert, hrepr⟩ := hpadded.insertSlices hfirst hoffset' hlength hempty hnew htype
    obtain ⟨ms, hms, hok⟩ := ColumnMemory.insertSlices_ok hround rows h.memory hnew hoffset'
    have hold := h.valid
    have hvalid := write_valid hround s.valid (n := rows.length + new.length) (k := new.length / 8 + 1)
      (by omega) (by omega)
    rw [← Nat.add_assoc] at hvalid
    obtain ⟨hcheck, hok'⟩ := h.appended hround hrepr hok (k := new.length / 8 + 1) (by omega) hrows hbytes
    rw [← Nat.add_assoc] at hcheck hok'
    refine ⟨((rows ++ new).length : Int) - 1, _, ?_, ?_, hok'⟩
    . rw [List.length_append]
      omega
    . simp only [hpos, if_false, hinsert, Option.bind_some, h.repr.numRows_eq, hvalid,
        h.repr.columns_eq, hms, hcheck]
      rfl

end SizedBlock.Ok

namespace Session

variable {roundUp : Nat → Nat} {simpleAtoi : List UInt8 → Option (BitVec 64)} {s : Session}
  {id : Int} {schema : Schema} {capacity : Int}

def Ok (id : Int) (schema : Schema) (capacity : Int) (s : Session) : Prop :=
  s.sized.Ok id schema capacity s.rows

def Kept (roundUp : Nat → Nat) (simpleAtoi : List UInt8 → Option (BitVec 64)) (s : Session)
    (insert : Insert) (s' : Session) : Prop :=
  ∀ sized, insert.run roundUp simpleAtoi s.sized = some (-1, sized) → s' = s

theorem step_of_run {insert : Insert} {new : List Row} {P : SizedBlock → List Row → Prop}
    (hnew : insert.rows simpleAtoi s.sized.block.schema.fields = some new)
    (hold : P s.sized s.rows)
    (h : insert.run roundUp simpleAtoi s.sized = some (-1, s.sized) ∨
      ∃ res sized, res ≠ -1 ∧ insert.run roundUp simpleAtoi s.sized = some (res, sized) ∧
        P sized (s.rows ++ new))
    : ∃ s', s.step roundUp simpleAtoi insert = some s' ∧ s.Kept roundUp simpleAtoi insert s' ∧
        P s'.sized s'.rows := by
  rcases h with hrun | ⟨res, sized, hres, hrun, hp⟩
  . refine ⟨s, ?_, fun _ _ => rfl, hold⟩
    simp [step, hrun]
  . refine ⟨⟨sized, s.rows ++ new⟩, ?_, ?_, hp⟩
    . simp [step, hrun, hres, hnew]
    . intro sized' hrun'
      rw [hrun] at hrun'
      cases hrun'
      exact absurd rfl hres

theorem step_ok (hround : ∀ n, n ≤ roundUp n) (hcapacity : capacity ≤ maxInt)
    (h : Ok id schema capacity s) {insert : Insert}
    (hwell : insert.WellFormed simpleAtoi schema.fields) (hfits : insert.Fits roundUp s)
    : ∃ s', s.step roundUp simpleAtoi insert = some s' ∧ s.Kept roundUp simpleAtoi insert s' ∧
        Ok id schema capacity s' := by
  have hschema := (SizedBlock.Ok.repr h).schema_eq
  cases insert with
  | record row =>
    refine step_of_run (P := fun sized rows => sized.Ok id schema capacity rows) rfl h ?_
    exact SizedBlock.Ok.insertRecord hround hcapacity h hwell hfits.1 hfits.2
  | csv line =>
    obtain ⟨row, hrow⟩ := Option.isSome_iff_exists.mp hwell
    simp only [Insert.Fits, hschema] at hfits
    refine step_of_run (P := fun sized rows => sized.Ok id schema capacity rows)
      (by rw [Insert.rows, hschema, hrow]; rfl) h ?_
    simp only [Insert.run, hschema]
    exact SizedBlock.Ok.insertCsvRecord hround hcapacity h hrow hfits.1 hfits.2
  | slices columnData =>
    obtain ⟨new, hnew, htype, hoffset⟩ := hwell
    have hrows := (ArrayData.sliceRows_eq hnew htype).2
    simp only [Insert.Fits, hrows] at hfits
    obtain ⟨hcount, hbytes⟩ := hfits
    refine step_of_run (P := fun sized rows => sized.Ok id schema capacity rows) hrows h ?_
    rcases SizedBlock.Ok.insertRecords hround h hnew htype hoffset hcount hbytes with ⟨hrun, -⟩ | hrun
    . exact .inl hrun
    . exact .inr hrun

end Session

/-! New blocks. -/

theorem ColumnMemory.allocate_ok {roundUp : Nat → Nat} (hround : ∀ n, n ≤ roundUp n) (initRows : Nat)
    {fields : List FieldType} (h : .string ∈ fields → 0 < initRows)
    : ∃ ms, fields.mapM (allocate roundUp initRows) = some ms ∧ OkRows ms fields [] := by
  induction fields with
  | nil => exact ⟨[], rfl, trivial⟩
  | cons type fields ih =>
    obtain ⟨ms, hms, hok⟩ := ih fun hmem => h (List.mem_cons_of_mem _ hmem)
    have hfirst : ∃ m, allocate roundUp initRows type = some m ∧ m.Ok type [] := by
      cases type with
      | int64 => exact ⟨_, rfl, Nat.zero_le _⟩
      | string =>
        have hpos := h List.mem_cons_self
        have hwrite : offsetSize ≤ (Allocation.allocate roundUp (offsetSize * initRows)).capacity := by
          have := hround (offsetSize * initRows)
          simp only [Allocation.allocate, offsetSize] at *
          omega
        simp only [allocate, Allocation.write_eq hwrite, Option.bind_eq_bind, Option.bind_some]
        exact ⟨_, rfl, by simpa [offsetSize] using hwrite, Nat.zero_le _⟩
    obtain ⟨m, hm, hmok⟩ := hfirst
    refine ⟨m :: ms, ?_, hmok, hok⟩
    rw [List.mapM_cons, hm, hms]
    rfl

theorem SizedBlock.new_ok {roundUp : Nat → Nat} (hround : ∀ n, n ≤ roundUp n) (id : Int) {schema : Schema}
    {capacity : Int} (metadataEnabled : Bool) (hcapacity : 0 ≤ initRows schema capacity)
    (hstring : .string ∈ schema.fields → 0 < initRows schema capacity)
    : ∃ s, new roundUp id schema capacity metadataEnabled = some s ∧ s.Ok id schema capacity [] := by
  have hpos : .string ∈ schema.fields → 0 < (initRows schema capacity).toNat := by
    intro hmem
    have := hstring hmem
    omega
  obtain ⟨ms, hms, hok⟩ := ColumnMemory.allocate_ok hround (initRows schema capacity).toNat hpos
  refine ⟨⟨.new id schema capacity metadataEnabled, .allocate roundUp 0, ms⟩, ?_, ?_⟩
  . simp [new, Int.not_lt.mpr hcapacity, hms]
  . exact ⟨Block.new_repr id schema capacity metadataEnabled, hok, Nat.zero_le _, hround 0⟩

/--
For every sequence of inserts into a new block in which every record finds room in the buffers, no insert
fails, the block represents the rows that were inserted, and inserts that return -1 change nothing.
-/
theorem session_represents (roundUp : Nat → Nat) (simpleAtoi : List UInt8 → Option (BitVec 64))
    (hround : ∀ n, n ≤ roundUp n) (id : Int) (schema : Schema) (capacity : Int) (metadataEnabled : Bool)
    (hcapacity : capacity ≤ maxInt) (hrows : 0 ≤ SizedBlock.initRows schema capacity)
    (hstring : .string ∈ schema.fields → 0 < SizedBlock.initRows schema capacity)
    (inserts : List Insert) (hwell : ∀ insert ∈ inserts, insert.WellFormed simpleAtoi schema.fields)
    : ∃ s, SizedBlock.new roundUp id schema capacity metadataEnabled = some s ∧
        (Run.Meets (Session.step roundUp simpleAtoi) (Insert.Fits roundUp) ⟨s, []⟩ inserts →
          Run.Always (Session.step roundUp simpleAtoi) (fun s => s.sized.block.Represents s.rows)
            (Session.Kept roundUp simpleAtoi) ⟨s, []⟩ inserts) := by
  obtain ⟨s, hs, hok⟩ := SizedBlock.new_ok hround id metadataEnabled hrows hstring
  refine ⟨s, hs, ?_⟩
  intro hmeets
  have hinit : Session.Ok id schema capacity ⟨s, []⟩ := hok
  refine Run.always_of_meets ?_ ?_ hinit (hmeets.and_forall hwell)
  . exact fun s h => SizedBlock.Ok.repr h |>.represents
  . exact fun s insert h hfits => Session.step_ok hround hcapacity h hfits.2 hfits.1

/--
Arrow allocates multiples of 64 bytes.
-/
def roundUpToMultipleOf64 (n : Nat) : Nat :=
  (n + 63) / 64 * 64

/--
What `absl::SimpleAtoi` does with a string of decimal digits.
-/
def decimalAtoi (field : List UInt8) : Option (BitVec 64) :=
  if field ≠ [] ∧ ∀ c ∈ field, 48 ≤ c ∧ c ≤ 57 then
    let value := field.foldl (fun n c => 10 * n + (c.toNat - 48)) 0
    if value < 2 ^ 63 then some (BitVec.ofNat 64 value) else none
  else
    none

theorem tagFields_ne_nil : [FieldType.int64, .string] ≠ [] :=
  List.cons_ne_nil _ _

def tagSchema : Schema := ⟨[.int64, .string], tagFields_ne_nil⟩

def fittingInserts : List Insert :=
  [.record [.int64 7, .string [97]], .csv [[49, 50], [98, 98]],
    .slices [⟨2, 1, .int64 [1, 2, 3]⟩, ⟨2, 1, .string [0, 1, 3, 3] [97, 98, 98]⟩],
    .record [.int64 8, .string []]]

theorem fittingInserts_wellFormed
    : ∀ insert ∈ fittingInserts, insert.WellFormed decimalAtoi tagSchema.fields := by
  simp only [fittingInserts, List.forall_mem_cons, List.not_mem_nil, false_implies, implies_true,
    and_true]
  refine ⟨rfl, ?_, ?_, rfl⟩
  . show (Column.csvRow decimalAtoi tagSchema.fields [[49, 50], [98, 98]]).isSome = true
    decide +kernel
  refine ⟨[[.int64 2, .string [98, 98]], [.int64 3, .string []]], ?_, by decide, by decide⟩
  exact ⟨⟨rfl, by decide, rfl⟩, ⟨rfl, by decide, rfl, 1, rfl, rfl⟩, trivial⟩

theorem session_represents_fittingInserts
    : ∃ s, SizedBlock.new roundUpToMultipleOf64 0 tagSchema 100 false = some s ∧
        Run.Always (Session.step roundUpToMultipleOf64 decimalAtoi)
          (fun s => s.sized.block.Represents s.rows)
          (Session.Kept roundUpToMultipleOf64 decimalAtoi) ⟨s, []⟩ fittingInserts := by
  have hround : ∀ n, n ≤ roundUpToMultipleOf64 n := by
    intro n
    simp only [roundUpToMultipleOf64]
    omega
  obtain ⟨s, hs, hruns⟩ := session_represents roundUpToMultipleOf64 decimalAtoi hround 0 tagSchema 100
    false (by decide) (by decide) (by decide) fittingInserts fittingInserts_wellFormed
  have hmeets : (SizedBlock.new roundUpToMultipleOf64 0 tagSchema 100 false).map (fun s =>
      decide (Run.Meets (Session.step roundUpToMultipleOf64 decimalAtoi)
        (Insert.Fits roundUpToMultipleOf64) ⟨s, []⟩ fittingInserts)) = some true := by decide +kernel
  rw [hs, Option.map_some, Option.some.injEq, decide_eq_true_eq] at hmeets
  exact ⟨s, hs, hruns hmeets⟩

def mixedInserts : List Insert :=
  List.replicate 8 (.csv [[49], [97]]) ++ [.record [.int64 1, .string [97]]]

/--
The CSV lines fill the buffer of the integers without changing its size, the record is written behind it.
-/
theorem not_session_represents_mixedInserts
    : (∀ insert ∈ mixedInserts, insert.WellFormed decimalAtoi tagSchema.fields) ∧
        ∃ s, SizedBlock.new roundUpToMultipleOf64 0 tagSchema 100 false = some s ∧
          ¬ Run.Always (Session.step roundUpToMultipleOf64 decimalAtoi)
            (fun s => s.sized.block.Represents s.rows)
            (Session.Kept roundUpToMultipleOf64 decimalAtoi) ⟨s, []⟩ mixedInserts := by
  constructor
  . intro insert hmem
    rcases List.mem_append.mp hmem with hmem | hmem
    . rw [List.eq_of_mem_replicate hmem]
      show (Column.csvRow decimalAtoi tagSchema.fields [[49], [97]]).isSome = true
      decide +kernel
    . rw [List.mem_singleton.mp hmem]
      rfl
  . have hfails : (SizedBlock.new roundUpToMultipleOf64 0 tagSchema 100 false).map (fun s =>
        mixedInserts.foldlM (Session.step roundUpToMultipleOf64 decimalAtoi) ⟨s, []⟩)
        = some none := by decide +kernel
    obtain ⟨s, hs, hnone⟩ := Option.map_eq_some_iff.mp hfails
    refine ⟨s, hs, ?_⟩
    intro halways
    obtain ⟨s', hs', -⟩ := halways.foldlM
    rw [hnone] at hs'
    cases hs'

end Hustle.Storage
