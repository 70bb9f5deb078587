import Hustle.Storage.BlockInserts

/-!
This module contains the room in the buffers of a block: the inserts of CSV lines and of slices make
enough of it themselves, the inserts of records only if the other ones have not used it up.
-/

namespace Hustle.Storage

namespace Allocation

variable {roundUp : Nat → Nat} {a : Allocation} {n stop : Nat}

theorem write_eq (h : stop ≤ a.capacity) : a.write stop = some a :=
  if_pos h

theorem le_of_write {a' : Allocation} (h : a.write stop = some a') : stop ≤ a.capacity := by
  unfold write at h
  split at h
  . next hle => exact hle
  . cases h

theorem le_capacity_resize (hround : ∀ n, n ≤ roundUp n) (n : Nat)
    : n ≤ (a.resize roundUp n).capacity := by
  simp only [resize]
  split
  . next h => exact h
  . exact hround n

end Allocation

namespace ColumnMemory

/--
The buffers have room for the cells of the column.
-/
def Ok (m : ColumnMemory) (type : FieldType) (cells : List Cell) : Prop :=
  match type, m with
  | .int64, .int64 values => fieldSize * cells.length ≤ values.capacity
  | .string, .string offsets data =>
    offsetSize * (cells.length + 1) ≤ offsets.capacity ∧
    (cells.map Cell.toBytes).flatten.length ≤ data.capacity
  | _, _ => False

def OkRows : List ColumnMemory → List FieldType → List Row → Prop
  | [], [], _ => True
  | m :: ms, type :: fields, rows =>
    m.Ok type (rows.map fun row => row.headD default) ∧ OkRows ms fields (rows.map List.tail)
  | _, _, _ => False

/--
There is room for one more value when the sizes of the buffers are increased by the size of it.
-/
def Room (roundUp : Nat → Nat) (m : ColumnMemory) (c : Column) (numRows : Nat) (byteWidth : Int) : Prop :=
  match m with
  | .int64 values =>
    fieldSize * (numRows + 1) ≤ (values.resize roundUp (values.size + fieldSize)).capacity
  | .string offsets data =>
    offsetSize * (numRows + 2) ≤ (offsets.resize roundUp (offsets.size + offsetSize)).capacity ∧
    c.size + byteWidth ≤ (data.resize roundUp (data.size + byteWidth.toNat)).capacity

def RoomAll (roundUp : Nat → Nat) (numRows : Nat) : List ColumnMemory → List Column → List Int → Prop
  | m :: ms, c :: cs, byteWidth :: byteWidths =>
    m.Room roundUp c numRows byteWidth ∧ RoomAll roundUp numRows ms cs byteWidths
  | _, _, _ => True

instance : Decidable (Room roundUp m c numRows byteWidth) :=
  match m with
  | .int64 _ => inferInstanceAs (Decidable (_ ≤ _))
  | .string _ _ => inferInstanceAs (Decidable (_ ∧ _))

instance instDecidableRoomAll (roundUp : Nat → Nat) (numRows : Nat)
    : (ms : List ColumnMemory) → (cs : List Column) → (byteWidths : List Int) →
      Decidable (RoomAll roundUp numRows ms cs byteWidths)
  | _ :: ms, _ :: cs, _ :: byteWidths =>
    have := instDecidableRoomAll roundUp numRows ms cs byteWidths
    inferInstanceAs (Decidable (_ ∧ _))
  | [], _, _ | _ :: _, [], _ | _ :: _, _ :: _, [] => .isTrue trivial

theorem OkRows.cons {ms : List ColumnMemory} {type : FieldType} {fields : List FieldType} {rows : List Row}
    (h : OkRows ms (type :: fields) rows)
    : ∃ m ms', ms = m :: ms' ∧ m.Ok type (rows.map fun row => row.headD default) ∧
        OkRows ms' fields (rows.map List.tail) := by
  cases ms with
  | nil => exact h.elim
  | cons m ms => exact ⟨m, ms, rfl, h⟩

variable {roundUp : Nat → Nat} {type : FieldType} {cells : List Cell} {m : ColumnMemory}

theorem current_offset (cells : List Cell)
    : (Column.offsetsFrom 0 (cells.map Cell.toBytes))[cells.length]?
        =
      some ((cells.map Cell.toBytes).flatten.length : Int) := by
  rw [Column.offsetsFrom_getElem? 0 _ _ (by simp), List.take_of_length_le (by simp)]
  simp

theorem ok_string {offsets data : Allocation} {bytes : List UInt8}
    (hoffsets : offsetSize * (cells.length + 2) ≤ offsets.capacity)
    (hdata : (cells.map Cell.toBytes).flatten.length + bytes.length ≤ data.capacity)
    : (ColumnMemory.string offsets data).Ok .string (cells ++ [.string bytes]) := by
  refine ⟨by simpa using hoffsets, ?_⟩
  simpa [Cell.toBytes] using hdata

theorem insert_ok {x : Field} (h : m.Ok type cells) (hx : x.WellFormed type)
    (hroom : m.Room roundUp (Column.ofCells type cells) cells.length x.byteWidth)
    : ∃ m', m.insert roundUp (Column.ofCells type cells) cells.length x.byteWidth = some m' ∧
        m'.Ok type (cells ++ [x.stored type]) := by
  obtain ⟨hbytes, hx⟩ := hx
  match type, m with
  | .int64, .int64 values =>
    have hstop : fieldSize * cells.length + max x.byteWidth.toNat fieldSize = fieldSize * (cells.length + 1) := by
      simp only [fieldSize] at hx ⊢
      omega
    simp only [insert, Column.ofCells, Column.ofInts, hstop]
    rw [Allocation.write_eq hroom]
    refine ⟨_, rfl, ?_⟩
    simpa [Ok, Room] using hroom
  | .string, .string offsets data =>
    obtain ⟨hoffsets, hdata⟩ := hroom
    have hcurr := current_offset cells
    simp only [Column.ofCells, Column.ofStrings] at hdata
    have hwrite : (cells.map Cell.toBytes).flatten.length + x.bytes.length
        ≤ (data.resize roundUp (data.size + x.byteWidth.toNat)).capacity := by
      dsimp only at hx
      omega
    simp only [insert, Column.ofCells, Column.ofStrings, hcurr, Option.bind_eq_bind, Option.bind_some,
      Int.toNat_natCast]
    rw [Allocation.write_eq hoffsets, Option.bind_some, ← hbytes, hbytes, Allocation.write_eq (by omega)]
    exact ⟨_, rfl, ok_string hoffsets hwrite⟩

theorem insertAll_ok {fields : List FieldType} {xs : List Field} (rows : List Row) {ms : List ColumnMemory}
    (h : OkRows ms fields rows) (hrec : IsRecord fields xs)
    (hroom : RoomAll roundUp rows.length ms (Column.ofRows fields rows) (recordWidths xs))
    : ∃ ms', insertAll roundUp rows.length ms (Column.ofRows fields rows) (recordWidths xs) = some ms' ∧
        OkRows ms' fields (rows ++ [storedRow fields xs]) := by
  induction hrec generalizing ms rows with
  | nil =>
    cases ms with
    | nil => exact ⟨[], by simp [insertAll, Column.ofRows], trivial⟩
    | cons m ms => exact h.elim
  | @cons type x fields xs hx _ ih =>
    obtain ⟨m, ms, rfl, hm, hms⟩ := h.cons
    obtain ⟨hroom, hrooms⟩ := hroom
    rw [← List.length_map (f := fun row : Row => row.headD default)] at hroom
    rw [← List.length_map (f := List.tail (α := Cell))] at hrooms
    obtain ⟨m', hinsert, hok⟩ := insert_ok hm hx hroom
    obtain ⟨ms', hinserts, hoks⟩ := ih (rows.map List.tail) hms hrooms
    rw [List.length_map] at hinsert hinserts
    refine ⟨m' :: ms', ?_, ?_, ?_⟩
    . simp only [recordWidths_cons, insertAll, Column.ofRows, hinsert, hinserts, Option.bind_eq_bind,
        Option.bind_some]
      rfl
    . simpa [storedRow] using hok
    . simpa [storedRow] using hoks

theorem room_of_insert {m' : ColumnMemory} {byteWidth : Int}
    (h : m.insert roundUp (Column.ofCells type cells) cells.length byteWidth = some m')
    : m.Room roundUp (Column.ofCells type cells) cells.length byteWidth := by
  match type, m with
  | .int64, .string offsets data => cases h
  | .string, .int64 values => cases h
  | .int64, .int64 values =>
    obtain ⟨values', hwrite, -⟩ := Option.bind_eq_some_iff.mp h
    have hle := Allocation.le_of_write hwrite
    simp only [Room]
    rw [Nat.mul_succ]
    omega
  | .string, .string offsets data =>
    obtain ⟨current, hcurrent, h⟩ := Option.bind_eq_some_iff.mp h
    obtain ⟨offsets', hoffsets, h⟩ := Option.bind_eq_some_iff.mp h
    obtain ⟨data', hdata, -⟩ := Option.bind_eq_some_iff.mp h
    rw [current_offset, Option.some.injEq] at hcurrent
    subst hcurrent
    refine ⟨Allocation.le_of_write hoffsets, ?_⟩
    have hle := Allocation.le_of_write hdata
    rw [Int.toNat_natCast] at hle
    simp only [Column.ofCells, Column.ofStrings]
    omega

theorem roomAll_of_insertAll {fields : List FieldType} (rows : List Row) {ms ms' : List ColumnMemory}
    {byteWidths : List Int}
    (h : insertAll roundUp rows.length ms (Column.ofRows fields rows) byteWidths = some ms')
    : RoomAll roundUp rows.length ms (Column.ofRows fields rows) byteWidths := by
  induction fields generalizing rows ms ms' byteWidths with
  | nil => cases ms <;> trivial
  | cons type fields ih =>
    cases ms with
    | nil => trivial
    | cons m ms =>
      cases byteWidths with
      | nil => trivial
      | cons byteWidth byteWidths =>
        obtain ⟨m', hm, h⟩ := Option.bind_eq_some_iff.mp h
        obtain ⟨ms', hms, -⟩ := Option.bind_eq_some_iff.mp h
        rw [← List.length_map (f := fun row : Row => row.headD default)] at hm
        rw [← List.length_map (f := List.tail (α := Cell))] at hms
        have hrest := ih (rows.map List.tail) hms
        rw [List.length_map] at hrest
        have hroom := room_of_insert hm
        rw [List.length_map] at hroom
        exact ⟨hroom, hrest⟩

/-! CSV lines. -/

theorem insertCsv_ok (hround : ∀ n, n ≤ roundUp n) {simpleAtoi : List UInt8 → Option (BitVec 64)}
    {field : List UInt8} {cell : Cell} (h : m.Ok type cells)
    (hcell : Column.csvCell simpleAtoi type field = some cell)
    : ∃ m', m.insertCsv roundUp (Column.ofCells type cells) cells.length field.length = some m' ∧
        m'.Ok type (cells ++ [cell]) := by
  match type, m with
  | .int64, .int64 values =>
    simp only [insertCsv, Column.ofCells, Column.ofInts, List.length_map, Option.bind_eq_bind]
    have hroom : fieldSize * (cells.length + 1) ≤
        (if (values.capacity : Int) < fieldSize * cells.length + fieldSize then
          values.resize roundUp (values.capacity + fieldSize + 1)
        else
          values).capacity := by
      have hold : fieldSize * cells.length ≤ values.capacity := h
      split
      . have := Allocation.le_capacity_resize (a := values) hround (values.capacity + fieldSize + 1)
        rw [Nat.mul_add, Nat.mul_one]
        omega
      . rw [Nat.mul_add, Nat.mul_one]
        omega
    rw [Nat.mul_add, Nat.mul_one] at hroom
    rw [Allocation.write_eq hroom]
    refine ⟨_, rfl, ?_⟩
    rw [← Nat.mul_succ] at hroom
    simpa [Ok] using hroom
  | .string, .string offsets data =>
    obtain rfl := Option.some.inj hcell
    obtain ⟨hoffsets, hdata⟩ := h
    have hcurr := current_offset cells
    simp only [insertCsv, Column.ofCells, Column.ofStrings, hcurr, Option.bind_eq_bind,
      Option.bind_some, List.length_map, Int.toNat_natCast]
    have hroom : offsetSize * (cells.length + 2) ≤
        (if offsets.capacity < (cells.length + 2) * offsetSize then
          offsets.resize roundUp ((cells.length + 2) * offsetSize + 1)
        else
          offsets).capacity := by
      split
      . have := Allocation.le_capacity_resize (a := offsets) hround
          ((cells.length + 2) * offsetSize + 1)
        rw [Nat.mul_comm]
        omega
      . rw [Nat.mul_comm]
        omega
    have hwrite : (cells.map Cell.toBytes).flatten.length + field.length ≤
        (if (data.capacity : Int) < (cells.map Cell.toBytes).flatten.length + field.length then
          data.resize roundUp (data.capacity + field.length)
        else
          data).capacity := by
      split
      . have := Allocation.le_capacity_resize (a := data) hround (data.capacity + field.length)
        omega
      . omega
    rw [Allocation.write_eq hroom, Option.bind_some, Allocation.write_eq hwrite]
    exact ⟨_, rfl, ok_string hroom hwrite⟩

theorem insertCsvs_ok (hround : ∀ n, n ≤ roundUp n) {simpleAtoi : List UInt8 → Option (BitVec 64)}
    {fields : List FieldType} {record : List (List UInt8)} {row : Row} (rows : List Row)
    {ms : List ColumnMemory} (h : OkRows ms fields rows)
    (hrow : Column.csvRow simpleAtoi fields record = some row)
    : ∃ ms', insertCsvs roundUp rows.length ms (Column.ofRows fields rows) record = some ms' ∧
        OkRows ms' fields (rows ++ [row]) := by
  induction fields generalizing ms rows record row with
  | nil =>
    cases ms with
    | nil => exact ⟨[], by simp [insertCsvs, Column.ofRows], trivial⟩
    | cons m ms => exact h.elim
  | cons type fields ih =>
    obtain ⟨m, ms, rfl, hm, hms⟩ := h.cons
    obtain ⟨field, record, cell, row', rfl, rfl, hcell, hrow'⟩ := Column.csvRow_cons hrow
    obtain ⟨m', hinsert, hok⟩ := insertCsv_ok hround hm hcell
    obtain ⟨ms', hinserts, hoks⟩ := ih (rows.map List.tail) hms hrow'
    rw [List.length_map] at hinsert hinserts
    refine ⟨m' :: ms', ?_, ?_, ?_⟩
    . simp only [insertCsvs, Column.ofRows, hinsert, hinserts, Option.bind_eq_bind, Option.bind_some]
      rfl
    . simpa using hok
    . simpa using hoks

/-! Slices. -/

theorem insertSlice_ok (hround : ∀ n, n ≤ roundUp n) {new : List Cell} {vals : ArrayData}
    (h : m.Ok type cells) (hnew : vals.Holds type new)
    : ∃ m', m.insertSlice roundUp (Column.ofCells type cells) cells.length vals.offset vals new.length
          = some m' ∧ m'.Ok type (cells ++ new) := by
  obtain ⟨hlen, -, hnew⟩ := hnew
  match type, m, hbuf : vals.buffers, hnew with
  | .int64, .int64 values, .int64 inValues, _ =>
    simp only [insertSlice, Column.ofCells, Column.ofInts, hbuf, List.length_map, Option.bind_eq_bind]
    have hroom : fieldSize * cells.length + fieldSize * new.length ≤
        (if (values.capacity : Int) < fieldSize * cells.length + ((fieldSize * new.length : Nat) : Int) then
          values.resize roundUp (values.capacity + fieldSize * new.length)
        else
          values).capacity := by
      have hold : fieldSize * cells.length ≤ values.capacity := h
      split
      . have := Allocation.le_capacity_resize (a := values) hround
          (values.capacity + fieldSize * new.length)
        omega
      . next hle =>
        have : ((fieldSize * cells.length : Nat) : Int) = fieldSize * cells.length := by push_cast; rfl
        omega
    rw [Allocation.write_eq hroom]
    refine ⟨_, rfl, ?_⟩
    rw [← Nat.mul_add] at hroom
    simpa [Ok] using hroom
  | .string, .string offsets data, .string inOffsets inData, hnew =>
    obtain ⟨hhead, start, hwindow, hread⟩ := hnew
    obtain ⟨hoffsets, hdata⟩ := h
    have hcurr := current_offset cells
    have hstart : inOffsets[vals.offset]? = some (start : Int) := by
      have := Column.getElem?_of_readAt (k := 0) hwindow (by omega)
      rwa [← List.head?_eq_getElem?, Column.head_offsetsFrom] at this
    have hstop : inOffsets[vals.offset + new.length]?
        = some ((start : Int) + (new.map Cell.toBytes).flatten.length) := by
      rw [Column.getElem?_of_readAt hwindow (by omega), Column.offsetsFrom_getElem? _ _ _ (by simp),
        List.take_of_length_le (by simp)]
    have hdiff : (start : Int) + (new.map Cell.toBytes).flatten.length - start
        = (new.map Cell.toBytes).flatten.length := by omega
    simp only [insertSlice, Column.ofCells, Column.ofStrings, hbuf, hcurr, hstart, hstop, hdiff,
      Option.bind_eq_bind, Option.bind_some]
    have hroom : offsetSize * (cells.length + new.length + 1) ≤
        (if offsets.capacity < (cells.length + new.length + 2) * fieldSize then
          offsets.resize roundUp (offsets.capacity + offsetSize * (new.length + 1))
        else
          offsets).capacity := by
      split
      . have := Allocation.le_capacity_resize (a := offsets) hround
          (offsets.capacity + offsetSize * (new.length + 1))
        simp only [offsetSize] at *
        omega
      . simp only [offsetSize, fieldSize] at *
        omega
    have hwrite : (((cells.map Cell.toBytes).flatten.length : Int)
          + (new.map Cell.toBytes).flatten.length).toNat ≤
        (if (data.capacity : Int) <
            (cells.map Cell.toBytes).flatten.length + (new.map Cell.toBytes).flatten.length then
          data.resize roundUp (((cells.map Cell.toBytes).flatten.length : Int)
            + (new.map Cell.toBytes).flatten.length).toNat
        else
          data).capacity := by
      split
      . exact Allocation.le_capacity_resize hround _
      . omega
    rw [Allocation.write_eq hroom, Option.bind_some, Allocation.write_eq hwrite]
    refine ⟨_, rfl, ?_, ?_⟩
    . simpa [Nat.add_assoc] using hroom
    . simp only [List.map_append, List.flatten_append, List.length_append]
      omega

theorem insertSlices_ok (hround : ∀ n, n ≤ roundUp n) {fields : List FieldType}
    {columnData : List ArrayData} {new : List Row} {offset : Nat} (rows : List Row)
    {ms : List ColumnMemory} (h : OkRows ms fields rows)
    (hnew : ArrayData.HoldRows fields columnData new) (hoffset : ∀ a ∈ columnData, a.offset = offset)
    : ∃ ms', insertSlices roundUp rows.length offset new.length ms (Column.ofRows fields rows) columnData
          = some ms' ∧ OkRows ms' fields (rows ++ new) := by
  induction fields generalizing ms rows columnData new with
  | nil =>
    cases ms with
    | nil => exact ⟨[], by simp [insertSlices, Column.ofRows], trivial⟩
    | cons m ms => exact h.elim
  | cons type fields ih =>
    obtain ⟨m, ms, rfl, hm, hms⟩ := h.cons
    obtain ⟨a, as, rfl, ha, has⟩ := hnew.cons
    obtain ⟨m', hinsert, hok⟩ := insertSlice_ok hround hm ha
    obtain ⟨ms', hinserts, hoks⟩ := ih (rows.map List.tail) hms has
      fun b hb => hoffset b (List.mem_cons_of_mem _ hb)
    rw [hoffset a List.mem_cons_self] at hinsert
    simp only [List.length_map] at hinsert hinserts
    refine ⟨m' :: ms', ?_, ?_, ?_⟩
    . simp only [insertSlices, Column.ofRows, hinsert, hinserts, Option.bind_eq_bind, Option.bind_some]
      rfl
    . simpa using hok
    . simpa using hoks

end ColumnMemory

end Hustle.Storage
