import Hustle.Storage.Record

/-!
This module contains the representation of rows in a block. `Column.ofRows` is the only way columns
look like after any number of inserts, so what an insert does is an equation between two of them.
-/

namespace Hustle.Storage

instance : Inhabited Cell where
  default := .int64 0

namespace Column

/--
The offsets of a string column that starts at `start`.
-/
def offsetsFrom (start : Int) : List (List UInt8) → List Int
  | [] => [start]
  | s :: ss => start :: offsetsFrom (start + s.length) ss

def ofInts (vs : List (BitVec 64)) : Column :=
  ⟨⟨vs.length, 0, .int64 vs⟩, fieldSize * vs.length⟩

def ofStrings (ss : List (List UInt8)) : Column :=
  ⟨⟨ss.length, 0, .string (offsetsFrom 0 ss) ss.flatten⟩, ss.flatten.length⟩

def ofCells (type : FieldType) (cells : List Cell) : Column :=
  match type with
  | .int64 => ofInts (cells.map Cell.toInt64)
  | .string => ofStrings (cells.map Cell.toBytes)

def ofRows : List FieldType → List Row → List Column
  | [], _ => []
  | type :: fields, rows => ofCells type (rows.map fun row => row.headD default)
      :: ofRows fields (rows.map List.tail)

theorem length_offsetsFrom (start : Int) (ss : List (List UInt8))
    : (offsetsFrom start ss).length = ss.length + 1 := by
  induction ss generalizing start with
  | nil => rfl
  | cons s ss ih => simp [offsetsFrom, ih]

theorem offsetsFrom_map_add (start d : Int) (ss : List (List UInt8))
    : (offsetsFrom start ss).map (· + d) = offsetsFrom (start + d) ss := by
  induction ss generalizing start with
  | nil => rfl
  | cons s ss ih =>
    simp only [offsetsFrom, List.map_cons, ih, List.cons.injEq, true_and]
    congr 1
    omega

theorem drop_offsetsFrom (start : Int) (ss : List (List UInt8)) (k : Nat) (h : k ≤ ss.length)
    : (offsetsFrom start ss).drop k
        =
      offsetsFrom (start + (ss.take k).flatten.length) (ss.drop k) := by
  induction k generalizing start ss with
  | zero => simp
  | succ k ih =>
    cases ss with
    | nil => simp at h
    | cons s ss =>
      simp only [offsetsFrom, List.drop_succ_cons]
      rw [ih _ _ (by simpa using h)]
      congr 1
      simp
      omega

theorem take_offsetsFrom (start : Int) (ss : List (List UInt8)) (n : Nat) (h : n ≤ ss.length)
    : (offsetsFrom start ss).take (n + 1) = offsetsFrom start (ss.take n) := by
  induction n generalizing start ss with
  | zero => cases ss <;> simp [offsetsFrom]
  | succ n ih =>
    cases ss with
    | nil => simp at h
    | cons s ss =>
      simp only [offsetsFrom, List.take_succ_cons]
      rw [ih _ _ (by simpa using h)]

theorem offsetsFrom_append (start : Int) (ss ss' : List (List UInt8))
    : offsetsFrom start (ss ++ ss')
        =
      (offsetsFrom start ss).take ss.length ++ offsetsFrom (start + ss.flatten.length) ss' := by
  induction ss generalizing start with
  | nil => simp [offsetsFrom]
  | cons s ss ih =>
    simp only [offsetsFrom, List.cons_append, ih, List.length_cons, List.take_succ_cons,
      List.flatten_cons, List.length_append, List.cons.injEq, true_and]
    congr 2
    omega

theorem offsetsFrom_append_tail (start : Int) (ss ss' : List (List UInt8))
    : offsetsFrom start (ss ++ ss')
        =
      offsetsFrom start ss ++ (offsetsFrom (start + ss.flatten.length) ss').tail := by
  induction ss generalizing start with
  | nil => cases ss' <;> simp [offsetsFrom]
  | cons s ss ih =>
    simp only [offsetsFrom, List.cons_append, ih, List.flatten_cons, List.length_append,
      List.cons.injEq, true_and]
    congr 3
    omega

theorem offsetsFrom_getElem? (start : Int) (ss : List (List UInt8)) (k : Nat) (h : k ≤ ss.length)
    : (offsetsFrom start ss)[k]? = some (start + (ss.take k).flatten.length) := by
  have hdrop := drop_offsetsFrom start ss k h
  have : ((offsetsFrom start ss).drop k)[0]? = some (start + (ss.take k).flatten.length) := by
    rw [hdrop]
    cases ss.drop k <;> rfl
  simpa using this

theorem zeroExtend_eq (bytes : List UInt8) (h : bytes.length ≤ fieldSize)
    : zeroExtend bytes = some (bytes ++ List.replicate (fieldSize - bytes.length) 0) := by
  unfold zeroExtend
  rw [if_pos h]
  simp [Buffer.writeAt]

theorem int64OfMemory_append_zeros (bytes : List UInt8) (n : Nat)
    : int64OfMemory (bytes ++ List.replicate n 0) = BitVec.ofNat 64 (Bytes.leNat bytes) := by
  unfold int64OfMemory
  rw [Bytes.leNat_append_replicate_zero]

theorem reverseBytes_append (pre mid post : List UInt8) (pos n : Nat) (hpos : pos = pre.length)
    (hn : n = mid.length)
    : reverseBytes (pre ++ mid ++ post) pos n = pre ++ mid.reverse ++ post := by
  subst hpos hn
  unfold reverseBytes
  rw [Buffer.reversePrefix_eq _ _ (by simp)]
  simp

/--
`InsertValue` at the end of a column that holds `vs`.
-/
theorem push_ofInts (vs : List (BitVec 64)) (v : BitVec 64)
    : Column.mk
        { (ofInts vs).array with
          length := (ofInts vs).array.length + 1
          buffers := .int64 (Buffer.writeAt vs vs.length [v]) }
        ((ofInts vs).size + fieldSize)
        =
      ofInts (vs ++ [v]) := by
  rw [Buffer.writeAt_length_self]
  simp [ofInts, fieldSize]
  omega

theorem insertValue_ofInts (vs : List (BitVec 64)) (x : Field) (pre post : List UInt8)
    (h : x.WellFormed .int64)
    : insertValue vs (ofInts vs) vs.length (pre ++ x.bytes ++ post) pre.length x.byteWidth
        =
      some ⟨
        ofInts (vs ++ [x.storedInt]),
        pre ++ (x.inserted .int64).bytes ++ post,
        pre.length + x.bytes.length,
        fieldSize
      ⟩ := by
  obtain ⟨hlen, hle⟩ := h
  dsimp at hle
  unfold insertValue
  by_cases h8 : x.byteWidth = fieldSize
  . have hn : x.bytes.length = fieldSize := by omega
    have hread := Buffer.readAt_append pre x.bytes post pre.length fieldSize rfl hn.symm
    simp only [h8, Int.le_refl, ↓reduceIte, hread, Option.bind_eq_bind, Option.bind_some,
      push_ofInts, int64OfMemory, Field.storedInt, Field.inserted, hn]
    rfl
  . rw [if_neg (by omega)]
    by_cases hneg : x.byteWidth < 0
    . have hnil : x.bytes = [] := by
        apply List.eq_nil_of_length_eq_zero
        omega
      rw [if_pos hneg]
      dsimp only
      rw [zeroExtend_eq _ (by simp [fieldSize])]
      simp only [Option.bind_eq_bind, Option.bind_some, push_ofInts, int64OfMemory_append_zeros,
        Field.storedInt, h8, hneg, ↓reduceIte, Field.inserted, hnil, Field.constant]
      simp
    . have hn : x.byteWidth.toNat = x.bytes.length := by omega
      have hrev : x.byteWidth.toNat = x.bytes.reverse.length := by simpa using hn
      rw [if_neg hneg]
      dsimp only
      rw [reverseBytes_append _ _ _ _ _ rfl hn]
      rw [Buffer.readAt_append _ _ _ _ _ rfl hrev]
      simp only [Option.bind_eq_bind, Option.bind_some]
      rw [zeroExtend_eq _ (by simp; omega)]
      simp only [Option.bind_some, push_ofInts, int64OfMemory_append_zeros, Field.storedInt, h8,
        hneg, ↓reduceIte, Field.inserted, Bytes.beNat, hn]
      rfl

theorem insertString_ofStrings (ss : List (List UInt8)) (x : Field) (pre post : List UInt8)
    (h : x.WellFormed .string)
    : insertString (offsetsFrom 0 ss) ss.flatten (ofStrings ss) ss.length (pre ++ x.bytes ++ post)
          pre.length x.byteWidth
        =
      some ⟨
        ofStrings (ss ++ [x.bytes]),
        pre ++ (x.inserted .string).bytes ++ post,
        pre.length + x.bytes.length,
        x.byteWidth
      ⟩ := by
  obtain ⟨hlen, hle⟩ := h
  dsimp at hle
  have hn : x.byteWidth.toNat = x.bytes.length := by omega
  have hw : x.byteWidth = x.bytes.length := by omega
  unfold insertString
  rw [if_neg (by omega)]
  rw [Buffer.readAt_append _ _ _ _ _ rfl hn]
  rw [offsetsFrom_getElem? _ _ _ (Nat.le_refl _)]
  simp only [Option.bind_eq_bind, Option.bind_some, List.take_length, Field.inserted, hn]
  have hpos : (0 + (ss.flatten.length : Int)).toNat = ss.flatten.length := by omega
  rw [hpos, Buffer.writeAt_length_self]
  have hend : ss.length + 1 = (offsetsFrom 0 ss).length := by rw [length_offsetsFrom]
  rw [hend, Buffer.writeAt_length_self]
  simp [ofStrings, offsetsFrom_append_tail, offsetsFrom, hw]

theorem insert_ofCells (type : FieldType) (cells : List Cell) (x : Field) (pre post : List UInt8)
    (h : x.WellFormed type)
    : (ofCells type cells).insert cells.length (pre ++ x.bytes ++ post) pre.length x.byteWidth
        =
      some ⟨
        ofCells type (cells ++ [x.stored type]),
        pre ++ (x.inserted type).bytes ++ post,
        pre.length + x.bytes.length,
        x.storedSize type
      ⟩ := by
  cases type with
  | int64 =>
    have := insertValue_ofInts (cells.map Cell.toInt64) x pre post h
    rw [List.length_map] at this
    simpa [insert, ofCells, ofInts, Field.stored, Field.storedSize, Cell.toInt64] using this
  | string =>
    have := insertString_ofStrings (cells.map Cell.toBytes) x pre post h
    rw [List.length_map] at this
    simpa [insert, ofCells, ofStrings, Field.stored, Field.storedSize, Cell.toBytes] using this

theorem insertAll_ofRows (h : IsRecord fields xs) (rows : List Row) (pre : List UInt8)
    : insertAll rows.length (ofRows fields rows) (recordWidths xs) (pre ++ recordBytes xs) pre.length
        =
      some (
        ofRows fields (rows ++ [storedRow fields xs]),
        pre ++ recordBytes (insertedRecord fields xs),
        storedRowSize fields xs
      ) := by
  induction h generalizing rows pre with
  | nil => simp [insertAll, ofRows, insertedRecord, storedRowSize]
  | @cons type x fields xs hx _ ih =>
    have hinsert := insert_ofCells type (rows.map fun row => row.headD default) x pre
      (recordBytes xs) hx
    have hrest := ih (rows.map List.tail) (pre ++ (x.inserted type).bytes)
    have hlen : (x.inserted type).bytes.length = x.bytes.length := by
      rw [(Field.inserted_wellFormed hx).1, hx.1, Field.inserted_byteWidth]
    rw [List.length_map, List.append_assoc] at hinsert
    rw [List.length_map, List.length_append, hlen] at hrest
    simp only [ofRows, recordWidths_cons, recordBytes_cons, insertAll, hinsert, Option.bind_eq_bind,
      Option.bind_some, hrest]
    simp [insertedRecord, storedRowSize, storedRow]

theorem insert_ofCells_eq_none (type : FieldType) (cells : List Cell) (x : Field) (record : List UInt8)
    (head : Nat) (hx : x.bytes.length = x.byteWidth.toNat) (hbad : ¬x.WellFormed type)
    : (ofCells type cells).insert cells.length record head x.byteWidth = none := by
  cases type with
  | int64 =>
    have hwidth : (fieldSize : Int) < x.byteWidth := by
      simp only [Field.WellFormed, hx, true_and] at hbad
      omega
    simp only [insert, ofCells, ofInts, insertValue]
    rw [if_pos (by omega), if_neg (by omega)]
  | string =>
    have hwidth : x.byteWidth < 0 := by
      simp only [Field.WellFormed, hx, true_and] at hbad
      omega
    simp only [insert, ofCells, ofStrings, insertString]
    rw [if_pos hwidth]

theorem insertAll_ofRows_eq_none (hlen : fields.length = xs.length)
    (hxs : ∀ x ∈ xs, x.bytes.length = x.byteWidth.toNat) (hbad : ¬IsRecord fields xs)
    (rows : List Row) (pre : List UInt8)
    : insertAll rows.length (ofRows fields rows) (recordWidths xs) (pre ++ recordBytes xs) pre.length
        =
      none := by
  induction fields generalizing xs rows pre with
  | nil =>
    cases xs with
    | nil => exact absurd .nil hbad
    | cons x xs => simp at hlen
  | cons type fields ih =>
    cases xs with
    | nil => simp at hlen
    | cons x xs =>
      have hx := hxs x (by simp)
      simp only [ofRows, recordWidths_cons, recordBytes_cons, insertAll]
      by_cases hwf : x.WellFormed type
      . have hinsert := insert_ofCells type (rows.map fun row => row.headD default) x pre
          (recordBytes xs) hwf
        have hbad' : ¬IsRecord fields xs := fun hrec => hbad (.cons hwf hrec)
        have hrest := ih (by simpa using hlen) (fun x' hx' => hxs x' (by simp [hx'])) hbad'
          (rows.map List.tail) (pre ++ (x.inserted type).bytes)
        have hlen' : (x.inserted type).bytes.length = x.bytes.length := by
          rw [(Field.inserted_wellFormed hwf).1, hwf.1, Field.inserted_byteWidth]
        rw [List.length_map, List.append_assoc] at hinsert
        rw [List.length_map, List.length_append, hlen'] at hrest
        simp only [hinsert, Option.bind_eq_bind, Option.bind_some, hrest, Option.bind_none]
      . have hinsert := insert_ofCells_eq_none type (rows.map fun row => row.headD default) x
          (pre ++ (x.bytes ++ recordBytes xs)) pre.length hx hwf
        rw [List.length_map] at hinsert
        simp only [hinsert, Option.bind_eq_bind, Option.bind_none]

theorem size_ofCells_append (type : FieldType) (cells cells' : List Cell)
    : (ofCells type (cells ++ cells')).size
        =
      (ofCells type cells).size + (ofCells type cells').size := by
  cases type with
  | int64 =>
    simp [ofCells, ofInts, fieldSize]
    omega
  | string => simp [ofCells, ofStrings]

theorem insertValues_ofInts (vs src : List (BitVec 64)) (vals : ArrayData) (offset n : Nat)
    (hvals : vals.buffers = .int64 src) (h : offset + n ≤ src.length)
    : insertValues vs (ofInts vs) vs.length offset vals n
        =
      some (ofInts (vs ++ (src.drop offset).take n), (ofInts ((src.drop offset).take n)).size) := by
  have hlen : min n (src.length - offset) = n := by omega
  unfold insertValues
  rw [hvals]
  dsimp only
  unfold Buffer.readAt
  rw [if_pos h]
  simp only [Option.bind_eq_bind, Option.bind_some]
  rw [Buffer.writeAt_length_self]
  simp [ofInts, hlen, fieldSize]
  omega

theorem flatten_take_add (ss : List (List UInt8)) (k n : Nat)
    : (ss.take (k + n)).flatten.length
        =
      (ss.take k).flatten.length + ((ss.drop k).take n).flatten.length := by
  rw [List.take_add, List.flatten_append, List.length_append]

theorem readAt_flatten (ss : List (List UInt8)) (k n : Nat)
    : Buffer.readAt ss.flatten (ss.take k).flatten.length ((ss.drop k).take n).flatten.length
        =
      some ((ss.drop k).take n).flatten := by
  have hsplit : ss.flatten
      = (ss.take k).flatten ++ ((ss.drop k).take n).flatten ++ ((ss.drop k).drop n).flatten := by
    rw [← List.flatten_append, ← List.flatten_append, List.append_assoc, List.take_append_drop,
      List.take_append_drop]
  rw [hsplit]
  exact Buffer.readAt_append _ _ _ _ _ rfl rfl

theorem copyOffsets_offsetsFrom (ss src : List (List UInt8)) (offset n : Nat)
    (h : offset + n ≤ src.length)
    : copyOffsets (offsetsFrom 0 ss) (offsetsFrom 0 src) ss.length offset n
          (0 + (ss.flatten.length : Int)) (0 + ((src.take offset).flatten.length : Int))
        =
      some (offsetsFrom 0 (ss ++ (src.drop offset).take n)) := by
  have hlen := length_offsetsFrom 0 src
  have hlen' := length_offsetsFrom 0 ss
  unfold copyOffsets
  split
  . next hzero =>
    subst hzero
    have hread : Buffer.readAt (offsetsFrom 0 src) 0 (n + 1) = some (offsetsFrom 0 (src.take n)) := by
      rw [Buffer.readAt_eq_some_iff]
      exact ⟨by omega, by rw [List.drop_zero, take_offsetsFrom _ _ _ (by omega)]⟩
    rw [hread]
    simp only [Option.bind_eq_bind, Option.bind_some]
    rw [offsetsFrom_map_add, offsetsFrom_append]
    simp [Buffer.writeAt, length_offsetsFrom]
  . have hread : Buffer.readAt (offsetsFrom 0 src) (offset + 1) n
        = some (offsetsFrom (0 + ((src.take offset).flatten.length : Int))
            ((src.drop offset).take n)).tail := by
      rw [Buffer.readAt_eq_some_iff]
      constructor
      . omega
      . rw [← take_offsetsFrom _ _ _ (by rw [List.length_drop]; omega)]
        rw [← drop_offsetsFrom _ _ _ (by omega)]
        rw [← List.drop_one, List.drop_take, List.drop_drop, Nat.add_sub_cancel]
    have hend : ss.length + 1 = (offsetsFrom 0 ss).length := by omega
    rw [hread]
    simp only [Option.bind_eq_bind, Option.bind_some]
    rw [hend, Buffer.writeAt_length_self, List.map_tail, offsetsFrom_map_add,
      offsetsFrom_append_tail]
    simp

theorem insertStrings_ofStrings (ss src : List (List UInt8)) (vals : ArrayData) (offset n : Nat)
    (hvals : vals.buffers = .string (offsetsFrom 0 src) src.flatten) (h : offset + n ≤ src.length)
    : insertStrings (offsetsFrom 0 ss) ss.flatten (ofStrings ss) ss.length offset vals n
        =
      some (
        ofStrings (ss ++ (src.drop offset).take n),
        (ofStrings ((src.drop offset).take n)).size
      ) := by
  have hstart := offsetsFrom_getElem? 0 src offset (by omega)
  have hstop := offsetsFrom_getElem? 0 src (offset + n) h
  have hcurr := offsetsFrom_getElem? 0 ss ss.length (Nat.le_refl _)
  have hcurr' := offsetsFrom_getElem? 0 (ss ++ (src.drop offset).take n) ss.length (by simp)
  rw [List.take_length] at hcurr
  rw [List.take_left] at hcurr'
  have hsize := flatten_take_add src offset n
  have hdiff : (0 + ((src.take (offset + n)).flatten.length : Int))
      - (0 + ((src.take offset).flatten.length : Int))
      = ((src.drop offset).take n).flatten.length := by
    omega
  have hpos : (0 + ((src.take offset).flatten.length : Int)).toNat
      = (src.take offset).flatten.length := by
    omega
  have hpos' : (0 + (ss.flatten.length : Int)).toNat = ss.flatten.length := by omega
  have hcount : min n (src.length - offset) = n := by omega
  unfold insertStrings
  rw [hvals]
  dsimp only
  rw [hstart, hstop, hcurr]
  simp only [Option.bind_eq_bind, Option.bind_some, copyOffsets_offsetsFrom _ _ _ _ h, hcurr']
  rw [if_neg (by omega), hdiff, hpos, hpos', Int.toNat_natCast, readAt_flatten]
  simp only [Option.bind_some]
  rw [Buffer.writeAt_length_self]
  simp [ofStrings, hcount]

theorem insertSlice_ofCells (type : FieldType) (cells src : List Cell) (vals : ArrayData)
    (offset n : Nat) (hvals : vals.buffers = (ofCells type src).array.buffers)
    (h : offset + n ≤ src.length)
    : (ofCells type cells).insertSlice cells.length offset vals n
        =
      some (
        ofCells type (cells ++ (src.drop offset).take n),
        (ofCells type ((src.drop offset).take n)).size
      ) := by
  cases type with
  | int64 =>
    have := insertValues_ofInts (cells.map Cell.toInt64) (src.map Cell.toInt64) vals offset n hvals
      (by simpa using h)
    rw [List.length_map] at this
    simpa [insertSlice, ofCells, ofInts] using this
  | string =>
    have := insertStrings_ofStrings (cells.map Cell.toBytes) (src.map Cell.toBytes) vals offset n
      hvals (by simpa using h)
    rw [List.length_map] at this
    simpa [insertSlice, ofCells, ofStrings] using this

def totalSize (cs : List Column) : Int :=
  (cs.map Column.size).sum

theorem insertSlices_ofRows (fields : List FieldType) (rows src : List Row)
    (f : ArrayData → ArrayData) (offset n : Nat) (hf : ∀ a, (f a).buffers = a.buffers)
    (h : offset + n ≤ src.length)
    : insertSlices rows.length offset n (ofRows fields rows)
          ((ofRows fields src).map fun c => f c.array)
        =
      some (
        ofRows fields (rows ++ (src.drop offset).take n),
        totalSize (ofRows fields ((src.drop offset).take n))
      ) := by
  induction fields generalizing rows src with
  | nil => rfl
  | cons type fields ih =>
    have hhead := insertSlice_ofCells type (rows.map fun row => row.headD default)
      (src.map fun row => row.headD default)
      (f (ofCells type (src.map fun row => row.headD default)).array) offset n (hf _)
      (by simpa using h)
    have htail := ih (rows.map List.tail) (src.map List.tail) (by simpa using h)
    rw [List.length_map] at hhead htail
    simp only [ofRows, List.map_cons, insertSlices, hhead, Option.bind_eq_bind, Option.bind_some,
      htail]
    simp [totalSize]

theorem cell_ofCells (type : FieldType) (cells : List Cell) (r : Nat)
    (h : ∀ c ∈ cells, c.fieldType = type)
    : (ofCells type cells).array.cell r = cells[r]? := by
  by_cases hr : r < cells.length
  . have hc := h cells[r] (List.getElem_mem hr)
    rw [List.getElem?_eq_getElem hr]
    cases type with
    | int64 =>
      cases hcell : cells[r] with
      | int64 v => simp [ArrayData.cell, ofCells, ofInts, hr, hcell, Cell.toInt64]
      | string bytes => simp [hcell, Cell.fieldType] at hc
    | string =>
      cases hcell : cells[r] with
      | int64 v => simp [hcell, Cell.fieldType] at hc
      | string bytes =>
        have hlen : r + 1 ≤ (cells.map Cell.toBytes).length := by simpa using hr
        have hone : ((cells.map Cell.toBytes).drop r).take 1 = [bytes] := by
          rw [List.take_one_drop_eq_of_lt_length (by simpa using hr)]
          simp [hcell, Cell.toBytes]
        have hread := readAt_flatten (cells.map Cell.toBytes) r 1
        have hsize := flatten_take_add (cells.map Cell.toBytes) r 1
        rw [hone] at hread hsize
        rw [Buffer.readAt_eq_some_iff] at hread
        simp only [List.flatten_cons, List.flatten_nil, List.append_nil] at hread hsize
        simp only [ArrayData.cell, ofCells, ofStrings, List.length_map, hr, ↓reduceIte,
          Nat.zero_add]
        rw [offsetsFrom_getElem? _ _ _ (by omega), offsetsFrom_getElem? _ _ _ hlen]
        simp only [Option.bind_eq_bind, Option.bind_some, Option.pure_def, Option.some.injEq,
          Cell.string.injEq]
        rw [hsize]
        have hpos : (0 + (((cells.map Cell.toBytes).take r).flatten.length : Int)).toNat
            = ((cells.map Cell.toBytes).take r).flatten.length := by omega
        rw [hpos]
        have hdiff : ((0 : Int) + (((cells.map Cell.toBytes).take r).flatten.length
              + bytes.length : Nat)
            - (0 + (((cells.map Cell.toBytes).take r).flatten.length : Int))).toNat
            = bytes.length := by
          omega
        rw [hdiff]
        exact hread.2
  . rw [List.getElem?_eq_none (by omega)]
    cases type <;> simp [ArrayData.cell, ofCells, ofInts, ofStrings, hr]

theorem mapM_cell_ofRows (fields : List FieldType) (rows : List Row) (r : Nat)
    (hr : r < rows.length) (h : ∀ row ∈ rows, Row.HasType fields row)
    : (ofRows fields rows).mapM (fun c => c.array.cell r) = rows[r]? := by
  induction fields generalizing rows with
  | nil =>
    have := h rows[r] (List.getElem_mem hr)
    have hnil : rows[r] = [] := by simpa [Row.HasType] using this
    simp [ofRows, List.getElem?_eq_getElem hr, hnil]
  | cons type fields ih =>
    have hcells : ∀ c ∈ rows.map (fun row => row.headD default), c.fieldType = type := by
      intro c hc
      obtain ⟨row, hmem, rfl⟩ := List.mem_map.mp hc
      have := h row hmem
      cases row with
      | nil => simp [Row.HasType] at this
      | cons c row => simpa [Row.HasType] using (List.cons.inj this).1
    have htails : ∀ row ∈ rows.map List.tail, Row.HasType fields row := by
      intro row hmem
      obtain ⟨row', hmem', rfl⟩ := List.mem_map.mp hmem
      have := h row' hmem'
      cases row' with
      | nil => simp [Row.HasType] at this
      | cons c row' => simpa [Row.HasType] using (List.cons.inj this).2
    have hrest := ih (rows.map List.tail) (by simpa using hr) htails
    simp only [ofRows, List.mapM_cons, cell_ofCells _ _ _ hcells, hrest]
    have hrow := h rows[r] (List.getElem_mem hr)
    simp only [List.getElem?_map, List.getElem?_eq_getElem hr, Option.map_some]
    cases hcase : rows[r] with
    | nil => simp [hcase, Row.HasType] at hrow
    | cons c row => rfl

end Column

end Hustle.Storage
