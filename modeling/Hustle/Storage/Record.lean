import Hustle.Storage.Block

/-!
This module contains the layout of a record as it is handed to `InsertRecord` and `UpdateRecordTable`:
the bytes of its fields back to back and a width for every field. It says which cell the program
stores for a field and what it leaves of the field's bytes.
-/

namespace Hustle.Storage

/--
A field of a record. Widths below zero stand for the constants 0 and 1, these fields have no bytes.
-/
structure Field where
  byteWidth : Int
  bytes : List UInt8
  deriving DecidableEq, Repr

namespace Field

/--
The field can be stored in a column of the given type without leaving the record or the cell.
-/
def WellFormed (type : FieldType) (x : Field) : Prop :=
  x.bytes.length = x.byteWidth.toNat ∧
    match type with
    | .int64 => x.byteWidth ≤ fieldSize
    | .string => 0 ≤ x.byteWidth

instance : Decidable (WellFormed type x) :=
  match type with
  | .int64 => inferInstanceAs (Decidable (_ ∧ _))
  | .string => inferInstanceAs (Decidable (_ ∧ _))

/--
The constant that a negative width stands for.
-/
def constant (byteWidth : Int) : UInt8 :=
  UInt8.ofNat ((-byteWidth - zeroTypeEncoding) % 256).toNat

/--
The integer that `InsertValue` stores: eight bytes are taken as they are in memory, fewer bytes are
read with the most significant byte first and without a sign.
-/
def storedInt (x : Field) : BitVec 64 :=
  if x.byteWidth = fieldSize then
    BitVec.ofNat 64 (Bytes.leNat x.bytes)
  else if x.byteWidth < 0 then
    BitVec.ofNat 64 (constant x.byteWidth).toNat
  else
    BitVec.ofNat 64 (Bytes.beNat x.bytes)

def stored (type : FieldType) (x : Field) : Cell :=
  match type with
  | .int64 => .int64 x.storedInt
  | .string => .string x.bytes

/--
The field after it has been inserted into a column of the given type: the bytes of an integer of less
than eight bytes have been reversed.
-/
def inserted (type : FieldType) (x : Field) : Field :=
  match type with
  | .int64 => if x.byteWidth = fieldSize then x else { x with bytes := x.bytes.reverse }
  | .string => x

/--
The number of bytes the block grows by.
-/
def storedSize (type : FieldType) (x : Field) : Int :=
  match type with
  | .int64 => fieldSize
  | .string => x.byteWidth

/--
The field for a cell, where integers take eight bytes.
-/
def ofCell : Cell → Field
  | .int64 v => ⟨fieldSize, Bytes.toLE fieldSize v.toNat⟩
  | .string bytes => ⟨bytes.length, bytes⟩

theorem ofCell_wellFormed (c : Cell) : WellFormed c.fieldType (ofCell c) := by
  cases c with
  | int64 v => simp [WellFormed, ofCell, Cell.fieldType]
  | string bytes => simp [WellFormed, ofCell, Cell.fieldType]

theorem stored_ofCell (c : Cell) : stored c.fieldType (ofCell c) = c := by
  cases c with
  | int64 v =>
    simp only [stored, Cell.fieldType, ofCell, storedInt, ↓reduceIte, Bytes.leNat_toLE]
    congr 1
    apply BitVec.eq_of_toNat_eq
    have := v.isLt
    simp only [fieldSize, BitVec.toNat_ofNat, Nat.reducePow, Nat.mod_mod]
    omega
  | string bytes => rfl

theorem inserted_wellFormed {type : FieldType} {x : Field} (h : WellFormed type x)
    : WellFormed type (inserted type x) := by
  unfold inserted
  cases type with
  | int64 =>
    dsimp
    split
    . exact h
    . simpa [WellFormed] using h
  | string => exact h

theorem inserted_byteWidth (type : FieldType) (x : Field)
    : (inserted type x).byteWidth = x.byteWidth := by
  unfold inserted
  cases type with
  | int64 =>
    dsimp
    split <;> rfl
  | string => rfl

end Field

def recordBytes (xs : List Field) : List UInt8 :=
  (xs.map Field.bytes).flatten

def recordWidths (xs : List Field) : List Int :=
  xs.map Field.byteWidth

/--
The row that `InsertRecord` stores for a record.
-/
def storedRow (fields : List FieldType) (xs : List Field) : Row :=
  List.zipWith Field.stored fields xs

def insertedRecord (fields : List FieldType) (xs : List Field) : List Field :=
  List.zipWith Field.inserted fields xs

/--
The number of bytes a block grows by when a record is inserted.
-/
def storedRowSize (fields : List FieldType) (xs : List Field) : Int :=
  (List.zipWith Field.storedSize fields xs).sum

def IsRecord (fields : List FieldType) (xs : List Field) : Prop :=
  List.Forall₂ Field.WellFormed fields xs

@[simp]
theorem recordBytes_nil : recordBytes [] = [] := rfl

@[simp]
theorem recordBytes_cons (x : Field) (xs : List Field)
    : recordBytes (x :: xs) = x.bytes ++ recordBytes xs := by
  simp [recordBytes]

@[simp]
theorem recordWidths_cons (x : Field) (xs : List Field)
    : recordWidths (x :: xs) = x.byteWidth :: recordWidths xs := rfl

@[simp]
theorem length_recordWidths (xs : List Field) : (recordWidths xs).length = xs.length := by
  simp [recordWidths]

theorem IsRecord.length_eq (h : IsRecord fields xs) : fields.length = xs.length :=
  List.Forall₂.length_eq h

theorem recordWidths_insertedRecord (h : IsRecord fields xs)
    : recordWidths (insertedRecord fields xs) = recordWidths xs := by
  induction h with
  | nil => rfl
  | cons hx _ ih =>
    simp only [insertedRecord, List.zipWith_cons_cons, recordWidths_cons,
      Field.inserted_byteWidth]
    rw [← ih]
    rfl

theorem storedRow_hasType (h : IsRecord fields xs) : Row.HasType fields (storedRow fields xs) := by
  unfold Row.HasType
  induction h with
  | nil => rfl
  | @cons type x fields xs hx _ ih =>
    simp only [storedRow, List.zipWith_cons_cons, List.map_cons, List.cons.injEq]
    constructor
    . cases type <;> rfl
    . exact ih

/--
The constants that are stored in eight bytes cost more than their width says, so the size check of
`InsertRecord` is never stricter than the one of the table.
-/
theorem recordWidths_sum_le_storedRowSize (h : IsRecord fields xs)
    : (recordWidths xs).sum ≤ storedRowSize fields xs := by
  induction h with
  | nil => simp [recordWidths, storedRowSize]
  | @cons type x fields xs hx _ ih =>
    simp only [recordWidths_cons, List.sum_cons, storedRowSize, List.zipWith_cons_cons]
    have : x.byteWidth ≤ x.storedSize type := by
      cases type with
      | int64 => exact hx.2
      | string => exact Int.le_refl _
    unfold storedRowSize at ih
    omega

def recordOfRow (row : Row) : List Field :=
  row.map Field.ofCell

theorem recordOfRow_isRecord (h : Row.HasType fields row) : IsRecord fields (recordOfRow row) := by
  subst h
  induction row with
  | nil => exact .nil
  | cons c row ih => exact .cons (Field.ofCell_wellFormed c) ih

theorem storedRow_recordOfRow (h : Row.HasType fields row)
    : storedRow fields (recordOfRow row) = row := by
  subst h
  induction row with
  | nil => rfl
  | cons c row ih =>
    simp only [List.map_cons, recordOfRow, storedRow, List.zipWith_cons_cons, List.cons.injEq]
    exact ⟨Field.stored_ofCell c, ih⟩

def rowSize (row : Row) : Int :=
  (row.map fun
    | .int64 _ => (fieldSize : Int)
    | .string bytes => (bytes.length : Int)).sum

theorem storedRowSize_eq_rowSize (h : IsRecord fields xs)
    : storedRowSize fields xs = rowSize (storedRow fields xs) := by
  induction h with
  | nil => rfl
  | @cons type x fields xs hx _ ih =>
    simp only [storedRowSize, storedRow, rowSize, List.zipWith_cons_cons, List.map_cons,
      List.sum_cons] at ih ⊢
    rw [ih]
    congr 1
    cases type with
    | int64 => rfl
    | string =>
      have := hx.1
      have := hx.2
      simp only [Field.storedSize, Field.stored]
      omega

theorem recordWidths_recordOfRow_sum (row : Row)
    : (recordWidths (recordOfRow row)).sum = rowSize row := by
  induction row with
  | nil => rfl
  | cons c row ih =>
    simp only [recordOfRow, List.map_cons, recordWidths_cons, List.sum_cons, rowSize] at ih ⊢
    rw [ih]
    congr 1
    cases c <;> rfl

end Hustle.Storage
