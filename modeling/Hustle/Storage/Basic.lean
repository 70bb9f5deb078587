import Mathlib.Data.List.AList
import Hustle.Util.Buffer
import Hustle.Util.Bytes

/-!
This module contains the data that flows through the storage layer: schemas, the cells and rows that
are stored, and the `arrow::ArrayData` behind a column together with the slices taken from it.
-/

namespace Hustle

/--
A map with unique keys, used for `std::map` as well as for `std::unordered_map`. Where the program
depends on the order in which it walks a map, that order is made explicit.
-/
abbrev Map (κ ν : Type) := AList (fun _ : κ => ν)

namespace Map

/--
The value of `m[k]`, which is value initialized if `k` is missing.
-/
def get [DecidableEq κ] [Inhabited ν] (m : Map κ ν) (k : κ) : ν :=
  (m.lookup k).getD default

/--
The map after `m[k]` has been read: a missing key is inserted.
-/
def touch [DecidableEq κ] [Inhabited ν] (m : Map κ ν) (k : κ) : Map κ ν :=
  match m.lookup k with
  | some _ => m
  | none => m.insert k default

/--
`m.emplace(k, v)`: a key that is already there keeps its value.
-/
def emplace [DecidableEq κ] (m : Map κ ν) (k : κ) (v : ν) : Map κ ν :=
  match m.lookup k with
  | some _ => m
  | none => m.insert k v

theorem lookup_insert_eq [DecidableEq κ] (m : Map κ ν) (k k' : κ) (v : ν)
    : AList.lookup k' (AList.insert k v m) = if k' = k then some v else m.lookup k' := by
  split
  . next h =>
    subst h
    rw [AList.lookup_insert]
  . next h =>
    rw [AList.lookup_insert_ne h]

theorem lookup_erase_eq [DecidableEq κ] (m : Map κ ν) (k k' : κ)
    : AList.lookup k' (AList.erase k m) = if k' = k then none else m.lookup k' := by
  split
  . next h =>
    subst h
    rw [AList.lookup_erase]
  . next h =>
    rw [AList.lookup_erase_ne h]

theorem lookup_emplace [DecidableEq κ] (m : Map κ ν) (k k' : κ) (v : ν) (h : m.lookup k = none)
    : (m.emplace k v).lookup k' = if k' = k then some v else m.lookup k' := by
  simp only [emplace, h]
  rw [lookup_insert_eq]

theorem get_eq_of_forall [DecidableEq κ] [Inhabited ν] {m : Map κ ν} {v : ν}
    (h : ∀ k v', m.lookup k = some v' → v' = v) (hv : default = v) (k : κ)
    : m.get k = v := by
  unfold get
  cases hk : m.lookup k with
  | none => simp [hv]
  | some v' => simp [h k v' hk]

end Map

namespace Storage

inductive FieldType where
  | int64
  | string
  deriving DecidableEq, Repr

/--
The column types of a table. A table has at least one column, the program divides by the width of an
empty record when it sizes a block.
-/
structure Schema where
  fields : List FieldType
  fields_ne_nil : fields ≠ []
  deriving DecidableEq

inductive Cell where
  | int64 (v : BitVec 64)
  | string (bytes : List UInt8)
  deriving DecidableEq, Repr

namespace Cell

def fieldType : Cell → FieldType
  | .int64 _ => .int64
  | .string _ => .string

def toInt64 : Cell → BitVec 64
  | .int64 v => v
  | .string _ => 0

def toBytes : Cell → List UInt8
  | .int64 _ => []
  | .string bytes => bytes

end Cell

abbrev Row := List Cell

/--
`row` has a cell of the right type for every column of `fields`.
-/
def Row.HasType (fields : List FieldType) (row : Row) : Prop :=
  row.map Cell.fieldType = fields

instance : Decidable (Row.HasType fields row) :=
  inferInstanceAs (Decidable (_ = _))

/--
The buffers of an `arrow::ArrayData`. A string column has one more offset than it has strings, string
`i` is `data[offsets[i] .. offsets[i + 1]]`.
-/
inductive Buffers where
  | int64 (values : List (BitVec 64))
  | string (offsets : List Int) (data : List UInt8)
  deriving DecidableEq, Repr

/--
An `arrow::ArrayData` shares its buffers with the arrays it was sliced from, `offset` is where the
slice starts. Note that the buffers themselves do not account for the offset.
-/
structure ArrayData where
  length : Nat
  offset : Nat
  buffers : Buffers
  deriving DecidableEq, Repr

namespace ArrayData

/--
`Slice(off, len)` of Arrow: relative to the array and clamped to what remains.
-/
def slice (a : ArrayData) (off len : Nat) : ArrayData :=
  { a with length := min len (a.length - off), offset := a.offset + off }

/--
The value at row `r`, which is what reading the column through an `arrow::Array` gives.
-/
def cell (a : ArrayData) (r : Nat) : Option Cell :=
  if r < a.length then
    match a.buffers with
    | .int64 values => values[a.offset + r]?.map .int64
    | .string offsets data => do
      let start ← offsets[a.offset + r]?
      let stop ← offsets[a.offset + r + 1]?
      return .string ((data.drop start.toNat).take (stop - start).toNat)
  else
    none

end ArrayData

end Storage

end Hustle
