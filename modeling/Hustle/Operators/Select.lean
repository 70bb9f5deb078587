import Hustle.Storage.BlockInserts
import Hustle.Storage.BlockUpdate
import Hustle.Storage.Sma
import Hustle.Util.Bitmap
import Hustle.Util.Run

/-!
This module contains the filter of `Select`: the comparisons at the leaves of a predicate tree set one byte for
every row, the bytes are packed into a bitmap, and the inner nodes combine the bitmaps of their children byte by
byte.
-/

namespace Hustle.Operators

open Resolver (CompareOperator)
open Storage (Block Cell Row FieldType ArrayData compareScalars)

/--
An `arrow::BooleanArray`: its length and the memory behind it.
-/
structure BooleanArray where
  length : Nat
  bytes : List Bitmap.Byte
  deriving DecidableEq

/--
`MakeArrayFromScalar(BooleanScalar(false), length)`. A buffer without bytes points to a byte that all empty buffers
share.
-/
def makeFalse (length : Nat) : List Bitmap.Byte :=
  List.replicate (max 1 ((length + 7) / 8)) 0

/-! `utils::pack`. -/

def byteMasks : List Bitmap.Byte :=
  [0x01, 0x02, 0x04, 0x08, 0x10, 0x20, 0x40, 0x80]

def packWhole (src : List Bitmap.Byte) : Bitmap.Byte :=
  (byteMasks.zip src).foldl (fun current x => if x.2 ≠ 0 then current ||| x.1 else current) 0

def packRest (src : List Bitmap.Byte) : Bitmap.Byte :=
  (src.foldl (fun (s : Bitmap.Byte × Bitmap.Byte) (x : Bitmap.Byte) =>
    (if x ≠ 0 then s.1 ||| s.2 else s.1, s.2 <<< 1)) (0, 1)).1

def pack (arr : List Bitmap.Byte) : List Bitmap.Byte :=
  let whole := (List.range (arr.length / 8)).map fun i => packWhole ((arr.drop (8 * i)).take 8)
  let rest := if arr.length % 8 = 0 then [] else [packRest (arr.drop (8 * (arr.length / 8)))]
  Buffer.writeAt (makeFalse arr.length) 0 (whole ++ rest)

/-! Predicate trees. -/

/--
The order of strings is that of their bytes.
-/
def compareStrings (op : CompareOperator) (lhs rhs : List UInt8) : Bool :=
  match op with
  | .equal => lhs = rhs
  | .notEqual => lhs ≠ rhs
  | .less => lhs < rhs
  | .lessEqual => ¬rhs < lhs
  | .greater => rhs < lhs
  | .greaterEqual => ¬lhs < rhs

namespace Select

structure Predicate where
  colName : String
  comparator : CompareOperator
  value : Cell
  deriving DecidableEq

inductive FilterOperator where
  | and
  | or
  | none
  deriving DecidableEq

inductive Node where
  | predicate (p : Predicate)
  | connective (left right : Node) (op : FilterOperator)
  deriving DecidableEq

/--
`GetFieldIndex`, none if there is no column of the name or more than one.
-/
def fieldIndex (names : List String) (name : String) : Option Nat :=
  if names.count name = 1 then names.idxOf? name else none

def columnByName (names : List String) (b : Block) (name : String) : Option ArrayData := do
  let i ← fieldIndex names name
  let c ← b.columns[i]?
  return c.array

section

-- `arrow::compute::Compare` of a string column with a constant, and `SearchMetadata` of a block with metadata.
variable (compare : List (List UInt8) → List UInt8 → CompareOperator → BooleanArray)
  (searchMetadata : String → BitVec 64 → CompareOperator → Bool)

def filterValues (b : Block) (array : ArrayData) (values : List (BitVec 64)) (p : Predicate) (value : BitVec 64)
    : Option BooleanArray := do
  let bytemap ←
    if b.metadataEnabled ∧ searchMetadata p.colName value p.comparator = false then
      some (List.replicate b.numRows 0)
    else
      (List.range b.numRows).mapM fun i => do
        let v ← values[array.offset + i]?
        return if compareScalars p.comparator v.toInt value.toInt then 1 else 0
  return ⟨b.numRows, pack bytemap⟩

/--
`Select::Filter` of a predicate, the type of the constant says how the column is read. With `NOT_EQUAL` the constants
are taken for scalars of type `UInt8`, what is read from an `INT64` scalar is undefined, and so is what the offsets of
strings are as integers.
-/
def filterPredicate (names : List String) (b : Block) (p : Predicate) : Option BooleanArray := do
  let array ← columnByName names b p.colName
  match p.value, array.buffers with
  | .int64 value, .int64 values =>
    if p.comparator = .notEqual then none else filterValues searchMetadata b array values p value
  | .string value, .string _ _ => do
    let cells ← (List.range array.length).mapM array.cell
    return compare (cells.map Cell.toBytes) value p.comparator
  | .int64 _, .string _ _ => if p.comparator = .notEqual ∨ b.numRows ≠ 0 then none else some ⟨0, pack []⟩
  -- `Compare` has no kernel for integers and a string
  | .string _, .int64 _ => none

/--
The number of bytes that the connectives combine. The division rounds towards zero.
-/
def numBytes (length : Nat) : Nat :=
  (1 + ((length : Int) - 1).tdiv 8).toNat

/--
`Select::Filter` of a node, which writes to the bitmap of the left child.
-/
def filter (names : List String) (b : Block) : Node → Option BooleanArray
  | .predicate p => filterPredicate compare searchMetadata names b p
  | .connective left right op => do
    let left ← filter names b left
    let right ← filter names b right
    match op with
    | .and => do
      let bytes ← Bitmap.combine (· &&& ·) (numBytes left.length) left.bytes right.bytes
      return { left with bytes := bytes }
    | .or => do
      let bytes ← Bitmap.combine (· ||| ·) (numBytes left.length) left.bytes right.bytes
      return { left with bytes := bytes }
    | .none => return left

end

/-! What a tree says about a row. -/

def compareCells (op : CompareOperator) : Cell → Cell → Bool
  | .int64 v, .int64 value => compareScalars op v.toInt value.toInt
  | .string v, .string value => compareStrings op v value
  | _, _ => false

def Predicate.eval (names : List String) (row : Row) (p : Predicate) : Bool :=
  match fieldIndex names p.colName with
  | some i => compareCells p.comparator (row.getD i default) p.value
  | none => false

/--
The tree as a Boolean formula.
-/
def Node.eval (names : List String) (row : Row) : Node → Bool
  | .predicate p => p.eval names row
  | .connective left right .and => left.eval names row && right.eval names row
  | .connective left right .or => left.eval names row || right.eval names row
  | .connective left _ .none => left.eval names row

/--
Every predicate compares a column with a constant of its type.
-/
def Node.WellTyped (names : List String) (fields : List FieldType) : Node → Prop
  | .predicate p => p.comparator ≠ .notEqual ∧
    ∃ i, fieldIndex names p.colName = some i ∧ fields[i]? = some p.value.fieldType
  | .connective left right _ => left.WellTyped names fields ∧ right.WellTyped names fields

def Node.leaves : Node → List Predicate
  | .predicate p => [p]
  | .connective left right _ => left.leaves ++ right.leaves

/--
The predicate compares a column with a constant of its type, or an integer with the strings of an empty block.
-/
def Predicate.Comparable (names : List String) (fields : List FieldType) (numRows : Nat) (p : Predicate) : Prop :=
  ∃ i, fieldIndex names p.colName = some i ∧
    (fields[i]? = some p.value.fieldType ∨ numRows = 0 ∧ p.value.fieldType = .int64 ∧ fields[i]? = some .string)

/--
The predicate has a value on a block with rows.
-/
def Predicate.Evaluates (names : List String) (fields : List FieldType) (p : Predicate) : Prop :=
  (∃ i, fieldIndex names p.colName = some i ∧ fields[i]? = some p.value.fieldType) ∧
  (p.value.fieldType = .int64 → p.comparator ≠ .notEqual)

/--
What is assumed of Arrow's kernel: it compares string by string.
-/
structure Pointwise (compare : List (List UInt8) → List UInt8 → CompareOperator → BooleanArray) : Prop where
  length_eq : ∀ values value op, (compare values value op).length = values.length
  bytes_le : ∀ values value op, max 1 ((values.length + 7) / 8) ≤ (compare values value op).bytes.length
  holds : ∀ values value op,
    Bitmap.Holds (compare values value op).bytes (values.map fun v => compareStrings op v value)

end Select

/-! Packing. -/

theorem packRest_eq (src : List Bitmap.Byte)
    : packRest src = Bitmap.ofBits (src.map fun x => decide (x ≠ 0)) := by
  unfold packRest Bitmap.ofBits
  rw [List.foldl_map]
  simp only [Bitmap.pushBit, decide_eq_true_eq]

theorem packWhole_eq_packRest {src : List Bitmap.Byte} (h : src.length = 8)
    : packWhole src = packRest src := by
  match src, h with
  | [_, _, _, _, _, _, _, _], _ => rfl

theorem pack_eq (arr : List Bitmap.Byte)
    : pack arr
        =
      Bitmap.pack (arr.map fun x => decide (x ≠ 0)) ++
        List.replicate (max 1 ((arr.length + 7) / 8) - (arr.length + 7) / 8) 0 := by
  have hwhole : ∀ i ∈ List.range (arr.length / 8), packWhole ((arr.drop (8 * i)).take 8)
      = Bitmap.ofBits (((arr.map fun x => decide (x ≠ 0)).drop (8 * i)).take 8) := by
    intro i hi
    have := List.mem_range.mp hi
    rw [packWhole_eq_packRest (by simp; omega), packRest_eq, List.map_take, List.map_drop]
  have hbytes : (List.range (arr.length / 8)).map (fun i => packWhole ((arr.drop (8 * i)).take 8)) ++
      (if arr.length % 8 = 0 then [] else [packRest (arr.drop (8 * (arr.length / 8)))])
        = Bitmap.pack (arr.map fun x => decide (x ≠ 0)) := by
    rw [List.map_congr_left hwhole, Bitmap.pack, List.length_map]
    split
    . next h =>
      have : (arr.length + 7) / 8 = arr.length / 8 := by omega
      rw [this, List.append_nil]
    . next h =>
      have : (arr.length + 7) / 8 = arr.length / 8 + 1 := by omega
      rw [this, List.range_succ, List.map_append, List.map_singleton, packRest_eq, ← List.map_drop,
        List.take_of_length_le (by simp; omega)]
  have hlen : (Bitmap.pack (arr.map fun x => decide (x ≠ 0))).length = (arr.length + 7) / 8 := by
    rw [Bitmap.length_pack, List.length_map]
  rw [pack, hbytes, Buffer.writeAt, makeFalse, Nat.zero_add, hlen]
  simp

theorem length_pack (arr : List Bitmap.Byte) : (pack arr).length = max 1 ((arr.length + 7) / 8) := by
  rw [pack_eq, List.length_append, Bitmap.length_pack, List.length_map, List.length_replicate]
  omega

theorem pack_holds (arr : List Bitmap.Byte) : Bitmap.Holds (pack arr) (arr.map fun x => decide (x ≠ 0)) := by
  intro i
  rw [← Bitmap.pack_holds, pack_eq, Bitmap.getBit, Bitmap.getBit]
  congr 1
  simp only [List.getD_eq_getElem?_getD]
  by_cases hi : i / 8 < (Bitmap.pack (arr.map fun x => decide (x ≠ 0))).length
  . rw [List.getElem?_append_left hi]
  . rw [List.getElem?_append_right (by omega), List.getElem?_eq_none (l := Bitmap.pack _) (by omega),
      List.getElem?_replicate]
    split <;> rfl

namespace Select

theorem numBytes_eq (length : Nat) : numBytes length = max 1 ((length + 7) / 8) := by
  unfold numBytes
  cases length with
  | zero => rfl
  | succ n =>
    have hpred : ((n + 1 : Nat) : Int) - 1 = n := by omega
    rw [hpred, Int.tdiv_eq_ediv_of_nonneg (by omega)]
    omega

variable {compare : List (List UInt8) → List UInt8 → CompareOperator → BooleanArray}
  {searchMetadata : String → BitVec 64 → CompareOperator → Bool} {names : List String} {b : Block} {id : Int}
  {schema : Storage.Schema} {capacity : Int} {rows : List Row}

/--
The bitmap has a bit for every row, and it is set if the row has the property.
-/
structure Marks (out : BooleanArray) (rows : List Row) (f : Row → Bool) : Prop where
  length_eq : out.length = rows.length
  bytes_le : max 1 ((rows.length + 7) / 8) ≤ out.bytes.length
  holds : Bitmap.Holds out.bytes (rows.map f)

theorem columnByName_eq (h : b.Repr id schema capacity rows) {name : String} {i : Nat} {type : FieldType}
    (hi : fieldIndex names name = some i) (htype : schema.fields[i]? = some type)
    : columnByName names b name
        =
      some (Storage.Column.ofCells type (rows.map fun row => row.getD i default)).array := by
  simp only [columnByName, hi, Option.bind_eq_bind, Option.bind_some, h.columns_eq,
    Storage.Column.ofRows_getElem? htype]
  rfl

theorem fieldType_of_mem (h : b.Repr id schema capacity rows) {i : Nat} {type : FieldType}
    (htype : schema.fields[i]? = some type) {cell : Cell} (hcell : cell ∈ rows.map fun row => row.getD i default)
    : cell.fieldType = type := by
  obtain ⟨row, hrow, rfl⟩ := List.mem_map.mp hcell
  have hfields := h.hasType row hrow
  rw [Row.HasType] at hfields
  rw [← hfields, List.getElem?_map] at htype
  obtain ⟨cell, hcell, rfl⟩ := Option.map_eq_some_iff.mp htype
  rw [List.getD_eq_getElem?_getD, hcell]
  rfl

theorem filterValues_eq (hmeta : b.metadataEnabled = false) {array : ArrayData} (hoffset : array.offset = 0)
    {values : List (BitVec 64)} (hlen : values.length = b.numRows) (p : Predicate) (value : BitVec 64)
    : filterValues searchMetadata b array values p value
        =
      some ⟨b.numRows, pack (values.map fun v =>
        if compareScalars p.comparator v.toInt value.toInt then 1 else 0)⟩ := by
  have hmap := Run.mapM_range values fun v =>
    some (if compareScalars p.comparator v.toInt value.toInt then (1 : Bitmap.Byte) else 0)
  rw [Run.mapM_eq_some (fun _ _ => rfl)] at hmap
  simp only [filterValues, hmeta, Bool.false_eq_true, false_and, if_false, hoffset, Nat.zero_add, ← hlen]
  exact congrArg (fun o => o.bind fun bytemap => some (⟨values.length, pack bytemap⟩ : BooleanArray)) hmap

theorem filterPredicate_int64 (h : b.Repr id schema capacity rows) (hmeta : b.metadataEnabled = false)
    {p : Predicate} {i : Nat} {value : BitVec 64} (hi : fieldIndex names p.colName = some i)
    (htype : schema.fields[i]? = some .int64) (hvalue : p.value = .int64 value) (hop : p.comparator ≠ .notEqual)
    : ∃ out, filterPredicate compare searchMetadata names b p = some out ∧ Marks out rows (p.eval names) := by
  have hlen : ((rows.map fun row => row.getD i default).map Cell.toInt64).length = b.numRows := by
    rw [List.length_map, List.length_map, h.numRows_eq]
  have hcol := columnByName_eq h hi htype
  refine ⟨⟨b.numRows, pack (((rows.map fun row => row.getD i default).map Cell.toInt64).map fun v =>
    if compareScalars p.comparator v.toInt value.toInt then 1 else 0)⟩, ?_, ?_, ?_, ?_⟩
  . rw [filterPredicate, hcol]
    simp only [Option.bind_eq_bind, Option.bind_some, hvalue, Storage.Column.ofCells, Storage.Column.ofInts,
      if_neg hop]
    exact filterValues_eq hmeta rfl hlen p value
  . exact h.numRows_eq
  . rw [length_pack, List.length_map, hlen, h.numRows_eq]
  . have hbits := pack_holds (((rows.map fun row => row.getD i default).map Cell.toInt64).map fun v =>
      if compareScalars p.comparator v.toInt value.toInt then (1 : Bitmap.Byte) else 0)
    rw [List.map_map, List.map_map, List.map_map] at hbits
    rw [List.map_congr_left (g := p.eval names)] at hbits
    . rw [List.map_map, List.map_map]
      exact hbits
    . intro row hrow
      have hfield := fieldType_of_mem h htype (List.mem_map_of_mem hrow)
      cases hc : row.getD i default with
      | string bytes =>
        rw [hc] at hfield
        cases hfield
      | int64 v =>
        simp only [Function.comp_apply, Predicate.eval, hi, hvalue, hc, compareCells, Cell.toInt64]
        by_cases hcmp : compareScalars p.comparator v.toInt value.toInt = true
        . simp [hcmp]
        . simp [hcmp]

theorem filterPredicate_string (hcompare : Pointwise compare) (h : b.Repr id schema capacity rows)
    {p : Predicate} {i : Nat} {value : List UInt8} (hi : fieldIndex names p.colName = some i)
    (htype : schema.fields[i]? = some .string) (hvalue : p.value = .string value)
    : ∃ out, filterPredicate compare searchMetadata names b p = some out ∧ Marks out rows (p.eval names) := by
  have hcol := columnByName_eq h hi htype
  have hcells : (List.range (Storage.Column.ofCells .string (rows.map fun row => row.getD i default)).array.length).mapM
      (Storage.Column.ofCells .string (rows.map fun row => row.getD i default)).array.cell
        = some (rows.map fun row => row.getD i default) := by
    have hmap := Run.mapM_range (rows.map fun row => row.getD i default) some
    rw [Run.mapM_eq_some (g := fun cell => cell) (fun _ _ => rfl), List.map_id'] at hmap
    rw [← hmap]
    congr 1
    . funext r
      rw [Storage.Column.cell_ofCells _ _ _ (fun cell hcell => fieldType_of_mem h htype hcell), Option.bind_fun_some]
    . simp [Storage.Column.ofCells, Storage.Column.ofStrings]
  refine ⟨compare ((rows.map fun row => row.getD i default).map Cell.toBytes) value p.comparator, ?_, ?_, ?_, ?_⟩
  . rw [filterPredicate, hcol]
    simp only [Option.bind_eq_bind, Option.bind_some, hvalue]
    rw [hcells]
    rfl
  . rw [hcompare.length_eq, List.length_map, List.length_map]
  . have := hcompare.bytes_le ((rows.map fun row => row.getD i default).map Cell.toBytes) value p.comparator
    rwa [List.length_map, List.length_map] at this
  . have hbits := hcompare.holds ((rows.map fun row => row.getD i default).map Cell.toBytes) value p.comparator
    rw [List.map_map, List.map_map, List.map_congr_left (g := p.eval names)] at hbits
    . rw [List.map_map]
      exact hbits
    . intro row hrow
      have hfield := fieldType_of_mem h htype (List.mem_map_of_mem hrow)
      cases hc : row.getD i default with
      | int64 v =>
        rw [hc] at hfield
        cases hfield
      | string bytes =>
        simp only [Function.comp_apply, Predicate.eval, hi, hvalue, hc, compareCells, Cell.toBytes]

theorem Marks.combine {left right : BooleanArray} {f g : Row → Bool} (hleft : Marks left rows f)
    (hright : Marks right rows g) (op : Bitmap.Byte → Bitmap.Byte → Bitmap.Byte) (conn : Bool → Bool → Bool)
    (hop : ∀ x y k, (op x y).getLsbD k = conn (x.getLsbD k) (y.getLsbD k)) (hconn : conn false false = false)
    : ∃ bytes, Bitmap.combine op (numBytes left.length) left.bytes right.bytes = some bytes ∧
        Marks ⟨left.length, bytes⟩ rows fun row => conn (f row) (g row) := by
  have hn : numBytes left.length = max 1 ((rows.length + 7) / 8) := by
    rw [numBytes_eq, hleft.length_eq]
  obtain ⟨bytes, hbytes, hlen, hholds⟩ := Bitmap.combine_holds hop hconn hleft.holds hright.holds (by simp)
    (n := numBytes left.length) (by rw [hn, List.length_map]; omega) (by rw [hn]; exact hleft.bytes_le)
    (by rw [hn]; exact hright.bytes_le)
  refine ⟨bytes, hbytes, hleft.length_eq, ?_, ?_⟩
  . rw [hlen]
    exact hleft.bytes_le
  . rw [List.zipWith_map, List.zipWith_self] at hholds
    exact hholds

theorem Node.WellTyped.leaves {fields : List FieldType} {node : Node} (h : node.WellTyped names fields) (numRows : Nat)
    : ∀ p ∈ node.leaves, p.comparator ≠ .notEqual ∧ p.Comparable names fields numRows := by
  induction node with
  | predicate p =>
    obtain ⟨hop, i, hi, htype⟩ := h
    intro p' hp'
    rw [List.mem_singleton.mp hp']
    exact ⟨hop, i, hi, .inl htype⟩
  | connective left right op ihl ihr =>
    intro p hp
    rcases List.mem_append.mp hp with hp | hp
    . exact ihl h.1 p hp
    . exact ihr h.2 p hp

theorem filterPredicate_empty (h : b.Repr id schema capacity rows) {p : Predicate} {i : Nat}
    (hrows : b.numRows = 0) (hi : fieldIndex names p.colName = some i) (htype : schema.fields[i]? = some .string)
    (hvalue : p.value.fieldType = .int64) (hop : p.comparator ≠ .notEqual)
    : ∃ out, filterPredicate compare searchMetadata names b p = some out ∧ Marks out rows (p.eval names) := by
  have hnil : rows = [] := List.length_eq_zero_iff.mp (h.numRows_eq ▸ hrows)
  have hcol := columnByName_eq h hi htype
  refine ⟨⟨0, pack []⟩, ?_, ?_, ?_, ?_⟩
  . rw [filterPredicate, hcol]
    cases hv : p.value with
    | string value =>
      rw [hv] at hvalue
      cases hvalue
    | int64 value => simp [Storage.Column.ofCells, Storage.Column.ofStrings, hop, hrows]
  . rw [hnil]
    rfl
  . rw [hnil, length_pack]
    simp
  . rw [hnil]
    exact pack_holds []

theorem filter_marks_of_comparable (hcompare : Pointwise compare) (h : b.Repr id schema capacity rows)
    (hmeta : b.metadataEnabled = false) {node : Node} (hop : ∀ p ∈ node.leaves, p.comparator ≠ .notEqual)
    (hleaves : ∀ p ∈ node.leaves, p.Comparable names schema.fields b.numRows)
    : ∃ out, filter compare searchMetadata names b node = some out ∧ Marks out rows fun row => node.eval names row := by
  induction node with
  | predicate p =>
    have hop := hop p (List.mem_singleton.mpr rfl)
    obtain ⟨i, hi, htype | ⟨hrows, hvalue, htype⟩⟩ := hleaves p (List.mem_singleton.mpr rfl)
    . cases hvalue : p.value with
      | int64 value =>
        rw [hvalue] at htype
        exact filterPredicate_int64 h hmeta hi htype hvalue hop
      | string value =>
        rw [hvalue] at htype
        exact filterPredicate_string hcompare h hi htype hvalue
    . exact filterPredicate_empty h hrows hi htype hvalue hop
  | connective left right op ihl ihr =>
    obtain ⟨l, hl, hml⟩ := ihl (fun p hp => hop p (List.mem_append_left _ hp))
      fun p hp => hleaves p (List.mem_append_left _ hp)
    obtain ⟨r, hr, hmr⟩ := ihr (fun p hp => hop p (List.mem_append_right _ hp))
      fun p hp => hleaves p (List.mem_append_right _ hp)
    cases op with
    | and =>
      obtain ⟨bytes, hbytes, hmarks⟩ := hml.combine hmr (· &&& ·) (· && ·) (fun _ _ _ => BitVec.getLsbD_and) rfl
      refine ⟨⟨l.length, bytes⟩, ?_, hmarks⟩
      simp only [filter, hl, hr, Option.bind_eq_bind, Option.bind_some, hbytes]
      rfl
    | or =>
      obtain ⟨bytes, hbytes, hmarks⟩ := hml.combine hmr (· ||| ·) (· || ·) (fun _ _ _ => BitVec.getLsbD_or) rfl
      refine ⟨⟨l.length, bytes⟩, ?_, hmarks⟩
      simp only [filter, hl, hr, Option.bind_eq_bind, Option.bind_some, hbytes]
      rfl
    | none =>
      refine ⟨l, ?_, hml⟩
      simp only [filter, hl, hr, Option.bind_eq_bind, Option.bind_some]
      rfl

theorem filter_marks (hcompare : Pointwise compare) (h : b.Repr id schema capacity rows)
    (hmeta : b.metadataEnabled = false) {node : Node} (hnode : node.WellTyped names schema.fields)
    : ∃ out, filter compare searchMetadata names b node = some out ∧ Marks out rows fun row => node.eval names row :=
  filter_marks_of_comparable hcompare h hmeta (fun p hp => (hnode.leaves b.numRows p hp).1)
    fun p hp => (hnode.leaves b.numRows p hp).2

theorem length_of_columnByName (h : b.Repr id schema capacity rows) {name : String} {array : ArrayData}
    (harray : columnByName names b name = some array) : array.length = b.numRows := by
  obtain ⟨i, -, harray⟩ := Option.bind_eq_some_iff.mp harray
  obtain ⟨c, hc, harray⟩ := Option.bind_eq_some_iff.mp harray
  cases harray
  rw [h.columns_eq] at hc
  obtain ⟨type, cells, rfl, hlen⟩ := Storage.Column.mem_ofRows (List.mem_of_getElem? hc)
  rw [h.numRows_eq, ← hlen]
  cases type with
  | int64 => simp [Storage.Column.ofCells, Storage.Column.ofInts]
  | string => simp [Storage.Column.ofCells, Storage.Column.ofStrings]

theorem length_filter (hcompare : Pointwise compare) (h : b.Repr id schema capacity rows) {node : Node}
    {out : BooleanArray} (hout : filter compare searchMetadata names b node = some out) : out.length = b.numRows := by
  induction node generalizing out with
  | predicate p =>
    obtain ⟨array, harray, hout⟩ := Option.bind_eq_some_iff.mp hout
    have hlen := length_of_columnByName h harray
    split at hout
    . split at hout
      . cases hout
      . unfold filterValues at hout
        dsimp only at hout
        split at hout
        . cases hout
          rfl
        . obtain ⟨bytemap, -, hout⟩ := Option.bind_eq_some_iff.mp hout
          cases hout
          rfl
    . obtain ⟨cells, hcells, hout⟩ := Option.bind_eq_some_iff.mp hout
      cases hout
      rw [hcompare.length_eq, List.length_map, Run.length_mapM hcells, List.length_range, hlen]
    . split at hout
      . cases hout
      . next hrows =>
        cases hout
        show 0 = b.numRows
        omega
    . cases hout
  | connective left right op ihl ihr =>
    obtain ⟨l, hl, hout⟩ := Option.bind_eq_some_iff.mp hout
    obtain ⟨r, -, hout⟩ := Option.bind_eq_some_iff.mp hout
    cases op with
    | none =>
      cases hout
      exact ihl hl
    | and =>
      obtain ⟨bytes, -, hout⟩ := Option.bind_eq_some_iff.mp hout
      cases hout
      exact @ihl l hl
    | or =>
      obtain ⟨bytes, -, hout⟩ := Option.bind_eq_some_iff.mp hout
      cases hout
      exact @ihl l hl

theorem comparable_of_filterPredicate (h : b.Repr id schema capacity rows) {p : Predicate} {out : BooleanArray}
    (hout : filterPredicate compare searchMetadata names b p = some out)
    : p.Comparable names schema.fields b.numRows := by
  obtain ⟨array, harray, hout⟩ := Option.bind_eq_some_iff.mp hout
  obtain ⟨i, hi, harray⟩ := Option.bind_eq_some_iff.mp harray
  obtain ⟨c, hc, harray⟩ := Option.bind_eq_some_iff.mp harray
  cases harray
  have hlt : i < schema.fields.length := by
    rw [← Storage.Column.length_ofRows schema.fields rows, ← h.columns_eq]
    exact (List.getElem?_eq_some_iff.mp hc).1
  have htype := List.getElem?_eq_getElem hlt
  rw [h.columns_eq, Storage.Column.ofRows_getElem? htype, Option.some.injEq] at hc
  subst hc
  refine ⟨i, hi, ?_⟩
  cases hfield : schema.fields[i] with
  | int64 =>
    rw [htype, hfield]
    cases hvalue : p.value with
    | int64 value => exact .inl rfl
    | string value => simp [hvalue, hfield, Storage.Column.ofCells, Storage.Column.ofInts] at hout
  | string =>
    rw [htype, hfield]
    cases hvalue : p.value with
    | string value => exact .inl rfl
    | int64 value =>
      simp only [hvalue, hfield, Storage.Column.ofCells, Storage.Column.ofStrings] at hout
      split at hout
      . cases hout
      . next hrows => exact .inr ⟨by omega, rfl, rfl⟩

theorem leaves_of_filter {node : Node} {out : BooleanArray}
    (hout : filter compare searchMetadata names b node = some out)
    : ∀ p ∈ node.leaves, ∃ out, filterPredicate compare searchMetadata names b p = some out := by
  induction node generalizing out with
  | predicate p =>
    intro p' hp'
    rw [List.mem_singleton.mp hp']
    exact ⟨out, hout⟩
  | connective left right op ihl ihr =>
    obtain ⟨l, hl, hout⟩ := Option.bind_eq_some_iff.mp hout
    obtain ⟨r, hr, -⟩ := Option.bind_eq_some_iff.mp hout
    intro p hp
    rcases List.mem_append.mp hp with hp | hp
    . exact ihl hl p hp
    . exact ihr hr p hp

/--
The filter has a bit for every row, set exactly when the row satisfies the tree, and no other bit is set.
-/
def FiltersRows (compare : List (List UInt8) → List UInt8 → CompareOperator → BooleanArray)
    (searchMetadata : String → BitVec 64 → CompareOperator → Bool) (names : List String) (b : Block) (node : Node)
    : Prop :=
  ∃ out, filter compare searchMetadata names b node = some out ∧ out.length = b.numRows ∧
    ∀ r, Bitmap.getBit out.bytes r = true ↔ ∃ row, b.row r = some row ∧ node.eval names row = true

/--
A tree without `NOT_EQUAL` is evaluated row by row exactly when every leaf can be compared with its column.
-/
theorem filtersRows_iff (compare : List (List UInt8) → List UInt8 → CompareOperator → BooleanArray)
    (searchMetadata : String → BitVec 64 → CompareOperator → Bool) (names : List String)
    (hcompare : Pointwise compare) (h : b.Repr id schema capacity rows) (hmeta : b.metadataEnabled = false)
    (node : Node) (hop : ∀ p ∈ node.leaves, p.comparator ≠ .notEqual)
    : FiltersRows compare searchMetadata names b node ↔
        ∀ p ∈ node.leaves, p.Comparable names schema.fields b.numRows := by
  constructor
  . rintro ⟨out, hout, -⟩ p hp
    obtain ⟨out', hout'⟩ := leaves_of_filter hout p hp
    exact comparable_of_filterPredicate h hout'
  . intro hleaves
    obtain ⟨out, hout, hmarks⟩ := @filter_marks_of_comparable compare searchMetadata _ _ _ _ _ _ hcompare h hmeta
      node hop hleaves
    refine ⟨out, hout, ?_, ?_⟩
    . rw [hmarks.length_eq, h.numRows_eq]
    . intro r
      rw [hmarks.holds, h.row_eq, List.getD_eq_getElem?_getD, List.getElem?_map]
      cases rows[r]? with
      | none => simp
      | some row => simp

/-! Where the filter of a block is defined. -/

def Covers (out : BooleanArray) (b : Block) : Prop :=
  out.length = b.numRows ∧ max 1 ((b.numRows + 7) / 8) ≤ out.bytes.length

theorem covers_of_filterValues {array : ArrayData} (hoffset : array.offset = 0) {values : List (BitVec 64)}
    (hlen : values.length = b.numRows) (p : Predicate) (value : BitVec 64)
    : ∃ out, filterValues searchMetadata b array values p value = some out ∧ Covers out b := by
  unfold filterValues
  split
  . refine ⟨⟨b.numRows, pack (List.replicate b.numRows 0)⟩, rfl, rfl, ?_⟩
    rw [length_pack, List.length_replicate]
  . have hmap := Run.mapM_range values fun v =>
      some (if compareScalars p.comparator v.toInt value.toInt then (1 : Bitmap.Byte) else 0)
    rw [Run.mapM_eq_some (fun _ _ => rfl), hlen] at hmap
    simp only [hoffset, Nat.zero_add]
    refine ⟨⟨b.numRows, pack (values.map fun v => if compareScalars p.comparator v.toInt value.toInt then 1 else 0)⟩,
      congrArg (fun o => o.bind fun bytemap => some (⟨b.numRows, pack bytemap⟩ : BooleanArray)) hmap, rfl, ?_⟩
    rw [length_pack, List.length_map, hlen]

theorem covers_of_filterPredicate (hcompare : Pointwise compare) (h : b.Repr id schema capacity rows) {p : Predicate}
    (hp : p.Evaluates names schema.fields)
    : ∃ out, filterPredicate compare searchMetadata names b p = some out ∧ Covers out b := by
  obtain ⟨⟨i, hi, htype⟩, hop⟩ := hp
  cases hvalue : p.value with
  | int64 value =>
    rw [hvalue] at htype hop
    rw [filterPredicate, columnByName_eq h hi htype]
    simp only [hvalue, Option.bind_eq_bind, Option.bind_some, Cell.fieldType, Storage.Column.ofCells,
      Storage.Column.ofInts, if_neg (hop rfl)]
    apply covers_of_filterValues rfl
    rw [List.length_map, List.length_map, h.numRows_eq]
  | string value =>
    rw [hvalue] at htype
    obtain ⟨out, hout, hmarks⟩ := @filterPredicate_string compare searchMetadata _ _ _ _ _ _ hcompare h p i value hi
      htype hvalue
    refine ⟨out, hout, hmarks.length_eq.trans h.numRows_eq.symm, ?_⟩
    rw [h.numRows_eq]
    exact hmarks.bytes_le

theorem Covers.combine {left right : BooleanArray} (hleft : Covers left b) (hright : Covers right b)
    (op : Bitmap.Byte → Bitmap.Byte → Bitmap.Byte)
    : ∃ bytes, Bitmap.combine op (numBytes left.length) left.bytes right.bytes = some bytes ∧
        Covers ⟨left.length, bytes⟩ b := by
  have hn : numBytes left.length = max 1 ((b.numRows + 7) / 8) := by
    rw [numBytes_eq, hleft.1]
  obtain ⟨bytes, hbytes, hlen, -⟩ := @Bitmap.combine_eq_some op _ _ _ (hn ▸ hleft.2) (hn ▸ hright.2)
  exact ⟨bytes, hbytes, hleft.1, by rw [hlen]; exact hleft.2⟩

theorem covers_of_filter (hcompare : Pointwise compare) (h : b.Repr id schema capacity rows) {node : Node}
    (hleaves : ∀ p ∈ node.leaves, p.Evaluates names schema.fields)
    : ∃ out, filter compare searchMetadata names b node = some out ∧ Covers out b := by
  induction node with
  | predicate p => exact covers_of_filterPredicate hcompare h (hleaves p (List.mem_singleton.mpr rfl))
  | connective left right op ihl ihr =>
    obtain ⟨l, hl, hcl⟩ := ihl fun p hp => hleaves p (List.mem_append_left _ hp)
    obtain ⟨r, hr, hcr⟩ := ihr fun p hp => hleaves p (List.mem_append_right _ hp)
    cases op with
    | and =>
      obtain ⟨bytes, hbytes, hcovers⟩ := hcl.combine hcr (· &&& ·)
      refine ⟨⟨l.length, bytes⟩, ?_, hcovers⟩
      simp only [filter, hl, hr, Option.bind_eq_bind, Option.bind_some, hbytes]
      rfl
    | or =>
      obtain ⟨bytes, hbytes, hcovers⟩ := hcl.combine hcr (· ||| ·)
      refine ⟨⟨l.length, bytes⟩, ?_, hcovers⟩
      simp only [filter, hl, hr, Option.bind_eq_bind, Option.bind_some, hbytes]
      rfl
    | none =>
      refine ⟨l, ?_, hcl⟩
      simp only [filter, hl, hr, Option.bind_eq_bind, Option.bind_some]
      rfl

theorem isSome_filter_iff (hcompare : Pointwise compare) (h : b.Repr id schema capacity rows) (hrows : b.numRows ≠ 0)
    (node : Node)
    : (filter compare searchMetadata names b node).isSome = true ↔
        ∀ p ∈ node.leaves, p.Evaluates names schema.fields := by
  constructor
  . intro hsome p hp
    obtain ⟨out, hout⟩ := Option.isSome_iff_exists.mp hsome
    obtain ⟨out', hout'⟩ := leaves_of_filter hout p hp
    obtain ⟨i, hi, htype | ⟨hempty, -⟩⟩ := comparable_of_filterPredicate h hout'
    . refine ⟨⟨i, hi, htype⟩, ?_⟩
      intro hint hop
      cases hvalue : p.value with
      | string value =>
        rw [hvalue] at hint
        cases hint
      | int64 value =>
        rw [hvalue] at htype
        rw [filterPredicate, columnByName_eq h hi htype] at hout'
        simp [hvalue, hop, Cell.fieldType, Storage.Column.ofCells, Storage.Column.ofInts] at hout'
    . exact absurd hempty hrows
  . intro hleaves
    obtain ⟨out, hout, -⟩ := @covers_of_filter compare searchMetadata _ _ _ _ _ _ hcompare h node hleaves
    rw [hout]
    rfl

/--
The kernel as a loop over the strings.
-/
def compareEach (values : List (List UInt8)) (value : List UInt8) (op : CompareOperator) : BooleanArray :=
  ⟨values.length, pack (values.map fun v => if compareStrings op v value then 1 else 0)⟩

theorem compareEach_pointwise : Pointwise compareEach where
  length_eq _ _ _ := rfl
  bytes_le values value op := by
    rw [compareEach, length_pack, List.length_map]
  holds values value op := by
    have h := pack_holds (values.map fun v => if compareStrings op v value then (1 : Bitmap.Byte) else 0)
    rw [List.map_map] at h
    rw [compareEach, List.map_congr_left (g := (fun x : Bitmap.Byte => decide (x ≠ 0)) ∘ fun v =>
      if compareStrings op v value then 1 else 0)]
    . exact h
    . intro v _
      by_cases hcmp : compareStrings op v value = true
      . simp [hcmp]
      . simp [hcmp]

def stockSchema : Storage.Schema := ⟨[.int64, .string], List.cons_ne_nil _ _⟩

def stockRows : List Row :=
  [[.int64 3, .string [97]], [.int64 9, .string [98]], [.int64 5, .string [97, 98]]]

def stock : Block :=
  { Block.new 0 stockSchema 200 false with
    valid := [true, true, true]
    columns := Storage.Column.ofRows stockSchema.fields stockRows
    numBytes := Storage.Column.totalSize (Storage.Column.ofRows stockSchema.fields stockRows)
    numRows := 3 }

theorem stock_repr : stock.Repr 0 stockSchema 200 stockRows := by
  exact (Block.new_repr 0 stockSchema 200 false).append stockRows [true, true, true] (by decide) (by decide)

def stockNode : Node :=
  .connective (.predicate ⟨"n", .less, .int64 6⟩) (.predicate ⟨"s", .greater, .string [97]⟩) .or

theorem stockNode_wellTyped : stockNode.WellTyped ["n", "s"] stockSchema.fields :=
  ⟨⟨by decide, 0, by decide, by decide⟩, ⟨by decide, 1, by decide, by decide⟩⟩

theorem filtersRows_iff_stock : FiltersRows compareEach (fun _ _ _ => true) ["n", "s"] stock stockNode :=
  (filtersRows_iff compareEach (fun _ _ _ => true) ["n", "s"] compareEach_pointwise stock_repr rfl stockNode
    fun p hp => (stockNode_wellTyped.leaves 3 p hp).1).mpr fun p hp => (stockNode_wellTyped.leaves 3 p hp).2

def mistypedNode : Node :=
  .predicate ⟨"s", .equal, .int64 9⟩

theorem not_filtersRows : ¬FiltersRows compareEach (fun _ _ _ => true) ["n", "s"] stock mistypedNode := by
  rintro ⟨out, hout, -⟩
  have hnone : filter compareEach (fun _ _ _ => true) ["n", "s"] stock mistypedNode = none := by decide +kernel
  rw [hnone] at hout
  cases hout

end Select

end Hustle.Operators
