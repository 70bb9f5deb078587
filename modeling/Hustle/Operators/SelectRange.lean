import Hustle.Operators.Select
import Hustle.Resolver.SelectResolver

/-!
This module contains the filter of `Select` for `NOT_EQUAL`, which tests whether a value is between two constants. The
resolver builds a predicate with one constant for `<>`.
-/

namespace Hustle.Operators.Select

open Resolver (Catalog CompareOperator Expr PredicateTree SelectResolver)
open Storage (Block Cell Row ArrayData)

/--
A predicate with its second constant, none if that is an empty `Datum`.
-/
structure BoundedPredicate extends Predicate where
  value2 : Option (BitVec 64)

/--
The predicate that the resolver has built. It sets no second constant.
-/
def BoundedPredicate.ofResolved (p : Resolver.Predicate) : BoundedPredicate :=
  { colName := p.colRef.colName
    comparator := p.comparator
    value :=
      match p.value with
      | .int64 value => .int64 (BitVec.ofInt 64 value)
      | .string value => .string value.toUTF8.data.toList
    value2 := none }

section

-- `arrow::compute::Compare` of a string column with a constant, `SearchMetadata` of a block with metadata, and the byte
-- that is read as the value of a `UInt8Scalar` if the scalar is an `Int64Scalar`.
variable (compare : List (List UInt8) → List UInt8 → CompareOperator → BooleanArray)
  (searchMetadata : String → BitVec 64 → CompareOperator → Bool) (uint8Value : BitVec 64 → BitVec 8)

/--
The loop of `numeric_filter` for `NOT_EQUAL`. The difference of the bounds is an `int`, that of a value and the lower
bound has 64 bits, and both are passed as bytes.
-/
def filterRange (b : Block) (array : ArrayData) (values : List (BitVec 64)) (value : BitVec 64)
    (value2 : Option (BitVec 64)) : Option BooleanArray := do
  let lo := uint8Value value
  let hi ← value2.map uint8Value
  let diff : BitVec 32 := hi.setWidth 32 - lo.setWidth 32
  let bytemap ← (List.range b.numRows).mapM fun i => do
    let v ← values[array.offset + i]?
    return if (v - lo.setWidth 64).setWidth 8 ≤ diff.setWidth 8 then 1 else 0
  return ⟨b.numRows, pack bytemap⟩

/--
`Select::Filter` of a predicate with both constants.
-/
def filterBounded (names : List String) (b : Block) (p : BoundedPredicate) : Option BooleanArray :=
  match p.value, p.comparator with
  | .int64 value, .notEqual => do
    let array ← columnByName names b p.colName
    match array.buffers with
    | .int64 values => filterRange uint8Value b array values value p.value2
    | .string _ _ => none
  | _, _ => filterPredicate compare searchMetadata names b p.toPredicate

theorem filterBounded_none {names : List String} {b : Block} {p : BoundedPredicate} (h : p.value2 = none)
    : filterBounded compare searchMetadata uint8Value names b p
        =
      filterPredicate compare searchMetadata names b p.toPredicate := by
  rw [filterBounded]
  split
  . next value hvalue hop =>
    rw [filterPredicate, hvalue]
    cases columnByName names b p.colName with
    | none => rfl
    | some array =>
      simp only [Option.bind_eq_bind, Option.bind_some, hop]
      cases array.buffers with
      | int64 values => simp [filterRange, h]
      | string _ _ => rfl
  . rfl

end

variable {compare : List (List UInt8) → List UInt8 → CompareOperator → BooleanArray}
  {searchMetadata : String → BitVec 64 → CompareOperator → Bool} {uint8Value : BitVec 64 → BitVec 8}
  {names : List String} {b : Block} {id : Int} {schema : Storage.Schema} {capacity : Int} {rows : List Row}

/--
A value is in the range of bytes that starts at `lo` and goes up to `hi`, in the cyclic order of the bytes.
-/
def InByteRange (lo hi : BitVec 8) (v : Int) : Prop :=
  (v - lo.toNat) % 256 ≤ ((hi.toNat : Int) - lo.toNat) % 256

instance (lo hi : BitVec 8) (v : Int) : Decidable (InByteRange lo hi v) :=
  inferInstanceAs (Decidable ((v - lo.toNat) % 256 ≤ ((hi.toNat : Int) - lo.toNat) % 256))

theorem le_diff_iff (lo hi : BitVec 8) (v : BitVec 64)
    : (v - lo.setWidth 64).setWidth 8 ≤ (hi.setWidth 32 - lo.setWidth 32 : BitVec 32).setWidth 8
        ↔
      InByteRange lo hi v.toInt := by
  have hlo := lo.isLt
  have hhi := hi.isLt
  have hv := v.isLt
  have hint : v.toInt % 256 = (v.toNat : Int) % 256 := by
    rw [BitVec.toInt_eq_toNat_cond]
    split <;> omega
  rw [InByteRange, BitVec.le_def]
  simp only [BitVec.toNat_setWidth, BitVec.toNat_sub]
  omega

def cellValue (i : Nat) (row : Row) : Int :=
  (row.getD i default).toInt64.toInt

theorem filterRange_eq {array : ArrayData} (hoffset : array.offset = 0) {values : List (BitVec 64)}
    (hlen : values.length = b.numRows) (lo hi : BitVec 64)
    : filterRange uint8Value b array values lo (some hi)
        =
      some ⟨b.numRows, pack (values.map fun v =>
        if InByteRange (uint8Value lo) (uint8Value hi) v.toInt then 1 else 0)⟩ := by
  have hmap := Run.mapM_range values fun v =>
    some (if InByteRange (uint8Value lo) (uint8Value hi) v.toInt then (1 : Bitmap.Byte) else 0)
  rw [Run.mapM_eq_some (fun _ _ => rfl)] at hmap
  simp only [filterRange, Option.map_some, Option.bind_eq_bind, Option.bind_some, hoffset, Nat.zero_add, ← hlen,
    le_diff_iff]
  exact congrArg (fun o => o.bind fun bytemap => some (⟨values.length, pack bytemap⟩ : BooleanArray)) hmap

theorem filterBounded_marks (h : b.Repr id schema capacity rows) {p : BoundedPredicate} {i : Nat} {lo hi : BitVec 64}
    (hi' : fieldIndex names p.colName = some i) (htype : schema.fields[i]? = some .int64)
    (hvalue : p.value = .int64 lo) (hop : p.comparator = .notEqual) (hvalue2 : p.value2 = some hi)
    : ∃ out, filterBounded compare searchMetadata uint8Value names b p = some out ∧
        Marks out rows fun row => decide (InByteRange (uint8Value lo) (uint8Value hi) (cellValue i row)) := by
  have hlen : ((rows.map fun row => row.getD i default).map Cell.toInt64).length = b.numRows := by
    rw [List.length_map, List.length_map, h.numRows_eq]
  refine ⟨⟨b.numRows, pack (((rows.map fun row => row.getD i default).map Cell.toInt64).map fun v =>
    if InByteRange (uint8Value lo) (uint8Value hi) v.toInt then 1 else 0)⟩, ?_, ?_, ?_, ?_⟩
  . rw [filterBounded, hvalue, hop, columnByName_eq h hi' htype, hvalue2]
    exact filterRange_eq rfl hlen lo hi
  . exact h.numRows_eq
  . rw [length_pack, List.length_map, hlen, h.numRows_eq]
  . have hbits := pack_holds (((rows.map fun row => row.getD i default).map Cell.toInt64).map fun v =>
      if InByteRange (uint8Value lo) (uint8Value hi) v.toInt then (1 : Bitmap.Byte) else 0)
    rw [List.map_map, List.map_map, List.map_map] at hbits
    rw [List.map_map, List.map_map]
    convert hbits using 2
    funext row
    rw [Function.comp_apply, Function.comp_apply, Function.comp_apply, cellValue]
    by_cases hrange : InByteRange (uint8Value lo) (uint8Value hi) (row.getD i default).toInt64.toInt
    . simp only [hrange, decide_true, if_true]
      rfl
    . simp only [hrange, decide_false, if_false]
      rfl

theorem Marks.congr_iff {out : BooleanArray} {f g : Row → Bool} (h : Marks out rows f)
    : Marks out rows g ↔ ∀ row ∈ rows, g row = f row := by
  constructor
  . intro hg row hrow
    obtain ⟨r, hr, rfl⟩ := List.getElem_of_mem hrow
    have hbit := (hg.holds r).symm.trans (h.holds r)
    simpa [hr] using hbit
  . intro hfg
    refine ⟨h.length_eq, h.bytes_le, ?_⟩
    rw [List.map_congr_left hfg]
    exact h.holds

/-! What `<>` and the range test should say about the rows. -/

/--
The predicate that the resolver builds for `column <> constant` is filtered by inequality.
-/
def FiltersInequality (compare : List (List UInt8) → List UInt8 → CompareOperator → BooleanArray)
    (searchMetadata : String → BitVec 64 → CompareOperator → Bool) (uint8Value : BitVec 64 → BitVec 8)
    (names : List String) (b : Block) (rows : List Row) (i : Nat) (p : Resolver.Predicate) (c : Int) : Prop :=
  ∃ out, filterBounded compare searchMetadata uint8Value names b (.ofResolved p) = some out ∧
    Marks out rows fun row => decide (cellValue i row ≠ c)

/--
A predicate with two constants is filtered by the range between them.
-/
def FiltersRange (compare : List (List UInt8) → List UInt8 → CompareOperator → BooleanArray)
    (searchMetadata : String → BitVec 64 → CompareOperator → Bool) (uint8Value : BitVec 64 → BitVec 8)
    (names : List String) (b : Block) (rows : List Row) (i : Nat) (name : String) (lo hi : BitVec 64) : Prop :=
  ∃ out, filterBounded compare searchMetadata uint8Value names b ⟨⟨name, .notEqual, .int64 lo⟩, some hi⟩ = some out ∧
    Marks out rows fun row => decide (lo.toInt ≤ cellValue i row ∧ cellValue i row ≤ hi.toInt)

theorem filtersRange_iff_byteRange (h : b.Repr id schema capacity rows) {name : String} {i : Nat}
    (hi' : fieldIndex names name = some i) (htype : schema.fields[i]? = some .int64) (lo hi : BitVec 64)
    : FiltersRange compare searchMetadata uint8Value names b rows i name lo hi ↔
        ∀ row ∈ rows, (lo.toInt ≤ cellValue i row ∧ cellValue i row ≤ hi.toInt ↔
          InByteRange (uint8Value lo) (uint8Value hi) (cellValue i row)) := by
  have hmarks := @filterBounded_marks compare searchMetadata uint8Value _ _ _ _ _ _ h
    ⟨⟨name, .notEqual, .int64 lo⟩, some hi⟩ i lo hi hi' htype rfl rfl rfl
  obtain ⟨out, hout, hmarks⟩ := hmarks
  rw [FiltersRange, hout]
  constructor
  . rintro ⟨out', heq, hrange⟩ row hrow
    cases heq
    exact decide_eq_decide.mp (hmarks.congr_iff.mp hrange row hrow)
  . intro hrows
    refine ⟨out, rfl, hmarks.congr_iff.mpr ?_⟩
    intro row hrow
    exact decide_eq_decide.mpr (hrows row hrow)

theorem exists_resolvePredExpr (catalog : Catalog) (s : SelectResolver) (op : CompareOperator) (col : Resolver.Column)
    (value : Nat) (token : Int)
    : ∃ tree s', SelectResolver.resolvePredExpr catalog (.compare op (.column col) (.integer value token)) s
          = .ok (some tree, s') ∧
        tree.root = .predicate ⟨SelectResolver.columnRef catalog col, op, .int64 (Expr.iValue value token)⟩ := by
  simp only [SelectResolver.resolvePredExpr, SelectResolver.resolveComparison, SelectResolver.addComparison]
  split
  . exact ⟨_, _, rfl, rfl⟩
  . exact ⟨_, _, rfl, rfl⟩

theorem not_filtersInequality {ref : Resolver.ColumnReference} {i : Nat} {value c : Int}
    : ¬FiltersInequality compare searchMetadata uint8Value names b rows i ⟨ref, .notEqual, .int64 value⟩ c := by
  rintro ⟨out, hout, -⟩
  rw [filterBounded_none compare searchMetadata uint8Value rfl, filterPredicate] at hout
  obtain ⟨array, -, hout⟩ := Option.bind_eq_some_iff.mp hout
  simp only [BoundedPredicate.ofResolved] at hout
  cases hbuffers : array.buffers with
  | int64 values =>
    rw [hbuffers] at hout
    cases hout
  | string _ _ =>
    rw [hbuffers] at hout
    cases hout

/--
A `<>` of the resolver is never filtered, and a predicate with two constants is filtered by the range between them
exactly if the bytes of the values tell the same.
-/
theorem filters_iff (h : b.Repr id schema capacity rows) {name : String} {i : Nat}
    (hi' : fieldIndex names name = some i) (htype : schema.fields[i]? = some .int64)
    : (∀ (catalog : Catalog) (s : SelectResolver) (col : Resolver.Column) (value : Nat) (token : Int),
        ∃ tree s' p, SelectResolver.resolvePredExpr catalog (.compare .notEqual (.column col) (.integer value token)) s
            = .ok (some tree, s') ∧
          tree.root = .predicate p ∧
          ¬FiltersInequality compare searchMetadata uint8Value names b rows i p value) ∧
      ∀ lo hi : BitVec 64, lo.toInt ≤ hi.toInt →
        (FiltersRange compare searchMetadata uint8Value names b rows i name lo hi ↔
          ∀ row ∈ rows, (lo.toInt ≤ cellValue i row ∧ cellValue i row ≤ hi.toInt ↔
            InByteRange (uint8Value lo) (uint8Value hi) (cellValue i row))) := by
  constructor
  . intro catalog s col value token
    obtain ⟨tree, s', hresolve, hroot⟩ := exists_resolvePredExpr catalog s .notEqual col value token
    exact ⟨tree, s', _, hresolve, hroot, not_filtersInequality⟩
  . intro lo hi _
    exact filtersRange_iff_byteRange h hi' htype lo hi

/--
The byte of lowest value, which comes first on the machines that the code runs on.
-/
def lowByte (value : BitVec 64) : BitVec 8 :=
  value.setWidth 8

theorem filters_iff_stock
    : FiltersRange compareEach (fun _ _ _ => true) lowByte ["n", "s"] stock stockRows 0 "n" 4 8 :=
  ((filters_iff stock_repr (by decide) (by decide)).2 4 8 (by decide)).mpr (by decide)

def stockTable : Resolver.TableName := ⟨"stock", by decide⟩

def stockCatalog : Catalog :=
  AList.insert stockTable 3 ∅

/--
`n <> 9`, and the range from 4 to 260, which have the same byte.
-/
theorem not_filters_stock
    : (∃ tree s' p, SelectResolver.resolvePredExpr stockCatalog
          (.compare .notEqual (.column ⟨0, stockTable, 0, "n"⟩) (.integer 9 0)) .new = .ok (some tree, s') ∧
        tree.root = .predicate p ∧
        ¬FiltersInequality compareEach (fun _ _ _ => true) lowByte ["n", "s"] stock stockRows 0 p 9) ∧
      ¬FiltersRange compareEach (fun _ _ _ => true) lowByte ["n", "s"] stock stockRows 0 "n" 4 260 := by
  constructor
  . obtain ⟨tree, s', hresolve, hroot⟩ :=
      exists_resolvePredExpr stockCatalog .new .notEqual ⟨0, stockTable, 0, "n"⟩ 9 0
    exact ⟨tree, s', _, hresolve, hroot, not_filtersInequality⟩
  . rw [filtersRange_iff_byteRange stock_repr (by decide) (by decide)]
    decide

end Hustle.Operators.Select
