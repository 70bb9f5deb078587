import Hustle.Resolver.Basic

/-!
This module contains the small materialized aggregate of a column: its least and its greatest value, and
the search that decides from them whether a block can be skipped.
-/

namespace Hustle.Storage

open Resolver (CompareOperator)

/--
`arrow::compute::Compare` of two scalars.
-/
def compareScalars (op : CompareOperator) (lhs rhs : Int) : Bool :=
  match op with
  | .equal => lhs = rhs
  | .notEqual => lhs ≠ rhs
  | .less => lhs < rhs
  | .lessEqual => lhs ≤ rhs
  | .greater => rhs < lhs
  | .greaterEqual => rhs ≤ lhs

/--
What `BooleanScalar::data()` is as a truth value: the Boolean that is stored, or the address that it is
stored at, which is never null.
-/
inductive ScalarData where
  | stored
  | address
  deriving DecidableEq, Repr

def ScalarData.read : ScalarData → Bool → Bool
  | .stored, value => value
  | .address, _ => true

structure Sma where
  min : BitVec 64
  max : BitVec 64
  deriving DecidableEq, Repr

namespace Sma

/--
The least and the greatest value of an array that is not empty. Blocks have no nulls.
-/
def new (array : List (BitVec 64)) (h : array ≠ []) : Sma :=
  ⟨array.minOn BitVec.toInt h, array.maxOn BitVec.toInt h⟩

/--
`Sma::Search`, false if the block does not have to be scanned.
-/
def search (data : ScalarData) (sma : Sma) (val : BitVec 64) (op : CompareOperator) : Bool :=
  match op with
  | .greater | .greaterEqual => data.read (compareScalars op sma.max.toInt val.toInt)
  | .less | .lessEqual => data.read (compareScalars op sma.min.toInt val.toInt)
  | .equal =>
    -- both ends are compared with `LESS_EQUAL`
    data.read (compareScalars .lessEqual sma.max.toInt val.toInt) &&
      data.read (compareScalars .lessEqual sma.min.toInt val.toInt)
  | .notEqual => true

/--
Some integer between the ends satisfies the comparison.
-/
def Possible (sma : Sma) (val : BitVec 64) (op : CompareOperator) : Prop :=
  ∃ x : Int, sma.min.toInt ≤ x ∧ x ≤ sma.max.toInt ∧ compareScalars op x val.toInt = true

/--
The search rules out what is impossible and nothing else, in particular no element of the array.
-/
structure SearchesExactly (data : ScalarData) (array : List (BitVec 64)) (h : array ≠ [])
    (val : BitVec 64) (op : CompareOperator) : Prop where
  exact : (new array h).search data val op = false ↔ ¬(new array h).Possible val op
  sound : ∀ x ∈ array, compareScalars op x.toInt val.toInt = true → (new array h).search data val op = true

/--
When the search does what it should. Where the result of a comparison is read as a Boolean, only the test
for equality goes wrong, and not for values below the least or equal to the greatest one. Where it is read
as an address the search never rules out anything.
-/
def Exact : ScalarData → Sma → BitVec 64 → CompareOperator → Prop
  | .stored, sma, val, op => op = .equal → val.toInt < sma.min.toInt ∨ val.toInt = sma.max.toInt
  | .address, sma, val, op =>
    match op with
    | .greater => val.toInt < sma.max.toInt
    | .greaterEqual => val.toInt ≤ sma.max.toInt
    | .less => sma.min.toInt < val.toInt
    | .lessEqual => sma.min.toInt ≤ val.toInt
    | .equal => sma.min.toInt ≤ val.toInt ∧ val.toInt ≤ sma.max.toInt
    | .notEqual => True

variable {array : List (BitVec 64)} {h : array ≠ []}

theorem min_le {x : BitVec 64} (hx : x ∈ array) : (new array h).min.toInt ≤ x.toInt :=
  List.apply_minOn_le_of_mem hx

theorem le_max {x : BitVec 64} (hx : x ∈ array) : x.toInt ≤ (new array h).max.toInt :=
  List.le_apply_maxOn_of_mem hx

theorem min_le_max : (new array h).min.toInt ≤ (new array h).max.toInt := by
  obtain ⟨x, hx⟩ := List.exists_mem_of_ne_nil array h
  exact Int.le_trans (min_le hx) (le_max hx)

theorem possible_iff (val : BitVec 64) (op : CompareOperator) (hop : op ≠ .notEqual)
    : (new array h).Possible val op ↔ Exact .address (new array h) val op := by
  have hle := min_le_max (h := h)
  constructor
  . rintro ⟨x, hmin, hmax, hx⟩
    cases op <;> simp only [compareScalars, decide_eq_true_eq] at hx <;> simp only [Exact]
    all_goals omega
  . intro hexact
    cases op with
    | equal => exact ⟨val.toInt, hexact.1, hexact.2, by simp [compareScalars]⟩
    | notEqual => exact absurd rfl hop
    | less | lessEqual => exact ⟨_, Int.le_refl _, hle, by simpa [compareScalars, Exact] using hexact⟩
    | greater | greaterEqual => exact ⟨_, hle, Int.le_refl _, by simpa [compareScalars, Exact] using hexact⟩

theorem possible_of_mem {val x : BitVec 64} {op : CompareOperator} (hx : x ∈ array)
    (hcompare : compareScalars op x.toInt val.toInt = true)
    : (new array h).Possible val op :=
  ⟨x.toInt, min_le hx, le_max hx, hcompare⟩

theorem searchesExactly_iff {data : ScalarData} {val : BitVec 64} {op : CompareOperator}
    : SearchesExactly data array h val op ↔
      ((new array h).search data val op = true ↔ (new array h).Possible val op) := by
  constructor
  . intro hexact
    rw [← not_iff_not, ← hexact.exact, Bool.not_eq_true]
  . intro hiff
    constructor
    . rw [← Bool.not_eq_true, hiff]
    . intro x hx hcompare
      exact hiff.mpr (possible_of_mem hx hcompare)

/--
The search is exact for all comparisons but `EQUAL`, and for `EQUAL` exactly if the value is below the
least or equal to the greatest one; read as addresses, its comparisons never rule out anything.
-/
theorem search_exact_iff (data : ScalarData) (array : List (BitVec 64)) (h : array ≠ []) (val : BitVec 64)
    (op : CompareOperator) (hop : op ≠ .notEqual)
    : SearchesExactly data array h val op ↔ Exact data (new array h) val op := by
  have hle := min_le_max (h := h)
  rw [searchesExactly_iff, possible_iff val op hop]
  cases data with
  | stored =>
    cases op <;>
      simp only [search, ScalarData.read, compareScalars, Exact, Bool.and_eq_true, decide_eq_true_eq,
        reduceCtorEq, false_implies, forall_const, iff_self]
    omega
  | address =>
    cases op <;> simp [search, ScalarData.read, Exact]

theorem search_exact_iff_greater
    : CompareOperator.greater ≠ .notEqual ∧
      (SearchesExactly .stored [10, 20] (by simp) 20 .greater ↔
        Exact .stored (new [10, 20] (by simp)) 20 .greater) :=
  ⟨by decide, search_exact_iff .stored [10, 20] (by simp) 20 .greater (by decide)⟩

/--
The search rules out a block that holds the value it is asked for, and keeps one that cannot; read as an
address, no comparison rules out anything.
-/
theorem not_searchesExactly_equal
    : ¬SearchesExactly .stored [10, 20] (by simp) 10 .equal ∧
      ¬SearchesExactly .stored [10, 20] (by simp) 30 .equal ∧
      ¬SearchesExactly .address [10, 20] (by simp) 30 .equal := by
  refine ⟨?_, ?_, ?_⟩
  . intro hexact
    exact absurd (hexact.sound 10 (by simp) (by decide)) (by decide)
  . intro hexact
    refine absurd (hexact.exact.mpr ?_) (by decide)
    rintro ⟨x, -, hmax, hx⟩
    have hval : x = 30 := by simpa [compareScalars] using hx
    subst hval
    exact absurd hmax (by decide)
  . intro hexact
    refine absurd (hexact.exact.mpr ?_) (by decide)
    rintro ⟨x, -, hmax, hx⟩
    have hval : x = 30 := by simpa [compareScalars] using hx
    subst hval
    exact absurd hmax (by decide)

end Sma

end Hustle.Storage
