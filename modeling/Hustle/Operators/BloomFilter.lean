import Hustle.Storage.BlockMemory

/-!
This module contains the Bloom filter that look-ahead information passing probes.
-/

namespace Hustle.Operators

/--
The bits are those of `cells_`, `get_bit` and `insert` number them in the same way. The statistics of a
filter only decide where it is sorted to and are left out.
-/
structure BloomFilter where
  numCells : Nat
  cells : List Bool
  deriving DecidableEq, Repr

namespace BloomFilter

def numHash : Nat := 3

/--
`hash`, which does not use its seed.
-/
def hash (val : BitVec 64) : BitVec 32 :=
  (val * 0x9e3779b1#64).truncate 32

/--
`reduce(x, N)`: the place of `x` among `N` cells.
-/
def reduce (x : BitVec 32) (numCells : Nat) : Nat :=
  x.toNat * numCells / 2 ^ 32

/--
A filter with room for `numVals` values that has none of them yet.
-/
def empty (numVals : Nat) : BloomFilter :=
  let numCells := numVals * 100
  ⟨numCells, List.replicate (8 * (numCells / 8 + 1)) false⟩

/--
The constructor. The number of cells is an `int`.
-/
def new (numVals : Nat) : Option BloomFilter :=
  if (numVals * 100 : Int) ≤ Storage.maxInt then some (empty numVals) else none

/--
All hash functions set the same bit.
-/
def insert (f : BloomFilter) (val : BitVec 64) : BloomFilter :=
  (List.range numHash).foldl (fun f _ => { f with cells := f.cells.set (reduce (hash val) f.numCells) true })
    f

def probe (f : BloomFilter) (val : BitVec 64) : Bool :=
  (List.range numHash).all fun _ => f.cells.getD (reduce (hash val) f.numCells) false

/--
The filter into which exactly `vals` have been inserted.
-/
def ofValues (vals : List (BitVec 64)) : BloomFilter :=
  vals.foldl insert (empty vals.length)

/-! A value that was inserted is found. -/

def Fits (f : BloomFilter) : Prop :=
  f.numCells < f.cells.length

theorem reduce_lt (x : BitVec 32) {numCells : Nat} (h : 0 < numCells) : reduce x numCells < numCells := by
  unfold reduce
  rw [Nat.div_lt_iff_lt_mul (by decide), Nat.mul_comm]
  exact Nat.mul_lt_mul_of_pos_left x.isLt h

theorem Fits.reduce_lt {f : BloomFilter} (h : f.Fits) (x : BitVec 32)
    : reduce x f.numCells < f.cells.length := by
  unfold Fits at h
  by_cases hzero : f.numCells = 0
  . have : reduce x f.numCells = 0 := by simp [reduce, hzero]
    omega
  . have := BloomFilter.reduce_lt x (Nat.pos_of_ne_zero hzero)
    omega

theorem insert_numCells (f : BloomFilter) (val : BitVec 64) : (f.insert val).numCells = f.numCells := rfl

theorem length_insert_cells (f : BloomFilter) (val : BitVec 64)
    : (f.insert val).cells.length = f.cells.length := by
  simp [insert, numHash, List.range_succ]

theorem insert_cells (f : BloomFilter) (val : BitVec 64)
    : (f.insert val).cells = f.cells.set (reduce (hash val) f.numCells) true := by
  simp [insert, numHash, List.range_succ]

theorem probe_eq (f : BloomFilter) (val : BitVec 64)
    : f.probe val = f.cells.getD (reduce (hash val) f.numCells) false := by
  simp [probe, numHash, List.range_succ]

theorem Fits.insert {f : BloomFilter} (h : f.Fits) (val : BitVec 64) : (f.insert val).Fits := by
  unfold Fits
  rw [insert_numCells, length_insert_cells]
  exact h

theorem empty_fits (numVals : Nat) : (empty numVals).Fits := by
  simp only [Fits, empty, List.length_replicate]
  omega

theorem probe_insert_self {f : BloomFilter} (h : f.Fits) (val : BitVec 64)
    : (f.insert val).probe val = true := by
  rw [probe_eq, insert_numCells, insert_cells]
  simp [List.getD_eq_getElem?_getD, h.reduce_lt]

theorem probe_insert_of_probe {f : BloomFilter} {val : BitVec 64} (h : f.probe val = true)
    (val' : BitVec 64)
    : (f.insert val').probe val = true := by
  rw [probe_eq, List.getD_eq_getElem?_getD] at h
  rw [probe_eq, insert_numCells, insert_cells, List.getD_eq_getElem?_getD, List.getElem?_set]
  split
  . split
    . rfl
    . next hlt =>
      rw [List.getElem?_eq_none (by omega)] at h
      cases h
  . exact h

theorem probe_foldl_insert {f : BloomFilter} (hf : f.Fits) (vals : List (BitVec 64)) {val : BitVec 64}
    (h : f.probe val = true ∨ val ∈ vals)
    : (vals.foldl BloomFilter.insert f).probe val = true := by
  induction vals generalizing f with
  | nil =>
    rcases h with h | h
    . exact h
    . cases h
  | cons v vals ih =>
    apply ih (hf.insert v)
    rcases h with h | h
    . exact .inl (probe_insert_of_probe h v)
    . rcases List.mem_cons.mp h with rfl | h
      . exact .inl (probe_insert_self hf _)
      . exact .inr h

theorem probe_ofValues {vals : List (BitVec 64)} {val : BitVec 64} (h : val ∈ vals)
    : (ofValues vals).probe val = true :=
  probe_foldl_insert (empty_fits _) vals (.inr h)

end BloomFilter

end Hustle.Operators
