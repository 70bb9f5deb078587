import Hustle.Operators.BloomFilter
import Hustle.Util.Bitmap

/-!
This module contains the Bloom filter with the bytes it allocates and the widths of the numbers it computes with. It
refines the filter that is a list of bits.
-/

namespace Hustle.Operators

open Bitmap (Byte)

/--
`num_cells_` is an `int`. The bytes are those that are allocated for `cells_`, an access to other ones fails.
-/
structure BloomBytes where
  numCells : BitVec 32
  numHash : Nat
  seeds : List (BitVec 32)
  cells : List Byte
  deriving DecidableEq, Repr

namespace BloomBytes

def getBit (bits : List Byte) (i : BitVec 64) : Option Bool := do
  let byte ← bits[(i >>> 3).toNat]?
  return (byte >>> (i &&& 0x07).toNat) &&& 1 == 1

def reduce (x N : BitVec 32) : BitVec 32 :=
  ((x.setWidth 64 * N.setWidth 64) >>> 32).setWidth 32

def hash (x : BitVec 64) (_seed : BitVec 32) : BitVec 32 :=
  (x * 0x9e3779b1#64).setWidth 32

/--
`sizeof(uint8_t) * num_cells_ / 8 + 1` is computed as a `size_t` and stored as an `int`.
-/
def numBytes (numCells : BitVec 32) : BitVec 32 :=
  (1#64 * numCells.signExtend 64 / 8#64 + 1#64).setWidth 32

/--
The constructor. The product `n * 100` must be an `int`, `rand` gives the seeds.
-/
def new (rand : Nat → BitVec 32) (numVals : Nat) : Option BloomBytes :=
  if (numVals * 100 : Int) ≤ Storage.maxInt then
    let numCells := BitVec.ofNat 32 (numVals * 100)
    some {
      numCells
      numHash := 3
      seeds := (List.range 3).map rand
      cells := List.replicate (numBytes numCells).toInt.toNat 0
    }
  else
    none

/--
`cells_[index / 8] |= (1u << (index % 8u))`. The division is one of `int`s, the remainder one of unsigned numbers.
-/
def orBit (cells : List Byte) (index : BitVec 32) : Option (List Byte) := do
  let place := index.toInt.tdiv 8
  if 0 ≤ place then
    let byte ← cells[place.toNat]?
    return cells.set place.toNat ((byte.setWidth 32 ||| 1#32 <<< (index.toNat % 8)).setWidth 8)
  else
    none

/--
One iteration of the loop of `insert`.
-/
def insertBit (val : BitVec 64) (f : BloomBytes) (k : Nat) : Option BloomBytes := do
  let seed ← f.seeds[k]?
  let cells ← orBit f.cells (reduce (hash val seed) f.numCells)
  return { f with cells }

def insert (f : BloomBytes) (val : BitVec 64) : Option BloomBytes :=
  (List.range f.numHash).foldlM (insertBit val) f

def probeFrom (f : BloomBytes) (val : BitVec 64) : List Nat → Option Bool
  | [] => some true
  | i :: is => do
    let seed ← f.seeds[i]?
    let bit ← getBit f.cells ((reduce (hash val seed) f.numCells).setWidth 64)
    if bit then probeFrom f val is else return false

def probe (f : BloomBytes) (val : BitVec 64) : Option Bool :=
  f.probeFrom val (List.range f.numHash)

/--
The filter can be built, and then any values can be inserted one after the other. No access is outside of the bytes,
every inserted value is found, and values that are inserted later clear no bit.
-/
def KeepsValues (rand : Nat → BitVec 32) (numVals : Nat) : Prop :=
  ∃ f, new rand numVals = some f ∧ ∀ vals : List (BitVec 64), ∃ f', vals.foldlM insert f = some f' ∧
    f'.cells.length = f.cells.length ∧
    (∀ val, ∃ found, f'.probe val = some found) ∧
    (∀ val ∈ vals, f'.probe val = some true) ∧
    ∀ later : List (BitVec 64), ∃ f'', later.foldlM insert f' = some f'' ∧
      ∀ i, Bitmap.getBit f'.cells i = true → Bitmap.getBit f''.cells i = true

/--
The bits of the bytes are those of the filter.
-/
structure Represents (f : BloomBytes) (g : BloomFilter) : Prop where
  numHash : f.numHash = BloomFilter.numHash
  seeds : f.seeds.length = f.numHash
  numCells : f.numCells.toNat = g.numCells
  numCells_le : (g.numCells : Int) ≤ Storage.maxInt
  fits : g.Fits
  cells_length : 8 * f.cells.length = g.cells.length
  holds : Bitmap.Holds f.cells g.cells

/-! Single bits. -/

theorem and_one_beq (byte : Byte) (k : Nat) : (byte >>> k &&& 1 == 1) = byte.getLsbD k := by
  have h := BitVec.and_one_eq_setWidth_ofBool_getLsbD (x := byte >>> k)
  rw [show (1 : Byte) = 1#8 from rfl, h, BitVec.getLsbD_ushiftRight, Nat.add_zero]
  cases byte.getLsbD k <;> rfl

theorem setWidth_or (byte : Byte) (k : Nat)
    : (byte.setWidth 32 ||| 1#32 <<< k).setWidth 8 = byte ||| (1 : Byte) <<< k := by
  apply BitVec.eq_of_getLsbD_eq
  intro i hi
  have hi' : i < 32 := by omega
  have hone : (1 : Byte) = 1#8 := rfl
  rw [BitVec.getLsbD_setWidth, BitVec.getLsbD_or, BitVec.getLsbD_setWidth, BitVec.getLsbD_or, hone,
    BitVec.getLsbD_shiftLeft, BitVec.getLsbD_shiftLeft, BitVec.getLsbD_one, BitVec.getLsbD_one]
  simp [hi, hi']
theorem getBit_eq_some {bits : List Byte} {i : BitVec 64} (h : i.toNat / 8 < bits.length)
    : getBit bits i = some (Bitmap.getBit bits i.toNat) := by
  have hplace : (i >>> 3).toNat = i.toNat / 8 := by
    rw [BitVec.toNat_ushiftRight, Nat.shiftRight_eq_div_pow]
  have hbit : (i &&& 0x07).toNat = i.toNat % 8 := by
    rw [BitVec.toNat_and]
    exact Nat.and_two_pow_sub_one_eq_mod i.toNat 3
  have hbyte := List.getElem?_eq_getElem h
  simp only [getBit, hplace, hbit, hbyte, Option.bind_eq_bind, Option.bind_some, Bitmap.getBit,
    List.getD_eq_getElem?_getD, Option.getD_some, and_one_beq]
  rfl

/--
An index that is not negative as an `int`.
-/
theorem orBit_eq_some {cells : List Byte} {index : BitVec 32} (hint : (index.toNat : Int) ≤ Storage.maxInt)
    (h : index.toNat / 8 < cells.length)
    : orBit cells index = some (Bitmap.setBit cells index.toNat) := by
  have hsigned : index.toInt = index.toNat := by
    apply BitVec.toInt_eq_toNat_of_lt
    unfold Storage.maxInt at hint
    omega
  have hplace : index.toInt.tdiv 8 = ((index.toNat / 8 : Nat) : Int) := by
    rw [hsigned]
    rfl
  have hbyte := List.getElem?_eq_getElem h
  simp only [orBit, hplace, Int.natCast_nonneg, if_true, Int.toNat_natCast, hbyte, Option.bind_eq_bind, Option.bind_some,
    setWidth_or, Bitmap.setBit, List.getD_eq_getElem?_getD, Option.getD_some]
  rfl

theorem reduce_toNat (x N : BitVec 32) : (reduce x N).toNat = BloomFilter.reduce x N.toNat := by
  have hx := x.isLt
  have hN := N.isLt
  have hmul : x.toNat * N.toNat < 2 ^ 64 := by
    calc x.toNat * N.toNat
      _ ≤ x.toNat * 2 ^ 32 := Nat.mul_le_mul_left _ hN.le
      _ < 2 ^ 32 * 2 ^ 32 := Nat.mul_lt_mul_of_pos_right hx (by decide)
      _ = 2 ^ 64 := by norm_num
  have hdiv : x.toNat * N.toNat / 2 ^ 32 < 2 ^ 32 := by
    rw [Nat.div_lt_iff_lt_mul (by decide), ← Nat.pow_add]
    exact hmul
  rw [reduce, BloomFilter.reduce, BitVec.toNat_setWidth, BitVec.toNat_ushiftRight, BitVec.toNat_mul,
    BitVec.toNat_setWidth, BitVec.toNat_setWidth, Nat.shiftRight_eq_div_pow,
    Nat.mod_eq_of_lt (show x.toNat < 2 ^ 64 by omega),
    Nat.mod_eq_of_lt (show N.toNat < 2 ^ 64 by omega), Nat.mod_eq_of_lt hmul, Nat.mod_eq_of_lt hdiv]

/-! One value. -/

section

variable {f : BloomBytes} {g : BloomFilter}

/--
All indices that `insert` and `probe` compute lie within the bytes.
-/
theorem Represents.index (h : f.Represents g) (val : BitVec 64) (seed : BitVec 32)
    : (reduce (hash val seed) f.numCells).toNat = BloomFilter.reduce (BloomFilter.hash val) g.numCells ∧
        BloomFilter.reduce (BloomFilter.hash val) g.numCells / 8 < f.cells.length ∧
        (BloomFilter.reduce (BloomFilter.hash val) g.numCells : Int) ≤ Storage.maxInt := by
  have hlength := h.cells_length
  have hlt := h.fits.reduce_lt (BloomFilter.hash val)
  have hle := h.numCells_le
  refine ⟨by rw [reduce_toNat, h.numCells]; rfl, by omega, ?_⟩
  have hreduce : BloomFilter.reduce (BloomFilter.hash val) g.numCells ≤ g.numCells := by
    by_cases hzero : g.numCells = 0
    . simp [BloomFilter.reduce, hzero]
    . exact (BloomFilter.reduce_lt _ (Nat.pos_of_ne_zero hzero)).le
  omega

theorem Represents.seed (h : f.Represents g) {k : Nat} (hk : k < f.numHash) : ∃ seed, f.seeds[k]? = some seed :=
  ⟨_, List.getElem?_eq_getElem (h.seeds.symm ▸ hk)⟩

/--
The step of `insert` for one of the hash functions.
-/
theorem Represents.insertBit (h : f.Represents g) (val : BitVec 64) {k : Nat} (hk : k < f.numHash)
    : ∃ f', f.insertBit val k = some f' ∧ f'.numHash = f.numHash ∧
        f'.Represents { g with cells := g.cells.set (BloomFilter.reduce (BloomFilter.hash val) g.numCells) true } := by
  obtain ⟨seed, hseed⟩ := h.seed hk
  obtain ⟨hindex, hplace, hint⟩ := h.index val seed
  have hset := @orBit_eq_some f.cells (reduce (hash val seed) f.numCells) (by rw [hindex]; exact hint)
    (by rw [hindex]; exact hplace)
  rw [hindex] at hset
  let cells := Bitmap.setBit f.cells (BloomFilter.reduce (BloomFilter.hash val) g.numCells)
  refine ⟨{ f with cells }, ?_, rfl, h.numHash, h.seeds, h.numCells, h.numCells_le, ?_, ?_,
    h.holds.setBit hplace (h.fits.reduce_lt _)⟩
  . rw [BloomBytes.insertBit, hseed, Option.bind_eq_bind, Option.bind_some, hset]
    rfl
  . unfold BloomFilter.Fits
    rw [List.length_set]
    exact h.fits
  . rw [Bitmap.length_setBit, List.length_set]
    exact h.cells_length

theorem Represents.insertBits (h : f.Represents g) (val : BitVec 64) {ks : List Nat} (hks : ∀ k ∈ ks, k < f.numHash)
    : ∃ f', ks.foldlM (BloomBytes.insertBit val) f = some f' ∧
        f'.Represents (ks.foldl
          (fun g _ => { g with cells := g.cells.set (BloomFilter.reduce (BloomFilter.hash val) g.numCells) true }) g) := by
  induction ks generalizing f g with
  | nil => exact ⟨f, rfl, h⟩
  | cons k ks ih =>
    obtain ⟨f₁, hf₁, hnum, h₁⟩ := h.insertBit val (hks k List.mem_cons_self)
    obtain ⟨f', hf', h'⟩ := ih h₁ fun k hk => hnum ▸ hks k (List.mem_cons_of_mem _ hk)
    refine ⟨f', ?_, h'⟩
    rw [List.foldlM_cons, hf₁]
    exact hf'

/--
`insert` refines the one on lists of bits.
-/
theorem Represents.insert (h : f.Represents g) (val : BitVec 64)
    : ∃ f', f.insert val = some f' ∧ f'.Represents (g.insert val) := by
  obtain ⟨f', hf', hrep⟩ := h.insertBits val fun k hk => List.mem_range.mp hk
  refine ⟨f', hf', ?_⟩
  rw [h.numHash] at hrep
  exact hrep

theorem Represents.probeFrom (h : f.Represents g) (val : BitVec 64) {ks : List Nat} (hks : ∀ k ∈ ks, k < f.numHash)
    : f.probeFrom val ks
        =
      some (ks.all fun _ => g.cells.getD (BloomFilter.reduce (BloomFilter.hash val) g.numCells) false) := by
  induction ks with
  | nil => rfl
  | cons k ks ih =>
    obtain ⟨seed, hseed⟩ := h.seed (hks k List.mem_cons_self)
    obtain ⟨hindex, hplace, -⟩ := h.index val seed
    have hwide : ((reduce (hash val seed) f.numCells).setWidth 64).toNat
        = BloomFilter.reduce (BloomFilter.hash val) g.numCells := by
      rw [BitVec.toNat_setWidth, Nat.mod_eq_of_lt, hindex]
      have := (reduce (hash val seed) f.numCells).isLt
      omega
    have hbit := @getBit_eq_some f.cells ((reduce (hash val seed) f.numCells).setWidth 64) (by rw [hwide]; exact hplace)
    rw [hwide, h.holds] at hbit
    rw [BloomBytes.probeFrom, hseed, Option.bind_eq_bind, Option.bind_some, hbit, Option.bind_eq_bind,
      Option.bind_some, List.all_cons]
    have ih := ih fun k hk => hks k (List.mem_cons_of_mem _ hk)
    cases hget : g.cells.getD (BloomFilter.reduce (BloomFilter.hash val) g.numCells) false with
    | true =>
      rw [hget] at ih
      rw [if_pos rfl, ih, Bool.true_and]
    | false => rfl

/--
`probe` refines the one on lists of bits.
-/
theorem Represents.probe (h : f.Represents g) (val : BitVec 64) : f.probe val = some (g.probe val) := by
  have hprobe := h.probeFrom val fun k hk => List.mem_range.mp hk
  rw [BloomBytes.probe, hprobe, h.numHash]
  rfl

/-! Sequences of values. -/

theorem Represents.inserts (h : f.Represents g) (vals : List (BitVec 64))
    : ∃ f', vals.foldlM BloomBytes.insert f = some f' ∧ f'.Represents (vals.foldl BloomFilter.insert g) := by
  induction vals generalizing f g with
  | nil => exact ⟨f, rfl, h⟩
  | cons val vals ih =>
    obtain ⟨f₁, hf₁, h₁⟩ := h.insert val
    obtain ⟨f', hf', h'⟩ := ih h₁
    refine ⟨f', ?_, h'⟩
    rw [List.foldlM_cons, hf₁]
    exact hf'

theorem length_foldl_insert (vals : List (BitVec 64)) (g : BloomFilter)
    : (vals.foldl BloomFilter.insert g).cells.length = g.cells.length := by
  induction vals generalizing g with
  | nil => rfl
  | cons val vals ih => rw [List.foldl_cons, ih, BloomFilter.length_insert_cells]

theorem getD_foldl_insert (vals : List (BitVec 64)) {g : BloomFilter} {i : Nat} (h : g.cells.getD i false = true)
    : (vals.foldl BloomFilter.insert g).cells.getD i false = true := by
  induction vals generalizing g with
  | nil => exact h
  | cons val vals ih =>
    apply ih
    rw [List.getD_eq_getElem?_getD] at h ⊢
    rw [BloomFilter.insert_cells, List.getElem?_set]
    split
    . split
      . rfl
      . next hlt =>
        rw [List.getElem?_eq_none (by omega)] at h
        cases h
    . exact h

end

/-! The constructor. -/

theorem numBytes_toInt {n : Nat} (h : (n : Int) ≤ Storage.maxInt)
    : (numBytes (BitVec.ofNat 32 n)).toInt = (n / 8 + 1 : Nat) := by
  unfold Storage.maxInt at h
  have hnat : (BitVec.ofNat 32 n).toNat = n := by
    rw [BitVec.toNat_ofNat, Nat.mod_eq_of_lt (by omega)]
  have hmsb : (BitVec.ofNat 32 n).msb = false := by
    rw [BitVec.msb_eq_false_iff_two_mul_lt, hnat]
    omega
  have hwide : ((BitVec.ofNat 32 n).signExtend 64).toNat = n := by
    rw [BitVec.signExtend_eq_setWidth_of_msb_false hmsb, BitVec.toNat_setWidth, hnat, Nat.mod_eq_of_lt (by omega)]
  have hbytes : (numBytes (BitVec.ofNat 32 n)).toNat = n / 8 + 1 := by
    rw [numBytes, BitVec.one_mul, BitVec.toNat_setWidth, BitVec.toNat_add, BitVec.toNat_udiv, hwide]
    simp only [BitVec.toNat_ofNat, Nat.reducePow, Nat.reduceMod]
    omega
  rw [BitVec.toInt_eq_toNat_of_lt, hbytes]
  omega

/--
The constructor gives the empty filter if the number of its cells is an `int`.
-/
theorem new_represents (rand : Nat → BitVec 32) {numVals : Nat} (h : (numVals * 100 : Int) ≤ Storage.maxInt)
    : ∃ f, new rand numVals = some f ∧ f.Represents (BloomFilter.empty numVals) := by
  have hint : ((numVals * 100 : Nat) : Int) ≤ Storage.maxInt := by exact_mod_cast h
  refine ⟨_, if_pos h, ⟨rfl, by simp, ?_, hint, BloomFilter.empty_fits numVals, ?_, ?_⟩⟩
  . unfold Storage.maxInt at hint
    dsimp only [BloomFilter.empty]
    rw [BitVec.toNat_ofNat, Nat.mod_eq_of_lt (by omega)]
  . simp only [numBytes_toInt hint, Int.toNat_natCast, List.length_replicate, BloomFilter.empty]
  . intro i
    simp only [numBytes_toInt hint, Int.toNat_natCast, Bitmap.getBit, BloomFilter.empty, List.getD_eq_getElem?_getD,
      List.getElem?_replicate]
    split
    . split <;> simp
    . split <;> simp

theorem keepsValues_iff (rand : Nat → BitVec 32) (numVals : Nat)
    : KeepsValues rand numVals ↔ (numVals * 100 : Int) ≤ Storage.maxInt := by
  constructor
  . rintro ⟨f, hf, -⟩
    unfold new at hf
    split at hf
    . next h => exact h
    . cases hf
  . intro h
    obtain ⟨f, hf, hrep⟩ := new_represents rand h
    refine ⟨f, hf, ?_⟩
    intro vals
    obtain ⟨f', hf', hrep'⟩ := hrep.inserts vals
    have hlen := hrep.cells_length
    have hlen' := hrep'.cells_length
    rw [length_foldl_insert] at hlen'
    refine ⟨f', hf', by omega, fun val => ⟨_, hrep'.probe val⟩, ?_, ?_⟩
    . intro val hmem
      rw [hrep'.probe val, BloomFilter.probe_foldl_insert hrep.fits vals (.inr hmem)]
    . intro later
      obtain ⟨f'', hf'', hrep''⟩ := hrep'.inserts later
      refine ⟨f'', hf'', ?_⟩
      intro i hi
      rw [hrep'.holds] at hi
      rw [hrep''.holds]
      exact getD_foldl_insert later hi

/--
The number of cells of a filter for 21474837 values is no `int`.
-/
theorem not_keepsValues
    : ¬ ∀ numVals : Nat, (numVals : Int) ≤ Storage.maxInt → ∀ rand, KeepsValues rand numVals := by
  intro h
  obtain ⟨f, hf, -⟩ := h 21474837 (by decide) fun _ => 0
  have hnone : new (fun _ => 0) 21474837 = none := if_neg (by decide)
  cases hnone.symm.trans hf

end BloomBytes

end Hustle.Operators
