import Mathlib.Data.List.Induction

/-!
This module contains bitmaps: lists of bytes whose bits are numbered from the low bit of the first byte on.
-/

namespace Bitmap

abbrev Byte := BitVec 8

def getBit (bytes : List Byte) (i : Nat) : Bool :=
  (bytes.getD (i / 8) 0).getLsbD (i % 8)

/--
The bits are those of the list, all bits behind them are clear.
-/
def Holds (bytes : List Byte) (bits : List Bool) : Prop :=
  ∀ i, getBit bytes i = bits.getD i false

/--
Combine the first `n` bytes of two bitmaps in the place of the first one.
-/
def combine (op : Byte → Byte → Byte) (n : Nat) (left right : List Byte) : Option (List Byte) :=
  (List.range n).foldlM
    (fun left i => do
      let l ← left[i]?
      let r ← right[i]?
      return left.set i (op l r))
    left

/-! Setting one bit after the other. -/

/--
A byte and the mask of its next bit.
-/
def pushBit (s : Byte × Byte) (bit : Bool) : Byte × Byte :=
  (if bit then s.1 ||| s.2 else s.1, s.2 <<< 1)

def ofBits (bits : List Bool) : Byte :=
  (bits.foldl pushBit (0, 1)).1

theorem getLsbD_one_shiftLeft {n k : Nat} (hn : n < 8) : ((1 : Byte) <<< n).getLsbD k = decide (k = n) := by
  rw [BitVec.getLsbD_shiftLeft]
  by_cases hk : k = n
  . subst hk
    simp [hn]
  . by_cases hlt : k < n
    . simp [hlt, hk]
    . have : k - n ≠ 0 := by omega
      simp [hk, BitVec.getLsbD_one, this]

theorem foldl_pushBit {bits : List Bool} (h : bits.length ≤ 8)
    : (bits.foldl pushBit (0, 1)).2 = (1 : Byte) <<< bits.length ∧
        ∀ k, (bits.foldl pushBit (0, 1)).1.getLsbD k = bits.getD k false := by
  induction bits using List.reverseRecOn with
  | nil => simp
  | append_singleton bits bit ih =>
    rw [List.length_append, List.length_singleton] at h
    obtain ⟨hmask, hbits⟩ := ih (by omega)
    rw [List.foldl_append, List.foldl_cons, List.foldl_nil]
    constructor
    . rw [pushBit, hmask, List.length_append, List.length_singleton, BitVec.shiftLeft_add]
    . intro k
      have hnew : (bits ++ [bit]).getD k false = if k = bits.length then bit else bits.getD k false := by
        simp only [List.getD_eq_getElem?_getD]
        split
        . next hk => rw [hk, List.getElem?_concat_length, Option.getD_some]
        . next hk =>
          by_cases hlt : k < bits.length
          . rw [List.getElem?_append_left hlt]
          . rw [List.getElem?_eq_none (l := bits) (by omega), List.getElem?_eq_none]
            rw [List.length_append, List.length_singleton]
            omega
      rw [hnew, pushBit, hmask]
      split
      . next hbit =>
        rw [BitVec.getLsbD_or, hbits, getLsbD_one_shiftLeft (by omega)]
        split
        . next hk => simp [hk, hbit]
        . next hk => simp [hk]
      . next hbit =>
        rw [hbits]
        split
        . next hk => simp [hk, hbit]
        . rfl

theorem getLsbD_ofBits {bits : List Bool} (h : bits.length ≤ 8) (k : Nat)
    : (ofBits bits).getLsbD k = bits.getD k false :=
  (foldl_pushBit h).2 k

/-! Bitmaps of lists of bits. -/

/--
The bytes of a list of bits, the last one is filled up with clear bits.
-/
def pack (bits : List Bool) : List Byte :=
  (List.range ((bits.length + 7) / 8)).map fun i => ofBits ((bits.drop (8 * i)).take 8)

theorem length_pack (bits : List Bool) : (pack bits).length = (bits.length + 7) / 8 := by
  simp [pack]

theorem pack_holds (bits : List Bool) : Holds (pack bits) bits := by
  intro i
  have hi : 8 * (i / 8) + i % 8 = i := Nat.div_add_mod i 8
  have hlt : i % 8 < 8 := Nat.mod_lt i (by omega)
  unfold getBit pack
  simp only [List.getD_eq_getElem?_getD, List.getElem?_map]
  by_cases hbyte : i / 8 < (bits.length + 7) / 8
  . rw [List.getElem?_range hbyte, Option.map_some, Option.getD_some,
      getLsbD_ofBits (by rw [List.length_take, List.length_drop]; omega)]
    rw [List.getD_eq_getElem?_getD, List.getElem?_take_of_lt hlt, List.getElem?_drop, hi]
  . rw [List.getElem?_eq_none (by simpa using hbyte), List.getElem?_eq_none (by omega)]
    simp

/-! Setting a bit in place. -/

def setBit (bytes : List Byte) (i : Nat) : List Byte :=
  bytes.set (i / 8) (bytes.getD (i / 8) 0 ||| (1 : Byte) <<< (i % 8))

@[simp]
theorem length_setBit (bytes : List Byte) (i : Nat) : (setBit bytes i).length = bytes.length :=
  List.length_set

theorem getBit_setBit {bytes : List Byte} {i : Nat} (hi : i / 8 < bytes.length) (j : Nat)
    : getBit (setBit bytes i) j = (getBit bytes j || decide (j = i)) := by
  have hidiv := Nat.div_add_mod i 8
  have hjdiv := Nat.div_add_mod j 8
  have hlt : i % 8 < 8 := Nat.mod_lt i (by omega)
  unfold getBit setBit
  simp only [List.getD_eq_getElem?_getD]
  by_cases hbyte : j / 8 = i / 8
  . rw [hbyte, List.getElem?_set_self hi, Option.getD_some, BitVec.getLsbD_or, getLsbD_one_shiftLeft hlt]
    congr 1
    apply decide_eq_decide.mpr
    omega
  . rw [List.getElem?_set_ne (Ne.symm hbyte)]
    have hne : j ≠ i := fun heq => hbyte (by rw [heq])
    rw [decide_eq_false hne, Bool.or_false]

theorem Holds.setBit {bytes : List Byte} {bits : List Bool} (h : Holds bytes bits) {i : Nat}
    (hi : i / 8 < bytes.length) (hbits : i < bits.length)
    : Holds (setBit bytes i) (bits.set i true) := by
  intro j
  rw [getBit_setBit hi, h j, List.getD_eq_getElem?_getD, List.getD_eq_getElem?_getD, List.getElem?_set]
  by_cases hj : i = j
  . subst hj
    simp [hbits]
  . rw [if_neg hj, decide_eq_false (Ne.symm hj), Bool.or_false]

/-! Combining bitmaps. -/

theorem combine_eq_some {op : Byte → Byte → Byte} {n : Nat} {left right : List Byte} (hleft : n ≤ left.length)
    (hright : n ≤ right.length)
    : ∃ out, combine op n left right = some out ∧ out.length = left.length ∧
        ∀ i, out.getD i 0 = if i < n then op (left.getD i 0) (right.getD i 0) else left.getD i 0 := by
  unfold combine
  induction n with
  | zero => exact ⟨left, rfl, rfl, by simp⟩
  | succ n ih =>
    obtain ⟨out, hout, hlen, hget⟩ := ih (by omega) (by omega)
    have hl : out[n]? = some (left.getD n 0) := by
      rw [List.getElem?_eq_getElem (by omega)]
      have := hget n
      rw [if_neg (by omega), List.getD_eq_getElem?_getD, List.getElem?_eq_getElem (by omega)] at this
      rw [← this, Option.getD_some]
    have hr : right[n]? = some (right.getD n 0) := by
      rw [List.getD_eq_getElem?_getD, List.getElem?_eq_getElem (by omega), Option.getD_some]
    refine ⟨out.set n (op (left.getD n 0) (right.getD n 0)), ?_, ?_, ?_⟩
    . rw [List.range_succ, List.foldlM_append, hout, Option.bind_eq_bind, Option.bind_some, List.foldlM_cons,
        hl, hr]
      rfl
    . rw [List.length_set, hlen]
    . intro i
      by_cases hi : i = n
      . subst hi
        rw [if_pos (by omega), List.getD_eq_getElem?_getD, List.getElem?_set_self (by omega), Option.getD_some]
      . have := hget i
        rw [List.getD_eq_getElem?_getD, List.getElem?_set_ne (Ne.symm hi), ← List.getD_eq_getElem?_getD, this]
        congr 1
        apply propext
        omega

theorem combine_holds {op : Byte → Byte → Byte} {f : Bool → Bool → Bool}
    (hop : ∀ x y k, (op x y).getLsbD k = f (x.getLsbD k) (y.getLsbD k)) (hf : f false false = false)
    {n : Nat} {left right : List Byte} {bits bits' : List Bool}
    (hleft : Holds left bits) (hright : Holds right bits') (hlen : bits.length = bits'.length)
    (hn : bits.length ≤ 8 * n) (hnl : n ≤ left.length) (hnr : n ≤ right.length)
    : ∃ out, combine op n left right = some out ∧ out.length = left.length ∧
        Holds out (List.zipWith f bits bits') := by
  obtain ⟨out, hout, hlength, hget⟩ := @combine_eq_some op n left right hnl hnr
  refine ⟨out, hout, hlength, ?_⟩
  intro i
  have hl := hleft i
  have hr := hright i
  unfold getBit at hl hr ⊢
  rw [hget]
  by_cases hi : i < bits.length
  . have hzip : (List.zipWith f bits bits')[i]? = some (f (bits.getD i false) (bits'.getD i false)) := by
      rw [List.getElem?_zipWith, List.getElem?_eq_getElem hi, List.getElem?_eq_getElem (by omega)]
      simp [hi, show i < bits'.length by omega]
    rw [if_pos (by omega), hop, hl, hr, List.getD_eq_getElem?_getD (l := List.zipWith f bits bits'), hzip]
    rfl
  . have hzip : (List.zipWith f bits bits')[i]? = none := by
      apply List.getElem?_eq_none
      rw [List.length_zipWith]
      omega
    rw [List.getD_eq_getElem?_getD (l := bits), List.getElem?_eq_none (by omega), Option.getD_none] at hl
    rw [List.getD_eq_getElem?_getD (l := bits'), List.getElem?_eq_none (by omega), Option.getD_none] at hr
    rw [List.getD_eq_getElem?_getD (l := List.zipWith f bits bits'), hzip]
    split
    . rw [hop, hl, hr, hf]
      rfl
    . rw [hl]
      rfl

end Bitmap
