import Mathlib.Tactic.Ring
import Hustle.Storage.RecordUtils

/-!
This module contains the value that `recordSerialGet` reads for every serial type.
-/

namespace Hustle.Storage

theorem toNat_i8 (x : UInt8)
    : (i8 x).toNat = if x.toNat < 128 then x.toNat else x.toNat + 4294967040 := by
  have hx := x.toNat_lt
  unfold i8 BitVec.signExtend
  rw [BitVec.toNat_ofInt, BitVec.toInt_eq_toNat_cond]
  simp only [UInt8.toNat_toBitVec]
  by_cases hlt : x.toNat < 128
  . rw [if_pos hlt, if_pos (by omega)]
    omega
  . rw [if_neg hlt, if_neg (by omega)]
    omega

theorem toNat_u8_shiftLeft (x : UInt8) {k : Nat} (hk : k ≤ 24)
    : (u8 x <<< k).toNat = x.toNat * 2 ^ k := by
  have hx := x.toNat_lt
  have hpow : 2 ^ k ≤ 2 ^ 24 := Nat.pow_le_pow_right (by omega) hk
  have hlt : x.toNat * 2 ^ k < 2 ^ 32 := by
    calc
      x.toNat * 2 ^ k ≤ 255 * 2 ^ 24 := Nat.mul_le_mul (by omega) hpow
      _ < 2 ^ 32 := by omega
  rw [BitVec.toNat_shiftLeft, Nat.shiftLeft_eq]
  simp only [u8, BitVec.toNat_setWidth, UInt8.toNat_toBitVec]
  rw [Nat.mod_eq_of_lt (a := x.toNat) (by omega), Nat.mod_eq_of_lt hlt]

theorem toNat_or_byte {v : BitVec 32} {n k : Nat} (hv : v.toNat = n * 2 ^ (k + 8)) (x : UInt8)
    (hk : k ≤ 24)
    : (v ||| u8 x <<< k).toNat = (n * 256 + x.toNat) * 2 ^ k := by
  have hx := x.toNat_lt
  have hlt : x.toNat * 2 ^ k < 2 ^ (k + 8) := by
    rw [Nat.pow_add, Nat.mul_comm (2 ^ k)]
    exact Nat.mul_lt_mul_of_pos_right hx (Nat.two_pow_pos k)
  rw [BitVec.toNat_or, hv, toNat_u8_shiftLeft x hk, Bytes.or_eq_add hlt, Nat.pow_add]
  ring

theorem toNat_or_last {v : BitVec 32} {n : Nat} (hv : v.toNat = n * 2 ^ 8) (x : UInt8)
    : (v ||| u8 x).toNat = n * 256 + x.toNat := by
  have := toNat_or_byte (k := 0) hv x (by omega)
  simpa using this

theorem toNat_fourByteUInt (x0 x1 x2 x3 : UInt8)
    : (fourByteUInt x0 x1 x2 x3).toNat = Bytes.beNat [x0, x1, x2, x3] := by
  unfold fourByteUInt
  rw [toNat_or_last (toNat_or_byte (toNat_or_byte (toNat_u8_shiftLeft x0 (by omega)) x1 (by omega)) x2
    (by omega))]
  simp [Bytes.beNat_cons]
  omega

theorem toInt_oneByteInt (x0 : UInt8) : (oneByteInt x0).toInt = Bytes.beInt [x0] := by
  have hx := x0.toNat_lt
  unfold oneByteInt
  rw [BitVec.toInt_eq_toNat_cond, toNat_i8]
  simp only [Bytes.beInt, Bytes.beNat_cons, Bytes.beNat_nil, List.length_nil, List.length_singleton]
  split
  . rw [if_pos (by omega)]
    omega
  . rw [if_neg (by omega)]
    omega

theorem toInt_twoByteInt (x0 x1 : UInt8) : (twoByteInt x0 x1).toInt = Bytes.beInt [x0, x1] := by
  have hx := x0.toNat_lt
  have hx1 := x1.toNat_lt
  have hhigh : (256#32 * i8 x0).toNat = (i8 x0).toNat % 16777216 * 2 ^ 8 := by
    rw [BitVec.toNat_mul]
    simp
    omega
  unfold twoByteInt
  rw [BitVec.toInt_eq_toNat_cond, toNat_or_last hhigh, toNat_i8]
  simp only [Bytes.beInt, Bytes.beNat_cons, Bytes.beNat_nil, List.length_nil, List.length_cons]
  split
  . rw [if_pos (by omega)]
    omega
  . rw [if_neg (by omega)]
    omega

theorem toInt_threeByteInt (x0 x1 x2 : UInt8)
    : (threeByteInt x0 x1 x2).toInt = Bytes.beInt [x0, x1, x2] := by
  have hx := x0.toNat_lt
  have hx1 := x1.toNat_lt
  have hx2 := x2.toNat_lt
  have hhigh : (65536#32 * i8 x0).toNat = (i8 x0).toNat % 65536 * 2 ^ (8 + 8) := by
    rw [BitVec.toNat_mul]
    simp
    omega
  unfold threeByteInt
  rw [BitVec.toInt_eq_toNat_cond, toNat_or_last (toNat_or_byte hhigh x1 (by omega)), toNat_i8]
  simp only [Bytes.beInt, Bytes.beNat_cons, Bytes.beNat_nil, List.length_nil, List.length_cons]
  split
  . rw [if_pos (by omega)]
    omega
  . rw [if_neg (by omega)]
    omega

theorem toInt_fourByteInt (x0 x1 x2 x3 : UInt8)
    : (fourByteInt x0 x1 x2 x3).toInt = Bytes.beInt [x0, x1, x2, x3] := by
  have hx := x0.toNat_lt
  have hx1 := x1.toNat_lt
  have hx2 := x2.toNat_lt
  have hx3 := x3.toNat_lt
  have hhigh : (16777216#32 * i8 x0).toNat = (i8 x0).toNat % 256 * 2 ^ (16 + 8) := by
    rw [BitVec.toNat_mul]
    simp
    omega
  unfold fourByteInt
  rw [BitVec.toInt_eq_toNat_cond,
    toNat_or_last (toNat_or_byte (toNat_or_byte hhigh x1 (by omega)) x2 (by omega)), toNat_i8]
  simp only [Bytes.beInt, Bytes.beNat_cons, Bytes.beNat_nil, List.length_nil, List.length_cons]
  split
  . rw [if_pos (by omega)]
    omega
  . rw [if_neg (by omega)]
    omega

/--
The size of the body of a column, as the record format has it.
-/
def contentSize (serialType : Nat) : Nat :=
  match serialType with
  | 1 => 1
  | 2 => 2
  | 3 => 3
  | 4 => 4
  | 5 => 6
  | 6 => 8
  | 7 => 8
  | n => (n - 12) / 2

theorem serialTypeLen_eq (serialType : UInt32)
    : (serialTypeLen serialType).toNat = contentSize serialType.toNat := by
  have htable : ∀ n : Fin 128, (smallTypeSizes.getD n 0).toNat = contentSize n := by decide
  unfold serialTypeLen
  by_cases hbig : serialType ≥ 128
  . have hbig' : 128 ≤ serialType.toNat := UInt32.le_iff_toNat_le.mp hbig
    rw [if_pos hbig, UInt32.toNat_div, UInt32.toNat_sub_of_le _ _ (by
      rw [UInt32.le_iff_toNat_le]
      exact Nat.le_trans (by decide) hbig')]
    unfold contentSize
    split <;> first | omega | rfl
  . have hsmall : serialType.toNat < 128 := by
      simpa [UInt32.le_iff_toNat_le] using hbig
    rw [if_neg hbig, UInt8.toNat_toUInt32]
    exact htable ⟨serialType.toNat, hsmall⟩

theorem val_eq_of_toInt_eq {v : BitVec 32} {i : Int} (h : v.toInt = i)
    : v.signExtend 64 = BitVec.ofInt 64 i := by
  rw [← h]
  rfl

theorem ofInt_beInt {bytes : List UInt8} (h : bytes.length = 8)
    : BitVec.ofInt 64 (Bytes.beInt bytes) = BitVec.ofNat 64 (Bytes.beNat bytes) := by
  match bytes, h with
  | b :: bs, h =>
    simp only [Bytes.beInt, h]
    split
    . rw [BitVec.ofInt_natCast]
    . apply BitVec.eq_of_toNat_eq
      rw [BitVec.toNat_ofInt, BitVec.toNat_ofNat]
      omega

theorem ofNat_beNat_eq_iff {b : UInt8} {bytes : List UInt8} (h : (b :: bytes).length < 8)
    : BitVec.ofNat 64 (Bytes.beNat (b :: bytes)) = BitVec.ofInt 64 (Bytes.beInt (b :: bytes))
        ↔
      b.toNat < 128 := by
  have hlt := Bytes.beNat_lt (b :: bytes)
  have hpow : 256 ^ (b :: bytes).length ≤ 256 ^ 7 := Nat.pow_le_pow_right (by omega) (by omega)
  have hpos : 0 < 256 ^ (b :: bytes).length := Nat.pow_pos (by omega)
  simp only [Bytes.beInt]
  generalize hn : Bytes.beNat (b :: bytes) = n at *
  have hcast : ((256 : Int) ^ (b :: bytes).length) = ((256 ^ (b :: bytes).length : Nat) : Int) := by
    simp
  rw [hcast]
  generalize 256 ^ (b :: bytes).length = m at *
  split
  . next hb =>
    rw [BitVec.ofInt_natCast]
    simp [hb]
  . next hb =>
    simp only [hb, iff_false]
    intro heq
    have := congrArg BitVec.toNat heq
    rw [BitVec.toNat_ofInt, BitVec.toNat_ofNat] at this
    omega

theorem beInt_six (x0 x1 x2 x3 x4 x5 : UInt8)
    : Bytes.beInt [x0, x1, x2, x3, x4, x5]
        =
      Bytes.beNat [x2, x3, x4, x5] + 4294967296 * Bytes.beInt [x0, x1] := by
  simp only [Bytes.beInt, Bytes.beNat_cons, Bytes.beNat_nil, List.length_nil, List.length_cons]
  split
  . omega
  . omega

theorem recordSerialGet_int {serialType : UInt32} (htype : 1 ≤ serialType.toNat)
    (htype' : serialType.toNat ≤ 6) {bytes : List UInt8}
    (hbytes : bytes.length = contentSize serialType.toNat) (rest : List UInt8) (v : RecordValue)
    : recordSerialGet (bytes ++ rest) serialType v
        =
      some ({ v with val := BitVec.ofInt 64 (Bytes.beInt bytes), flags := valInt },
        serialTypeLen serialType) := by
  have hcases : serialType = 1 ∨ serialType = 2 ∨ serialType = 3 ∨ serialType = 4 ∨ serialType = 5 ∨
      serialType = 6 := by
    simp only [← UInt32.toNat_inj, UInt32.reduceToNat]
    omega
  rcases hcases with rfl | rfl | rfl | rfl | rfl | rfl
  . match bytes, hbytes with
    | [x0], _ =>
      rw [← val_eq_of_toInt_eq (toInt_oneByteInt x0)]
      rfl
  . match bytes, hbytes with
    | [x0, x1], _ =>
      rw [← val_eq_of_toInt_eq (toInt_twoByteInt x0 x1)]
      rfl
  . match bytes, hbytes with
    | [x0, x1, x2], _ =>
      rw [← val_eq_of_toInt_eq (toInt_threeByteInt x0 x1 x2)]
      rfl
  . match bytes, hbytes with
    | [x0, x1, x2, x3], _ =>
      rw [← val_eq_of_toInt_eq (toInt_fourByteInt x0 x1 x2 x3)]
      rfl
  . match bytes, hbytes with
    | [x0, x1, x2, x3, x4, x5], _ =>
      have hlow : BitVec.ofNat 64 (fourByteUInt x2 x3 x4 x5).toNat
          = (fourByteUInt x2 x3 x4 x5).setWidth 64 := BitVec.ofNat_toNat 64 _
      rw [beInt_six, BitVec.ofInt_add, BitVec.ofInt_mul, BitVec.ofInt_natCast, ← toNat_fourByteUInt,
        ← val_eq_of_toInt_eq (toInt_twoByteInt x0 x1), hlow]
      rfl
  . match bytes, hbytes with
    | [x0, x1, x2, x3, x4, x5, x6, x7], hbytes =>
      have hval : (fourByteUInt x0 x1 x2 x3).setWidth 64 <<< 32 + (fourByteUInt x4 x5 x6 x7).setWidth 64
          = BitVec.ofNat 64 (Bytes.beNat [x0, x1, x2, x3, x4, x5, x6, x7]) := by
        apply BitVec.eq_of_toNat_eq
        simp only [BitVec.toNat_add, BitVec.toNat_shiftLeft, BitVec.toNat_setWidth,
          toNat_fourByteUInt, BitVec.toNat_ofNat, Nat.shiftLeft_eq]
        simp only [Bytes.beNat_cons, Bytes.beNat_nil, List.length_nil, List.length_cons]
        omega
      rw [ofInt_beInt hbytes, ← hval]
      rfl

theorem recordSerialGet_constant {serialType : UInt32}
    (htype : serialType.toNat = 8 ∨ serialType.toNat = 9) (buf : List UInt8) (v : RecordValue)
    : recordSerialGet buf serialType v
        =
      some ({ v with val := BitVec.ofNat 64 (serialType.toNat - 8), flags := valInt }, 0) := by
  have hcases : serialType = 8 ∨ serialType = 9 := by
    simp only [← UInt32.toNat_inj, UInt32.reduceToNat]
    exact htype
  rcases hcases with rfl | rfl
  . rfl
  . rfl

theorem recordSerialGet_text {serialType : UInt32} (htype : 13 ≤ serialType.toNat)
    (hodd : serialType.toNat % 2 = 1) (buf : List UInt8) (v : RecordValue)
    : recordSerialGet buf serialType v
        =
      some (
        {
          v with
            valArray := buf
            n := contentSize serialType.toNat
            flags := valStr ||| valEphem
        },
        serialTypeLen serialType
      ) := by
  have hsize : (serialType - 12) / 2 = serialTypeLen serialType := by
    rw [← UInt32.toNat_inj, serialTypeLen_eq, UInt32.toNat_div, UInt32.toNat_sub_of_le _ _ (by
      rw [UInt32.le_iff_toNat_le]
      exact Nat.le_trans (by decide) htype)]
    unfold contentSize
    split <;> first | omega | rfl
  have hflag : ¬serialType &&& 1 = 0 := by
    rw [← UInt32.toNat_inj, UInt32.toNat_and]
    have : serialType.toNat &&& 1 = serialType.toNat % 2 := Nat.and_one_is_mod _
    simp only [UInt32.reduceToNat, this]
    omega
  unfold recordSerialGet
  split <;> first | omega | skip
  rw [hsize]
  dsimp only
  rw [serialTypeLen_eq, if_neg hflag]

end Hustle.Storage
