import Hustle.Storage.RecordUtils
import Hustle.Util.Varint

/-!
This module contains the proof that the unrolled decoders of variable length integers follow the
format.
-/

namespace Hustle.Storage

/-!
The decoders keep the even and the odd bytes of an integer in two words, with seven unused bits between
any two bytes. The following lemmas say what the operations on such words do to their values.
-/

theorem toNat_and_low (x : UInt32) : (x &&& 0x7f).toNat = x.toNat % 128 := by
  rw [UInt32.toNat_and]
  exact Nat.and_two_pow_sub_one_eq_mod x.toNat 7

theorem and_high_eq_zero_iff (x : UInt32) : x &&& 0x80 = 0 ↔ x.toNat / 128 % 2 = 0 := by
  have hdigit := Bytes.and_digit (x := x.toNat / 128) (y := 1) (r := x.toNat % 128) (s := 0) (k := 7)
    (by omega) (by omega)
  have hx : x.toNat / 128 * 2 ^ 7 + x.toNat % 128 = x.toNat := by omega
  rw [hx, Nat.and_one_is_mod, Nat.and_zero] at hdigit
  have hand : (x &&& 0x80).toNat = x.toNat / 128 % 2 * 2 ^ 7 := hdigit
  rw [← UInt32.toNat_inj, hand]
  have : (0 : UInt32).toNat = 0 := rfl
  omega

theorem toNat_and_slot20 (x : UInt32)
    : (x &&& slot20).toNat = x.toNat / 16384 % 128 * 16384 + x.toNat % 128 := by
  have hdigit := Bytes.and_digit (x := x.toNat / 16384) (y := 127) (r := x.toNat % 16384) (s := 127)
    (k := 14) (by omega) (by omega)
  have hx : x.toNat / 16384 * 2 ^ 14 + x.toNat % 16384 = x.toNat := by omega
  rw [hx, Nat.and_two_pow_sub_one_eq_mod _ 7, Nat.and_two_pow_sub_one_eq_mod _ 7] at hdigit
  have hslot : slot20.toNat = 127 * 2 ^ 14 + 127 := rfl
  rw [UInt32.toNat_and, hslot]
  omega

theorem toNat_and_slot420 (x : UInt32)
    : (x &&& slot420).toNat
        =
      x.toNat / 268435456 % 16 * 268435456 + x.toNat / 16384 % 128 * 16384 + x.toNat % 128 := by
  have hx : x.toNat = x.toNat / 16384 * 2 ^ 14 + x.toNat % 16384 := by omega
  have hx' : x.toNat / 16384 = x.toNat / 268435456 * 2 ^ 14 + x.toNat / 16384 % 16384 := by omega
  have hslot : slot420.toNat = 245887 * 2 ^ 14 + 127 := rfl
  have hslot' : 245887 = 15 * 2 ^ 14 + 127 := rfl
  have hlow : x.toNat % 16384 &&& 127 = x.toNat % 16384 % 128 := Nat.and_two_pow_sub_one_eq_mod _ 7
  have hmid : x.toNat / 16384 % 16384 &&& 127 = x.toNat / 16384 % 16384 % 128 :=
    Nat.and_two_pow_sub_one_eq_mod _ 7
  have hhigh : x.toNat / 268435456 &&& 15 = x.toNat / 268435456 % 16 :=
    Nat.and_two_pow_sub_one_eq_mod _ 4
  have hand : x.toNat / 16384 &&& 245887
      = x.toNat / 268435456 % 16 * 2 ^ 14 + x.toNat / 16384 % 16384 % 128 := by
    rw [hx', hslot', Bytes.and_digit (by omega) (by omega), ← hx', hhigh, hmid]
  calc
    _ = (x.toNat / 16384 * 2 ^ 14 + x.toNat % 16384) &&& (245887 * 2 ^ 14 + 127) := by
      rw [UInt32.toNat_and, ← hslot, ← hx]
    _ = (x.toNat / 16384 &&& 245887) * 2 ^ 14 + x.toNat % 16384 % 128 := by
      rw [Bytes.and_digit (by omega) (by omega), hlow]
    _ = _ := by
      rw [hand]
      omega

theorem toNat_shiftLeft_or (x : UInt32) (p : UInt8)
    : (x <<< 14 ||| p.toUInt32).toNat = x.toNat * 16384 % 4294967296 + p.toNat := by
  have hp := p.toNat_lt
  have hshift : (x <<< 14).toNat = x.toNat % 262144 * 2 ^ 14 := by
    rw [UInt32.toNat_shiftLeft, Nat.shiftLeft_eq]
    have : (14 : UInt32).toNat % 32 = 14 := rfl
    rw [this]
    omega
  rw [UInt32.toNat_or, hshift, UInt8.toNat_toUInt32, Bytes.or_eq_add (by omega)]
  omega

theorem or_interleave (x4 : Nat) {x2 x0 y2 y0 : Nat} (hx2 : x2 < 128) (hx0 : x0 < 128) (hy2 : y2 < 128)
    (hy0 : y0 < 128)
    : (x4 * 268435456 + x2 * 16384 + x0) ||| (y2 * 16384 + y0) * 128
        =
      x4 * 268435456 + y2 * 2097152 + x2 * 16384 + y0 * 128 + x0 := by
  have htop : x4 * 128 ||| y2 = x4 * 128 + y2 := Bytes.or_eq_add (k := 7) hy2
  calc
    _ = ((x4 * 2097152 + x2 * 128) * 2 ^ 7 + x0) ||| ((y2 * 16384 + y0) * 2 ^ 7 + 0) := by
      congr 1
      omega
    _ = (((x4 * 16384 + x2) * 2 ^ 7 + 0) ||| (y2 * 128 * 2 ^ 7 + y0)) * 2 ^ 7 + x0 := by
      rw [Bytes.or_digit hx0 (by omega), Nat.or_zero]
      congr 3
      . omega
      . omega
    _ = (((x4 * 128 * 2 ^ 7 + x2) ||| (y2 * 2 ^ 7 + 0)) * 2 ^ 7 + y0) * 2 ^ 7 + x0 := by
      rw [Bytes.or_digit (by omega) hy0, Nat.zero_or]
      congr 5
      omega
    _ = (((x4 * 128 ||| y2) * 2 ^ 7 + x2) * 2 ^ 7 + y0) * 2 ^ 7 + x0 := by
      rw [Bytes.or_digit hx2 (by omega), Nat.or_zero]
    _ = _ := by
      rw [htop]
      omega

/--
The same for the last four bytes of an integer of nine bytes, the very last one counts with all its
bits.
-/
theorem or_interleave_last {x2 x0 p y2 y0 : Nat} (hx0 : x0 < 128) (hp : p < 256) (hy2 : y2 < 128)
    (hy0 : y0 < 128) (hx2 : x2 < 128)
    : (x2 * 536870912 + x0 * 32768 + p) ||| (y2 * 16384 + y0) * 256
        =
      x2 * 536870912 + y2 * 4194304 + x0 * 32768 + y0 * 256 + p := by
  have hmerge : (y2 * 16384 + y0) ||| (x2 * 16384 + x0) * 128
      = x2 * 2097152 + y2 * 16384 + x0 * 128 + y0 := by
    simpa using or_interleave 0 hy2 hy0 hx2 hx0
  have hx : x2 * 536870912 + x0 * 32768 + p = (x2 * 16384 + x0) * 128 * 2 ^ 8 + p := by omega
  calc
    _ = ((x2 * 16384 + x0) * 128 * 2 ^ 8 + p) ||| ((y2 * 16384 + y0) * 2 ^ 8 + 0) := by
      rw [hx, Nat.add_zero]
      rfl
    _ = (x2 * 2097152 + y2 * 16384 + x0 * 128 + y0) * 2 ^ 8 + p := by
      rw [Bytes.or_digit hp (by omega), Nat.or_zero, Nat.or_comm, hmerge]
    _ = x2 * 536870912 + y2 * 4194304 + x0 * 32768 + y0 * 256 + p := by
      clear hx hmerge
      omega

theorem toNat_or_shiftLeft_seven (x y : UInt32) {x4 x2 x0 y2 y0 : Nat}
    (hx : x.toNat = x4 * 268435456 + x2 * 16384 + x0) (hy : y.toNat = y2 * 16384 + y0)
    (hx2 : x2 < 128) (hx0 : x0 < 128) (hy2 : y2 < 128) (hy0 : y0 < 128)
    : (x ||| y <<< 7).toNat = x4 * 268435456 + y2 * 2097152 + x2 * 16384 + y0 * 128 + x0 := by
  have hshift : (y <<< 7).toNat = (y2 * 16384 + y0) * 128 := by
    rw [UInt32.toNat_shiftLeft, Nat.shiftLeft_eq, hy]
    have : (7 : UInt32).toNat % 32 = 7 := rfl
    rw [this]
    omega
  rw [UInt32.toNat_or, hx, hshift, or_interleave _ hx2 hx0 hy2 hy0]

theorem toNat_shiftRight_lit (x : UInt32) (n : UInt32) (k : Nat) (hn : 2 ^ (n.toNat % 32) = k)
    : (x >>> n).toNat = x.toNat / k := by
  rw [UInt32.toNat_shiftRight, Nat.shiftRight_eq_div_pow, hn]

theorem toNat_join (s a : UInt32)
    : (s.toUInt64 <<< 32 ||| a.toUInt64).toNat = s.toNat * 4294967296 + a.toNat := by
  have hs := s.toNat_lt
  have ha := a.toNat_lt
  have hshift : (s.toUInt64 <<< 32).toNat = s.toNat * 2 ^ 32 := by
    rw [UInt64.toNat_shiftLeft, Nat.shiftLeft_eq, UInt32.toNat_toUInt64]
    have : (32 : UInt64).toNat % 64 = 32 := rfl
    rw [this]
    omega
  rw [UInt64.toNat_or, hshift, UInt32.toNat_toUInt64, Bytes.or_eq_add (by omega)]
  rfl

namespace sqlite3GetVarint

variable {p0 p1 p2 p3 p4 p5 : UInt8} {a b s : UInt32} {d0 d1 d2 d3 d4 d5 : Nat}

theorem toNat_upper (hd0 : d0 < 128) (hd1 : d1 < 128) (hd2 : d2 < 128) (hd3 : d3 < 128)
    (hd4 : d4 < 128) (hp4 : p4.toNat = 128 + d4)
    (hs : s.toNat = d0 * 2097152 + d1 * 16384 + d2 * 128 + d3)
    : (s <<< 4 ||| (p4.toUInt32 &&& 0x7f) >>> 3).toNat
        =
      d0 * 33554432 + d1 * 262144 + d2 * 2048 + d3 * 16 + d4 / 8 := by
  have hshift : (s <<< 4).toNat = (d0 * 2097152 + d1 * 16384 + d2 * 128 + d3) * 2 ^ 4 := by
    rw [UInt32.toNat_shiftLeft, Nat.shiftLeft_eq, hs]
    have : (4 : UInt32).toNat % 32 = 4 := rfl
    rw [this]
    omega
  have hlow : ((p4.toUInt32 &&& 0x7f) >>> 3).toNat = d4 / 8 := by
    rw [toNat_shiftRight_lit _ 3 8 rfl, toNat_and_low, UInt8.toNat_toUInt32, hp4]
    omega
  rw [UInt32.toNat_or, hshift, hlow, Bytes.or_eq_add (by omega)]
  omega

theorem toNat_lower (p8 : UInt8) {d6 d7 : Nat} (hd5 : d5 < 128) (hd6 : d6 < 128)
    (hd7 : d7 < 128) (ha : a.toNat = d4 * 16384 + d6) (hb : b.toNat = d5 * 16384 + d7)
    : (a <<< 15 ||| p8.toUInt32 ||| b <<< 8).toNat
        =
      d4 % 8 * 536870912 + d5 * 4194304 + d6 * 32768 + d7 * 256 + p8.toNat := by
  have hp8 := p8.toNat_lt
  have hshift : (a <<< 15).toNat = (d4 % 8 * 16384 + d6) * 2 ^ 15 := by
    rw [UInt32.toNat_shiftLeft, Nat.shiftLeft_eq, ha]
    have : (15 : UInt32).toNat % 32 = 15 := rfl
    rw [this]
    omega
  have hshift' : (b <<< 8).toNat = (d5 * 16384 + d7) * 256 := by
    rw [UInt32.toNat_shiftLeft, Nat.shiftLeft_eq, hb]
    have : (8 : UInt32).toNat % 32 = 8 := rfl
    rw [this]
    omega
  have hlow : (d4 % 8 * 16384 + d6) * 2 ^ 15 + p8.toNat
      = d4 % 8 * 536870912 + d6 * 32768 + p8.toNat := by
    omega
  rw [UInt32.toNat_or, UInt32.toNat_or, hshift, hshift', UInt8.toNat_toUInt32,
    Bytes.or_eq_add (by omega), hlow, or_interleave_last hd6 (by omega) hd5 hd7 (by omega)]

theorem long_eq (rest : List UInt8) (hd0 : d0 < 128) (hd1 : d1 < 128) (hd2 : d2 < 128) (hd3 : d3 < 128)
    (hd4 : d4 < 128) (hd5 : d5 < 128) (hp4 : p4.toNat = 128 + d4)
    (ha : a.toNat = d0 % 16 * 268435456 + d2 * 16384 + 128 + d4)
    (hb : b.toNat = d1 % 16 * 268435456 + d3 * 16384 + 128 + d5)
    (hs : s.toNat = d0 * 2097152 + d1 * 16384 + d2 * 128 + d3)
    : (long (p0 :: p1 :: p2 :: p3 :: p4 :: p5 :: rest) a b s).map (fun (v, k) => (v.toNat, k))
        =
      (Varint.decodeFrom 2 (((((d0 * 128 + d1) * 128 + d2) * 128 + d3) * 128 + d4) * 128 + d5) rest).map
        fun (v, k) => (v, k + 6) := by
  cases rest with
  | nil => rfl
  | cons p6 rest =>
    have hp6 := p6.toNat_lt
    have ha6 : (a <<< 14 ||| p6.toUInt32).toNat
        = d2 % 16 * 268435456 + (128 + d4) * 16384 + p6.toNat := by
      rw [toNat_shiftLeft_or, ha]
      omega
    unfold long
    simp only [List.getElem?_cons_succ, List.getElem?_cons_zero, Option.bind_eq_bind, Option.bind_some]
    generalize a <<< 14 ||| p6.toUInt32 = a6 at ha6
    rw [Varint.decodeFrom]
    by_cases h6 : p6.toNat < 128
    . have hhigh : a6 &&& 0x80 = 0 := by
        rw [and_high_eq_zero_iff, ha6]
        omega
      have hmask : (a6 &&& slot420).toNat = d2 % 16 * 268435456 + d4 * 16384 + p6.toNat := by
        rw [toNat_and_slot420, ha6]
        omega
      have hmask' : (b &&& slot20).toNat = d3 * 16384 + d5 := by
        rw [toNat_and_slot20, hb]
        omega
      have hmerge := toNat_or_shiftLeft_seven _ _ hmask hmask' hd4 h6 hd3 hd5
      have hshift : (s >>> 11).toNat = d0 * 1024 + d1 * 8 + d2 / 16 := by
        rw [toNat_shiftRight_lit s 11 2048 rfl, hs]
        omega
      rw [if_pos hhigh, if_pos h6]
      simp only [Option.pure_def, Option.map_some, toNat_join, hmerge, hshift, Option.some.injEq,
        Prod.mk.injEq, and_true]
      omega
    . have hhigh : ¬a6 &&& 0x80 = 0 := by
        rw [and_high_eq_zero_iff, ha6]
        omega
      rw [if_neg hhigh, if_neg h6]
      cases rest with
      | nil => rfl
      | cons p7 rest =>
        have hp7 := p7.toNat_lt
        have hmask : (a6 &&& slot20).toNat = d4 * 16384 + (p6.toNat - 128) := by
          rw [toNat_and_slot20, ha6]
          omega
        have hb7 : (b <<< 14 ||| p7.toUInt32).toNat
            = d3 % 16 * 268435456 + (128 + d5) * 16384 + p7.toNat := by
          rw [toNat_shiftLeft_or, hb]
          omega
        simp only [List.getElem?_cons_succ, List.getElem?_cons_zero, Option.bind_some]
        generalize b <<< 14 ||| p7.toUInt32 = b7 at hb7
        generalize a6 &&& slot20 = a7 at hmask
        rw [Varint.decodeFrom]
        by_cases h7 : p7.toNat < 128
        . have hhigh : b7 &&& 0x80 = 0 := by
            rw [and_high_eq_zero_iff, hb7]
            omega
          have hmask' : (b7 &&& slot420).toNat = d3 % 16 * 268435456 + d5 * 16384 + p7.toNat := by
            rw [toNat_and_slot420, hb7]
            omega
          have hmerge := toNat_or_shiftLeft_seven _ _ hmask' hmask hd5 h7 hd4 (by omega)
          have hshift : (s >>> 4).toNat = d0 * 131072 + d1 * 1024 + d2 * 8 + d3 / 16 := by
            rw [toNat_shiftRight_lit s 4 16 rfl, hs]
            omega
          rw [if_pos hhigh, if_pos h7]
          simp only [Option.pure_def, Option.map_some, toNat_join, UInt32.or_comm (a7 <<< 7), hmerge,
            hshift, Option.some.injEq, Prod.mk.injEq, and_true]
          omega
        . have hhigh : ¬b7 &&& 0x80 = 0 := by
            rw [and_high_eq_zero_iff, hb7]
            omega
          rw [if_neg hhigh, if_neg h7]
          cases rest with
          | nil => rfl
          | cons p8 rest =>
            have hmask' : (b7 &&& slot20).toNat = d5 * 16384 + (p7.toNat - 128) := by
              rw [toNat_and_slot20, hb7]
              omega
            have hlower := toNat_lower p8 hd5 (by omega) (by omega) hmask hmask'
            have hupper := toNat_upper hd0 hd1 hd2 hd3 hd4 hp4 hs
            simp only [List.getElem?_cons_zero, Option.bind_some, Varint.decodeFrom, Option.pure_def, Option.map_some,
              toNat_join, hlower, hupper,
              Option.some.injEq, Prod.mk.injEq, and_true]
            omega

theorem medium_eq (rest : List UInt8) (hd0 : d0 < 128) (hd1 : d1 < 128) (hd2 : d2 < 128)
    (hd3 : d3 < 128) (ha : a.toNat = d0 * 16384 + d2) (hb : b.toNat = d1 * 16384 + d3)
    : (medium (p0 :: p1 :: p2 :: p3 :: rest) a b).map (fun (v, k) => (v.toNat, k))
        =
      (Varint.decodeFrom 4 (((d0 * 128 + d1) * 128 + d2) * 128 + d3) rest).map
        fun (v, k) => (v, k + 4) := by
  cases rest with
  | nil => rfl
  | cons p4 rest =>
    have hp4 := p4.toNat_lt
    have ha4 : (a <<< 14 ||| p4.toUInt32).toNat
        = d0 % 16 * 268435456 + d2 * 16384 + p4.toNat := by
      rw [toNat_shiftLeft_or, ha]
      omega
    unfold medium
    simp only [List.getElem?_cons_succ, List.getElem?_cons_zero, Option.bind_eq_bind, Option.bind_some]
    generalize a <<< 14 ||| p4.toUInt32 = a4 at ha4
    rw [Varint.decodeFrom]
    by_cases h4 : p4.toNat < 128
    . have hhigh : a4 &&& 0x80 = 0 := by
        rw [and_high_eq_zero_iff, ha4]
        omega
      have hmerge := toNat_or_shiftLeft_seven _ _ ha4 hb hd2 h4 hd1 hd3
      have hshift : (a >>> 18).toNat = d0 / 16 := by
        rw [toNat_shiftRight_lit a 18 262144 rfl, ha]
        omega
      rw [if_pos hhigh, if_pos h4]
      simp only [Option.pure_def, Option.map_some, toNat_join, hmerge, hshift, Option.some.injEq,
        Prod.mk.injEq, and_true]
      omega
    . have hhigh : ¬a4 &&& 0x80 = 0 := by
        rw [and_high_eq_zero_iff, ha4]
        omega
      rw [if_neg hhigh, if_neg h4]
      cases rest with
      | nil => rfl
      | cons p5 rest =>
        have hp5 := p5.toNat_lt
        have hs : (a <<< 7 ||| b).toNat = d0 * 2097152 + d1 * 16384 + d2 * 128 + d3 := by
          have hb' : b.toNat = 0 * 268435456 + d1 * 16384 + d3 := by
            rw [hb, Nat.zero_mul, Nat.zero_add]
          rw [UInt32.or_comm, toNat_or_shiftLeft_seven _ _ hb' ha hd1 hd3 hd0 hd2]
          omega
        have hb5 : (b <<< 14 ||| p5.toUInt32).toNat
            = d1 % 16 * 268435456 + d3 * 16384 + p5.toNat := by
          rw [toNat_shiftLeft_or, hb]
          omega
        simp only [List.getElem?_cons_zero, Option.bind_some]
        generalize b <<< 14 ||| p5.toUInt32 = b5 at hb5
        generalize a <<< 7 ||| b = s5 at hs
        rw [Varint.decodeFrom]
        by_cases h5 : p5.toNat < 128
        . have hhigh : b5 &&& 0x80 = 0 := by
            rw [and_high_eq_zero_iff, hb5]
            omega
          have hmask : (a4 &&& slot20).toNat = d2 * 16384 + (p4.toNat - 128) := by
            rw [toNat_and_slot20, ha4]
            omega
          have hmerge := toNat_or_shiftLeft_seven _ _ hb5 hmask hd3 h5 hd2 (by omega)
          have hshift : (s5 >>> 18).toNat = d0 * 8 + d1 / 16 := by
            rw [toNat_shiftRight_lit s5 18 262144 rfl, hs]
            omega
          rw [if_pos hhigh, if_pos h5]
          simp only [Option.pure_def, Option.map_some, toNat_join,
            UInt32.or_comm ((a4 &&& slot20) <<< 7), hmerge, hshift, Option.some.injEq,
            Prod.mk.injEq, and_true]
          omega
        . have hhigh : ¬b5 &&& 0x80 = 0 := by
            rw [and_high_eq_zero_iff, hb5]
            omega
          rw [if_neg hhigh, if_neg h5]
          have ha4' : a4.toNat = d0 % 16 * 268435456 + d2 * 16384 + 128 + (p4.toNat - 128) := by
            rw [ha4]
            omega
          have hb5' : b5.toNat = d1 % 16 * 268435456 + d3 * 16384 + 128 + (p5.toNat - 128) := by
            rw [hb5]
            omega
          rw [long_eq rest hd0 hd1 hd2 hd3 (by omega) (by omega) (by omega) ha4' hb5' hs]
          simp only [Option.map_map]
          rfl

end sqlite3GetVarint

theorem uint8_lt_high_iff (p : UInt8) : p < 0x80 ↔ p.toNat < 128 := UInt8.lt_iff_toNat_lt

theorem uint8_and_high_iff (p : UInt8) : p.toUInt32 &&& 0x80 = 0 ↔ p.toNat < 128 := by
  have hp := p.toNat_lt
  rw [and_high_eq_zero_iff, UInt8.toNat_toUInt32]
  omega

section

variable (p0 p1 p2 p3 : UInt8)

theorem toNat_two (x : UInt32) (hx : x.toNat = p0.toNat % 128) (h1 : p1.toNat < 128)
    : (x <<< 7 ||| p1.toUInt32).toNat = p0.toNat % 128 * 128 + p1.toNat := by
  have hshift : (x <<< 7).toNat = p0.toNat % 128 * 2 ^ 7 := by
    rw [UInt32.toNat_shiftLeft, Nat.shiftLeft_eq, hx]
    have : (7 : UInt32).toNat % 32 = 7 := rfl
    rw [this]
    omega
  rw [UInt32.toNat_or, hshift, UInt8.toNat_toUInt32, Bytes.or_eq_add (by omega)]
  rfl

theorem toNat_even
    : (p0.toUInt32 <<< 14 ||| p2.toUInt32).toNat = p0.toNat * 16384 + p2.toNat := by
  have := p0.toNat_lt
  rw [toNat_shiftLeft_or, UInt8.toNat_toUInt32]
  omega

theorem even_and_high_iff
    : (p0.toUInt32 <<< 14 ||| p2.toUInt32) &&& 0x80 = 0 ↔ p2.toNat < 128 := by
  have := p2.toNat_lt
  rw [and_high_eq_zero_iff, toNat_even]
  omega

theorem toNat_even_masked
    : ((p0.toUInt32 <<< 14 ||| p2.toUInt32) &&& slot20).toNat
        =
      p0.toNat % 128 * 16384 + p2.toNat % 128 := by
  have := p2.toNat_lt
  rw [toNat_and_slot20, toNat_even]
  omega

theorem toNat_three (h2 : p2.toNat < 128)
    : ((p0.toUInt32 <<< 14 ||| p2.toUInt32) &&& slot20 ||| (p1.toUInt32 &&& 0x7f) <<< 7).toNat
        =
      p0.toNat % 128 * 16384 + p1.toNat % 128 * 128 + p2.toNat := by
  have heven : ((p0.toUInt32 <<< 14 ||| p2.toUInt32) &&& slot20).toNat
      = 0 * 268435456 + p0.toNat % 128 * 16384 + p2.toNat := by
    rw [toNat_even_masked, Nat.mod_eq_of_lt h2, Nat.zero_mul, Nat.zero_add]
  have hodd : (p1.toUInt32 &&& 0x7f).toNat = 0 * 16384 + p1.toNat % 128 := by
    rw [toNat_and_low, UInt8.toNat_toUInt32, Nat.zero_mul, Nat.zero_add]
  rw [toNat_or_shiftLeft_seven _ _ heven hodd (by omega) h2 (by omega) (by omega)]
  simp

theorem toNat_four (h3 : p3.toNat < 128)
    : (((p0.toUInt32 <<< 14 ||| p2.toUInt32) &&& slot20) <<< 7 |||
        ((p1.toUInt32 <<< 14 ||| p3.toUInt32) &&& slot20)).toNat
        =
      p0.toNat % 128 * 2097152 + p1.toNat % 128 * 16384 + p2.toNat % 128 * 128 + p3.toNat := by
  have hodd : ((p1.toUInt32 <<< 14 ||| p3.toUInt32) &&& slot20).toNat
      = 0 * 268435456 + p1.toNat % 128 * 16384 + p3.toNat := by
    rw [toNat_even_masked, Nat.mod_eq_of_lt h3, Nat.zero_mul, Nat.zero_add]
  rw [UInt32.or_comm, toNat_or_shiftLeft_seven _ _ hodd (toNat_even_masked p0 p2) (by omega) h3
    (by omega) (by omega)]
  simp

end

theorem mod_of_high {p : UInt8} (h : ¬p.toNat < 128) : p.toNat % 128 = p.toNat - 128 := by
  have := p.toNat_lt
  omega

/--
The unrolled decoder follows the format.
-/
theorem sqlite3GetVarint_eq (p : List UInt8)
    : (sqlite3GetVarint p).map (fun (v, k) => (v.toNat, k)) = Varint.decode p := by
  unfold Varint.decode
  rcases p with _ | ⟨p0, p⟩
  . rfl
  unfold sqlite3GetVarint
  simp only [List.getElem?_cons_succ, List.getElem?_cons_zero, Option.bind_eq_bind, Option.bind_some,
    uint8_lt_high_iff, even_and_high_iff, Varint.decodeFrom]
  by_cases h0 : p0.toNat < 128
  . rw [if_pos h0, if_pos h0]
    simp
  rw [if_neg h0, if_neg h0, ← mod_of_high h0]
  rcases p with _ | ⟨p1, p⟩
  . rfl
  simp only [List.getElem?_cons_succ, List.getElem?_cons_zero, Option.bind_some, Varint.decodeFrom]
  by_cases h1 : p1.toNat < 128
  . have hlow : (p0 &&& 0x7f).toUInt32.toNat = p0.toNat % 128 := by
      rw [UInt8.toNat_toUInt32, UInt8.toNat_and]
      exact Nat.and_two_pow_sub_one_eq_mod p0.toNat 7
    rw [if_pos h1, if_pos h1]
    simp only [Option.pure_def, Option.map_some, UInt32.toNat_toUInt64, toNat_two p0 p1 _ hlow h1,
      Nat.zero_mul, Nat.zero_add]
  rw [if_neg h1, if_neg h1, ← mod_of_high h1]
  rcases p with _ | ⟨p2, p⟩
  . rfl
  simp only [List.getElem?_cons_succ, List.getElem?_cons_zero, Option.bind_some, Varint.decodeFrom]
  by_cases h2 : p2.toNat < 128
  . rw [if_pos h2, if_pos h2]
    simp only [Option.pure_def, Option.map_some, UInt32.toNat_toUInt64, toNat_three p0 p1 p2 h2,
      Option.some.injEq, Prod.mk.injEq, and_true]
    omega
  rw [if_neg h2, if_neg h2, ← mod_of_high h2]
  rcases p with _ | ⟨p3, p⟩
  . rfl
  simp only [List.getElem?_cons_zero, Option.bind_some, Varint.decodeFrom]
  by_cases h3 : p3.toNat < 128
  . rw [if_pos h3, if_pos h3]
    simp only [Option.pure_def, Option.map_some, UInt32.toNat_toUInt64, toNat_four p0 p1 p2 p3 h3,
      Option.some.injEq, Prod.mk.injEq, and_true]
    omega
  rw [if_neg h3, if_neg h3, ← mod_of_high h3]
  rw [sqlite3GetVarint.medium_eq p (by omega) (by omega) (by omega) (by omega)
    (toNat_even_masked p0 p2) (toNat_even_masked p1 p3)]
  simp [Option.map_map, Function.comp_def]

/--
Values of more than 32 bits are cut off.
-/
theorem getVarint32_eq (p : List UInt8)
    : (getVarint32 p).map (fun (v, k) => (v.toNat, k))
        =
      (Varint.decode p).map fun (v, k) => (min v 0xffffffff, k) := by
  rcases p with _ | ⟨p0, p⟩
  . rfl
  have hp0 := p0.toNat_lt
  unfold getVarint32 sqlite3GetVarint32
  simp only [List.getElem?_cons_succ, List.getElem?_cons_zero, Option.bind_eq_bind, Option.bind_some,
    uint8_lt_high_iff, even_and_high_iff, uint8_and_high_iff]
  by_cases h0 : p0.toNat < 128
  . simp [h0, Varint.decode, Varint.decodeFrom]
    omega
  rw [if_neg h0]
  rcases p with _ | ⟨p1, p⟩
  . simp [h0, Varint.decode, Varint.decodeFrom]
  have hp1 := p1.toNat_lt
  simp only [List.getElem?_cons_succ, List.getElem?_cons_zero, Option.bind_some]
  by_cases h1 : p1.toNat < 128
  . have hlow : (p0.toUInt32 &&& 0x7f).toNat = p0.toNat % 128 := by
      rw [toNat_and_low, UInt8.toNat_toUInt32]
    rw [if_pos h1]
    simp only [Option.pure_def, Option.map_some, toNat_two p0 p1 _ hlow h1, Varint.decode,
      Varint.decodeFrom, h0, h1, ↓reduceIte, Option.some.injEq, Prod.mk.injEq, and_true,
      mod_of_high h0]
    omega
  rw [if_neg h1]
  rcases p with _ | ⟨p2, p⟩
  . simp [h0, h1, Varint.decode, Varint.decodeFrom]
  simp only [List.getElem?_cons_zero, Option.bind_some]
  by_cases h2 : p2.toNat < 128
  . rw [if_pos h2]
    simp only [Option.pure_def, Option.map_some, toNat_three p0 p1 p2 h2, Varint.decode,
      Varint.decodeFrom, h0, h1, h2, ↓reduceIte, Option.some.injEq, Prod.mk.injEq, and_true,
      mod_of_high h0, mod_of_high h1]
    omega
  rw [if_neg h2, ← sqlite3GetVarint_eq]
  cases sqlite3GetVarint (p0 :: p1 :: p2 :: p) with
  | none => rfl
  | some res =>
    obtain ⟨v, n⟩ := res
    have hand : (v &&& 0xffffffff).toNat = v.toNat % 4294967296 := by
      rw [UInt64.toNat_and]
      exact Nat.and_two_pow_sub_one_eq_mod v.toNat 32
    have hfits : v &&& 0xffffffff = v ↔ v.toNat < 4294967296 := by
      rw [← UInt64.toNat_inj, hand]
      omega
    simp only [Option.bind_some, ne_eq, hfits, Option.map_some]
    split
    . simp
      omega
    . simp
      omega

end Hustle.Storage
