import Hustle.Storage.Basic

/-!
This module contains the functions on SQLite records: reading variable length integers, the sizes that
serial types stand for and the decoding of a single value. All functions return `none` if they read
behind the end of the buffer.
-/

namespace Hustle.Storage

def slot20 : UInt32 := 0x001fc07f

def slot420 : UInt32 := 0xf01fc07f

namespace sqlite3GetVarint

/--
The cases of seven to nine bytes.
-/
def long (p : List UInt8) (a b s : UInt32) : Option (UInt64 × Nat) := do
  let p6 ← p[6]?
  let a := a <<< 14
  let a := a ||| p6.toUInt32
  -- a: p2<<28 | p4<<14 | p6 (unmasked)
  if a &&& 0x80 = 0 then
    let a := a &&& slot420
    let b := b &&& slot20
    let b := b <<< 7
    let a := a ||| b
    let s := s >>> 11
    return (s.toUInt64 <<< 32 ||| a.toUInt64, 7)
  let a := a &&& slot20
  let p7 ← p[7]?
  let b := b <<< 14
  let b := b ||| p7.toUInt32
  -- b: p3<<28 | p5<<14 | p7 (unmasked)
  if b &&& 0x80 = 0 then
    let b := b &&& slot420
    let a := a <<< 7
    let a := a ||| b
    let s := s >>> 4
    return (s.toUInt64 <<< 32 ||| a.toUInt64, 8)
  let p8 ← p[8]?
  let a := a <<< 15
  let a := a ||| p8.toUInt32
  -- a: p4<<29 | p6<<15 | p8 (unmasked)
  let b := b &&& slot20
  let b := b <<< 8
  let a := a ||| b
  let s := s <<< 4
  let p4 ← p[4]?
  let b := p4.toUInt32
  let b := b &&& 0x7f
  let b := b >>> 3
  let s := s ||| b
  return (s.toUInt64 <<< 32 ||| a.toUInt64, 9)

/--
The cases of five and six bytes.
-/
def medium (p : List UInt8) (a b : UInt32) : Option (UInt64 × Nat) := do
  let s := a
  -- s: p0<<14 | p2 (masked)
  let p4 ← p[4]?
  let a := a <<< 14
  let a := a ||| p4.toUInt32
  -- a: p0<<28 | p2<<14 | p4 (unmasked)
  if a &&& 0x80 = 0 then
    let b := b <<< 7
    let a := a ||| b
    let s := s >>> 18
    return (s.toUInt64 <<< 32 ||| a.toUInt64, 5)
  let s := s <<< 7
  let s := s ||| b
  -- s: p0<<21 | p1<<14 | p2<<7 | p3 (masked)
  let p5 ← p[5]?
  let b := b <<< 14
  let b := b ||| p5.toUInt32
  -- b: p1<<28 | p3<<14 | p5 (unmasked)
  if b &&& 0x80 = 0 then
    let a := a &&& slot20
    let a := a <<< 7
    let a := a ||| b
    let s := s >>> 18
    return (s.toUInt64 <<< 32 ||| a.toUInt64, 6)
  long p a b s

end sqlite3GetVarint

/--
`sqlite3GetVarint`: the value and the number of bytes read.
-/
def sqlite3GetVarint (p : List UInt8) : Option (UInt64 × Nat) := do
  let p0 ← p[0]?
  if p0 < 0x80 then
    return (p0.toUInt64, 1)
  let p1 ← p[1]?
  if p1 < 0x80 then
    return (((p0 &&& 0x7f).toUInt32 <<< 7 ||| p1.toUInt32).toUInt64, 2)
  let a := p0.toUInt32 <<< 14
  let b := p1.toUInt32
  let p2 ← p[2]?
  let a := a ||| p2.toUInt32
  -- a: p0<<14 | p2 (unmasked)
  if a &&& 0x80 = 0 then
    let a := a &&& slot20
    let b := b &&& 0x7f
    let b := b <<< 7
    let a := a ||| b
    return (a.toUInt64, 3)
  let a := a &&& slot20
  let p3 ← p[3]?
  let b := b <<< 14
  let b := b ||| p3.toUInt32
  -- b: p1<<14 | p3 (unmasked)
  if b &&& 0x80 = 0 then
    let b := b &&& slot20
    let a := a <<< 7
    let a := a ||| b
    return (a.toUInt64, 4)
  let b := b &&& slot20
  sqlite3GetVarint.medium p a b

/--
`sqlite3GetVarint32`. Values that do not fit are cut off at the largest `u32`.
-/
def sqlite3GetVarint32 (p : List UInt8) : Option (UInt32 × Nat) := do
  let p0 ← p[0]?
  let a := p0.toUInt32
  let p1 ← p[1]?
  let b := p1.toUInt32
  if b &&& 0x80 = 0 then
    let a := a &&& 0x7f
    let a := a <<< 7
    return (a ||| b, 2)
  let p2 ← p[2]?
  let a := a <<< 14
  let a := a ||| p2.toUInt32
  if a &&& 0x80 = 0 then
    let a := a &&& slot20
    let b := b &&& 0x7f
    let b := b <<< 7
    return (a ||| b, 3)
  let (v64, n) ← sqlite3GetVarint p
  if v64 &&& 0xffffffff ≠ v64 then
    return (0xffffffff, n)
  else
    return (v64.toUInt32, n)

def getVarint32 (p : List UInt8) : Option (UInt32 × Nat) := do
  let p0 ← p[0]?
  if p0 < 0x80 then
    return (p0.toUInt32, 1)
  else
    sqlite3GetVarint32 p

def smallTypeSizes : List UInt8 :=
  [
     0,  1,  2,  3,  4,  6,  8,  8,  0,  0,
     0,  0,  0,  0,  1,  1,  2,  2,  3,  3,
     4,  4,  5,  5,  6,  6,  7,  7,  8,  8,
     9,  9, 10, 10, 11, 11, 12, 12, 13, 13,
    14, 14, 15, 15, 16, 16, 17, 17, 18, 18,
    19, 19, 20, 20, 21, 21, 22, 22, 23, 23,
    24, 24, 25, 25, 26, 26, 27, 27, 28, 28,
    29, 29, 30, 30, 31, 31, 32, 32, 33, 33,
    34, 34, 35, 35, 36, 36, 37, 37, 38, 38,
    39, 39, 40, 40, 41, 41, 42, 42, 43, 43,
    44, 44, 45, 45, 46, 46, 47, 47, 48, 48,
    49, 49, 50, 50, 51, 51, 52, 52, 53, 53,
    54, 54, 55, 55, 56, 56, 57, 57
  ]

def serialTypeLen (serialType : UInt32) : UInt32 :=
  if serialType ≥ 128 then
    (serialType - 12) / 2
  else
    (smallTypeSizes.getD serialType.toNat 0).toUInt32

/-!
The `flags` of a `RecordValue`.
-/

def valNull : Nat := 0x0001
def valStr : Nat := 0x0002
def valInt : Nat := 0x0004
def valReal : Nat := 0x0008
def valBlob : Nat := 0x0010
def valEphem : Nat := 0x1000

/--
`valArray` is the buffer from the position on that the pointer refers to, `realVal` are the bits of the
`double`.
-/
structure RecordValue where
  valArray : List UInt8
  val : BitVec 64
  flags : Nat
  realVal : BitVec 64
  n : Nat
  deriving DecidableEq, Repr, Inhabited

/-!
The macros that read big endian integers. `i8` is the conversion of a byte to a signed `int`.
-/

def i8 (x : UInt8) : BitVec 32 := x.toBitVec.signExtend 32

def u8 (x : UInt8) : BitVec 32 := x.toBitVec.setWidth 32

def oneByteInt (x0 : UInt8) : BitVec 32 := i8 x0

def twoByteInt (x0 x1 : UInt8) : BitVec 32 := 256#32 * i8 x0 ||| u8 x1

def threeByteInt (x0 x1 x2 : UInt8) : BitVec 32 := 65536#32 * i8 x0 ||| u8 x1 <<< 8 ||| u8 x2

def fourByteUInt (x0 x1 x2 x3 : UInt8) : BitVec 32 :=
  u8 x0 <<< 24 ||| u8 x1 <<< 16 ||| u8 x2 <<< 8 ||| u8 x3

def fourByteInt (x0 x1 x2 x3 : UInt8) : BitVec 32 :=
  16777216#32 * i8 x0 ||| u8 x1 <<< 16 ||| u8 x2 <<< 8 ||| u8 x3

def exp754 : BitVec 64 := 0x7ff#64 <<< 52

def man754 : BitVec 64 := (1#64 <<< 52) - 1

def isNaN (x : BitVec 64) : Bool :=
  x &&& exp754 == exp754 && x &&& man754 != 0

def serialGetReal (buf : List UInt8) (serialType : UInt32) (recordVal : RecordValue)
    : Option (RecordValue × UInt32) :=
  match buf with
  | x0 :: x1 :: x2 :: x3 :: x4 :: x5 :: x6 :: x7 :: _ =>
    let x := (fourByteUInt x0 x1 x2 x3).setWidth 64
    let y := (fourByteUInt x4 x5 x6 x7).setWidth 64
    let x := x <<< 32 + y
    if serialType = 6 then
      some ({ recordVal with val := x, flags := valInt }, 8)
    else
      some ({ recordVal with realVal := x, flags := if isNaN x then valNull else valReal }, 8)
  | _ => none

/--
`recordSerialGet`: read a value and return the number of bytes it takes. A string is not read, the
value refers to the buffer.
-/
def recordSerialGet (buf : List UInt8) (serialType : UInt32) (recordVal : RecordValue)
    : Option (RecordValue × UInt32) :=
  match serialType.toNat with
  | 10 => some (recordVal, 0)
  | 11 | 0 => some ({ recordVal with flags := valNull }, 0)
  | 1 =>
    match buf with
    | x0 :: _ => some ({ recordVal with val := (oneByteInt x0).signExtend 64, flags := valInt }, 1)
    | _ => none
  | 2 =>
    match buf with
    | x0 :: x1 :: _ =>
      some ({ recordVal with val := (twoByteInt x0 x1).signExtend 64, flags := valInt }, 2)
    | _ => none
  | 3 =>
    match buf with
    | x0 :: x1 :: x2 :: _ =>
      some ({ recordVal with val := (threeByteInt x0 x1 x2).signExtend 64, flags := valInt }, 3)
    | _ => none
  | 4 =>
    match buf with
    | x0 :: x1 :: x2 :: x3 :: _ =>
      some ({ recordVal with val := (fourByteInt x0 x1 x2 x3).signExtend 64, flags := valInt }, 4)
    | _ => none
  | 5 =>
    match buf with
    | x0 :: x1 :: x2 :: x3 :: x4 :: x5 :: _ =>
      let val := (fourByteUInt x2 x3 x4 x5).setWidth 64 + 1#64 <<< 32 * (twoByteInt x0 x1).signExtend 64
      some ({ recordVal with val := val, flags := valInt }, 6)
    | _ => none
  | 6 | 7 => serialGetReal buf serialType recordVal
  | 8 | 9 => some ({ recordVal with val := (serialType - 8).toBitVec.setWidth 64, flags := valInt }, 0)
  | _ =>
    let strSize := (serialType - 12) / 2
    let flags := if serialType &&& 1 = 0 then valBlob ||| valEphem else valStr ||| valEphem
    some ({ recordVal with valArray := buf, n := strSize.toNat, flags := flags }, strSize)

end Hustle.Storage
