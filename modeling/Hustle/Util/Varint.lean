import Mathlib.Data.List.Basic

/-!
This module contains the variable length integers of the SQLite file format: seven bits of every byte,
most significant first, up to the first byte whose high bit is clear. A ninth byte ends the integer in
any case and counts with all of its eight bits.
-/

namespace Varint

/--
Continue to decode after the value `v`, where at most `n` bytes are left before the last one.
-/
def decodeFrom : Nat → Nat → List UInt8 → Option (Nat × Nat)
  | _, _, [] => none
  | 0, v, b :: _ => some (v * 256 + b.toNat, 1)
  | n + 1, v, b :: bs =>
    if b.toNat < 128 then
      some (v * 128 + b.toNat, 1)
    else
      (decodeFrom n (v * 128 + (b.toNat - 128)) bs).map fun (v, k) => (v, k + 1)

/--
The value at the start of `bs` and the number of bytes it takes.
-/
def decode (bs : List UInt8) : Option (Nat × Nat) :=
  decodeFrom 8 0 bs

/--
`bs` is an encoding of `v`, not necessarily the shortest one.
-/
def Encodes (bs : List UInt8) (v : Nat) : Prop :=
  decode bs = some (v, bs.length)

instance : Decidable (Encodes bs v) :=
  inferInstanceAs (Decidable (_ = _))

theorem decodeFrom_append {n v : Nat} {bs : List UInt8} {v' k : Nat}
    (h : decodeFrom n v bs = some (v', k)) (rest : List UInt8)
    : decodeFrom n v (bs ++ rest) = some (v', k) := by
  induction bs generalizing n v v' k with
  | nil => simp [decodeFrom] at h
  | cons b bs ih =>
    cases n with
    | zero => exact h
    | succ n =>
      simp only [List.cons_append, decodeFrom] at h ⊢
      split
      . next hb =>
        rw [if_pos hb] at h
        exact h
      . next hb =>
        rw [if_neg hb, Option.map_eq_some_iff] at h
        obtain ⟨⟨v₁, k₁⟩, heq, hk⟩ := h
        rw [ih heq, Option.map_some, hk]

theorem Encodes.decode_append {bs : List UInt8} {v : Nat} (h : Encodes bs v) (rest : List UInt8)
    : decode (bs ++ rest) = some (v, bs.length) :=
  decodeFrom_append h rest

theorem Encodes.length_pos {bs : List UInt8} {v : Nat} (h : Encodes bs v) : 0 < bs.length := by
  cases bs with
  | nil => simp [Encodes, decode, decodeFrom] at h
  | cons b bs => simp

end Varint
