import Mathlib.Data.List.Basic
import Mathlib.Data.Nat.Basic

/-!
This module contains batches of equal width, of which the last one is cut at a bound, and when they cover the numbers
below it.
-/

namespace Hustle.Batches

/--
The numbers of a batch that are below `n`.
-/
def batch (width n k : Nat) : List Nat :=
  List.range' (k * width) (min (k * width + width) n - k * width)

theorem filter_range' (start width n : Nat)
    : (List.range' start width).filter (fun i => decide (i < n)) = List.range' start (min (start + width) n - start) := by
  induction width generalizing start with
  | zero =>
    have hempty : min (start + 0) n - start = 0 := by omega
    rw [hempty]
    rfl
  | succ width ih =>
    rw [List.range'_succ, List.filter_cons, ih]
    split
    . next hlt =>
      have hlen : min (start + (width + 1)) n - start = min (start + 1 + width) n - (start + 1) + 1 := by
        rw [decide_eq_true_eq] at hlt
        omega
      rw [hlen, List.range'_succ]
    . next hge =>
      have hempty : min (start + 1 + width) n - (start + 1) = 0 ∧ min (start + (width + 1)) n - start = 0 := by
        rw [decide_eq_true_eq] at hge
        omega
      rw [hempty.1, hempty.2]
      rfl

theorem flatMap_batch (width n count : Nat)
    : (List.range count).flatMap (batch width n) = List.range (min (count * width) n) := by
  induction count with
  | zero => simp
  | succ k ih =>
    have hmul : (k + 1) * width = k * width + width := by rw [Nat.add_mul, Nat.one_mul]
    rw [List.range_succ, List.flatMap_append, ih, List.flatMap_singleton, batch, List.range_eq_range',
      List.range_eq_range']
    by_cases hle : k * width ≤ n
    . rw [Nat.min_eq_left hle]
      have hsum : min ((k + 1) * width) n = k * width + (min (k * width + width) n - k * width) := by omega
      rw [hsum, ← List.range'_append_1, Nat.zero_add]
    . have hempty : min (k * width + width) n - k * width = 0 := by omega
      have hall : min ((k + 1) * width) n = min (k * width) n := by omega
      rw [hempty, hall, List.range'_zero, List.append_nil]

theorem flatMap_batch_eq {width n count : Nat} (h : n ≤ count * width)
    : (List.range count).flatMap (batch width n) = List.range n := by
  rw [flatMap_batch, Nat.min_eq_right h]

theorem le_pred_div {width : Nat} (hwidth : 0 < width) (n : Nat) : n ≤ (1 + (n - 1) / width) * width := by
  have hlt := Nat.lt_mul_div_succ (n - 1) hwidth
  rw [Nat.add_comm 1, Nat.mul_comm]
  omega

theorem le_div_succ {width : Nat} (hwidth : 0 < width) (n : Nat) : n ≤ (n / width + 1) * width := by
  have hlt := Nat.lt_mul_div_succ n hwidth
  rw [Nat.mul_comm]
  omega

end Hustle.Batches
