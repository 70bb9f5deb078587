import Hustle.Util.Retain
import Hustle.Util.Run

/-!
This module contains arrays that are read and written at indices which may be outside of them, and arrays of
uninitialised cells that are filled from the first one on. All functions return `none` for an index that is outside.
-/

namespace Cells

variable {α : Type}

def read (arr : List α) (i : Int) : Option α :=
  if i < 0 then none else arr[i.toNat]?

def write (arr : List α) (i : Int) (x : α) : Option (List α) :=
  if 0 ≤ i ∧ i < arr.length then some (arr.set i.toNat x) else none

/--
Exchange two elements through a temporary one.
-/
def swap (arr : List α) (i j : Int) : Option (List α) := do
  let temp ← read arr i
  let x ← read arr j
  let arr ← write arr i x
  write arr j temp

/--
The first `n` elements, with `fill` if there are fewer.
-/
def resize (fill : α) (arr : List α) (n : Int) : List α :=
  arr.take n.toNat ++ List.replicate (n.toNat - arr.length) fill

def uninitialised (n : Nat) : List (Option α) :=
  List.replicate n none

/--
Copy the first `n` cells, none of which may be uninitialised.
-/
def copyOut (cells : List (Option α)) (n : Int) : Option (List α) :=
  if 0 ≤ n ∧ n ≤ cells.length then (cells.take n.toNat).mapM id else none

/--
The first cells hold `xs`.
-/
def Holds (cells : List (Option α)) (xs : List α) : Prop :=
  xs.length ≤ cells.length ∧ cells.take xs.length = xs.map some

theorem read_natCast (arr : List α) (k : Nat) : read arr k = arr[k]? := by
  rw [read, if_neg (by omega), Int.toNat_natCast]

theorem write_natCast {arr : List α} {k : Nat} (hk : k < arr.length) (x : α) : write arr k x = some (arr.set k x) := by
  rw [write, if_pos ⟨Int.natCast_nonneg k, by exact_mod_cast hk⟩, Int.toNat_natCast]

theorem swap_natCast {arr : List α} {i j : Nat} (hi : i < arr.length) (hj : j < arr.length)
    : swap arr i j = some (Buffer.swap arr i j) := by
  have hwrite := write_natCast hi arr[j]
  have hwrite' := @write_natCast _ (arr.set i arr[j]) j (by rw [List.length_set]; exact hj) arr[i]
  rw [swap, read_natCast, read_natCast, List.getElem?_eq_getElem hi, List.getElem?_eq_getElem hj,
    Option.bind_eq_bind, Option.bind_some, Option.bind_eq_bind, Option.bind_some, hwrite, Option.bind_some,
    hwrite', Buffer.swap, List.getElem?_eq_getElem hi, List.getElem?_eq_getElem hj]

theorem resize_of_le {fill : α} {arr : List α} {n : Nat} (h : n ≤ arr.length) : resize fill arr n = arr.take n := by
  rw [resize, Int.toNat_natCast, Nat.sub_eq_zero_of_le h, List.replicate_zero, List.append_nil]

theorem holds_nil (cells : List (Option α)) : Holds cells [] :=
  ⟨Nat.zero_le _, rfl⟩

theorem Holds.write {cells : List (Option α)} {xs : List α} (h : Holds cells xs) (hroom : xs.length < cells.length)
    (x : α)
    : write cells xs.length (some x) = some (cells.set xs.length (some x)) ∧
      Holds (cells.set xs.length (some x)) (xs ++ [x]) := by
  obtain ⟨-, htake⟩ := h
  refine ⟨write_natCast hroom _, ?_, ?_⟩
  . rw [List.length_set, List.length_append, List.length_singleton]
    exact hroom
  . rw [List.length_append, List.length_singleton, List.take_succ_eq_append_getElem (by rw [List.length_set]; exact hroom),
      List.take_set_of_le (Nat.le_refl _), htake, List.getElem_set_self, List.map_append, List.map_singleton]

theorem Holds.copyOut {cells : List (Option α)} {xs : List α} (h : Holds cells xs)
    : copyOut cells xs.length = some xs := by
  obtain ⟨hle, htake⟩ := h
  rw [Cells.copyOut, if_pos ⟨Int.natCast_nonneg _, by exact_mod_cast hle⟩, Int.toNat_natCast, htake]
  exact Run.mapM_id_map_some xs

end Cells
