import Mathlib.Algebra.Order.BigOperators.Group.List
import Mathlib.Algebra.Order.Ring.Int

/-!
This module contains how a list is cut into pieces that fill bins one after the other. A new bin is started with the
first item that does not fit, whether or not it fits the new one.
-/

namespace Fill

variable {α : Type u} (size : α → Int) (capacity : Int)

/--
The items for the current bin, which has `left` bytes left and is to get `piece`, and those for the following bins.
-/
def pieces (left : Int) (piece : List α) : List α → List α × List (List α)
  | [] => (piece, [])
  | x :: xs =>
    if left < (piece.map size).sum + size x then
      let next := pieces capacity [x] xs
      (piece, next.1 :: next.2)
    else
      pieces left (piece ++ [x]) xs

/--
No sum that is compared with the bytes that are left exceeds `limit`.
-/
def Bounded (limit left : Int) (piece : List α) : List α → Prop
  | [] => True
  | x :: xs =>
    (piece.map size).sum + size x ≤ limit ∧
      if left < (piece.map size).sum + size x then
        Bounded limit capacity [x] xs
      else
        Bounded limit left (piece ++ [x]) xs

instance instDecidableBounded (limit left : Int) (piece : List α)
    : (xs : List α) → Decidable (Bounded size capacity limit left piece xs)
  | [] => .isTrue trivial
  | x :: xs =>
    have := instDecidableBounded limit capacity [x] xs
    have := instDecidableBounded limit left (piece ++ [x]) xs
    inferInstanceAs (Decidable ((piece.map size).sum + size x ≤ limit ∧
      if left < (piece.map size).sum + size x then
        Bounded size capacity limit capacity [x] xs
      else
        Bounded size capacity limit left (piece ++ [x]) xs))

variable {size capacity} {left : Int}

theorem pieces_flatten (piece xs : List α)
    : (pieces size capacity left piece xs).1 ++ (pieces size capacity left piece xs).2.flatten = piece ++ xs := by
  induction xs generalizing left piece with
  | nil => simp [pieces]
  | cons x xs ih =>
    rw [pieces]
    split
    . rw [List.flatten_cons, ih, List.singleton_append]
    . rw [ih, List.append_assoc, List.singleton_append]

theorem pieces_fst (piece xs : List α)
    : (pieces size capacity left piece xs).1 = piece ∨
        ((pieces size capacity left piece xs).1.map size).sum ≤ left := by
  induction xs generalizing piece with
  | nil => exact .inl rfl
  | cons x xs ih =>
    rw [pieces]
    split
    . exact .inl rfl
    . next hfits =>
      rcases ih (piece ++ [x]) with heq | hle
      . right
        rw [heq, List.map_append, List.sum_append, List.map_singleton, List.sum_singleton]
        omega
      . exact .inr hle

theorem pieces_fst_eq_append (piece xs : List α)
    : ∃ more, (pieces size capacity left piece xs).1 = piece ++ more := by
  induction xs generalizing piece with
  | nil => exact ⟨[], (List.append_nil piece).symm⟩
  | cons x xs ih =>
    rw [pieces]
    split
    . exact ⟨[], (List.append_nil piece).symm⟩
    . obtain ⟨more, hmore⟩ := ih (piece ++ [x])
      exact ⟨x :: more, by rw [hmore, List.append_assoc, List.singleton_append]⟩

theorem pieces_snd (piece xs : List α)
    : ∀ bin ∈ (pieces size capacity left piece xs).2,
        bin ≠ [] ∧ ((bin.map size).sum ≤ capacity ∨ ∃ x, bin = [x]) := by
  induction xs generalizing left piece with
  | nil => simp [pieces]
  | cons x xs ih =>
    rw [pieces]
    split
    . intro bin hbin
      rcases List.mem_cons.mp hbin with rfl | hbin
      . obtain ⟨more, hmore⟩ := @pieces_fst_eq_append _ size capacity capacity [x] xs
        refine ⟨by rw [hmore]; simp, ?_⟩
        rcases @pieces_fst _ size capacity capacity [x] xs with heq | hle
        . exact .inr ⟨x, heq⟩
        . exact .inl hle
      . exact ih [x] bin hbin
    . exact ih _

theorem sum_pieces_le {limit : Int} (hsize : ∀ x, 0 ≤ size x) {piece xs : List α}
    (hpiece : (piece.map size).sum ≤ limit) (h : Bounded size capacity limit left piece xs)
    : ((pieces size capacity left piece xs).1.map size).sum ≤ limit ∧
        ∀ bin ∈ (pieces size capacity left piece xs).2, (bin.map size).sum ≤ limit := by
  induction xs generalizing left piece with
  | nil => exact ⟨hpiece, by simp [pieces]⟩
  | cons x xs ih =>
    rw [Bounded] at h
    rw [pieces]
    obtain ⟨hx, h⟩ := h
    split at h
    . next hcut =>
      rw [if_pos hcut]
      have hsum : 0 ≤ (piece.map size).sum := by
        apply List.sum_nonneg
        intro s hs
        obtain ⟨y, -, rfl⟩ := List.mem_map.mp hs
        exact hsize y
      have hone : (([x] : List α).map size).sum ≤ limit := by
        rw [List.map_singleton, List.sum_singleton]
        omega
      obtain ⟨hfirst, hrest⟩ := ih hone h
      refine ⟨hpiece, ?_⟩
      intro bin hbin
      rcases List.mem_cons.mp hbin with rfl | hbin
      . exact hfirst
      . exact hrest bin hbin
    . next hfits =>
      rw [if_neg hfits]
      apply ih _ h
      rw [List.map_append, List.sum_append, List.map_singleton, List.sum_singleton]
      exact hx

end Fill
