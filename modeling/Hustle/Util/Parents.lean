import Mathlib.Data.Finset.Card
import Mathlib.Data.Nat.Find
import Mathlib.Logic.Function.Iterate

/-!
This module contains forests that are given by the parents of their nodes. The root of a tree is its own parent.
-/

namespace Parents

/--
The way up from a node ends at a root.
-/
inductive Reaches {V : Type u} (parent : V → V) : V → V → Prop
  | root {r : V} (h : parent r = r) : Reaches parent r r
  | step {i r : V} (h : Reaches parent (parent i) r) : Reaches parent i r

/--
The node that is reached from `i` in `fuel` steps, or the root before it.
-/
def climb {V : Type u} [DecidableEq V] (parent : V → V) : Nat → V → V
  | 0, i => i
  | fuel + 1, i => if parent i = i then i else climb parent fuel (parent i)

section

variable {V : Type u} {parent : V → V} {i r s : V}

theorem Reaches.isRoot (h : Reaches parent i r) : parent r = r := by
  induction h with
  | root h => exact h
  | step _ ih => exact ih

theorem Reaches.closed {p : V → Prop} (hp : ∀ j, p j → p (parent j)) (h : Reaches parent i r) (hi : p i)
    : p r := by
  induction h with
  | root _ => exact hi
  | step _ ih => exact ih (hp _ hi)

theorem Reaches.eq_of_isRoot (h : Reaches parent i r) (hroot : parent i = i) : r = i := by
  induction h with
  | root _ => rfl
  | step h ih => rw [ih (by rw [hroot, hroot]), hroot]

theorem Reaches.unique (h : Reaches parent i r) (h' : Reaches parent i s) : s = r := by
  induction h with
  | root hroot => exact h'.eq_of_isRoot hroot
  | step h ih =>
    cases h' with
    | root hroot =>
      rw [hroot] at h
      exact (h.eq_of_isRoot hroot).symm
    | step h' => exact ih h'

theorem Reaches.iterate (h : Reaches parent i r) : ∃ k, parent^[k] i = r := by
  induction h with
  | root _ => exact ⟨0, rfl⟩
  | step _ ih =>
    obtain ⟨k, hk⟩ := ih
    exact ⟨k + 1, hk⟩

theorem Reaches.eq_of_iterate (h : Reaches parent i r) {k : Nat} (hk : 0 < k) (hcycle : parent^[k] i = i)
    : parent i = i := by
  obtain ⟨m, hm⟩ := h.iterate
  have hround : parent^[k * m] i = i := by
    rw [Function.iterate_mul]
    exact Function.iterate_fixed hcycle m
  have hle : m ≤ k * m := Nat.le_mul_of_pos_left m hk
  rw [← Nat.sub_add_cancel hle, Function.iterate_add_apply, hm, Function.iterate_fixed h.isRoot] at hround
  rw [← hround, h.isRoot]

variable [DecidableEq V]

theorem iterate_redirect {x j : V} {k : Nat} (hroot : parent r = r) (h : parent^[k] j = r)
    : (Function.update parent x r)^[k] j = r := by
  have hroot' : Function.update parent x r r = r := by
    by_cases hxr : r = x
    . rw [hxr, Function.update_self]
    . rw [Function.update_of_ne hxr, hroot]
  induction k generalizing j with
  | zero => exact h
  | succ k ih =>
    rw [Function.iterate_succ_apply]
    by_cases hjx : j = x
    . rw [hjx, Function.update_self, Function.iterate_fixed hroot']
    . rw [Function.update_of_ne hjx]
      exact ih h

theorem Reaches.redirect {x : V} (hx : Reaches parent x r) (h : Reaches parent i s)
    : Reaches (Function.update parent x r) i s := by
  have hroot : Function.update parent x r r = r := by
    by_cases hxr : r = x
    . rw [hxr, Function.update_self]
    . rw [Function.update_of_ne hxr, hx.isRoot]
  induction h with
  | @root s h =>
    apply Reaches.root
    by_cases hsx : s = x
    . subst hsx
      rw [Function.update_self, hx.eq_of_isRoot h]
    . rw [Function.update_of_ne hsx, h]
  | @step i s h ih =>
    apply Reaches.step
    by_cases hix : i = x
    . subst hix
      rw [Function.update_self, hx.unique (.step h)]
      exact .root hroot
    . rwa [Function.update_of_ne hix]

theorem Reaches.link {a b : V} (ha : parent a = a) (hb : parent b = b) (hne : a ≠ b) (h : Reaches parent i s)
    : Reaches (Function.update parent a b) i (if s = a then b else s) := by
  have hroot : Function.update parent a b b = b := by rw [Function.update_of_ne hne.symm, hb]
  induction h with
  | @root s h =>
    by_cases hsa : s = a
    . rw [if_pos hsa, hsa]
      apply Reaches.step
      rw [Function.update_self]
      exact .root hroot
    . rw [if_neg hsa]
      apply Reaches.root
      rw [Function.update_of_ne hsa, h]
  | @step i s h ih =>
    by_cases hi : i = a
    . subst hi
      rwa [ha] at ih
    . apply Reaches.step
      rwa [Function.update_of_ne hi]

end

section

variable {parent : Nat → Nat} {i r n : Nat}

theorem climb_eq_iterate (fuel i : Nat) : climb parent fuel i = parent^[fuel] i := by
  induction fuel generalizing i with
  | zero => rfl
  | succ fuel ih =>
    rw [climb, Function.iterate_succ_apply]
    split
    . next h => rw [h, Function.iterate_fixed h]
    . rw [ih]

theorem climb_eq_of_reaches (hbound : ∀ j < n, parent j < n) (hi : i < n) (h : Reaches parent i r)
    : climb parent n i = r := by
  have hex := h.iterate
  let k := Nat.find hex
  have hk : parent^[k] i = r := Nat.find_spec hex
  have hlt : ∀ j, parent^[j] i < n := by
    intro j
    induction j with
    | zero => exact hi
    | succ j ih =>
      rw [Function.iterate_succ_apply']
      exact hbound _ ih
  have hinj : ∀ a < k, ∀ b < k, a < b → parent^[a] i ≠ parent^[b] i := by
    intro a ha b hb hab heq
    -- cutting the way between the two visits out leads to the root, too
    have : parent^[k - b + a] i = r := by
      rw [Function.iterate_add_apply, heq, ← Function.iterate_add_apply, Nat.sub_add_cancel hb.le, hk]
    have := Nat.find_min' hex this
    omega
  have hcard : k ≤ n := by
    have := Finset.card_le_card_of_injOn (s := Finset.range k) (t := Finset.range n)
      (fun j => parent^[j] i) (fun j _ => by simp [hlt j]) (by
        intro a ha b hb heq
        simp only [Finset.coe_range, Set.mem_Iio] at ha hb
        rcases Nat.lt_trichotomy a b with hab | hab | hab
        . exact absurd heq (hinj a ha b hb hab)
        . exact hab
        . exact absurd heq.symm (hinj b hb a ha hab))
    simpa using this
  rw [climb_eq_iterate, ← Nat.sub_add_cancel hcard, Function.iterate_add_apply, hk,
    Function.iterate_fixed h.isRoot]

end

end Parents
