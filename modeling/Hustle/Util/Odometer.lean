import Mathlib.Algebra.BigOperators.Group.List.Basic
import Mathlib.Data.List.Forall2
import Mathlib.Data.List.Nodup

/-!
This module contains counters with several digits, each of which has a bound of its own. The last digit runs
fastest, and a walk goes through all values of a counter.
-/

namespace Odometer

def Below (bounds digits : List Nat) : Prop :=
  List.Forall₂ (fun bound d => d < bound) bounds digits

/--
The number of the values that come before.
-/
def rank : List Nat → List Nat → Nat
  | _ :: bounds, d :: digits => d * bounds.prod + rank bounds digits
  | _, _ => 0

def zero (bounds : List Nat) : List Nat :=
  bounds.map fun _ => 0

/--
The next value. A digit that reaches its bound becomes zero, and the one before it goes on.
-/
def next : List Nat → List Nat → Option (List Nat)
  | bound :: bounds, d :: digits =>
    match next bounds digits with
    | some digits => some (d :: digits)
    | none => if d + 1 = bound then none else some ((d + 1) :: zero bounds)
  | _, _ => none

/--
The values from a value on. There is room for `n` of them.
-/
def walk (bounds : List Nat) : Nat → List Nat → Option (List (List Nat))
  | 0, _ => none
  | n + 1, digits =>
    match next bounds digits with
    | none => some [digits]
    | some digits' => (walk bounds n digits').map (digits :: ·)

section

variable {bounds digits digits' : List Nat}

theorem zero_below (h : ∀ bound ∈ bounds, 0 < bound) : Below bounds (zero bounds) := by
  induction bounds with
  | nil => exact .nil
  | cons bound bounds ih =>
    exact .cons (h bound (by simp)) (ih fun b hb => h b (by simp [hb]))

theorem rank_zero (bounds : List Nat) : rank bounds (zero bounds) = 0 := by
  induction bounds with
  | nil => rfl
  | cons bound bounds ih =>
    show 0 * bounds.prod + rank bounds (zero bounds) = 0
    rw [ih, Nat.zero_mul]

theorem rank_lt (h : Below bounds digits) : rank bounds digits < bounds.prod := by
  induction h with
  | nil => simp [rank]
  | @cons bound d bounds digits hd _ ih =>
    rw [rank, List.prod_cons]
    calc d * bounds.prod + rank bounds digits
      _ < d * bounds.prod + bounds.prod := by omega
      _ = (d + 1) * bounds.prod := by rw [Nat.add_mul, Nat.one_mul]
      _ ≤ bound * bounds.prod := Nat.mul_le_mul_right _ hd

theorem rank_injective (h : Below bounds digits) (h' : Below bounds digits')
    (heq : rank bounds digits = rank bounds digits')
    : digits = digits' := by
  induction h generalizing digits' with
  | nil =>
    cases h'
    rfl
  | @cons bound d bounds digits hd hdigits ih =>
    cases h' with
    | @cons _ d' _ digits' hd' hdigits' =>
      rw [rank, rank] at heq
      have hlt := rank_lt hdigits
      have hlt' := rank_lt hdigits'
      have hfirst : d = d' := by
        have hdiv := congrArg (· / bounds.prod) heq
        simp only [Nat.mul_comm d, Nat.mul_comm d', Nat.mul_add_div (Nat.zero_lt_of_lt hlt),
          Nat.div_eq_of_lt hlt, Nat.div_eq_of_lt hlt', Nat.add_zero] at hdiv
        exact hdiv
      subst hfirst
      rw [ih hdigits' (by omega)]

theorem next_eq_none (h : Below bounds digits) (hnext : next bounds digits = none)
    : rank bounds digits + 1 = bounds.prod := by
  induction h with
  | nil => rfl
  | @cons bound d bounds digits hd _ ih =>
    rw [next] at hnext
    split at hnext
    . cases hnext
    . next hnone =>
      split at hnext
      . next hbound =>
        rw [rank, List.prod_cons, ← hbound, Nat.add_assoc, ih hnone, Nat.add_mul, Nat.one_mul]
      . cases hnext

theorem next_eq_some (h : Below bounds digits) (hnext : next bounds digits = some digits')
    : Below bounds digits' ∧ rank bounds digits' = rank bounds digits + 1 := by
  induction h generalizing digits' with
  | nil => cases hnext
  | @cons bound d bounds digits hd hdigits ih =>
    rw [next] at hnext
    split at hnext
    . next digits₁ hsome =>
      cases hnext
      obtain ⟨hbelow, hrank⟩ := ih hsome
      refine ⟨.cons hd hbelow, ?_⟩
      rw [rank, rank, hrank, Nat.add_assoc]
    . next hnone =>
      split at hnext
      . cases hnext
      . next hbound =>
        cases hnext
        have hpos : ∀ b ∈ bounds, 0 < b := by
          intro b hb
          obtain ⟨i, hi, rfl⟩ := List.mem_iff_getElem.mp hb
          exact Nat.zero_lt_of_lt (hdigits.get hi (hdigits.length_eq ▸ hi))
        refine ⟨.cons (by omega) (zero_below hpos), ?_⟩
        rw [rank, rank, rank_zero, Nat.add_zero, Nat.add_mul, Nat.one_mul, ← next_eq_none hdigits hnone]
        omega

/-! The last digits. -/

theorem zero_concat (bounds : List Nat) (bound : Nat) : zero (bounds ++ [bound]) = zero bounds ++ [0] := by
  simp [zero]

theorem below_concat {bound d : Nat} (h : bounds.length = digits.length)
    : Below (bounds ++ [bound]) (digits ++ [d]) ↔ Below bounds digits ∧ d < bound := by
  induction bounds generalizing digits with
  | nil =>
    rw [List.length_eq_zero_iff.mp h.symm]
    simp [Below]
  | cons b bounds ih =>
    cases digits with
    | nil => cases h
    | cons e digits =>
      have ih := ih (Nat.succ.inj h)
      unfold Below at ih ⊢
      rw [List.cons_append, List.cons_append, List.forall₂_cons, List.forall₂_cons, ih, and_assoc]

theorem next_concat (h : bounds.length = digits.length) (bound d : Nat)
    : next (bounds ++ [bound]) (digits ++ [d])
        =
      if d + 1 = bound then (next bounds digits).map (· ++ [0]) else some (digits ++ [d + 1]) := by
  induction bounds generalizing digits with
  | nil =>
    rw [List.length_eq_zero_iff.mp h.symm]
    rfl
  | cons b bounds ih =>
    cases digits with
    | nil => cases h
    | cons e digits =>
      rw [List.cons_append, List.cons_append, next, ih (Nat.succ.inj h), next]
      by_cases hbound : d + 1 = bound
      . rw [if_pos hbound, if_pos hbound]
        cases next bounds digits with
        | some digits' => rfl
        | none =>
          simp only [Option.map_none, zero_concat]
          split <;> rfl
      . rw [if_neg hbound, if_neg hbound]
        rfl

theorem lex_of_rank_lt (h : Below bounds digits) (h' : Below bounds digits')
    (hlt : rank bounds digits < rank bounds digits')
    : List.Lex (· < ·) digits digits' := by
  induction h generalizing digits' with
  | nil =>
    cases h'
    exact absurd hlt (Nat.lt_irrefl _)
  | @cons bound d bounds digits hd hdigits ih =>
    cases h' with
    | @cons _ d' _ digits' hd' hdigits' =>
      rw [rank, rank] at hlt
      rcases Nat.lt_trichotomy d d' with hless | rfl | hgreater
      . exact .rel hless
      . exact .cons (ih hdigits' (by omega))
      . have hrank := rank_lt hdigits'
        have hmul : (d' + 1) * bounds.prod ≤ d * bounds.prod := Nat.mul_le_mul_right _ hgreater
        rw [Nat.add_mul, Nat.one_mul] at hmul
        omega

theorem walk_eq (h : Below bounds digits) {n : Nat} (hn : rank bounds digits + n = bounds.prod)
    : ∃ values, walk bounds n digits = some values ∧ (∀ x ∈ values, Below bounds x) ∧
        values.map (rank bounds) = List.range' (rank bounds digits) n := by
  induction n generalizing digits with
  | zero =>
    have := rank_lt h
    omega
  | succ n ih =>
    rw [walk]
    cases hnext : next bounds digits with
    | none =>
      have := next_eq_none h hnext
      have hzero : n = 0 := by omega
      subst hzero
      exact ⟨[digits], rfl, by simpa using h, rfl⟩
    | some digits' =>
      obtain ⟨hbelow, hrank⟩ := next_eq_some h hnext
      obtain ⟨values, hwalk, hvalues, hranks⟩ := ih hbelow (by omega)
      refine ⟨digits :: values, by simp [hwalk], ?_, ?_⟩
      . intro x hx
        rcases List.mem_cons.mp hx with rfl | hx
        . exact h
        . exact hvalues x hx
      . rw [List.map_cons, hranks, hrank, List.range'_succ]

theorem walk_zero (h : ∀ bound ∈ bounds, 0 < bound)
    : ∃ values, walk bounds bounds.prod (zero bounds) = some values ∧ values.Nodup ∧
        values.length = bounds.prod ∧ ∀ x, x ∈ values ↔ Below bounds x := by
  obtain ⟨values, hwalk, hvalues, hranks⟩ := @walk_eq bounds _ (zero_below h) bounds.prod (by
    rw [rank_zero, Nat.zero_add])
  rw [rank_zero] at hranks
  refine ⟨values, hwalk, ?_, ?_, fun x => ⟨hvalues x, ?_⟩⟩
  . apply List.Nodup.of_map (rank bounds)
    rw [hranks]
    exact List.nodup_range' ..
  . have := congrArg List.length hranks
    simpa using this
  . intro hx
    have hmem : rank bounds x ∈ values.map (rank bounds) := by
      rw [hranks, List.mem_range'_1]
      exact ⟨Nat.zero_le _, by simpa using rank_lt hx⟩
    obtain ⟨y, hy, hrank⟩ := List.mem_map.mp hmem
    rwa [← rank_injective (hvalues y hy) hx hrank]

theorem walk_pairwise (h : ∀ bound ∈ bounds, 0 < bound) {values : List (List Nat)}
    (hwalk : walk bounds bounds.prod (zero bounds) = some values)
    : values.Pairwise (List.Lex (· < ·)) := by
  obtain ⟨values', hwalk', hvalues, hranks⟩ := @walk_eq bounds _ (zero_below h) bounds.prod (by
    rw [rank_zero, Nat.zero_add])
  cases hwalk.symm.trans hwalk'
  have hsorted : (values.map (rank bounds)).Pairwise (· < ·) := by
    rw [hranks]
    exact List.pairwise_lt_range'
  rw [List.pairwise_map] at hsorted
  apply hsorted.imp_of_mem
  intro x y hx hy hlt
  exact lex_of_rank_lt (hvalues x hx) (hvalues y hy) hlt

end

end Odometer
