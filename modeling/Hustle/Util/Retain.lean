import Hustle.Util.Buffer

/-!
This module contains the loop that removes elements from an array in place: an element that is not kept is
exchanged with the last element of the part that is still in use, which then becomes shorter.
-/

namespace Buffer

variable {α β : Type}

/--
The elements at the indices below `k` are kept and the next `n` elements are still to be tested. A test that
fails makes the whole loop fail.
-/
def retain (keep : α → Option Bool) (arr : List α) (k : Nat) : Nat → Option (List α)
  | 0 => some (arr.take k)
  | n + 1 => do
    let x ← arr[k]?
    let kept ← keep x
    if kept then
      retain keep arr (k + 1) n
    else
      retain keep (swap arr k (k + n)) k n

theorem swap_perm (arr : List α) (i j : Nat) : (swap arr i j).Perm arr := by
  unfold swap
  split
  . next a b ha hb =>
    obtain ⟨hi, rfl⟩ := List.getElem?_eq_some_iff.mp ha
    obtain ⟨hj, rfl⟩ := List.getElem?_eq_some_iff.mp hb
    have hperm := (Array.swap_perm (show i < arr.toArray.size by simpa) (show j < arr.toArray.size by simpa)).toList
    simpa using hperm
  . exact .refl _

theorem swap_map (f : α → β) (arr : List α) (i j : Nat) : swap (arr.map f) i j = (swap arr i j).map f := by
  unfold swap
  simp only [List.getElem?_map]
  cases arr[i]? <;> cases arr[j]? <;> simp

theorem take_swap (arr : List α) {k j : Nat} (h : k ≤ j) : (swap arr k j).take k = arr.take k := by
  unfold swap
  split
  . rw [List.take_set_of_le h, List.take_set_of_le (Nat.le_refl k)]
  . rfl

theorem drop_swap {arr : List α} {k j : Nat} {x : α} (hk : arr[k]? = some x) (h : k ≤ j)
    (hj : j < arr.length)
    : (swap arr k j).drop j = x :: arr.drop (j + 1) := by
  apply List.ext_getElem?
  intro i
  have hk' := (List.getElem?_eq_some_iff.mp hk).1
  rw [List.getElem?_drop, getElem?_swap _ _ _ _ hk' hj]
  cases i with
  | zero => simpa using hk
  | succ i =>
    rw [if_neg (by omega), if_neg (by omega), List.getElem?_cons_succ, List.getElem?_drop]
    congr 1
    omega

theorem retain_perm {keep : α → Option Bool} {p : α → Bool} {arr : List α} {k n : Nat}
    (hlen : k + n ≤ arr.length) (hkeep : ∀ x ∈ arr, keep x = some (p x))
    (hfront : ∀ x ∈ arr.take k, p x = true) (hback : ∀ x ∈ arr.drop (k + n), p x = false)
    : ∃ out, retain keep arr k n = some out ∧ out.Perm (arr.filter p) := by
  induction n generalizing arr k with
  | zero =>
    refine ⟨arr.take k, rfl, ?_⟩
    have hsplit : arr.filter p = arr.take k := by
      conv => lhs; rw [← List.take_append_drop k arr]
      rw [List.filter_append, List.filter_eq_self.mpr hfront, List.filter_eq_nil_iff.mpr ?_, List.append_nil]
      intro x hx
      rw [hback x hx]
      exact Bool.false_ne_true
    rw [hsplit]
  | succ n ih =>
    have hk : k < arr.length := by omega
    have hx := List.getElem?_eq_getElem hk
    have htest := hkeep arr[k] (List.getElem_mem hk)
    simp only [retain, hx, htest, Option.bind_eq_bind, Option.bind_some]
    split
    . next hp =>
      apply ih (by omega) hkeep
      . intro x hmem
        rw [List.take_succ_eq_append_getElem hk, List.mem_append, List.mem_singleton] at hmem
        rcases hmem with hmem | rfl
        . exact hfront x hmem
        . exact hp
      . rw [Nat.add_right_comm, Nat.add_assoc]
        exact hback
    . next hp =>
      have hperm := swap_perm arr k (k + n)
      obtain ⟨out, hout, hres⟩ := @ih (swap arr k (k + n)) k
        (by rw [length_swap]; omega)
        (fun x hmem => hkeep x (hperm.mem_iff.mp hmem))
        (by rw [take_swap arr (by omega)]; exact hfront)
        (by
          rw [drop_swap hx (by omega) (by omega)]
          intro x hmem
          rcases List.mem_cons.mp hmem with rfl | hmem
          . exact Bool.eq_false_iff.mpr hp
          . exact hback x hmem)
      exact ⟨out, hout, hres.trans (hperm.filter p)⟩

theorem retain_all_perm {keep : α → Option Bool} {p : α → Bool} {arr : List α}
    (hkeep : ∀ x ∈ arr, keep x = some (p x))
    : ∃ out, retain keep arr 0 arr.length = some out ∧ out.Perm (arr.filter p) :=
  retain_perm (by omega) hkeep (by simp) (by simp)

end Buffer
