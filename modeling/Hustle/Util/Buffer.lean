import Mathlib.Data.Nat.Digits.Lemmas

/-!
This module contains the growable buffers that the storage layer copies into: writing a run of
elements at a position, reading a run back, and reversing a run in place. A buffer is a list, growing
it is implicit in writing past its end.
-/

namespace Buffer

variable {α : Type u}

/--
Copy `xs` into `buf` starting at index `pos`. Positions between the old end of the buffer and `pos`
that nobody has written to yet hold `default`.
-/
def writeAt [Inhabited α] (buf : List α) (pos : Nat) (xs : List α) : List α :=
  buf.take pos ++ List.replicate (pos - buf.length) default ++ xs ++ buf.drop (pos + xs.length)

/--
Read `n` elements starting at index `pos`, `none` if that leaves the buffer.
-/
def readAt (buf : List α) (pos n : Nat) : Option (List α) :=
  if pos + n ≤ buf.length then some ((buf.drop pos).take n) else none

theorem writeAt_length_self [Inhabited α] (buf xs : List α)
    : writeAt buf buf.length xs = buf ++ xs := by
  simp [writeAt]

theorem writeAt_singleton_lt [Inhabited α] (buf : List α) (pos : Nat) (x : α) (h : pos < buf.length)
    : writeAt buf pos [x] = buf.set pos x := by
  unfold writeAt
  rw [List.set_eq_take_append_cons_drop]
  rw [if_pos h]
  have : pos - buf.length = 0 := by omega
  simp [this]

theorem readAt_append (pre mid post : List α) (pos n : Nat) (hpos : pos = pre.length)
    (hn : n = mid.length)
    : readAt (pre ++ mid ++ post) pos n = some mid := by
  subst hpos hn
  unfold readAt
  rw [if_pos]
  . simp
  . simp

theorem readAt_eq_some_iff {buf xs : List α} {pos n : Nat}
    : readAt buf pos n = some xs ↔ pos + n ≤ buf.length ∧ (buf.drop pos).take n = xs := by
  unfold readAt
  split
  . next h => simp [h]
  . next h => simp [h]

theorem length_of_readAt_eq_some {buf xs : List α} {pos n : Nat} (h : readAt buf pos n = some xs)
    : xs.length = n := by
  rw [readAt_eq_some_iff] at h
  obtain ⟨hle, rfl⟩ := h
  simp
  omega

def swap (arr : List α) (i j : Nat) : List α :=
  match arr[i]?, arr[j]? with
  | some a, some b => (arr.set i b).set j a
  | _, _ => arr

/--
Reverse the first `n` elements in place, exchanging the element at `k` with the one at `n - 1 - k`
for as long as the first index is the smaller one.
-/
def reversePrefix (arr : List α) (n : Nat) : List α :=
  (List.range (n / 2)).foldl (fun arr k => swap arr k (n - 1 - k)) arr

theorem length_swap (arr : List α) (i j : Nat) : (swap arr i j).length = arr.length := by
  unfold swap
  split <;> simp

theorem getElem?_swap (arr : List α) (i j k : Nat) (hi : i < arr.length) (hj : j < arr.length)
    : (swap arr i j)[k]? = if k = j then arr[i]? else if k = i then arr[j]? else arr[k]? := by
  unfold swap
  rw [List.getElem?_eq_getElem hi, List.getElem?_eq_getElem hj]
  simp only [List.getElem?_set, List.length_set]
  by_cases hkj : k = j
  . subst hkj
    simp [hj]
  . by_cases hki : k = i
    . subst hki
      simp [hkj, Ne.symm hkj, hi]
    . simp [hkj, hki, Ne.symm hkj, Ne.symm hki]

theorem length_foldl_swap (arr : List α) (n : Nat) (ks : List Nat)
    : (ks.foldl (fun arr k => swap arr k (n - 1 - k)) arr).length = arr.length := by
  induction ks generalizing arr with
  | nil => simp
  | cons k ks ih =>
    rw [List.foldl_cons]
    rw [ih]
    rw [length_swap]

/--
After the first `m` exchanges the elements outside of `[m, n - m)` are mirrored.
-/
theorem getElem?_foldl_swap (arr : List α) (n m k : Nat) (hn : n ≤ arr.length) (hm : m ≤ n / 2)
    : ((List.range m).foldl (fun arr k => swap arr k (n - 1 - k)) arr)[k]?
        =
      if k < m ∨ (n - m ≤ k ∧ k < n) then arr[n - 1 - k]? else arr[k]? := by
  induction m generalizing k with
  | zero =>
    have : ¬(k < 0 ∨ (n - 0 ≤ k ∧ k < n)) := by omega
    simp only [List.range_zero, List.foldl_nil, this, ↓reduceIte]
  | succ m ih =>
    rw [List.range_succ, List.foldl_append]
    simp only [List.foldl_cons, List.foldl_nil]
    rw [getElem?_swap]
    . rw [ih _ (by omega), ih _ (by omega), ih _ (by omega)]
      by_cases hk : k = n - 1 - m
      . have h1 : ¬(m < m ∨ (n - m ≤ m ∧ m < n)) := by omega
        simp only [hk, ↓reduceIte, h1]
        rw [if_pos (by omega)]
        congr 1
        omega
      . by_cases hk' : k = m
        . have h1 : ¬(n - 1 - m < m ∨ (n - m ≤ n - 1 - m ∧ n - 1 - m < n)) := by omega
          subst hk'
          simp only [hk, ↓reduceIte, h1]
          rw [if_pos (by omega)]
        . simp only [hk, hk', ↓reduceIte]
          congr 1
          apply propext
          omega
    . rw [length_foldl_swap]
      omega
    . rw [length_foldl_swap]
      omega

theorem reversePrefix_eq (arr : List α) (n : Nat) (h : n ≤ arr.length)
    : reversePrefix arr n = (arr.take n).reverse ++ arr.drop n := by
  apply List.ext_getElem?
  intro k
  unfold reversePrefix
  rw [getElem?_foldl_swap _ _ _ _ h (by omega)]
  rw [List.getElem?_append]
  have hlen : (arr.take n).reverse.length = n := by simp [h]
  rw [hlen]
  split
  . next hk =>
    have hk' : k < n := by omega
    rw [if_pos hk', List.getElem?_reverse (by simp; omega)]
    rw [List.length_take_of_le h]
    rw [List.getElem?_take_of_lt (by omega)]
  . next hk =>
    split
    . next hk' =>
      have : k = n - 1 - k := by omega
      rw [List.getElem?_reverse (by simp; omega)]
      rw [List.length_take_of_le h]
      rw [List.getElem?_take_of_lt (by omega)]
      rw [← this]
    . next hk' =>
      rw [List.getElem?_drop]
      congr 1
      omega

end Buffer
