import Mathlib.Data.List.Basic
import Mathlib.Order.Lattice

/-!
This module contains finite maps that are kept as the list of their entries in the order of the keys, so two maps with
the same entries are equal and walking a map visits the keys in ascending order.
-/

/--
A finite map whose entries are in ascending order of their keys.
-/
structure SortedMap (κ : Type u) (ν : Type v) [LinearOrder κ] where
  entries : List (κ × ν)
  sorted : (entries.map Prod.fst).Pairwise (· < ·)
  deriving DecidableEq

namespace SortedMap

variable {κ : Type u} {ν : Type v} [LinearOrder κ]

instance : EmptyCollection (SortedMap κ ν) where
  emptyCollection := ⟨[], .nil⟩

def keys (m : SortedMap κ ν) : List κ :=
  m.entries.map Prod.fst

instance : Membership κ (SortedMap κ ν) where
  mem m k := k ∈ m.keys

instance (k : κ) (m : SortedMap κ ν) : Decidable (k ∈ m) :=
  inferInstanceAs (Decidable (k ∈ m.keys))

def lookup (m : SortedMap κ ν) (k : κ) : Option ν :=
  m.entries.lookup k

theorem lookup_cons_eq (k k' : κ) (v : ν) (es : List (κ × ν))
    : ((k', v) :: es).lookup k = if k = k' then some v else es.lookup k := by
  rw [List.lookup_cons]
  by_cases h : k = k'
  . simp [h]
  . rw [if_neg h, beq_false_of_ne h]

/--
Put an entry at its place, or replace the one with the same key.
-/
def insertEntry (k : κ) (v : ν) : List (κ × ν) → List (κ × ν)
  | [] => [(k, v)]
  | e :: es =>
    if k < e.1 then
      (k, v) :: e :: es
    else if e.1 < k then
      e :: insertEntry k v es
    else
      (k, v) :: es

theorem mem_keys_insertEntry {k k' : κ} {v : ν} {es : List (κ × ν)}
    : k' ∈ (insertEntry k v es).map Prod.fst ↔ k' = k ∨ k' ∈ es.map Prod.fst := by
  induction es with
  | nil => simp [insertEntry]
  | cons e es ih =>
    rw [insertEntry]
    split
    . simp
    . split
      . rw [List.map_cons, List.mem_cons, ih, List.map_cons, List.mem_cons]
        tauto
      . next hge hle =>
        have heq : e.1 = k := le_antisymm (not_lt.mp hge) (not_lt.mp hle)
        simp [heq]

theorem insertEntry_sorted {es : List (κ × ν)} (h : (es.map Prod.fst).Pairwise (· < ·)) (k : κ) (v : ν)
    : ((insertEntry k v es).map Prod.fst).Pairwise (· < ·) := by
  induction es with
  | nil => simp [insertEntry]
  | cons e es ih =>
    rw [List.map_cons, List.pairwise_cons] at h
    rw [insertEntry]
    split
    . next hlt =>
      rw [List.map_cons, List.pairwise_cons, List.map_cons, List.forall_mem_cons]
      exact ⟨⟨hlt, fun k' hk' => lt_trans hlt (h.1 k' hk')⟩, List.pairwise_cons.mpr h⟩
    . split
      . next hlt =>
        rw [List.map_cons, List.pairwise_cons]
        refine ⟨?_, ih h.2⟩
        intro k' hk'
        rcases mem_keys_insertEntry.mp hk' with rfl | hk'
        . exact hlt
        . exact h.1 k' hk'
      . next hge hle =>
        have heq : e.1 = k := le_antisymm (not_lt.mp hge) (not_lt.mp hle)
        rw [List.map_cons, List.pairwise_cons]
        exact ⟨fun k' hk' => heq ▸ h.1 k' hk', h.2⟩

theorem lookup_insertEntry {es : List (κ × ν)} (k k' : κ) (v : ν)
    : (insertEntry k v es).lookup k' = if k' = k then some v else es.lookup k' := by
  induction es with
  | nil => rw [insertEntry, lookup_cons_eq]
  | cons e es ih =>
    obtain ⟨k₁, v₁⟩ := e
    rw [insertEntry]
    split
    . rw [lookup_cons_eq]
    . split
      . next hlt =>
        rw [lookup_cons_eq, ih, lookup_cons_eq]
        by_cases hk : k' = k₁
        . subst hk
          rw [if_pos rfl, if_pos rfl, if_neg (ne_of_lt hlt)]
        . rw [if_neg hk, if_neg hk]
      . next hge hle =>
        have heq : k₁ = k := le_antisymm (not_lt.mp hge) (not_lt.mp hle)
        subst heq
        rw [lookup_cons_eq, lookup_cons_eq]
        split <;> rfl

def insert (m : SortedMap κ ν) (k : κ) (v : ν) : SortedMap κ ν where
  entries := insertEntry k v m.entries
  sorted := insertEntry_sorted m.sorted k v

def erase (m : SortedMap κ ν) (k : κ) : SortedMap κ ν where
  entries := m.entries.filter fun e => e.1 ≠ k
  sorted := m.sorted.sublist (List.filter_sublist.map Prod.fst)

variable {m m' : SortedMap κ ν} {k k' : κ} {v : ν}

@[simp] theorem lookup_empty : (∅ : SortedMap κ ν).lookup k = none := rfl

theorem lookup_insert (m : SortedMap κ ν) (k k' : κ) (v : ν)
    : (m.insert k v).lookup k' = if k' = k then some v else m.lookup k' :=
  lookup_insertEntry k k' v

theorem lookup_filter_ne (es : List (κ × ν)) (k k' : κ)
    : (es.filter fun e => e.1 ≠ k).lookup k' = if k' = k then none else es.lookup k' := by
  induction es with
  | nil => simp
  | cons e es ih =>
    obtain ⟨k₁, v₁⟩ := e
    rw [List.filter_cons]
    by_cases hk₁ : k₁ = k
    . subst hk₁
      by_cases hk : k' = k₁
      . simpa [hk] using ih
      . rw [lookup_cons_eq, if_neg hk]
        simpa [hk] using ih
    . by_cases hk : k' = k₁
      . subst hk
        simp [hk₁]
      . rw [lookup_cons_eq, if_neg hk, ← ih]
        simp [hk₁, lookup_cons_eq, hk]

theorem lookup_erase (m : SortedMap κ ν) (k k' : κ)
    : (m.erase k).lookup k' = if k' = k then none else m.lookup k' :=
  lookup_filter_ne m.entries k k'

theorem mem_iff : k ∈ m ↔ ∃ v, m.lookup k = some v := by
  have hlookup : ∀ es : List (κ × ν), k ∈ es.map Prod.fst ↔ ∃ v, es.lookup k = some v := by
    intro es
    induction es with
    | nil => simp
    | cons e es ih =>
      rw [List.map_cons, List.mem_cons, ih, lookup_cons_eq k e.1 e.2]
      by_cases hk : k = e.1 <;> simp [hk]
  exact hlookup m.entries

theorem mem_of_lookup (h : m.lookup k = some v) : k ∈ m :=
  mem_iff.mpr ⟨v, h⟩

theorem lookup_eq_none : m.lookup k = none ↔ k ∉ m := by
  rw [mem_iff]
  cases m.lookup k <;> simp

@[simp] theorem mem_insert : k' ∈ m.insert k v ↔ k' = k ∨ k' ∈ m :=
  mem_keys_insertEntry

@[simp] theorem mem_erase : k' ∈ m.erase k ↔ k' ≠ k ∧ k' ∈ m := by
  rw [mem_iff, mem_iff, lookup_erase]
  by_cases hk : k' = k <;> simp [hk]

theorem insertEntry_of_lt {es : List (κ × ν)} (h : ∀ k' ∈ es.map Prod.fst, k' < k)
    : insertEntry k v es = es ++ [(k, v)] := by
  induction es with
  | nil => rfl
  | cons e es ih =>
    rw [List.map_cons, List.forall_mem_cons] at h
    rw [insertEntry, if_neg (not_lt_of_gt h.1), if_pos h.1, ih h.2]
    rfl

theorem ext_entries (h : m.entries = m'.entries) : m = m' := by
  cases m
  cases m'
  cases h
  rfl

theorem foldl_insert_entries (m : SortedMap κ ν)
    : m.entries.foldl (fun acc e => acc.insert e.1 e.2) ∅ = m := by
  have hfold : ∀ (es : List (κ × ν)) (acc : SortedMap κ ν),
      ((acc.entries ++ es).map Prod.fst).Pairwise (· < ·) →
      (es.foldl (fun acc e => acc.insert e.1 e.2) acc).entries = acc.entries ++ es := by
    intro es
    induction es with
    | nil => simp
    | cons e es ih =>
      intro acc hsorted
      have hlt : ∀ k' ∈ acc.entries.map Prod.fst, k' < e.1 := by
        rw [List.map_append, List.pairwise_append] at hsorted
        exact fun k' hk' => hsorted.2.2 k' hk' e.1 (by simp)
      have hinsert : (acc.insert e.1 e.2).entries = acc.entries ++ [e] := insertEntry_of_lt hlt
      rw [List.foldl_cons, ih, hinsert, List.append_assoc, List.singleton_append]
      rw [hinsert, List.append_assoc]
      exact hsorted
  exact ext_entries (hfold m.entries ∅ m.sorted)

end SortedMap
