import Mathlib.Algebra.BigOperators.Group.List.Basic
import Mathlib.Data.List.Nodup
import Mathlib.Data.List.Perm.Basic

/-!
This module contains maps that entries with keys are collected in. A map of totals has the sum of the entries of
every key, a map of picks has one entry of every key. Maps that were collected from parts of the entries are
merged in the same way.
-/

namespace Accumulate

section

variable {K : Type u} {V : Type v} [DecidableEq K]

/--
The value is inserted, or combined with the one that is there.
-/
def upsert (combine : V → V → V) (k : K) (v : V) : List (K × V) → List (K × V)
  | [] => [(k, v)]
  | (k', v') :: m => if k' = k then (k', combine v v') :: m else (k', v') :: upsert combine k v m

def upserts (combine : V → V → V) (m entries : List (K × V)) : List (K × V) :=
  entries.foldl (fun m e => upsert combine e.1 e.2 m) m

def keys (m : List (K × V)) : List K :=
  m.map Prod.fst

variable {combine : V → V → V} {m m' es es' : List (K × V)} {k k' : K} {v v' : V}

omit [DecidableEq K] in
theorem mem_keys_of_mem (h : (k, v) ∈ m) : k ∈ keys m :=
  List.mem_map_of_mem h

omit [DecidableEq K] in
theorem exists_of_mem_keys (h : k ∈ keys m) : ∃ v, (k, v) ∈ m := by
  obtain ⟨⟨k', v⟩, hmem, rfl⟩ := List.mem_map.mp h
  exact ⟨v, hmem⟩

theorem keys_upsert
    : keys (upsert combine k v m) = if k ∈ keys m then keys m else keys m ++ [k] := by
  induction m with
  | nil => rfl
  | cons e m ih =>
    obtain ⟨k', v'⟩ := e
    rw [upsert]
    split
    . next h =>
      subst h
      simp [keys]
    . next h =>
      have hne : ¬k = k' := fun h' => h h'.symm
      have : keys ((k', v') :: upsert combine k v m) = k' :: keys (upsert combine k v m) := rfl
      rw [this, ih]
      by_cases hk : k ∈ keys m
      . have hk' : k ∈ keys ((k', v') :: m) := List.mem_cons_of_mem _ hk
        rw [if_pos hk, if_pos hk']
        rfl
      . have hk' : k ∉ keys ((k', v') :: m) := by
          intro h'
          rcases List.mem_cons.mp h' with h' | h'
          . exact hne h'
          . exact hk h'
        rw [if_neg hk, if_neg hk']
        rfl

theorem mem_keys_upsert : k' ∈ keys (upsert combine k v m) ↔ k' ∈ keys m ∨ k' = k := by
  rw [keys_upsert]
  split
  . next h =>
    constructor
    . exact .inl
    . rintro (hk | rfl)
      . exact hk
      . exact h
  . simp

theorem nodup_keys_upsert (h : (keys m).Nodup) : (keys (upsert combine k v m)).Nodup := by
  rw [keys_upsert]
  split
  . exact h
  . next hk => exact List.nodup_append_comm.mp (List.nodup_cons.mpr ⟨hk, h⟩)

theorem mem_upsert_of_ne (hne : k' ≠ k)
    : (k', v') ∈ upsert combine k v m ↔ (k', v') ∈ m := by
  induction m with
  | nil => simp [upsert, hne]
  | cons e m ih =>
    obtain ⟨k₁, v₁⟩ := e
    rw [upsert]
    split
    . next h =>
      subst h
      simp [hne]
    . rw [List.mem_cons, List.mem_cons, ih]

theorem mem_upsert_self (hnodup : (keys m).Nodup) (h : (k, v') ∈ upsert combine k v m)
    : (k ∉ keys m ∧ v' = v) ∨ ∃ w, (k, w) ∈ m ∧ v' = combine v w := by
  induction m with
  | nil =>
    left
    simpa [upsert, keys] using h
  | cons e m ih =>
    obtain ⟨k₁, v₁⟩ := e
    have hnodup : k₁ ∉ keys m ∧ (keys m).Nodup := List.nodup_cons.mp hnodup
    rw [upsert] at h
    split at h
    . next heq =>
      subst heq
      right
      rcases List.mem_cons.mp h with h | h
      . exact ⟨v₁, by simp, (Prod.mk.inj h).2⟩
      . exact absurd (mem_keys_of_mem h) hnodup.1
    . next hne =>
      rcases List.mem_cons.mp h with h | h
      . exact absurd (Prod.mk.inj h).1.symm hne
      . rcases ih hnodup.2 h with ⟨hk, hv⟩ | ⟨w, hw, hv⟩
        . left
          refine ⟨?_, hv⟩
          intro hk'
          rcases List.mem_cons.mp hk' with rfl | hk'
          . exact hne rfl
          . exact hk hk'
        . exact .inr ⟨w, by simp [hw], hv⟩

theorem lookup_upsert
    : (upsert combine k v m).lookup k'
        =
      if k' = k then some ((m.lookup k).elim v (combine v)) else m.lookup k' := by
  induction m with
  | nil =>
    rw [upsert, List.lookup_cons, List.lookup_nil]
    by_cases h : k' = k
    . simp [h]
    . rw [if_neg h, beq_false_of_ne h]
  | cons e m ih =>
    obtain ⟨k₁, v₁⟩ := e
    rw [upsert]
    by_cases hk : k₁ = k
    . subst hk
      rw [if_pos rfl, List.lookup_cons, List.lookup_cons, List.lookup_cons]
      by_cases h : k' = k₁
      . simp [h]
      . rw [if_neg h, beq_false_of_ne h]
    . rw [if_neg hk, List.lookup_cons, List.lookup_cons, List.lookup_cons, ih, beq_false_of_ne (Ne.symm hk)]
      by_cases h : k' = k₁
      . simp only [h, beq_self_eq_true, if_neg hk]
      . rw [beq_false_of_ne h]

theorem lookup_eq_none_iff : m.lookup k = none ↔ k ∉ keys m := by
  rw [List.lookup_eq_none_iff]
  constructor
  . intro h hk
    obtain ⟨v, hv⟩ := exists_of_mem_keys hk
    exact absurd (h (k, v) hv) (by simp)
  . rintro h ⟨k', v⟩ hmem
    have hne : k ≠ k' := by
      rintro rfl
      exact h (mem_keys_of_mem hmem)
    simpa using hne

theorem filter_eq_lookup (hnodup : (keys m).Nodup)
    : m.filter (fun e => e.1 = k) = ((m.lookup k).map fun v => (k, v)).toList := by
  induction m with
  | nil => rfl
  | cons e m ih =>
    obtain ⟨k₁, v₁⟩ := e
    have hnodup : k₁ ∉ keys m ∧ (keys m).Nodup := List.nodup_cons.mp hnodup
    rw [List.filter_cons, ih hnodup.2, List.lookup_cons]
    by_cases h : k₁ = k
    . subst h
      have hnone := lookup_eq_none_iff.mpr hnodup.1
      simp [hnone]
    . rw [if_neg (by simpa using h), beq_false_of_ne (Ne.symm h)]

/-! One entry of every key. -/

/--
The map has one of the entries of every key.
-/
structure Picks (m es : List (K × V)) : Prop where
  nodup : (keys m).Nodup
  mem_keys : ∀ k, k ∈ keys m ↔ k ∈ keys es
  mem : ∀ e ∈ m, e ∈ es

omit [DecidableEq K] in
theorem Picks.nil : Picks ([] : List (K × V)) [] :=
  ⟨List.nodup_nil, by simp [keys], by simp⟩

theorem Picks.upsert (h : Picks m es) (k : K) (v : V)
    : Picks (upsert (fun _ old => old) k v m) (es ++ [(k, v)]) where
  nodup := nodup_keys_upsert h.nodup
  mem_keys := by
    intro k'
    rw [mem_keys_upsert, h.mem_keys]
    simp [keys]
  mem := by
    rintro ⟨k', v'⟩ hmem
    rw [List.mem_append, List.mem_singleton]
    by_cases hne : k' = k
    . subst hne
      rcases mem_upsert_self h.nodup hmem with ⟨-, rfl⟩ | ⟨w, hw, rfl⟩
      . exact .inr rfl
      . exact .inl (h.mem _ hw)
    . rw [mem_upsert_of_ne hne] at hmem
      exact .inl (h.mem _ hmem)

theorem Picks.upserts (h : Picks m es) (es' : List (K × V))
    : Picks (upserts (fun _ old => old) m es') (es ++ es') := by
  induction es' generalizing m es with
  | nil => simpa [Accumulate.upserts] using h
  | cons e es' ih =>
    have := ih (h.upsert e.1 e.2)
    rwa [List.append_assoc, List.singleton_append] at this

omit [DecidableEq K] in
theorem Picks.subset (h : Picks m es) (hkeys : ∀ k, k ∈ keys es ↔ k ∈ keys es') (hsub : es ⊆ es')
    : Picks m es' :=
  ⟨h.nodup, fun k => (h.mem_keys k).trans (hkeys k), fun e he => hsub (h.mem e he)⟩

theorem Picks.merge (h : Picks m es) (h' : Picks m' es')
    : Picks (Accumulate.upserts (fun _ old => old) m m') (es ++ es') := by
  apply (h.upserts m').subset
  . intro k
    have := h'.mem_keys k
    simp only [keys, List.map_append, List.mem_append] at this ⊢
    rw [this]
  . intro e he
    rcases List.mem_append.mp he with he | he
    . exact List.mem_append_left _ he
    . exact List.mem_append_right _ (h'.mem e he)

/-! Sums of the entries of every key. -/

variable [AddCommMonoid V]

def sumOf (es : List (K × V)) (k : K) : V :=
  ((es.filter fun e => e.1 = k).map Prod.snd).sum

/--
The map has the sum of the entries of every key.
-/
structure Totals (m es : List (K × V)) : Prop where
  nodup : (keys m).Nodup
  mem_keys : ∀ k, k ∈ keys m ↔ k ∈ keys es
  value : ∀ k v, (k, v) ∈ m → v = sumOf es k

theorem sumOf_append (es es' : List (K × V)) (k : K) : sumOf (es ++ es') k = sumOf es k + sumOf es' k := by
  simp [sumOf]

theorem sumOf_singleton (k k' : K) (v : V) : sumOf [(k, v)] k' = if k = k' then v else 0 := by
  by_cases h : k = k' <;> simp [sumOf, h]

theorem sumOf_eq_zero (h : k ∉ keys es) : sumOf es k = 0 := by
  have : es.filter (fun e => e.1 = k) = [] := by
    apply List.filter_eq_nil_iff.mpr
    rintro ⟨k', v⟩ he hk
    simp only [decide_eq_true_eq] at hk
    subst hk
    exact h (mem_keys_of_mem he)
  rw [sumOf, this]
  rfl

theorem sumOf_eq_of_mem (hnodup : (keys m).Nodup) (h : (k, v) ∈ m) : sumOf m k = v := by
  induction m with
  | nil => cases h
  | cons e m ih =>
    have hnodup : e.1 ∉ keys m ∧ (keys m).Nodup := List.nodup_cons.mp hnodup
    have hcons : sumOf (e :: m) k = sumOf [e] k + sumOf m k := sumOf_append [e] m k
    rw [hcons]
    rcases List.mem_cons.mp h with rfl | h
    . rw [sumOf_singleton, if_pos rfl, sumOf_eq_zero hnodup.1, add_zero]
    . have hne : e.1 ≠ k := by
        rintro rfl
        exact hnodup.1 (mem_keys_of_mem h)
      rw [show e = (e.1, e.2) from rfl, sumOf_singleton, if_neg hne, zero_add, ih hnodup.2 h]

theorem Totals.nil : Totals ([] : List (K × V)) [] :=
  ⟨List.nodup_nil, by simp [keys], by simp⟩

theorem Totals.upsert (h : Totals m es) (k : K) (v : V)
    : Totals (upsert (· + ·) k v m) (es ++ [(k, v)]) where
  nodup := nodup_keys_upsert h.nodup
  mem_keys := by
    intro k'
    rw [mem_keys_upsert, h.mem_keys]
    simp [keys]
  value := by
    intro k' v' hmem
    rw [sumOf_append, sumOf_singleton]
    by_cases hne : k' = k
    . subst hne
      rw [if_pos rfl]
      rcases mem_upsert_self h.nodup hmem with ⟨hk, rfl⟩ | ⟨w, hw, rfl⟩
      . rw [h.mem_keys] at hk
        rw [sumOf_eq_zero hk, zero_add]
      . rw [← h.value _ _ hw, add_comm]
    . rw [mem_upsert_of_ne hne] at hmem
      rw [if_neg (fun h => hne h.symm), add_zero]
      exact h.value _ _ hmem

theorem Totals.upserts (h : Totals m es) (es' : List (K × V))
    : Totals (upserts (· + ·) m es') (es ++ es') := by
  induction es' generalizing m es with
  | nil => simpa [Accumulate.upserts] using h
  | cons e es' ih =>
    have := ih (h.upsert e.1 e.2)
    rwa [List.append_assoc, List.singleton_append] at this

theorem Totals.congr (h : Totals m es) (hkeys : ∀ k, k ∈ keys es ↔ k ∈ keys es')
    (hsum : ∀ k, sumOf es k = sumOf es' k)
    : Totals m es' :=
  ⟨h.nodup, fun k => (h.mem_keys k).trans (hkeys k), fun k v hmem => (h.value k v hmem).trans (hsum k)⟩

theorem Totals.sumOf_eq (h : Totals m es) (k : K) : sumOf m k = sumOf es k := by
  by_cases hk : k ∈ keys m
  . obtain ⟨v, hv⟩ := exists_of_mem_keys hk
    rw [sumOf_eq_of_mem h.nodup hv, h.value k v hv]
  . rw [sumOf_eq_zero hk, sumOf_eq_zero (fun hk' => hk ((h.mem_keys k).mpr hk'))]

theorem Totals.merge (h : Totals m es) (h' : Totals m' es')
    : Totals (Accumulate.upserts (· + ·) m m') (es ++ es') := by
  apply (h.upserts m').congr
  . intro k
    have := h'.mem_keys k
    simp only [keys, List.map_append, List.mem_append] at this ⊢
    rw [this]
  . intro k
    rw [sumOf_append, sumOf_append, h'.sumOf_eq]

end

end Accumulate
