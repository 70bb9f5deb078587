import Mathlib.Data.List.Nodup
import Mathlib.Data.List.Perm.Basic
import Mathlib.Logic.Function.Basic

/-!
This module contains lists that enumerate the assignments with some property, each exactly once up to the keys
that are of interest, and the rule for extending such a list by one more key.
-/

variable {κ ν : Type}

/--
`tuples` has exactly one of the assignments with property `p` for every choice of values at `keys`.
-/
structure Enumerates (keys : List κ) (p : (κ → ν) → Prop) (tuples : List (κ → ν)) : Prop where
  nodup : (tuples.map fun ρ => keys.map ρ).Nodup
  sound : ∀ ρ ∈ tuples, p ρ
  complete : ∀ ρ, p ρ → ∃ ρ' ∈ tuples, keys.map ρ' = keys.map ρ

namespace Enumerates

/--
The property depends on the values at `keys` only.
-/
def DependsOn (keys : List κ) (p : (κ → ν) → Prop) : Prop :=
  ∀ ρ ρ', keys.map ρ = keys.map ρ' → p ρ → p ρ'

variable {keys : List κ} {p q : (κ → ν) → Prop} {tuples : List (κ → ν)}

theorem eq_of_map_eq {ρ ρ' : κ → ν} (h : keys.map ρ = keys.map ρ') {k : κ} (hk : k ∈ keys) : ρ k = ρ' k :=
  List.map_inj_left.mp h k hk

theorem congr (h : Enumerates keys p tuples) (hpq : ∀ ρ, p ρ ↔ q ρ) : Enumerates keys q tuples where
  nodup := h.nodup
  sound := fun ρ hρ => (hpq ρ).mp (h.sound ρ hρ)
  complete := fun ρ hρ => h.complete ρ ((hpq ρ).mpr hρ)

theorem mem_map_iff (h : Enumerates keys p tuples) {vals : List ν}
    : vals ∈ tuples.map (fun ρ => keys.map ρ) ↔ ∃ ρ, p ρ ∧ vals = keys.map ρ := by
  rw [List.mem_map]
  constructor
  . rintro ⟨ρ, hρ, rfl⟩
    exact ⟨ρ, h.sound ρ hρ, rfl⟩
  . rintro ⟨ρ, hρ, rfl⟩
    obtain ⟨ρ', hρ', heq⟩ := h.complete ρ hρ
    exact ⟨ρ', hρ', heq⟩

theorem of_perm (h : Enumerates keys p tuples) {tuples' : List (κ → ν)} (hperm : tuples'.Perm tuples)
    : Enumerates keys p tuples' where
  nodup := (hperm.map _).nodup_iff.mpr h.nodup
  sound ρ hρ := h.sound ρ (hperm.mem_iff.mp hρ)
  complete ρ hρ := by
    obtain ⟨ρ', hρ', heq⟩ := h.complete ρ hρ
    exact ⟨ρ', hperm.mem_iff.mpr hρ', heq⟩

theorem map_perm (h : Enumerates keys p tuples) {tuples' : List (κ → ν)} (h' : Enumerates keys p tuples')
    : (tuples.map fun ρ => keys.map ρ).Perm (tuples'.map fun ρ => keys.map ρ) := by
  rw [List.perm_ext_iff_of_nodup h.nodup h'.nodup]
  intro vals
  rw [h.mem_map_iff, h'.mem_map_iff]

theorem length_le (h : Enumerates keys p tuples) {values : List (List ν)} (hp : ∀ ρ, p ρ → keys.map ρ ∈ values)
    : tuples.length ≤ values.length := by
  rw [← List.length_map (f := fun ρ => keys.map ρ)]
  apply List.Subperm.length_le
  apply List.subperm_of_subset h.nodup
  intro vals hvals
  obtain ⟨ρ, hρ, rfl⟩ := h.mem_map_iff.mp hvals
  exact hp ρ hρ

variable [DecidableEq κ]

theorem map_update {ρ : κ → ν} {k : κ} (hk : k ∉ keys) (v : ν)
    : (keys ++ [k]).map (Function.update ρ k v) = keys.map ρ ++ [v] := by
  rw [List.map_append, List.map_singleton, Function.update_self]
  congr 1
  apply List.map_congr_left
  intro k' hk'
  apply Function.update_of_ne
  rintro rfl
  exact hk hk'

/--
The values that the assignments are extended by.
-/
def extend (k : κ) (ext : (κ → ν) → List ν) (tuples : List (κ → ν)) : List (κ → ν) :=
  tuples.flatMap fun ρ => (ext ρ).map fun v => Function.update ρ k v

theorem extend_perm (k : κ) {ext ext' : (κ → ν) → List ν} (h : ∀ ρ, (ext ρ).Perm (ext' ρ)) (tuples : List (κ → ν))
    : (extend k ext tuples).Perm (extend k ext' tuples) :=
  List.Perm.flatMap_left _ fun ρ _ => (h ρ).map _

theorem extend_map {k : κ} (hk : k ∉ keys) (ext : (κ → ν) → List ν) (tuples : List (κ → ν))
    : (extend k ext tuples).map (fun ρ => (keys ++ [k]).map ρ)
        =
      tuples.flatMap fun ρ => (ext ρ).map fun v => keys.map ρ ++ [v] := by
  rw [extend, List.map_flatMap]
  congr 1
  funext ρ
  rw [List.map_map]
  apply List.map_congr_left
  intro v _
  exact map_update hk v

theorem extend_nodup {k : κ} (hk : k ∉ keys) {ext : (κ → ν) → List ν}
    (h : (tuples.map fun ρ => keys.map ρ).Nodup) (hext : ∀ ρ ∈ tuples, (ext ρ).Nodup)
    : ((extend k ext tuples).map fun ρ => (keys ++ [k]).map ρ).Nodup := by
  rw [extend_map hk, List.nodup_flatMap]
  constructor
  . intro ρ hρ
    apply (hext ρ hρ).map
    intro v v' heq
    simpa using heq
  . have hpair := List.pairwise_map.mp h
    apply hpair.imp
    intro ρ ρ' hne
    simp only [Function.onFun, List.disjoint_left, List.mem_map]
    rintro vals ⟨v, -, rfl⟩ ⟨v', -, heq⟩
    exact hne (List.append_inj_left' heq rfl).symm

theorem extend_enumerates (h : Enumerates keys p tuples) (hp : DependsOn keys p) {k : κ} (hk : k ∉ keys)
    {ext : (κ → ν) → List ν} (hnodup : ∀ ρ, (ext ρ).Nodup)
    (hdep : ∀ ρ ρ', keys.map ρ = keys.map ρ' → ext ρ = ext ρ')
    : Enumerates (keys ++ [k]) (fun ρ => p ρ ∧ ρ k ∈ ext ρ) (extend k ext tuples) where
  nodup := extend_nodup hk h.nodup fun ρ _ => hnodup ρ
  sound := by
    intro ρ hρ
    obtain ⟨ρ₀, hρ₀, hmem⟩ := List.mem_flatMap.mp hρ
    obtain ⟨v, hv, rfl⟩ := List.mem_map.mp hmem
    have hkeys : keys.map ρ₀ = keys.map (Function.update ρ₀ k v) := by
      have : (keys ++ [k]).map (Function.update ρ₀ k v) = keys.map ρ₀ ++ [v] := map_update hk v
      rw [List.map_append] at this
      exact (List.append_inj_left' this rfl).symm
    refine ⟨hp _ _ hkeys (h.sound ρ₀ hρ₀), ?_⟩
    rw [Function.update_self, ← hdep _ _ hkeys]
    exact hv
  complete := by
    rintro ρ ⟨hρ, hv⟩
    obtain ⟨ρ₀, hρ₀, heq⟩ := h.complete ρ hρ
    refine ⟨Function.update ρ₀ k (ρ k), ?_, ?_⟩
    . apply List.mem_flatMap.mpr
      refine ⟨ρ₀, hρ₀, List.mem_map.mpr ⟨ρ k, ?_, rfl⟩⟩
      rw [hdep _ _ heq]
      exact hv
    . rw [map_update hk, heq, List.map_append]
      rfl

end Enumerates
