import Mathlib.Data.List.Nodup

/-!
This module contains steps that change one entry of a list each. Where no two of them change the same entry, their order
makes no difference.
-/

namespace Writes

variable {α β : Type} {step : List β → α → Option (List β)} {out : α → Nat} {f : α → β → β}

theorem foldlM_modify {as : List α} (hstep : ∀ a ∈ as, ∀ s, step s a = some (s.modify (out a) (f a)))
    (hnodup : (as.map out).Nodup) (s : List β)
    : ∃ s', as.foldlM step s = some s' ∧ s'.length = s.length ∧
        (∀ a ∈ as, s'[out a]? = s[out a]?.map (f a)) ∧ ∀ j, j ∉ as.map out → s'[j]? = s[j]? := by
  induction as generalizing s with
  | nil => exact ⟨s, rfl, rfl, by simp, fun _ _ => rfl⟩
  | cons a as ih =>
    rw [List.map_cons, List.nodup_cons] at hnodup
    obtain ⟨hfresh, hnodup⟩ := hnodup
    obtain ⟨s', hs', hlen, hwritten, hsame⟩ := ih (fun a' ha' => hstep a' (List.mem_cons_of_mem a ha')) hnodup
      (s.modify (out a) (f a))
    refine ⟨s', ?_, by rw [hlen, List.length_modify], ?_, ?_⟩
    . rw [List.foldlM_cons, hstep a List.mem_cons_self]
      exact hs'
    . intro a' ha'
      rcases List.mem_cons.mp ha' with rfl | ha'
      . rw [hsame _ hfresh, List.getElem?_modify_eq, Option.map_eq_map]
      . have hne : out a ≠ out a' := by
          intro heq
          exact hfresh (heq ▸ List.mem_map_of_mem ha')
        rw [hwritten a' ha', List.getElem?_modify_ne _ _ hne]
    . intro j hj
      rw [List.map_cons, List.mem_cons, not_or] at hj
      rw [hsame j hj.2, List.getElem?_modify_ne _ _ (Ne.symm hj.1)]

theorem foldlM_set {step : List β → Nat → Option (List β)} {g : Nat → β} {is : List Nat} {s : List β}
    (hstep : ∀ i ∈ is, ∀ s, step s i = some (s.set i (g i))) (hperm : is.Perm (List.range s.length))
    : is.foldlM step s = some ((List.range s.length).map g) := by
  have hmodify : ∀ i ∈ is, ∀ s, step s i = some (s.modify i fun _ => g i) := by
    intro i hi s
    rw [hstep i hi, List.set_eq_modify]
  obtain ⟨s', hs', hlen, hwritten, -⟩ := @foldlM_modify Nat β step id (fun i _ => g i) is hmodify
    (by rw [List.map_id]; exact hperm.nodup_iff.mpr List.nodup_range) s
  rw [hs', Option.some.injEq]
  apply List.ext_getElem?
  intro i
  by_cases hi : i < s.length
  . have := hwritten i (hperm.mem_iff.mpr (List.mem_range.mpr hi))
    rw [id_eq, List.getElem?_eq_getElem hi, Option.map_some] at this
    rw [this, List.getElem?_map, List.getElem?_range hi, Option.map_some]
  . rw [List.getElem?_eq_none (by omega), List.getElem?_eq_none (by simpa using hi)]

end Writes
