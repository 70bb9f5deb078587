import Mathlib.Data.List.Basic
import Mathlib.Data.List.Perm.Basic

/-!
This module contains when parts that are put one after the other make the same whole in every order.
-/

namespace Reorder

variable {ι : Type u} {α : Type v} (f : ι → List α)

/--
The parts commute.
-/
def Commute (i j : ι) : Prop :=
  f i ++ f j = f j ++ f i

instance [DecidableEq α] (i j : ι) : Decidable (Commute f i j) :=
  inferInstanceAs (Decidable (_ = _))

variable {f}

theorem Commute.symm {i j : ι} (h : Commute f i j) : Commute f j i :=
  Eq.symm h

theorem flatMap_of_pairwise {is is' : List ι} (hperm : is'.Perm is) (h : is.Pairwise (Commute f))
    : is'.flatMap f = is.flatMap f := by
  induction hperm with
  | nil => rfl
  | cons i _ ih => rw [List.flatMap_cons, List.flatMap_cons, ih (List.pairwise_cons.mp h).2]
  | swap i j is =>
    have hij : Commute f i j := (List.pairwise_cons.mp h).1 j List.mem_cons_self
    simp only [List.flatMap_cons, ← List.append_assoc]
    rw [hij.symm]
  | trans _ hperm' ih ih' =>
    rw [← ih' h]
    apply ih
    exact (hperm'.pairwise_iff Commute.symm).mpr h

theorem forall_perm_iff {is : List ι}
    : (∀ is' : List ι, is'.Perm is → is'.flatMap f = is.flatMap f) ↔ is.Pairwise (Commute f) := by
  constructor
  . intro h
    rw [List.pairwise_iff_forall_sublist]
    intro i j hsub
    obtain ⟨rest, hrest⟩ := hsub.exists_perm_append
    have hij := h (i :: j :: rest) hrest.symm
    have hji := h (j :: i :: rest) ((List.Perm.swap i j rest).trans hrest.symm)
    rw [← hji, List.flatMap_cons, List.flatMap_cons, List.flatMap_cons, List.flatMap_cons, ← List.append_assoc,
      ← List.append_assoc] at hij
    exact List.append_cancel_right hij
  . intro h is' hperm
    exact flatMap_of_pairwise hperm h

end Reorder
