import Mathlib.Data.List.Chain
import Mathlib.Data.List.Nodup
import Mathlib.Data.List.Perm.Basic

/-!
This module contains orders in which things are done one after the other. An order is determined by what comes before
what, up to the things that are not compared.
-/

namespace Precedence

variable {α : Type} [DecidableEq α]

def Precedes (order : List α) (a b : α) : Prop :=
  order.idxOf a < order.idxOf b

instance (order : List α) (a b : α) : Decidable (Precedes order a b) :=
  inferInstanceAs (Decidable (_ < _))

variable {order : List α}

theorem pairwise_precedes (h : order.Nodup) : order.Pairwise (Precedes order) := by
  rw [List.pairwise_iff_getElem]
  intro i j hi hj hij
  rw [Precedes, h.idxOf_getElem, h.idxOf_getElem]
  exact hij

theorem eq_append_of_isChain {free chain : List α} (hnodup : order.Nodup) (hperm : order.Perm (free ++ chain))
    (hchain : chain.IsChain (Precedes order)) (hfree : ∀ a ∈ free, ∀ c ∈ chain.head?, Precedes order a c)
    : ∃ free', free'.Perm free ∧ order = free' ++ chain := by
  have hpairwise : chain.Pairwise (Precedes order) :=
    haveI : Trans (Precedes order) (Precedes order) (Precedes order) := ⟨Nat.lt_trans⟩
    List.isChain_iff_pairwise.mp hchain
  have hdisjoint : ∀ c ∈ chain, c ∉ free := by
    intro c hc hfree
    exact (List.nodup_append.mp (hperm.nodup_iff.mp hnodup)).2.2 c hfree c hc rfl
  have hfilter : (order.filter (· ∈ free)).Perm free := by
    apply (hperm.filter _).trans
    rw [List.filter_append, List.filter_eq_self.mpr (by simp), List.filter_eq_nil_iff.mpr (by simpa using hdisjoint),
      List.append_nil]
  refine ⟨_, hfilter, ?_⟩
  apply List.Perm.eq_of_pairwise (fun a b _ _ h h' => absurd h (Nat.lt_asymm h')) (pairwise_precedes hnodup)
  . rw [List.pairwise_append]
    refine ⟨(pairwise_precedes hnodup).sublist List.filter_sublist, hpairwise, ?_⟩
    intro a ha c hc
    have ha := of_decide_eq_true (List.mem_filter.mp ha).2
    cases chain with
    | nil => cases hc
    | cons first chain =>
      have hfirst := hfree a ha first rfl
      rcases List.mem_cons.mp hc with rfl | hc
      . exact hfirst
      . exact Nat.lt_trans hfirst ((List.pairwise_cons.mp hpairwise).1 c hc)
  . exact hperm.trans (hfilter.symm.append_right _)

end Precedence
