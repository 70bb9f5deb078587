import Hustle.Operators.HashJoin

/-!
This module contains chains of joins whose hash tables have the rows of the right tables in any order.
-/

namespace Hustle.Operators

namespace HashJoin

variable {db : Tables} {size : Nat → Nat} {p : JoinPredicate} {first right : LazyTable}

theorem execute_first_enumerates (hfirst : first.Fresh db) (hltable : first.table = p.leftTable)
    (hright : right.Fresh db) (hrtable : right.table = p.rightTable) (hcols : db.HasColumns p)
    (hne : p.leftTable ≠ p.rightTable) (hfinds : FindsMatching db p right)
    : ∃ out tuples, execute db size [first] [right] p = some out ∧
        Inv db [p.leftTable, p.rightTable] tuples out ∧
        Enumerates [p.leftTable, p.rightTable]
          (fun ρ => db.Satisfies [p.leftTable, p.rightTable] [p] ρ ∧ Passes first.filter (ρ p.leftTable) ∧
            Passes right.filter (ρ p.rightTable)) tuples := by
  obtain ⟨ext, hext, hperm⟩ := hfinds
  have henum := enumerates_pairs hltable hcols hne hperm
  obtain ⟨out, hout, hinv⟩ := @execute_first_of_finds db size p first right ext hfirst hltable hright hrtable hext
    hcols.1 hne fun ρ hρ t ht => (henum.sound ρ hρ).1.rows_lt t ht
  exact ⟨out, _, hout, hinv, henum⟩

theorem executeChain_enumerates_of_finds (hfirst : first.Fresh db) {joins : List (JoinPredicate × LazyTable)}
    (hne : joins ≠ []) (hdeep : LeftDeep [first.table] (joins.map Prod.fst))
    (hjoins : ∀ join ∈ joins, join.2.table = join.1.rightTable ∧ db.HasColumns join.1 ∧ join.2.Fresh db ∧
      FindsMatching db join.1 join.2)
    : ∃ out tuples, executeChain db size [first] joins = some out ∧
        Inv db (first.table :: joins.map fun join => join.1.rightTable) tuples out ∧
        Enumerates (first.table :: joins.map fun join => join.1.rightTable)
          (fun ρ => db.Satisfies (first.table :: joins.map fun join => join.1.rightTable) (joins.map Prod.fst) ρ ∧
            Passes first.filter (ρ first.table) ∧ ∀ join ∈ joins, Passes join.2.filter (ρ join.1.rightTable)) tuples := by
  cases joins with
  | nil => exact absurd rfl hne
  | cons join joins =>
    obtain ⟨p, right⟩ := join
    obtain ⟨hl, hr, hdeep⟩ := hdeep
    rw [List.mem_singleton] at hl hr
    dsimp only at hl hr hdeep
    rw [List.forall_mem_cons] at hjoins
    obtain ⟨⟨hrtable, hcols, hright, hfinds⟩, hjoins⟩ := hjoins
    have hltr : p.leftTable ≠ p.rightTable := by
      rw [hl]
      exact Ne.symm hr
    obtain ⟨out₁, tuples₁, hout₁, hinv₁, henum₁⟩ := @execute_first_enumerates db size p first right hfirst hl.symm
      hright hrtable hcols hltr hfinds
    have hdepends : Enumerates.DependsOn [p.leftTable, p.rightTable]
        fun ρ => Passes first.filter (ρ p.leftTable) ∧ Passes right.filter (ρ p.rightTable) := by
      intro ρ ρ' heq h
      rw [← Enumerates.eq_of_map_eq heq (show p.leftTable ∈ _ by simp),
        ← Enumerates.eq_of_map_eq heq (show p.rightTable ∈ _ by simp)]
      exact h
    obtain ⟨out, tuples, hout, hinv, henum⟩ := @executeChain_inv_of_finds db size _ _ out₁ joins [p] _ hinv₁
      (by rw [hl]; exact hdeep) hjoins (by intro p' hp'; rw [List.mem_singleton.mp hp']; simp) hdepends henum₁
    rw [List.map_cons, List.map_cons, ← hl]
    refine ⟨out, tuples, ?_, hinv, henum.congr ?_⟩
    . rw [executeChain, List.foldlM_cons, hout₁]
      exact hout
    . intro ρ
      rw [List.forall_mem_cons]
      exact and_congr_right fun _ => and_assoc

end HashJoin

end Hustle.Operators
