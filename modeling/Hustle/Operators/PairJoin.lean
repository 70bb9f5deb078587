import Hustle.Operators.CarriedTables

/-!
This module contains `MultiwayJoin` with a single join predicate.
-/

namespace Hustle.Operators

namespace MultiwayJoin

variable {db : Tables} {size : Nat → Nat} {p : JoinPredicate} {result : OperatorResult} {left right : LazyTable}

theorem mapM_propagate_of_ne {finished indices : List Nat} (h : ∀ t ∈ result, t.table ∉ finished)
    : result.mapM (propagate finished indices)
        =
      some (result.map fun t => ⟨t.table, none, t.indices, t.indexChunks, t.hashTable⟩) := by
  apply Run.mapM_eq_some
  intro t ht
  rw [propagate, if_neg (h t ht)]
  rfl

theorem execute_enumerates_pairs (hgetl : result.getTable p.leftTable = some left)
    (hgetr : result.getTable p.rightTable = some right) (hleft : left.Fresh db) (hright : right.Fresh db)
    (hcols : db.HasColumns p) (hne : p.leftTable ≠ p.rightTable) (hfinds : FindsMatching db p right)
    : ∃ out tuples, execute db size result [p] = some out ∧
        out.HasJoined db [p.leftTable, p.rightTable] tuples ∧
        Enumerates [p.leftTable, p.rightTable] (fun ρ =>
          db.Satisfies [p.leftTable, p.rightTable] [p] ρ ∧ Passes left.filter (ρ p.leftTable) ∧
            Passes right.filter (ρ p.rightTable)) tuples := by
  have hlt := OperatorResult.table_of_getTable hgetl
  have hrt := OperatorResult.table_of_getTable hgetr
  obtain ⟨ext, hext, hperm⟩ := hfinds
  obtain ⟨pairs, hpairs, hsnd, hfst⟩ := joinPairs_fresh_of_finds hright hrt hlt hext hcols.1 hleft hne size
  have henum := @enumerates_pairs db p right left hlt hcols hne ext hperm
  have hothers := @mapM_propagate_of_ne (result.filter fun t => t.table ≠ left.table ∧ t.table ≠ right.table)
    [p.leftTable, p.rightTable] (pairs.map Prod.fst) (by
      intro t ht
      rw [List.mem_filter, decide_eq_true_eq, hlt, hrt] at ht
      simpa using ht.2)
  obtain ⟨out, hout, houtl, houtr⟩ : ∃ out, execute db size result [p] = some out ∧
      out.getTable p.leftTable = some ⟨left.table, none, some (pairs.map Prod.fst), none, left.hashTable⟩ ∧
      out.getTable p.rightTable = some ⟨right.table, none, some (pairs.map Prod.snd), none, right.hashTable⟩ := by
    simp only [execute, List.foldlM_cons, List.foldlM_nil, hashJoin, hgetl, hgetr, hpairs, backPropogateResult,
      updateIndices, hleft.indices, hleft.indexChunks, hright.indices, hothers, Option.bind_eq_bind, Option.bind_some,
      Option.pure_def]
    refine ⟨_, rfl, by rw [OperatorResult.getTable_cons, if_pos hlt], ?_⟩
    rw [OperatorResult.getTable_cons, if_neg (by rw [hlt]; exact hne), OperatorResult.getTable_cons, if_pos hrt]
  refine ⟨out, _, hout, ?_, henum⟩
  intro t ht
  rcases List.mem_cons.mp ht with rfl | ht
  . refine ⟨_, houtl, ?_, rfl, rfl, ?_, ?_⟩
    . rw [hlt, hfst]
    . exact hleft.chunks
    . intro ρ hρ
      rw [hlt]
      exact (henum.sound ρ hρ).1.rows_lt _ List.mem_cons_self
  . cases List.mem_singleton.mp ht
    refine ⟨_, houtr, ?_, rfl, rfl, ?_, ?_⟩
    . rw [hrt, hsnd]
    . exact hright.chunks
    . intro ρ hρ
      rw [hrt]
      exact (henum.sound ρ hρ).1.rows_lt _ (by simp)

end MultiwayJoin

end Hustle.Operators
