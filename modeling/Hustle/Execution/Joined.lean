import Hustle.Execution.Filtered
import Hustle.Operators.HashedChain
import Hustle.Resolver.LinearPlan

/-!
This module contains what rows of filtered tables are joined by the predicates of a query, and where a plan finds these
tables.
-/

namespace Hustle.Execution

open Operators
open Resolver (Catalog HashOrder Operator SelectInv SelectResolver SelectState Sqlite3Select TableName selectOperator)
open Resolver.SelectResolver (Accepted joinsOf lookup_foldl_addRight mem_keys_foldl_addRight selectInput)

namespace Engine

variable {e : Engine} {s : SelectResolver} {name : TableName}

/-! Rows. -/

theorem Filtered.selects_iff {lt : LazyTable} (h : e.Filtered s name lt) {t : QueryTable} (ht : e.table name = some t)
    (r : Nat)
    : r < e.db.tables.numRows (e.pointer name) ∧ Passes lt.filter r ↔
        ∃ t, e.table name = some t ∧ t.Selects ((s.treeOf name).map rootOf) r := by
  rw [QueryDatabase.numRows_eq ht]
  constructor
  . rintro ⟨hr, hpasses⟩
    exact ⟨t, ht, (h.passes t ht r hr).mp hpasses⟩
  . rintro ⟨t', ht', hselects⟩
    cases ht.symm.trans ht'
    have hr : r < t.chunkLengths.sum := by
      obtain ⟨row, hrow, -⟩ := hselects
      rw [QueryTable.sum_chunkLengths]
      exact (List.getElem?_eq_some_iff.mp hrow).1
    exact ⟨hr, (h.passes t ht r hr).mpr hselects⟩

theorem joins_iff (hstored : ∀ name ∈ s.joinedTables, ∃ t, e.table name = some t) {lts : TableName → LazyTable}
    (hlts : ∀ name ∈ s.joinedTables, e.Filtered s name (lts name)) {join : Resolver.JoinPredicate → JoinPredicate}
    (hjoin : ∀ p ∈ s.predicates, ∃ left right, e.JoinOf p left right (join p)) (ρ : Nat → Nat)
    : e.db.tables.Satisfies (s.joinedTables.map e.pointer) (s.predicates.map join) ρ ∧
        (∀ name ∈ s.joinedTables, Passes (lts name).filter (ρ (e.pointer name))) ↔ e.Joins s ρ := by
  constructor
  . rintro ⟨hsatisfies, hpasses⟩
    constructor
    . intro name hname
      obtain ⟨t, ht⟩ := hstored name hname
      exact ((hlts name hname).selects_iff ht _).mp
        ⟨hsatisfies.rows_lt _ (List.mem_map_of_mem hname), hpasses name hname⟩
    . intro p hp
      obtain ⟨left, right, hof⟩ := hjoin p hp
      exact (hof.agrees_iff ρ).mp (hsatisfies.agrees _ (List.mem_map_of_mem hp))
  . intro h
    have hrows : ∀ name ∈ s.joinedTables, ρ (e.pointer name) < e.db.tables.numRows (e.pointer name) ∧
        Passes (lts name).filter (ρ (e.pointer name)) := by
      intro name hname
      obtain ⟨t, ht⟩ := hstored name hname
      exact ((hlts name hname).selects_iff ht _).mpr (h.selects name hname)
    refine ⟨⟨?_, ?_⟩, fun name hname => (hrows name hname).2⟩
    . intro t ht
      obtain ⟨name, hname, rfl⟩ := List.mem_map.mp ht
      exact (hrows name hname).1
    . intro p' hp'
      obtain ⟨p, hp, rfl⟩ := List.mem_map.mp hp'
      obtain ⟨left, right, hof⟩ := hjoin p hp
      exact (hof.agrees_iff ρ).mpr (h.agrees p hp)

/--
The result has the tables of the query joined to the rows that the query asks for, each once.
-/
structure Computes (e : Engine) (s : SelectResolver) (out : OperatorResult) (tuples : List (Nat → Nat)) : Prop where
  hasJoined : out.HasJoined e.db.tables (s.joinedTables.map e.pointer) tuples
  enumerates : Enumerates (s.joinedTables.map e.pointer) (e.Joins s) tuples

theorem Computes.enumeratesRows {out : OperatorResult} {tuples : List (Nat → Nat)} (h : e.Computes s out tuples)
    : out.EnumeratesRows (s.joinedTables.map e.pointer) (e.Joins s) :=
  h.hasJoined.represents.enumeratesRows h.enumerates

/-! Tables on the right side. -/

variable {catalog : Catalog} {q : Sqlite3Select}

theorem prepared_of_perm (hs : Accepted catalog q s) (hperm : s.predicates.Perm (joinsOf catalog q.pWhere))
    (hunique : ∀ p ∈ s.predicates, ∀ p' ∈ s.predicates, p.rightTable.isSome → p.rightTable = p'.rightTable → p = p')
    (htrees : ∀ name, (s.treeOf name).isSome →
      (∃ p ∈ s.predicates, p.rightTable = some name) ∨ s.joinPredicates.keys.length ≤ 1)
    : Prepared s := by
  have hlookup : ∀ {name p}, s.joinPredicates.lookup name = some p → p ∈ s.predicates ∧ p.rightTable = some name := by
    intro name p hp
    rw [hs.joinPredicates_eq] at hp
    obtain ⟨hmem, hright⟩ := lookup_foldl_addRight hp
    exact ⟨hperm.mem_iff.mpr hmem, hright⟩
  have hsome : ∀ {name p}, p ∈ s.predicates → p.rightTable = some name → (s.joinPredicates.lookup name).isSome := by
    intro name p hp hright
    rw [AList.lookup_isSome, AList.mem_keys, hs.joinPredicates_eq, mem_keys_foldl_addRight]
    exact ⟨p, hperm.mem_iff.mp hp, hright⟩
  constructor
  . intro name p
    constructor
    . exact hlookup
    . rintro ⟨hp, hright⟩
      obtain ⟨p', hp'⟩ := Option.isSome_iff_exists.mp (hsome hp hright)
      obtain ⟨hmem', hright'⟩ := hlookup hp'
      rw [hp', hunique p hp p' hmem' (by rw [hright]; rfl) (by rw [hright, hright'])]
  . intro name htree
    rcases htrees name htree with ⟨p, hp, hright⟩ | hle
    . exact .inl (hsome hp hright)
    . exact .inr hle

/-! Selects of a plan. -/

variable {schedules : Schedules} {hash' : HashOrder (Option TableName)} {st : SelectState} {tables : List TableName}

theorem foldlM_selectOperators (hfits : e.Fits s) (hprepared : Prepared s)
    (hnames : hash'.order s.selectPredicates.keys = tables.map some)
    (hinv : SelectInv s.joinPredicates s.selectPredicates tables st) {ops : List Operator}
    (hops : ops.Perm st.selectOperators) (hscheduled : ∀ op ∈ st.selectOperators, e.Scheduled schedules op) (n : Nat)
    : ∃ results, ops.foldlM (e.run schedules)
          (e.lazyTables (st.results ++ List.replicate n [])) = some results ∧
        (∀ name ∈ tables, ∃ lt, results[selectInput tables name]? = some [lt] ∧ e.Filtered s name lt) ∧
        ∀ j < n, results[st.results.length + j]? = some [] := by
  have hlen := hinv.length_results
  have hops' := hops
  rw [hinv.selectOperators_eq] at hops'
  obtain ⟨results, hrun, hfiltered, hsame⟩ := @foldlM_run e schedules s hfits hprepared tables
    (by
      intro name hname
      rw [← (hash'.perm _).mem_iff, hnames]
      exact List.mem_map_of_mem hname)
    ops hops' (fun op hop => hscheduled op (hops.mem_iff.mp hop))
    (e.lazyTables (st.results ++ List.replicate n []))
    (by
      intro k name hk
      have hlt := (List.getElem?_eq_some_iff.mp hk).1
      rw [lazyTables, List.getElem?_map, List.getElem?_append_left (by omega), hinv.results_eq k name hk, Option.map_some,
        Option.some.injEq]
      exact apply_ite (List.map e.lazyTable) _ _ _)
  refine ⟨results, hrun, ?_, ?_⟩
  . intro name hname
    exact hfiltered _ name (List.getElem?_idxOf hname)
  . intro j hj
    rw [hsame _ (by omega), lazyTables, List.getElem?_map, List.getElem?_append_right (by omega), Nat.add_sub_cancel_left,
      List.getElem?_replicate_of_lt hj]
    rfl

end Engine

end Hustle.Execution
