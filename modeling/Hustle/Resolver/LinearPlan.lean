import Mathlib.Data.Set.List
import Hustle.Resolver.PlannedJoins
import Hustle.Util.Run

/-!
This module contains when the joins of a plan for a path find the tables that they join: the operators
are run on the tables that are in each `OperatorResult`.
-/

namespace Hustle.Resolver

open JoinPredicate
open Multigraph

namespace Results

/--
`get_table` of an `OperatorResult`.
-/
def getTable (results : Results) (ptr : ResultPtr) (table : Option TableName) : Option TableName := do
  let tables ← results[ptr]?
  tables.find? fun t => some t = table

/--
`append` for the table of a select.
-/
def appendTable (results : Results) (ptr : ResultPtr) (table : TableName) : Results :=
  results.modify ptr (table :: ·)

/--
`append` for the result of a join.
-/
def appendResult (results : Results) (ptr : ResultPtr) (tables : List TableName) : Results :=
  results.modify ptr (· ++ tables)

/--
`HashJoin`, which dereferences both tables that it looks for. `BackPropogateResult` gives the tables of
both inputs, where the two that are joined come first.
-/
def hashJoin (results : Results) (left right output : ResultPtr) (predicate : JoinPredicate)
    : Option Results := do
  let leftTable ← results.getTable left predicate.leftCol.table
  let rightTable ← results.getTable right predicate.rightCol.table
  let leftTables ← results[left]?
  let rightTables ← results[right]?
  return results.appendResult output ([leftTable] ++ leftTables ++ [rightTable] ++ rightTables)

end Results

namespace Operator

/--
Run an operator that comes before a chain of joins or is part of one.
-/
def run (results : Results) : Operator → Option Results
  | .select table _ output _ | .selectBuildHash table _ output _ _ =>
    some (results.appendTable output table)
  | .hashJoin left right output predicate => results.hashJoin left right output predicate
  | .multiwayJoin .. | .filterJoin .. | .hashAggregate .. => none

/--
The right input of a join is a single table, which its left input does not have.
-/
def AddsTable (results : Results) : Operator → Prop
  | .hashJoin left right _ predicate =>
    ∃ table,
      predicate.rightTable = some table ∧
      results[right]? = some [table] ∧
      ∀ tables ∈ results[left]?, table ∉ tables
  | _ => True

end Operator

/--
The joins that `build_linear_join` makes for predicates on tables of the query. `input` is where the
result for a table is found.
-/
def linearJoins (input : TableName → ResultPtr) : List JoinPredicate → ResultPtr → ResultPtr → List Operator
  | [], _, _ => []
  | p :: ps, left, output =>
    match p.rightTable with
    | some table => .hashJoin left (input table) output p :: linearJoins input ps output (output + 1)
    | none => []

section

variable {selectPredicates : Map (Option TableName) (Option PredicateTree)}
  {selectResultMap : Map TableName ResultPtr} {input : TableName → ResultPtr} {tables : List TableName}

theorem joinInput_eq {table : TableName} {results : Results}
    (hkeys : some table ∈ selectPredicates.keys) (hmap : selectResultMap.lookup table = some (input table))
    : joinInput selectPredicates selectResultMap results (some table)
        =
      .ok (input table, results) := by
  rw [← AList.mem_keys, ← AList.lookup_isSome] at hkeys
  obtain ⟨tree, htree⟩ := Option.isSome_iff_exists.mp hkeys
  unfold joinInput
  simp only [htree, hmap]

def HasInputs (selectPredicates : Map (Option TableName) (Option PredicateTree))
    (selectResultMap : Map TableName ResultPtr) (input : TableName → ResultPtr) (p : JoinPredicate)
    : Prop :=
  ∀ table, Incident leftTable rightTable p (some table) →
    some table ∈ selectPredicates.keys ∧ selectResultMap.lookup table = some (input table)

theorem buildLinearJoin_some {ps : List JoinPredicate} {prev : Nat} {results : Results}
    (joins : List Operator) (hprev : results.length = prev + 1)
    (hps : ∀ p ∈ ps, HasInputs selectPredicates selectResultMap input p)
    (hright : ∀ p ∈ ps, p.rightTable.isSome)
    : buildLinearJoin selectPredicates selectResultMap ps (some prev) results joins
        =
      .ok (joins ++ linearJoins input ps prev (prev + 1), some (prev + ps.length),
        results ++ List.replicate ps.length []) := by
  induction ps generalizing prev results joins with
  | nil => simp [buildLinearJoin, linearJoins]
  | cons p ps ih =>
    obtain ⟨table, htable⟩ := Option.isSome_iff_exists.mp (hright p List.mem_cons_self)
    obtain ⟨hkeys, hmap⟩ := hps p List.mem_cons_self table (Or.inr htable)
    have htable' : p.rightCol.table = some table := htable
    have hps' : ∀ p' ∈ ps, HasInputs selectPredicates selectResultMap input p' :=
      fun p' hp' => hps p' (List.mem_cons_of_mem p hp')
    have hright' : ∀ p' ∈ ps, p'.rightTable.isSome := fun p' hp' => hright p' (List.mem_cons_of_mem p hp')
    have hlength : (results ++ [[]]).length = results.length + 1 := by simp
    have hrest := ih (joins ++ [.hashJoin prev (input table) results.length p]) hlength hps' hright'
    rw [buildLinearJoin, htable', joinInput_eq hkeys hmap]
    apply hrest.trans
    have hout : prev + 1 + ps.length = prev + (p :: ps).length := by
      rw [List.length_cons]
      omega
    rw [hprev, hout]
    simp [linearJoins, htable, List.replicate_succ]

theorem buildLinearJoin_eq {p : JoinPredicate} {ps : List JoinPredicate} {left : TableName}
    (results : Results) (hps : ∀ p' ∈ p :: ps, HasInputs selectPredicates selectResultMap input p')
    (hright : ∀ p' ∈ p :: ps, p'.rightTable.isSome) (hleft : p.leftTable = some left)
    : buildLinearJoin selectPredicates selectResultMap (p :: ps) none results []
        =
      .ok (linearJoins input (p :: ps) (input left) results.length, some (results.length + ps.length),
        results ++ List.replicate (p :: ps).length []) := by
  obtain ⟨table, htable⟩ := Option.isSome_iff_exists.mp (hright p List.mem_cons_self)
  obtain ⟨hkeys, hmap⟩ := hps p List.mem_cons_self table (Or.inr htable)
  obtain ⟨hkeys', hmap'⟩ := hps p List.mem_cons_self left (Or.inl hleft)
  have htable' : p.rightCol.table = some table := htable
  have hleft' : p.leftCol.table = some left := hleft
  have hlength : (results ++ [[]]).length = results.length + 1 := by simp
  have hrest := buildLinearJoin_some [.hashJoin (input left) (input table) results.length p] hlength
    (fun p' hp' => hps p' (List.mem_cons_of_mem p hp'))
    (fun p' hp' => hright p' (List.mem_cons_of_mem p hp'))
  rw [buildLinearJoin, htable', hleft', joinInput_eq hkeys hmap]
  dsimp only [bind, Except.bind]
  rw [joinInput_eq hkeys' hmap']
  apply hrest.trans
  simp [linearJoins, htable, List.replicate_succ]

end

/--
No operator of a run dereferences a missing table, and every join adds a table.
-/
def JoinsAlong (results : Results) (ops : List Operator) : Prop :=
  Run.Always Operator.run (fun _ => True) (fun results op _ => op.AddsTable results) results ops

section

variable {results : Results} {left right output : Nat} {p : JoinPredicate}
  {tables : List TableName} {t : TableName}

theorem getElem?_appendResult (h : results[output]? = some [])
    : (results.appendResult output tables)[output]? = some tables := by
  simp [Results.appendResult, h]

theorem getElem?_appendResult_ne {j : Nat} (h : output ≠ j)
    : (results.appendResult output tables)[j]? = results[j]? := by
  simp [Results.appendResult, h]

theorem getTable_eq (h : results[left]? = some tables) (t : TableName)
    : results.getTable left (some t) = if t ∈ tables then some t else none := by
  unfold Results.getTable
  rw [h]
  simp only [Option.bind_eq_bind, Option.bind_some, Option.some.injEq]
  split
  . next hmem =>
    have hsome : (tables.find? fun t' => decide (t' = t)).isSome := by
      rw [List.find?_isSome]
      exact ⟨t, hmem, decide_eq_true rfl⟩
    obtain ⟨t', ht'⟩ := Option.isSome_iff_exists.mp hsome
    have heq : t' = t := by simpa using List.find?_some ht'
    rw [ht', heq]
  . next hmem =>
    rw [List.find?_eq_none]
    intro t' ht' heq
    rw [of_decide_eq_true heq] at ht'
    exact hmem ht'

theorem run_hashJoin {l : TableName} (hl : p.leftTable = some l) (hr : p.rightTable = some t)
    (hleft : results[left]? = some tables) (hright : results[right]? = some [t])
    : (Operator.hashJoin left right output p).run results
        =
      if l ∈ tables then some (results.appendResult output ([l] ++ tables ++ [t] ++ [t])) else none := by
  have hl' : p.leftCol.table = some l := hl
  have hr' : p.rightCol.table = some t := hr
  unfold Operator.run Results.hashJoin
  dsimp only
  rw [hl', hr', getTable_eq hleft, getTable_eq hright, hleft, hright]
  by_cases hmem : l ∈ tables
  . simp [hmem]
  . simp [hmem]

theorem joinsAlong_hashJoin {l : TableName} {ops : List Operator} (hl : p.leftTable = some l)
    (hr : p.rightTable = some t) (hleft : results[left]? = some tables)
    (hright : results[right]? = some [t]) (hfresh : t ∉ tables)
    : JoinsAlong results (.hashJoin left right output p :: ops)
        ↔
      l ∈ tables ∧ JoinsAlong (results.appendResult output ([l] ++ tables ++ [t] ++ [t])) ops := by
  have hadds : (Operator.hashJoin left right output p).AddsTable results := by
    refine ⟨t, hr, hright, ?_⟩
    intro tables' htables'
    rw [hleft, Option.mem_some] at htables'
    rw [← htables']
    exact hfresh
  unfold JoinsAlong
  rw [Run.Always, run_hashJoin hl hr hleft hright]
  by_cases hmem : l ∈ tables
  . simp [hmem, hadds]
  . simp [hmem]

theorem not_joinsAlong_hashJoin {l : TableName} {ops : List Operator} (hl : p.leftTable = some l)
    (hleft : results[left]? = some tables) (hmissing : l ∉ tables)
    : ¬JoinsAlong results (.hashJoin left right output p :: ops) := by
  have hl' : p.leftCol.table = some l := hl
  rintro ⟨-, results', hrun, -⟩
  unfold Operator.run Results.hashJoin at hrun
  dsimp only at hrun
  rw [hl', getTable_eq hleft, if_neg hmissing] at hrun
  cases hrun

end

/--
The left tables of the predicates are the tables that the path comes from.
-/
def Forward : List TableName → List JoinPredicate → Prop
  | v :: vs, p :: ps => p.leftTable = some v ∧ Forward vs ps
  | _, _ => True

section

variable {input : TableName → Nat}

/--
The tables that are still to be joined have a result of their own.
-/
def InputsReady (input : TableName → Nat) (output : Nat) (results : Results)
    (tables : List TableName) : Prop :=
  ∀ t ∈ tables, input t < output ∧ results[input t]? = some [t]

theorem InputsReady.appendResult {output : Nat} {results : Results} {vs tables : List TableName}
    (h : InputsReady input output results vs)
    : InputsReady input (output + 1) (results.appendResult output tables) vs := by
  intro t ht
  obtain ⟨hlt, hget⟩ := h t ht
  refine ⟨by omega, ?_⟩
  rw [getElem?_appendResult_ne (by omega), hget]

/--
The joins after the first one find their tables if and only if the left table of each predicate is the
one that the path comes from.
-/
theorem joinsAlong_linearJoins {v : TableName} {vs joined : List TableName} {ps : List JoinPredicate}
    {results : Results} {left output : Nat}
    (htraces : Traces leftTable rightTable ((v :: vs).map some) ps) (hnodup : (v :: vs).Nodup)
    (hleft : results[left]? = some joined) (hlt : left < output) (hv : v ∈ joined)
    (hfresh : ∀ w ∈ vs, w ∉ joined) (hready : InputsReady input output results vs)
    (hout : ∀ j < ps.length, results[output + j]? = some [])
    : JoinsAlong results (linearJoins input ps left output) ↔ Forward (v :: vs) ps := by
  induction ps generalizing v vs joined results left output with
  | nil => simp [linearJoins, JoinsAlong, Run.Always, Forward]
  | cons p ps ih =>
    cases vs with
    | nil => exact htraces.elim
    | cons w vs =>
      obtain ⟨hjoins, htraces⟩ := htraces
      obtain ⟨hvs, hnodup⟩ := List.nodup_cons.mp hnodup
      have hvw : v ≠ w := fun heq => hvs (heq ▸ List.mem_cons_self)
      have hw := hfresh w List.mem_cons_self
      rcases hjoins with ⟨hl, hr⟩ | ⟨hl, hr⟩
      . rw [linearJoins, hr]
        dsimp only
        rw [joinsAlong_hashJoin hl hr hleft (hready w List.mem_cons_self).2 hw, Forward]
        have hout₀ : results[output]? = some [] := hout 0 (by simp)
        have hlt' : output < output + 1 := by omega
        rw [ih htraces hnodup (getElem?_appendResult hout₀) hlt']
        . simp [hv, hl]
        . simp
        . intro u hu
          have huv : u ≠ v := fun heq => hvs (heq ▸ List.mem_cons_of_mem w hu)
          have huw : u ≠ w := fun heq => (List.nodup_cons.mp hnodup).1 (heq ▸ hu)
          have hujoined := hfresh u (List.mem_cons_of_mem w hu)
          simp [huv, huw, hujoined]
        . apply InputsReady.appendResult
          intro u hu
          exact hready u (List.mem_cons_of_mem w hu)
        . intro j hj
          have hne : output ≠ output + 1 + j := by omega
          rw [getElem?_appendResult_ne hne, Nat.add_assoc, Nat.add_comm 1]
          apply hout
          simpa using hj
      . have hcond : ¬p.leftTable = some v := by
          rw [hl]
          simpa using hvw.symm
        rw [linearJoins, hr, Forward]
        dsimp only
        simp [not_joinsAlong_hashJoin hl hleft hw, hcond]

/--
The first join finds its tables in any case.
-/
theorem joinsAlong_first {v w l : TableName} {vs : List TableName} {p : JoinPredicate}
    {ps : List JoinPredicate} {results : Results} {output : Nat}
    (htraces : Traces leftTable rightTable ((v :: w :: vs).map some) (p :: ps))
    (hnodup : (v :: w :: vs).Nodup) (hl : p.leftTable = some l)
    (hready : InputsReady input output results (v :: w :: vs))
    (hout : ∀ j < (p :: ps).length, results[output + j]? = some [])
    : JoinsAlong results (linearJoins input (p :: ps) (input l) output) ↔ Forward (w :: vs) ps := by
  obtain ⟨hjoins, htraces⟩ := htraces
  obtain ⟨hvs, hnodup⟩ := List.nodup_cons.mp hnodup
  have hvw : v ≠ w := fun heq => hvs (heq ▸ List.mem_cons_self)
  obtain ⟨r, hr, hlr⟩ : ∃ r, p.rightTable = some r ∧ (l = v ∧ r = w ∨ l = w ∧ r = v) := by
    rw [Joins, hl] at hjoins
    rcases hjoins with ⟨hv, hr⟩ | ⟨hw, hr⟩
    . exact ⟨w, hr, Or.inl ⟨Option.some.inj hv, rfl⟩⟩
    . exact ⟨v, hr, Or.inr ⟨Option.some.inj hw, rfl⟩⟩
  have hmem : l ∈ v :: w :: vs ∧ r ∈ v :: w :: vs ∧ r ∉ [l] := by
    rcases hlr with ⟨rfl, rfl⟩ | ⟨rfl, rfl⟩
    . simp [hvw.symm]
    . simp [hvw]
  obtain ⟨hmeml, hmemr, hne⟩ := hmem
  have hout₀ : results[output]? = some [] := hout 0 (by simp)
  have hlt : output < output + 1 := by omega
  rw [linearJoins, hr]
  dsimp only
  rw [joinsAlong_hashJoin hl hr (hready l hmeml).2 (hready r hmemr).2 hne,
    joinsAlong_linearJoins htraces hnodup (getElem?_appendResult hout₀) hlt]
  . simp
  . rcases hlr with ⟨rfl, rfl⟩ | ⟨rfl, rfl⟩
    . simp
    . simp
  . intro u hu
    have huv : u ≠ v := fun heq => hvs (heq ▸ List.mem_cons_of_mem w hu)
    have huw : u ≠ w := fun heq => (List.nodup_cons.mp hnodup).1 (heq ▸ hu)
    rcases hlr with ⟨rfl, rfl⟩ | ⟨rfl, rfl⟩
    . simp [huv, huw]
    . simp [huv, huw]
  . apply InputsReady.appendResult
    intro u hu
    apply hready
    exact List.mem_cons_of_mem v (List.mem_cons_of_mem w hu)
  . intro j hj
    have hne' : output ≠ output + 1 + j := by omega
    rw [getElem?_appendResult_ne hne', Nat.add_assoc, Nat.add_comm 1]
    apply hout
    simpa using hj

end

theorem forward_iff_isChain {v w : TableName} {vs : List TableName} {p : JoinPredicate}
    {ps : List JoinPredicate} (htraces : Traces leftTable rightTable ((v :: w :: vs).map some) (p :: ps))
    (hnodup : (v :: w :: vs).Nodup)
    : Forward (w :: vs) ps
        ↔
      (p :: ps).IsChain fun p p' => Incident leftTable rightTable p p'.leftTable := by
  induction ps generalizing v w vs p with
  | nil => simp [Forward]
  | cons p' ps ih =>
    obtain ⟨hjoins, htraces⟩ := htraces
    cases vs with
    | nil => exact htraces.elim
    | cons u vs =>
      obtain ⟨hvs, hnodup⟩ := List.nodup_cons.mp hnodup
      rw [List.isChain_cons_cons, ← ih htraces hnodup, Forward]
      have hiff : p'.leftTable = some w ↔ Incident leftTable rightTable p p'.leftTable := by
        constructor
        . intro heq
          rw [heq]
          exact hjoins.incident.2
        . intro hincident
          rcases htraces.1 with ⟨heq, -⟩ | ⟨heq, -⟩
          . exact heq
          . -- The path does not come back to the predicate before.
            have huw : u ≠ w := fun heq => (List.nodup_cons.mp hnodup).1 (heq ▸ List.mem_cons_self)
            have huv : u ≠ v := fun heq => hvs (heq ▸ by simp)
            rw [heq] at hincident
            rcases hjoins.eq_or_eq hincident with h | h
            . exact absurd (Option.some.inj h) huv
            . exact absurd (Option.some.inj h) huw
      rw [hiff]

section

variable {map : Map TableName JoinPredicate}

theorem run_selectOperator {tree : Option PredicateTree} {t : TableName} {k : Nat} {op : Operator}
    (h : selectOperator map tree t k = some op) (results : Results)
    : op.run results = some (results.appendTable (2 * k + 1) t) ∧ op.AddsTable results := by
  unfold selectOperator at h
  split at h
  . rw [← Option.some.inj h]
    exact ⟨rfl, trivial⟩
  . split at h
    . cases h
    . split at h
      . rw [← Option.some.inj h]
        exact ⟨rfl, trivial⟩
      . rw [← Option.some.inj h]
        exact ⟨rfl, trivial⟩

theorem getElem?_appendTable (results : Results) (output : Nat) (t : TableName) (j : Nat)
    : (results.appendTable output t)[j]?
        =
      if output = j then results[j]?.map (t :: ·) else results[j]? := by
  unfold Results.appendTable
  rw [List.getElem?_modify]
  split <;> simp

/--
After the selects every table is in a result of its own.
-/
theorem joinsAlong_selects (rest : List Operator) {f : TableName × Nat → Option Operator}
    (hf : ∀ e op results, f e = some op →
      op.run results = some (results.appendTable (2 * e.2 + 1) e.1) ∧ op.AddsTable results)
    (entries : List (TableName × Nat)) (hnodup : (entries.map Prod.snd).Nodup) (results : Results)
    (hresults : ∀ e ∈ entries, results[2 * e.2 + 1]? = some (if (f e).isSome then [] else [e.1]))
    : ∃ results' : Results,
        (JoinsAlong results (entries.filterMap f ++ rest) ↔ JoinsAlong results' rest) ∧
        (∀ e ∈ entries, results'[2 * e.2 + 1]? = some [e.1]) ∧
        (∀ j, (∀ e ∈ entries, j ≠ 2 * e.2 + 1) → results'[j]? = results[j]?) := by
  induction entries generalizing results with
  | nil => exact ⟨results, Iff.rfl, by simp, fun _ _ => rfl⟩
  | cons e entries ih =>
    rw [List.map_cons, List.nodup_cons] at hnodup
    obtain ⟨hfresh, hnodup⟩ := hnodup
    have hne : ∀ e' ∈ entries, 2 * e.2 + 1 ≠ 2 * e'.2 + 1 := by
      intro e' he' heq
      have heq' : e'.2 = e.2 := by omega
      exact hfresh (heq' ▸ List.mem_map_of_mem he')
    have hhead := hresults e List.mem_cons_self
    have hrest : ∀ e' ∈ entries, results[2 * e'.2 + 1]? = some (if (f e').isSome then [] else [e'.1]) :=
      fun e' he' => hresults e' (List.mem_cons_of_mem e he')
    cases hop : f e with
    | none =>
      obtain ⟨results', hiff, htables, hsame⟩ := ih hnodup results hrest
      refine ⟨results', ?_, ?_, ?_⟩
      . rw [List.filterMap_cons_none hop]
        exact hiff
      . intro e' he'
        rcases List.mem_cons.mp he' with rfl | he'
        . rw [hsame _ hne, hhead, hop]
          rfl
        . exact htables e' he'
      . intro j hj
        exact hsame j fun e' he' => hj e' (List.mem_cons_of_mem e he')
    | some op =>
      obtain ⟨hrun, hadds⟩ := hf e op results hop
      obtain ⟨results', hiff, htables, hsame⟩ := ih hnodup (results.appendTable (2 * e.2 + 1) e.1) <| by
        intro e' he'
        rw [getElem?_appendTable, if_neg (hne e' he')]
        exact hrest e' he'
      refine ⟨results', ?_, ?_, ?_⟩
      . rw [List.filterMap_cons_some hop, List.cons_append, ← hiff, JoinsAlong, Run.Always, hrun]
        simp [hadds, JoinsAlong]
      . intro e' he'
        rcases List.mem_cons.mp he' with rfl | he'
        . rw [hsame _ hne, getElem?_appendTable, if_pos rfl, hhead, hop]
          rfl
        . exact htables e' he'
      . intro j hj
        rw [hsame j fun e' he' => hj e' (List.mem_cons_of_mem e he'), getElem?_appendTable,
          if_neg (hj e List.mem_cons_self).symm]

end

namespace SelectResolver

variable {catalog : Catalog} {q : Sqlite3Select} {s : SelectResolver} {hash : HashOrder TableName}
  {hash' : HashOrder (Option TableName)} {st : SelectState}

theorem Accepted.exists_path (hs : Accepted catalog q s) (hknown : q.TablesIn catalog)
    (hq : q.JoinsFromTables) (hlinear : s.joinType = .linear)
    : ∃ (es : List (Column × Column)) (tables : List TableName),
        es.Perm q.pWhere.equalities ∧
        s.predicates = es.map (fun e => joinPredicate catalog e.1 e.2) ∧
        s.predicates ≠ [] ∧
        Traces leftTable rightTable (tables.map some) s.predicates ∧
        tables.Nodup := by
  obtain ⟨hne, hclass⟩ := hs.classified hknown hq
  obtain ⟨hperm, vs, htraces, hnodup⟩ : InPathOrder (joinsOf catalog q.pWhere) s.predicates := by
    rcases hclass with ⟨hstar, -⟩ | ⟨-, hpath⟩
    . rw [hlinear] at hstar
      cases hstar
    . exact hpath
  have hpreds : s.predicates ≠ [] := by
    intro hnil
    rw [hnil] at hperm
    exact hne hperm.nil_eq.symm
  obtain ⟨es, hes, hesperm⟩ : ∃ es : List (Column × Column),
      s.predicates = es.map (fun e => joinPredicate catalog e.1 e.2) ∧
      es.Perm q.pWhere.equalities := by
    have := congrFun₂ (List.eq_map_comp_perm fun e => joinPredicate catalog e.1 e.2)
      s.predicates q.pWhere.equalities
    exact this.mpr hperm
  obtain ⟨tables, rfl⟩ : vs ∈ Set.range (List.map some) := by
    rw [Set.range_list_map]
    intro v hv
    obtain ⟨p, hp, hincident⟩ := htraces.exists_incident hpreds hv
    rw [hes] at hp
    obtain ⟨e, he, rfl⟩ := List.mem_map.mp hp
    obtain ⟨hleft, hright⟩ := tables_of_mem hknown hq (hesperm.mem_iff.mp he)
    rcases hincident with heq | heq
    . exact ⟨larger catalog e, by rw [← heq, hleft]⟩
    . exact ⟨smaller catalog e, by rw [← heq, hright]⟩
  exact ⟨es, tables, hesperm, hes, hpreds, htraces, List.Nodup.of_map _ hnodup⟩

/--
Along the path, the larger table of every equality but the first is one of the equality before it.
-/
def LinearSafe (catalog : Catalog) (es : List (Column × Column)) : Prop :=
  es.IsChain fun e e' => larger catalog e' = e.1.tableName ∨ larger catalog e' = e.2.tableName

instance (catalog : Catalog) (es : List (Column × Column)) : Decidable (LinearSafe catalog es) :=
  inferInstanceAs (Decidable (es.IsChain _))

theorem linearSafe_iff (hknown : q.TablesIn catalog) (hq : q.JoinsFromTables)
    {es : List (Column × Column)} (hes : es.Perm q.pWhere.equalities)
    : (es.map fun e => joinPredicate catalog e.1 e.2).IsChain
        (fun p p' => Incident leftTable rightTable p p'.leftTable)
        ↔
      LinearSafe catalog es := by
  unfold LinearSafe
  rw [List.isChain_map]
  apply List.IsChain.iff_of_mem_imp
  intro e e' he he'
  obtain ⟨hleft, hright⟩ := tables_of_mem hknown hq (hes.mem_iff.mp he)
  unfold Incident
  rw [hleft, hright, (tables_of_mem hknown hq (hes.mem_iff.mp he')).1, Option.some.injEq,
    Option.some.injEq]
  -- The two tables of an equality are the larger and the smaller one.
  unfold larger smaller
  split
  . rw [or_comm, eq_comm, @eq_comm _ e.2.tableName]
  . rw [eq_comm, @eq_comm _ e.2.tableName]

theorem mem_fromTables_of_incident (hknown : q.TablesIn catalog) (hq : q.JoinsFromTables)
    {e : Column × Column} (he : e ∈ q.pWhere.equalities) {t : TableName}
    (ht : Incident leftTable rightTable (joinPredicate catalog e.1 e.2) (some t))
    : t ∈ q.fromTables := by
  obtain ⟨hleft, hright⟩ := tables_of_mem hknown hq he
  obtain ⟨hmem₁, hmem₂⟩ := hq e he
  have hends : larger catalog e ∈ q.fromTables ∧ smaller catalog e ∈ q.fromTables := by
    unfold larger smaller
    split
    . exact ⟨hmem₂, hmem₁⟩
    . exact ⟨hmem₁, hmem₂⟩
  rcases ht with heq | heq
  . rw [hleft] at heq
    exact Option.some.inj heq ▸ hends.1
  . rw [hright] at heq
    exact Option.some.inj heq ▸ hends.2

theorem Accepted.mem_fromTables_of_predicate (hs : Accepted catalog q s) (hknown : q.TablesIn catalog)
    (hq : q.JoinsFromTables) (hlinear : s.joinType = .linear) {p : JoinPredicate} (hp : p ∈ s.predicates)
    {t : TableName} (ht : Incident leftTable rightTable p (some t))
    : t ∈ q.fromTables := by
  obtain ⟨es, -, hes, hpreds, -⟩ := hs.exists_path hknown hq hlinear
  rw [hpreds] at hp
  obtain ⟨e, he, rfl⟩ := List.mem_map.mp hp
  apply mem_fromTables_of_incident hknown hq (hes.mem_iff.mp he) ht

/--
Where `build_select` leaves the result for a table.
-/
def selectInput (tables : List TableName) (t : TableName) : Nat :=
  2 * tables.idxOf t + 1

section

variable {tables : List TableName} (hs : Accepted catalog q s)
  (hnames : hash'.order s.selectPredicates.keys = tables.map some)
  (hinv : SelectInv s.joinPredicates s.selectPredicates tables st)

include hs hnames hinv

theorem Accepted.lookup_selectResultMap {t : TableName} (ht : t ∈ q.fromTables)
    : some t ∈ s.selectPredicates.keys ∧
      st.selectResultMap.lookup t = some (selectInput tables t) :=
  ⟨hs.fromTables t ht, hinv.selectResultMap_eq _ _ (List.getElem?_idxOf (hs.mem_tables hnames t ht))⟩

theorem Accepted.joinsAlong_joins (n : Nat) (joins : List Operator)
    : ∃ results : Results,
        (JoinsAlong (st.results ++ List.replicate n []) (st.selectOperators ++ joins)
          ↔ JoinsAlong results joins) ∧
        InputsReady (selectInput tables) st.results.length results q.fromTables ∧
        ∀ j < n, results[st.results.length + j]? = some [] := by
  have hlength := hinv.length_results
  have hentry : ∀ e ∈ tables.zipIdx, tables[e.2]? = some e.1 ∧ e.2 < tables.length := by
    intro e he
    have hget := List.mem_zipIdx_iff_getElem?.mp he
    exact ⟨hget, (List.getElem?_eq_some_iff.mp hget).1⟩
  obtain ⟨results, hiff, htables, hsame⟩ := joinsAlong_selects joins
    (fun _ _ results h => run_selectOperator h results) tables.zipIdx (by simp [List.nodup_range'])
    (st.results ++ List.replicate n []) <| by
      intro e he
      obtain ⟨hget, hlt⟩ := hentry e he
      rw [List.getElem?_append_left (by omega)]
      exact hinv.results_eq _ _ hget
  rw [← hinv.selectOperators_eq] at hiff
  refine ⟨results, hiff, ?_, ?_⟩
  . intro t ht
    have hmem := hs.mem_tables hnames t ht
    have hlt := List.idxOf_lt_length_of_mem hmem
    refine ⟨by unfold selectInput; omega, ?_⟩
    apply htables (t, tables.idxOf t)
    exact List.mem_zipIdx_iff_getElem?.mpr (List.getElem?_idxOf hmem)
  . intro j hj
    rw [hsame, List.getElem?_append_right (by omega)]
    . simp [hj]
    . intro e he
      have := (hentry e he).2
      omega

end

theorem Accepted.buildLinearJoin_predicates {tables : List TableName} (hs : Accepted catalog q s)
    (hknown : q.TablesIn catalog) (hq : q.JoinsFromTables)
    (hnames : hash'.order s.selectPredicates.keys = tables.map some)
    (hinv : SelectInv s.joinPredicates s.selectPredicates tables st) (hlinear : s.joinType = .linear)
    : ∃ p ps left,
        s.predicates = p :: ps ∧
        p.leftTable = some left ∧
        (∀ p' ∈ p :: ps, p'.rightTable.isSome) ∧
        buildLinearJoin s.selectPredicates st.selectResultMap s.predicates none st.results []
          = .ok (linearJoins (selectInput tables) (p :: ps) (selectInput tables left) st.results.length,
              some (st.results.length + ps.length), st.results ++ List.replicate (p :: ps).length []) := by
  obtain ⟨es, vs, hes, hpreds, hne, htraces, hnodup⟩ := hs.exists_path hknown hq hlinear
  have hequality : ∀ p ∈ s.predicates, ∃ e ∈ q.pWhere.equalities, p = joinPredicate catalog e.1 e.2 := by
    intro p hp
    rw [hpreds] at hp
    obtain ⟨e, he, rfl⟩ := List.mem_map.mp hp
    exact ⟨e, hes.mem_iff.mp he, rfl⟩
  have hright : ∀ p ∈ s.predicates, p.rightTable.isSome := by
    intro p hp
    obtain ⟨e, he, rfl⟩ := hequality p hp
    simp [(tables_of_mem hknown hq he).2]
  have hinputs : ∀ p ∈ s.predicates,
      HasInputs s.selectPredicates st.selectResultMap (selectInput tables) p := by
    intro p hp t ht
    apply hs.lookup_selectResultMap hnames hinv
    apply hs.mem_fromTables_of_predicate hknown hq hlinear hp ht
  obtain ⟨p, ps, hcons⟩ := List.exists_cons_of_ne_nil hne
  obtain ⟨e, he, heq⟩ := hequality p (hcons ▸ List.mem_cons_self)
  have hleft : p.leftTable = some (larger catalog e) := heq ▸ (tables_of_mem hknown hq he).1
  rw [hcons] at hright hinputs ⊢
  exact ⟨p, ps, larger catalog e, rfl, hleft, hright, buildLinearJoin_eq st.results hinputs hright hleft⟩

/--
The joins of a path find their tables if and only if the sizes of the tables follow the path.
-/
theorem buildLinearJoin_joinsAlong (hq : q.JoinsFromTables)
    (hresolve : resolveSelectTree catalog hash q new = .ok (some s)) (hlinear : s.joinType = .linear)
    (hselect : buildSelect catalog s.joinPredicates s.selectPredicates
      (hash'.order s.selectPredicates.keys) = some st)
    : ∃ (es : List (Column × Column)) (joins : List Operator) (out : ResultPtr) (results : Results),
        es.Perm q.pWhere.equalities ∧
        s.predicates = es.map (fun e => joinPredicate catalog e.1 e.2) ∧
        buildLinearJoin s.selectPredicates st.selectResultMap s.predicates none st.results []
          = .ok (joins, some out, results) ∧
        (JoinsAlong results (st.selectOperators ++ joins) ↔ LinearSafe catalog es) := by
  have hs := resolveSelectTree_accepted hresolve
  obtain ⟨tables, hnames, hknown, hinv⟩ := hs.buildSelect_tables hselect
  obtain ⟨es, vs, hes, hpreds, hne, htraces, hnodup⟩ := hs.exists_path hknown hq hlinear
  obtain ⟨p, ps, left, hcons, hleft, -, hbuild⟩ :=
    hs.buildLinearJoin_predicates hknown hq hnames hinv hlinear
  refine ⟨es, _, _, _, hes, hpreds, hbuild, ?_⟩
  have hvs : ∀ t ∈ vs, t ∈ q.fromTables := by
    intro t ht
    obtain ⟨p', hp', hincident⟩ := htraces.exists_incident hne (List.mem_map_of_mem ht)
    apply hs.mem_fromTables_of_predicate hknown hq hlinear hp' hincident
  have hsafe := linearSafe_iff hknown hq hes
  rw [← hpreds, hcons] at hsafe
  rw [hcons] at htraces
  obtain ⟨results, hiff, hready, hout⟩ := hs.joinsAlong_joins hnames hinv (p :: ps).length
    (linearJoins (selectInput tables) (p :: ps) (selectInput tables left) st.results.length)
  rw [hiff, ← hsafe]
  match vs, htraces with
  | v :: w :: vs, htraces =>
    rw [joinsAlong_first htraces hnodup hleft (fun t ht => hready t (hvs t ht)) hout]
    apply forward_iff_isChain htraces hnodup

section

def orders : TableName := ⟨"orders", by decide⟩

def buyer : TableName := ⟨"buyer", by decide⟩

def nation : TableName := ⟨"nation", by decide⟩

def region : TableName := ⟨"region", by decide⟩

def ordersInRegions : Sqlite3Select :=
  .ofWhere ⟨3, region, 1, "name"⟩ [orders, buyer, nation, region]
    (.and
      (.and
        (.compare .equal (.column ⟨0, orders, 1, "buyer_id"⟩) (.column ⟨1, buyer, 0, "id"⟩))
        (.compare .equal (.column ⟨1, buyer, 1, "nation_id"⟩) (.column ⟨2, nation, 0, "id"⟩)))
      (.compare .equal (.column ⟨2, nation, 1, "region_id"⟩) (.column ⟨3, region, 0, "id"⟩)))

/--
A query for the number of orders that come from a region.
-/
def regionQuery : Sqlite3Select :=
  { ordersInRegions with pEList := [⟨.aggFunction "COUNT" (.aggColumn ⟨0, orders, 1, "buyer_id"⟩), "n"⟩] }

def regionCatalog (numOrders numBuyers numNations numRegions : Int) : Catalog :=
  AList.insert orders numOrders (AList.insert buyer numBuyers
    (AList.insert nation numNations (AList.insert region numRegions ∅)))

theorem buildLinearJoin_joinsAlong_regionQuery
    : ∃ s st joins out results,
        resolveSelectTree (regionCatalog 100 50 10 5) (.listed _) regionQuery new = .ok (some s) ∧
        buildSelect (regionCatalog 100 50 10 5) s.joinPredicates s.selectPredicates
          s.selectPredicates.keys = some st ∧
        buildLinearJoin s.selectPredicates st.selectResultMap s.predicates none st.results []
          = .ok (joins, some out, results) ∧
        JoinsAlong results (st.selectOperators ++ joins) := by
  obtain ⟨s, st, hresolve, hlinear, hselect, hpreds⟩ : ∃ s st,
      resolveSelectTree (regionCatalog 100 50 10 5) (.listed _) regionQuery new = .ok (some s) ∧
      s.joinType = .linear ∧
      buildSelect (regionCatalog 100 50 10 5) s.joinPredicates s.selectPredicates
        ((HashOrder.listed _).order s.selectPredicates.keys) = some st ∧
      s.predicates = joinsOf (regionCatalog 100 50 10 5) regionQuery.pWhere :=
    ⟨_, _, rfl, rfl, rfl, by decide⟩
  obtain ⟨es, joins, out, results, hperm, hes, hbuild, hiff⟩ :=
    buildLinearJoin_joinsAlong (by decide) hresolve hlinear hselect
  refine ⟨s, st, joins, out, results, hresolve, hselect, hbuild, hiff.mpr ?_⟩
  rw [hpreds] at hes
  -- The equalities are in the order in which they are written.
  have hsafe : ∀ e₁ ∈ regionQuery.pWhere.equalities, ∀ e₂ ∈ regionQuery.pWhere.equalities,
      ∀ e₃ ∈ regionQuery.pWhere.equalities,
      joinsOf (regionCatalog 100 50 10 5) regionQuery.pWhere
        = [e₁, e₂, e₃].map (fun e => joinPredicate (regionCatalog 100 50 10 5) e.1 e.2) →
      LinearSafe (regionCatalog 100 50 10 5) [e₁, e₂, e₃] := by
    decide
  obtain ⟨e₁, e₂, e₃, rfl⟩ := List.length_eq_three.mp hperm.length_eq
  have hmem : ∀ e ∈ [e₁, e₂, e₃], e ∈ regionQuery.pWhere.equalities := fun e he => hperm.mem_iff.mp he
  exact hsafe e₁ (hmem e₁ (by simp)) e₂ (hmem e₂ (by simp)) e₃ (hmem e₃ (by simp)) hes

/--
There are fewer nations than regions. The join with the regions looks for them in what has been joined
before.
-/
theorem not_buildLinearJoin_joinsAlong
    : ¬∀ (catalog : Catalog) (hash : HashOrder TableName) (hash' : HashOrder (Option TableName))
        (q : Sqlite3Select) (s : SelectResolver) (st : SelectState) (joins : List Operator)
        (out : ResultPtr) (results : Results),
        q.JoinsFromTables →
        resolveSelectTree catalog hash q new = .ok (some s) →
        s.joinType = .linear →
        buildSelect catalog s.joinPredicates s.selectPredicates
          (hash'.order s.selectPredicates.keys) = some st →
        buildLinearJoin s.selectPredicates st.selectResultMap s.predicates none st.results []
          = .ok (joins, some out, results) →
        JoinsAlong results (st.selectOperators ++ joins) := by
  intro h
  have hrun := h (regionCatalog 1 2 1 2) (.listed _) (.listed _) regionQuery _ _ _ _ _ (by decide) rfl rfl
    rfl rfl
  obtain ⟨results, hsome, -⟩ := Run.Always.foldlM hrun
  exact absurd (Option.isSome_of_eq_some hsome) (by decide)

end

end SelectResolver

end Hustle.Resolver
