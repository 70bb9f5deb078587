import Hustle.Execution.Joined
import Hustle.Execution.Layers
import Hustle.Resolver.LinearPlan

/-!
This module contains what a plan for a path of joins computes.
-/

namespace Hustle.Execution

open Multigraph
open Operators
open Resolver (AggregateReference Catalog ColumnReference ExecutionPlan Forward HashOrder Operator Sqlite3Select SelectInv
  SelectResolver SelectState TableName assemblePlan_chain_some forward_iff_isChain linearJoins selectOperator)
open Resolver.JoinPredicate (leftTable rightTable)
open Resolver.SelectResolver (Accepted buyer getElem?_linearJoins length_linearJoins nation orders region regionCatalog
  regionQuery selectInput)

namespace Engine

variable {e : Engine} {schedules : Schedules} {join : Resolver.JoinPredicate → JoinPredicate}
  {rights : Resolver.JoinPredicate → LazyTable} {input : TableName → Nat}

theorem leftDeep_of_forward {v : TableName} {vs joined : List TableName} {ps : List Resolver.JoinPredicate}
    (htraces : Traces leftTable rightTable ((v :: vs).map some) ps) (hnodup : (v :: vs).Nodup)
    (hv : v ∈ joined) (hfresh : ∀ w ∈ vs, w ∉ joined) (hforward : Forward (v :: vs) ps)
    (hjoin : ∀ p ∈ ps, ∃ left right, e.JoinOf p left right (join p))
    (hinj : ∀ w ∈ vs, ∀ u, u ∈ joined ∨ u ∈ vs → e.pointer w = e.pointer u → w = u)
    : LeftDeep (joined.map e.pointer) (ps.map join) := by
  induction ps generalizing v vs joined with
  | nil => trivial
  | cons p ps ih =>
    cases vs with
    | nil => exact htraces.elim
    | cons w vs =>
      obtain ⟨hjoins, htraces⟩ := htraces
      obtain ⟨hleft, hforward⟩ := hforward
      obtain ⟨hvs, hnodup⟩ := List.nodup_cons.mp hnodup
      have hright : p.rightTable = some w := by
        rcases hjoins with ⟨-, hr⟩ | ⟨hl, -⟩
        . exact hr
        . rw [hleft, Option.some.injEq] at hl
          exact absurd (hl ▸ List.mem_cons_self) hvs
      obtain ⟨left, right, hof⟩ := hjoin p List.mem_cons_self
      cases hof.left_eq.symm.trans hleft
      cases hof.right_eq.symm.trans hright
      refine ⟨?_, ?_, ?_⟩
      . rw [hof.leftTable_eq]
        exact List.mem_map_of_mem hv
      . rw [hof.rightTable_eq]
        intro hmem
        obtain ⟨u, hu, heq⟩ := List.mem_map.mp hmem
        have := hinj w List.mem_cons_self u (.inl hu) heq.symm
        exact hfresh w List.mem_cons_self (this ▸ hu)
      . rw [hof.rightTable_eq, ← List.map_singleton, ← List.map_append]
        apply ih htraces hnodup (by simp) _ hforward fun p' hp' => hjoin p' (List.mem_cons_of_mem p hp')
        . intro w' hw' u hu
          apply hinj w' (List.mem_cons_of_mem _ hw') u
          rw [List.mem_append, List.mem_singleton] at hu
          rw [List.mem_cons]
          tauto
        . intro u hu hmem
          rcases List.mem_append.mp hmem with hmem | hmem
          . exact hfresh u (List.mem_cons_of_mem _ hu) hmem
          . rw [List.mem_singleton] at hmem
            exact (List.nodup_cons.mp hnodup).1 (hmem ▸ hu)

theorem run_hashJoin {p : Resolver.JoinPredicate} {l r : TableName} (hof : e.JoinOf p l r (join p))
    {left right output : Nat} {results : List OperatorResult} {leftResult rightResult out : OperatorResult}
    (hleft : results[left]? = some leftResult) (hright : results[right]? = some rightResult)
    (hexecute : HashJoin.execute e.db.tables e.size leftResult rightResult (join p) = some out)
    : e.run schedules results (.hashJoin left right output p) = some (results.modify output (· ++ out)) := by
  simp only [run, hashJoin, hleft, hright, hof.joinPredicate_eq, Option.bind_eq_bind, Option.bind_some, hexecute,
    Option.pure_def]

/--
A path joins one table after the other if the left table of every predicate is one of the predicate before it.
-/
theorem leftDeep_of_isChain {vs : List TableName} {p : Resolver.JoinPredicate} {ps : List Resolver.JoinPredicate}
    {left : TableName} (htraces : Traces leftTable rightTable (vs.map some) (p :: ps)) (hnodup : vs.Nodup)
    (hleft : p.leftTable = some left)
    (hchain : (p :: ps).IsChain fun p p' => Incident leftTable rightTable p p'.leftTable)
    (hjoin : ∀ p' ∈ p :: ps, ∃ l r, e.JoinOf p' l r (join p'))
    (hinj : ∀ u ∈ vs, ∀ w ∈ vs, e.pointer u = e.pointer w → u = w)
    : LeftDeep [e.pointer left] ((p :: ps).map join) := by
  match vs, htraces with
  | v :: w :: vs, htraces =>
    have hforward := (forward_iff_isChain htraces hnodup).mpr hchain
    obtain ⟨hjoins, htraces⟩ := htraces
    obtain ⟨hvs, hnodup⟩ := List.nodup_cons.mp hnodup
    obtain ⟨l, r, hof⟩ := hjoin p List.mem_cons_self
    cases hof.left_eq.symm.trans hleft
    -- The first predicate has the two tables at the start of the path on whichever side.
    have hends : left = v ∧ r = w ∨ left = w ∧ r = v := by
      rcases hjoins with ⟨hl, hr⟩ | ⟨hl, hr⟩
      . left
        exact ⟨Option.some.inj (hleft.symm.trans hl), Option.some.inj (hof.right_eq.symm.trans hr)⟩
      . right
        exact ⟨Option.some.inj (hleft.symm.trans hl), Option.some.inj (hof.right_eq.symm.trans hr)⟩
    have hne : r ≠ left := by
      have hvw : v ≠ w := fun heq => hvs (heq ▸ List.mem_cons_self)
      rcases hends with ⟨rfl, rfl⟩ | ⟨rfl, rfl⟩
      . exact hvw.symm
      . exact hvw
    have hmem : ∀ u, u ∈ [left, r] ↔ u = v ∨ u = w := by
      intro u
      rw [List.mem_cons, List.mem_singleton]
      rcases hends with ⟨rfl, rfl⟩ | ⟨rfl, rfl⟩
      . exact Iff.rfl
      . exact or_comm
    have hpath : ∀ u, u ∈ [left, r] ∨ u ∈ vs → u ∈ v :: w :: vs := by
      intro u hu
      rw [hmem] at hu
      rw [List.mem_cons, List.mem_cons]
      tauto
    refine ⟨?_, ?_, ?_⟩
    . rw [hof.leftTable_eq]
      exact List.mem_singleton_self _
    . rw [hof.rightTable_eq, List.mem_singleton]
      intro heq
      exact hne (hinj r (hpath r (by simp)) left (hpath left (by simp)) heq)
    . rw [hof.rightTable_eq, ← List.map_singleton, ← List.map_singleton, ← List.map_append]
      apply leftDeep_of_forward htraces hnodup ((hmem w).mpr (.inr rfl)) _ hforward
        fun p' hp' => hjoin p' (List.mem_cons_of_mem p hp')
      . intro u hu w' hw'
        exact hinj u (hpath u (.inr hu)) w' (hpath w' hw')
      . intro u hu hmem'
        rcases (hmem u).mp hmem' with rfl | rfl
        . exact hvs (List.mem_cons_of_mem w hu)
        . exact (List.nodup_cons.mp hnodup).1 hu

theorem rightTable_inj {t : Nat} {ps : List Resolver.JoinPredicate} (hdeep : LeftDeep [t] (ps.map join))
    (hjoin : ∀ p ∈ ps, ∃ l r, e.JoinOf p l r (join p)) {p p' : Resolver.JoinPredicate} (hp : p ∈ ps) (hp' : p' ∈ ps)
    (heq : p.rightTable = p'.rightTable)
    : p = p' := by
  have hnodup := (List.nodup_append.mp (hdeep.nodup (List.nodup_singleton t))).2.1
  rw [List.map_map] at hnodup
  obtain ⟨l, r, hof⟩ := hjoin p hp
  obtain ⟨l', r', hof'⟩ := hjoin p' hp'
  apply List.inj_on_of_nodup_map hnodup hp hp'
  rw [hof.right_eq, hof'.right_eq, Option.some.injEq] at heq
  rw [Function.comp_apply, Function.comp_apply, hof.rightTable_eq, hof'.rightTable_eq, heq]

/--
The joins of a plan for a path are the joins of a chain.
-/
theorem foldlM_linearJoins {p : Resolver.JoinPredicate} {ps : List Resolver.JoinPredicate} {left output : Nat}
    {results : List OperatorResult} {leftResult out : OperatorResult}
    (hjoin : ∀ p' ∈ p :: ps, ∃ l r, e.JoinOf p' l r (join p') ∧ input r < output ∧
      results[input r]? = some [rights p'])
    (hleft : results[left]? = some leftResult) (hout : ∀ j < (p :: ps).length, results[output + j]? = some [])
    (hchain : HashJoin.executeChain e.db.tables e.size leftResult ((p :: ps).map fun p' => (join p', rights p'))
      = some out)
    : ∃ results', (linearJoins input (p :: ps) left output).foldlM (e.run schedules) results = some results' ∧
        results'[output + ps.length]? = some out := by
  induction ps generalizing p left output results leftResult with
  | nil =>
    obtain ⟨l, r, hof, -, hright⟩ := hjoin p List.mem_cons_self
    obtain ⟨out', hexecute, hout'⟩ := Option.bind_eq_some_iff.mp hchain
    cases hout'
    have hempty : results[output]? = some [] := hout 0 (by simp)
    refine ⟨results.modify output (· ++ out), ?_, ?_⟩
    . rw [linearJoins, hof.right_eq]
      dsimp only
      rw [linearJoins, List.foldlM_cons, run_hashJoin hof hleft hright hexecute]
      rfl
    . rw [List.length_nil, Nat.add_zero, List.getElem?_modify_eq, hempty]
      rfl
  | cons p' ps ih =>
    obtain ⟨l, r, hof, -, hright⟩ := hjoin p List.mem_cons_self
    obtain ⟨out', hexecute, hchain⟩ := Option.bind_eq_some_iff.mp hchain
    have hnext : (results.modify output (· ++ out'))[output]? = some out' := by
      have hempty : results[output]? = some [] := hout 0 (by simp)
      rw [List.getElem?_modify_eq, hempty]
      rfl
    obtain ⟨results', hrun, hresult⟩ := @ih p' output (output + 1) (results.modify output (· ++ out')) out'
      (by
        intro p₁ hp₁
        obtain ⟨l₁, r₁, hof₁, hlt, hright₁⟩ := hjoin p₁ (List.mem_cons_of_mem p hp₁)
        refine ⟨l₁, r₁, hof₁, by omega, ?_⟩
        rw [List.getElem?_modify_ne _ _ (by omega)]
        exact hright₁)
      hnext
      (by
        intro j hj
        rw [List.getElem?_modify_ne _ _ (by omega), Nat.add_assoc, Nat.add_comm 1]
        apply hout
        simpa using hj)
      hchain
    refine ⟨results', ?_, ?_⟩
    . rw [linearJoins, hof.right_eq]
      dsimp only
      rw [List.foldlM_cons, run_hashJoin hof hleft hright hexecute]
      exact hrun
    . rw [List.length_cons, ← hresult]
      congr 1
      omega

/-! Plans for a path of joins. -/

theorem layered_chain {agg : Operator} {joins selects : List Operator} {result : Option Nat}
    {cols : List ColumnReference} (hagg : agg.isAggregate = true) (hne : joins ≠ [])
    (hjoins : ∀ op ∈ joins, op.isAggregate = false) (hselects : ∀ op ∈ selects, op.isAggregate = false)
    : ExecutionPlan.Layered
        {
          operators := [agg] ++ joins ++ selects
          links :=
            (List.range' (joins.length + 1) selects.length).map (·, 1) ++
              (List.range' 1 joins.length).zip (List.range' 1 joins.length).tail ++ [(joins.length, 0)]
          operatorResult := result
          resultColumns := cols
        } [agg] joins selects where
  operators_eq := rfl
  length_aggs_le := Nat.le_refl 1
  joins_ne := hne
  isAggregate_aggs op hop := by
    rw [List.mem_singleton.mp hop]
    exact hagg
  isAggregate_joins := hjoins
  isAggregate_selects := hselects
  select_links i hi := by
    simp only [List.length_singleton, List.mem_append, List.mem_map, List.mem_range'_1, Prod.mk.injEq, and_true]
    left
    left
    exact ⟨1 + joins.length + i, by omega, rfl⟩
  join_links i hi := by
    simp only [List.length_singleton, List.mem_append]
    left
    right
    rw [List.mem_iff_getElem?]
    refine ⟨i, ?_⟩
    rw [List.getElem?_zip_eq_some, List.getElem?_tail, List.getElem?_range' (by omega), List.getElem?_range' hi]
    exact ⟨by congr 1; omega, by congr 1; omega⟩
  aggregate_link _ := by
    have := List.length_pos_of_ne_nil hne
    rw [List.length_singleton, List.mem_append, List.mem_singleton, Prod.mk.injEq]
    exact .inr ⟨by omega, rfl⟩

section

variable {catalog : Catalog} {q : Sqlite3Select} {s : SelectResolver} {hash : HashOrder TableName}
  {hash' : HashOrder (Option TableName)} {plan : ExecutionPlan} {order : List Nat}

theorem Accepted.buildJoins_linear {st : SelectState} {tables : List TableName} {p : Resolver.JoinPredicate}
    {ps : List Resolver.JoinPredicate} {left : TableName} (hs : Accepted catalog q s) (hknown : q.TablesIn catalog)
    (hq : q.JoinsFromTables) (hlinear : s.joinType = .linear)
    (hbuild : Resolver.buildLinearJoin s.selectPredicates st.selectResultMap s.predicates none st.results []
      = .ok (linearJoins (selectInput tables) (p :: ps) (selectInput tables left) st.results.length,
          some (st.results.length + ps.length), st.results ++ List.replicate (p :: ps).length []))
    : Resolver.buildJoins hash s st
        =
      .ok (.chain (linearJoins (selectInput tables) (p :: ps) (selectInput tables left) st.results.length),
        some (st.results.length + ps.length), st.results ++ List.replicate (p :: ps).length []) := by
  unfold Resolver.buildJoins
  rw [if_pos (hs.keys_joinPredicates_ne hknown hq), hlinear, hbuild]
  rfl

theorem joinedTables_eq {p : Resolver.JoinPredicate} {ps : List Resolver.JoinPredicate} {left : TableName}
    (hcons : s.predicates = p :: ps) (hleft : p.leftTable = some left)
    : s.joinedTables = left :: s.predicates.filterMap rightTable := by
  rw [SelectResolver.joinedTables, hcons, List.head?_cons, Option.bind_some, hleft]
  rfl

theorem map_rightTables (hjoin : ∀ p ∈ s.predicates, ∃ l r, e.JoinOf p l r (join p))
    : (s.predicates.filterMap rightTable).map e.pointer = s.predicates.map fun p => (join p).rightTable := by
  rw [List.map_filterMap, ← List.filterMap_eq_map]
  apply List.filterMap_congr
  intro p hp
  obtain ⟨l, r, hof⟩ := hjoin p hp
  rw [hof.right_eq, Option.map_some, Function.comp_apply, hof.rightTable_eq]

/--
What the joins of a chain leave, from what the selects leave.
-/
theorem chain_computes {p : Resolver.JoinPredicate} {ps : List Resolver.JoinPredicate} {left : TableName}
    (hfits : e.Fits s) (hcons : s.predicates = p :: ps) (hleft : p.leftTable = some left)
    (hjoin : ∀ p ∈ s.predicates, ∃ l r, e.JoinOf p l r (join p))
    (hdeep : LeftDeep [e.pointer left] (s.predicates.map join)) {tables : List TableName}
    (htables : ∀ name ∈ s.joinedTables, name ∈ tables ∧ some name ∈ s.selectPredicates.keys) {output : Nat}
    (hinput : ∀ name ∈ tables, selectInput tables name < output) {results : List OperatorResult}
    (hfiltered : ∀ name ∈ tables, ∃ lt, results[selectInput tables name]? = some [lt] ∧ e.Filtered s name lt)
    (hout : ∀ j < (p :: ps).length, results[output + j]? = some [])
    : ∃ results' out tuples,
        (linearJoins (selectInput tables) (p :: ps) (selectInput tables left) output).foldlM (e.run schedules) results
          = some results' ∧
        results'[output + ps.length]? = some out ∧
        e.Computes s out tuples := by
  have : Nonempty LazyTable := ⟨e.lazyTable left⟩
  choose! lts hlts using hfiltered
  have hjoined := joinedTables_eq hcons hleft
  have hmemleft : left ∈ s.joinedTables := by
    rw [hjoined]
    exact List.mem_cons_self
  have hmemright : ∀ p ∈ s.predicates, ∀ r, p.rightTable = some r → r ∈ s.joinedTables := by
    intro p hp r hr
    rw [hjoined]
    exact List.mem_cons_of_mem _ (List.mem_filterMap.mpr ⟨p, hp, hr⟩)
  obtain ⟨hleftResult, hleftFiltered⟩ := hlts left (htables left hmemleft).1
  let rights (p : Resolver.JoinPredicate) : LazyTable := lts (p.rightTable.getD left)
  obtain ⟨out, tuples, hexecute, hinv, henum⟩ := @HashJoin.executeChain_enumerates_of_finds e.db.tables e.size
    (lts left) hleftFiltered.fresh (s.predicates.map fun p => (join p, rights p)) (by simp [hcons])
    (by
      rw [hleftFiltered.table_eq, List.map_map]
      exact hdeep)
    (by
      intro x hx
      obtain ⟨p, hp, rfl⟩ := List.mem_map.mp hx
      obtain ⟨l, r, hof⟩ := hjoin p hp
      have hfiltered := (hlts r (htables r (hmemright p hp r hof.right_eq)).1).2
      have hrights : rights p = lts r := by
        simp only [rights, hof.right_eq, Option.getD_some]
      dsimp only
      rw [hrights]
      exact ⟨by rw [hfiltered.table_eq, hof.rightTable_eq], hof.hasColumns, hfiltered.fresh,
        hfiltered.finds p hp hof.right_eq _ hof.joinPredicate_eq⟩)
  have htableList : ((lts left).table :: (s.predicates.map fun p => (join p, rights p)).map fun join =>
      join.1.rightTable) = s.joinedTables.map e.pointer := by
    rw [hjoined, List.map_cons, hleftFiltered.table_eq, List.map_map, map_rightTables hjoin]
    rfl
  rw [htableList] at hinv henum
  rw [hcons] at hexecute
  obtain ⟨results', hrun, hresult⟩ := @foldlM_linearJoins e schedules join rights (selectInput tables) p ps
    (selectInput tables left) output results _ out
    (by
      intro p' hp'
      rw [← hcons] at hp'
      obtain ⟨l, r, hof⟩ := hjoin p' hp'
      have hmem := (htables r (hmemright p' hp' r hof.right_eq)).1
      refine ⟨l, r, hof, hinput r hmem, ?_⟩
      simp only [rights, hof.right_eq, Option.getD_some]
      exact (hlts r hmem).1)
    hleftResult hout hexecute
  refine ⟨results', out, tuples, hrun, hresult, hinv.isJoined, henum.congr ?_⟩
  intro ρ
  rw [← joins_iff (fun name hname => (hfits.stored name (htables name hname).2).imp fun t ht => ht.1)
    (fun name hname => (hlts name (htables name hname).1).2) hjoin, List.map_map]
  apply and_congr_right
  intro _
  rw [hleftFiltered.table_eq, hjoined, List.forall_mem_cons, List.forall_mem_map]
  apply and_congr_right
  intro _
  dsimp only
  constructor
  . intro hpasses name hname
    obtain ⟨p', hp', hright⟩ := List.mem_filterMap.mp hname
    obtain ⟨l, r, hof⟩ := hjoin p' hp'
    have := hpasses p' hp'
    simp only [rights, hright, Option.getD_some] at this
    cases hof.right_eq.symm.trans hright
    rw [← hof.rightTable_eq]
    exact this
  . intro hpasses p' hp'
    obtain ⟨l, r, hof⟩ := hjoin p' hp'
    have := hpasses r (List.mem_filterMap.mpr ⟨p', hp', hof.right_eq⟩)
    simp only [rights, hof.right_eq, Option.getD_some, hof.rightTable_eq]
    exact this

theorem mem_fromTables_of_joined (hs : Accepted catalog q s) (hknown : q.TablesIn catalog) (hq : q.JoinsFromTables)
    (hlinear : s.joinType = .linear) {name : TableName} (hname : name ∈ s.joinedTables)
    : name ∈ q.fromTables := by
  rcases List.mem_append.mp hname with hname | hname
  . rw [Option.mem_toList, Option.bind_eq_some_iff] at hname
    obtain ⟨p, hp, hleft⟩ := hname
    exact hs.mem_fromTables_of_predicate hknown hq hlinear (List.mem_of_head? hp) (.inl hleft)
  . obtain ⟨p, hp, hright⟩ := List.mem_filterMap.mp hname
    exact hs.mem_fromTables_of_predicate hknown hq hlinear hp (.inr hright)

theorem isAggregate_linearJoins {ps : List Resolver.JoinPredicate} {left output : Nat} {op : Operator}
    (hop : op ∈ linearJoins input ps left output) : op.isAggregate = false := by
  obtain ⟨i, hi⟩ := List.mem_iff_getElem?.mp hop
  obtain ⟨p, t, -, -, rfl⟩ := getElem?_linearJoins hi
  rfl

/--
What the aggregate of a plan for a path of joins reads.
-/
theorem linearPlan_computes (hresolve : SelectResolver.resolveSelectTree catalog hash q .new = .ok (some s))
    (hq : q.JoinsFromTables) (hlinear : s.joinType = .linear) (hagg : s.aggReferences ≠ [])
    (hplan : Resolver.createPlan hash hash' catalog s = .ok (some plan))
    (hchain : s.predicates.IsChain fun p p' => Incident leftTable rightTable p p'.leftTable)
    (htrees : ∀ name, (s.treeOf name).isSome → ∃ p ∈ s.predicates, p.rightTable = some name) (hfits : e.Fits s)
    (hscheduled : ∀ op ∈ plan.operators, e.Scheduled schedules op) (horder : plan.IsOrder order)
    : ∃ start results input out tuples, e.start hash hash' catalog s = .ok start ∧
        e.runPlan schedules plan order start = some results ∧
        plan.joinResult = some input ∧
        results[input]? = some out ∧
        e.Computes s out tuples := by
  have hs := Resolver.SelectResolver.resolveSelectTree_accepted hresolve
  obtain ⟨st, joins, joinResultOut, results, aggOp, hselect, hjoins, haggOp, hassemble⟩ := Resolver.createPlan_eq hplan
  obtain ⟨tables, hnames, hknown, hinv⟩ := hs.buildSelect_tables hselect
  obtain ⟨p, ps, left, hcons, hleft, hright, hbuild⟩ :=
    hs.buildLinearJoin_predicates hknown hq hnames hinv hlinear
  have hbuildJoins : Resolver.buildJoins hash s st = _ :=
    Accepted.buildJoins_linear hs hknown hq hlinear hbuild
  cases hjoins.symm.trans hbuildJoins
  -- the tables
  obtain ⟨es, vs, hes, hpreds, hne, htraces, hnodup⟩ := hs.exists_path hknown hq hlinear
  have hjoinOf : ∀ p, ∃ p', p ∈ s.predicates → ∃ l r, e.JoinOf p l r p' := by
    intro p
    by_cases hp : p ∈ s.predicates
    . obtain ⟨l, r, p', hof⟩ := hfits.exists_joinOf hp
      exact ⟨p', fun _ => ⟨l, r, hof⟩⟩
    . exact ⟨⟨0, "", 0, ""⟩, fun h => absurd h hp⟩
  choose join hjoin using hjoinOf
  have hpath : ∀ v ∈ vs, some v ∈ s.selectPredicates.keys := by
    intro v hv
    obtain ⟨p', hp', hincident⟩ := htraces.exists_incident hne (List.mem_map_of_mem hv)
    exact hs.fromTables v (hs.mem_fromTables_of_predicate hknown hq hlinear hp' hincident)
  have hdeep : LeftDeep [e.pointer left] (s.predicates.map join) := by
    rw [hcons] at htraces hchain hjoin ⊢
    exact leftDeep_of_isChain htraces hnodup hleft hchain hjoin fun u hu w hw =>
      hfits.pointer_inj u w (hpath u hu) (hpath w hw)
  have hperm : s.predicates.Perm (SelectResolver.joinsOf catalog q.pWhere) := by
    rw [hpreds]
    exact hes.map _
  have hprepared := prepared_of_perm hs hperm
    (fun p hp p' hp' _ => rightTable_inj hdeep hjoin hp hp') fun name htree => .inl (htrees name htree)
  -- the plan
  obtain ⟨aggRef, hone, rfl⟩ := (Resolver.SelectResolver.buildAggregate_eq haggOp).resolve_left fun h => hagg h.1
  have hjoinsNe : linearJoins (selectInput tables) (p :: ps) (selectInput tables left) st.results.length ≠ [] := by
    apply List.ne_nil_of_length_pos
    rw [length_linearJoins hright]
    exact Nat.succ_pos _
  rw [assemblePlan_chain_some hjoinsNe] at hassemble
  cases hassemble
  obtain ⟨ops, hops, hrun⟩ := @runPlan_eq e schedules _ _ _ _ order
    (layered_chain rfl hjoinsNe (fun op => isAggregate_linearJoins)
      (by
        intro op hop
        rw [hinv.selectOperators_eq] at hop
        exact isAggregate_selectOperators hop))
    horder (e.lazyTables (st.results ++ List.replicate ((p :: ps).length + 1) []))
  obtain ⟨results, hselects, hfiltered, hout⟩ := foldlM_selectOperators hfits hprepared hnames hinv hops
    (fun op hop => hscheduled op (List.mem_append_right _ hop)) ((p :: ps).length + 1)
  have hlength := hinv.length_results
  obtain ⟨results', out, tuples, hjoinsRun, hresult, hcomputes⟩ := @chain_computes e schedules join s p ps left hfits
    hcons hleft hjoin hdeep tables
    (by
      intro name hname
      have hmem := mem_fromTables_of_joined hs hknown hq hlinear hname
      exact ⟨hs.mem_tables hnames name hmem, hs.fromTables name hmem⟩)
    st.results.length
    (by
      intro name hname
      have := List.idxOf_lt_length_of_mem hname
      rw [selectInput]
      omega)
    results hfiltered fun j hj => hout j (Nat.lt_succ_of_lt hj)
  refine ⟨e.lazyTables (st.results ++ List.replicate ((p :: ps).length + 1) []), results', _, out, _, ?_, ?_, rfl,
    hresult, hcomputes⟩
  . rw [start, hselect]
    dsimp only
    rw [hbuildJoins, List.replicate_succ', ← List.append_assoc]
    dsimp only [bind, Except.bind]
    rw [if_neg hagg]
    rfl
  . rw [hrun, hselects]
    exact hjoinsRun

end

def regionCountQuery : Sqlite3Select :=
  { regionQuery with
    pWhere := .and regionQuery.pWhere (.compare .greater (.column ⟨2, nation, 0, "id"⟩) (.integer 1 0)) }

theorem linkFields_ne_nil : ([.int64, .int64] : List Storage.FieldType) ≠ [] := by
  decide

def linkSchema : Storage.Schema :=
  ⟨[.int64, .int64], linkFields_ne_nil⟩

def orderRows : List (List Storage.Row) :=
  [[[.int64 1, .int64 2], [.int64 2, .int64 1], [.int64 3, .int64 2]]]

def buyerRows : List (List Storage.Row) :=
  [[[.int64 1, .int64 1]], [[.int64 2, .int64 3]]]

def nationRows : List (List Storage.Row) :=
  [[[.int64 1, .int64 1], [.int64 2, .int64 1]], [[.int64 3, .int64 2]]]

def regionRows : List (List Storage.Row) :=
  [[[.int64 1, .string [97]]], [[.int64 2, .string [98]]]]

def regionJoins : List Resolver.JoinPredicate :=
  [⟨⟨some orders, "buyer_id"⟩, .equal, ⟨some buyer, "id"⟩⟩, ⟨⟨some buyer, "nation_id"⟩, .equal, ⟨some nation, "id"⟩⟩,
    ⟨⟨some nation, "region_id"⟩, .equal, ⟨some region, "id"⟩⟩]

theorem mem_keys_of_treeOf {s : SelectResolver} {name : TableName} (h : (s.treeOf name).isSome)
    : some name ∈ s.selectPredicates.keys := by
  rw [SelectResolver.treeOf, Map.get] at h
  rw [← AList.mem_keys, ← AList.lookup_isSome]
  cases hlookup : s.selectPredicates.lookup (some name) with
  | none =>
    rw [hlookup] at h
    cases h
  | some tree => rfl

end Engine

end Hustle.Execution
