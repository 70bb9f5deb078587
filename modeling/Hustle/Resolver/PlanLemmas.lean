import Hustle.Resolver.Plan

/-!
This module contains what the parts of a plan look like once they have been built.
-/

namespace Hustle.Resolver

/--
The operator for the `k`th table of the query, if it needs one.
-/
def selectOperator (joinPredicateMap : Map TableName JoinPredicate) (tree : Option PredicateTree)
    (table : TableName) (k : Nat) : Option Operator :=
  if (joinPredicateMap.lookup table).isSome ∧ 1 < joinPredicateMap.keys.length then
    some (.selectBuildHash table (2 * k) (2 * k + 1) tree (joinPredicateMap.get table).rightCol)
  else
    match tree with
    | none => none
    | some tree =>
      if (joinPredicateMap.lookup table).isNone ∧ joinPredicateMap.keys.length ≤ 1 then
        some (.select table (2 * k) (2 * k + 1) tree)
      else
        some (.selectBuildHash table (2 * k) (2 * k + 1) (some tree)
          (joinPredicateMap.get table).rightCol)

/--
The state of `build_select` after the tables `done`. The `k`th table has been given the results `2k` and
`2k + 1`.
-/
structure SelectInv (joinPredicateMap : Map TableName JoinPredicate)
    (selectPredicates : Map (Option TableName) (Option PredicateTree)) (done : List TableName)
    (s : SelectState) : Prop where
  length_results : s.results.length = 2 * done.length
  results_eq : ∀ k table, done[k]? = some table → s.results[2 * k + 1]? =
    some (if (selectOperator joinPredicateMap (selectPredicates.get (some table)) table k).isSome then []
      else [table])
  selectResult_eq : s.selectResult = (List.range done.length).map (2 * · + 1)
  selectResultMap_eq : ∀ k table, done[k]? = some table →
    s.selectResultMap.lookup table = some (2 * k + 1)
  selectOperators_eq : s.selectOperators = done.zipIdx.filterMap fun entry =>
    selectOperator joinPredicateMap (selectPredicates.get (some entry.1)) entry.1 entry.2
  map_lookup : ∀ table, table ∉ done → s.joinPredicateMap.lookup table = joinPredicateMap.lookup table
  map_length : 1 < s.joinPredicateMap.keys.length ↔ 1 < joinPredicateMap.keys.length

theorem SelectInv.init (joinPredicateMap : Map TableName JoinPredicate)
    (selectPredicates : Map (Option TableName) (Option PredicateTree))
    : SelectInv joinPredicateMap selectPredicates [] ⟨[], joinPredicateMap, false, ∅, [], []⟩ where
  length_results := rfl
  results_eq := by simp
  selectResult_eq := rfl
  selectResultMap_eq := by simp
  selectOperators_eq := rfl
  map_lookup := fun _ _ => rfl
  map_length := Iff.rfl

theorem touch_length_le (m : Map TableName JoinPredicate) (t : TableName)
    : m.keys.length ≤ (m.touch t).keys.length := by
  unfold Map.touch
  split
  . exact Nat.le_refl _
  . next hnone =>
    have hnot : t ∉ m.keys := by
      rw [← AList.mem_keys, ← AList.lookup_eq_none]
      exact hnone
    rw [AList.keys_insert, List.length_cons, List.length_erase]
    split <;> omega

theorem touch_lookup_ne (m : Map TableName JoinPredicate) {t t' : TableName} (h : t' ≠ t)
    : (m.touch t).lookup t' = m.lookup t' := by
  unfold Map.touch
  split
  . rfl
  . rw [AList.lookup_insert_ne h]

theorem touch_of_isSome (m : Map TableName JoinPredicate) {t : TableName} (h : (m.lookup t).isSome)
    : m.touch t = m := by
  unfold Map.touch
  split
  . rfl
  . next hnone => simp [hnone] at h

section

variable {catalog : Catalog} {joinPredicateMap : Map TableName JoinPredicate}
  {selectPredicates : Map (Option TableName) (Option PredicateTree)} {done : List TableName}
  {s s' : SelectState} {table : TableName}

/--
One more table has been given two results and an operator.
-/
theorem SelectInv.extend (h : SelectInv joinPredicateMap selectPredicates done s) (hfresh : table ∉ done)
    {op : Option Operator} (first : List TableName)
    (hop : op = selectOperator joinPredicateMap (selectPredicates.get (some table)) table done.length)
    (hresults : s'.results = s.results ++ [first, if op.isSome then [] else [table]])
    (hselectResult : s'.selectResult = s.selectResult ++ [s.results.length + 1])
    (hselectResultMap : s'.selectResultMap = s.selectResultMap.insert table (s.results.length + 1))
    (hselectOperators : s'.selectOperators = s.selectOperators ++ op.toList)
    (hmap : ∀ t, t ≠ table → s'.joinPredicateMap.lookup t = s.joinPredicateMap.lookup t)
    (hlen : 1 < s'.joinPredicateMap.keys.length ↔ 1 < s.joinPredicateMap.keys.length)
    : SelectInv joinPredicateMap selectPredicates (done ++ [table]) s' := by
  have hlength := h.length_results
  have hsplit : ∀ k t, (done ++ [table])[k]? = some t →
      (k < done.length ∧ done[k]? = some t) ∨ (k = done.length ∧ t = table) := by
    intro k t hk
    by_cases hlt : k < done.length
    . left
      rw [List.getElem?_append_left hlt] at hk
      exact ⟨hlt, hk⟩
    . right
      have hle := (List.getElem?_eq_some_iff.mp hk).1
      rw [List.length_append, List.length_singleton] at hle
      have heq : k = done.length := by omega
      subst heq
      exact ⟨rfl, by simpa using hk.symm⟩
  constructor
  . rw [hresults]
    simp
    omega
  . intro k t hk
    rcases hsplit k t hk with ⟨hlt, hk'⟩ | ⟨rfl, rfl⟩
    . rw [hresults, List.getElem?_append_left (by omega)]
      exact h.results_eq k t hk'
    . rw [hresults, List.getElem?_append_right (by omega), hop]
      have : 2 * done.length + 1 - s.results.length = 1 := by omega
      rw [this]
      rfl
  . rw [hselectResult, h.selectResult_eq, hlength, List.length_append, List.length_singleton,
      List.range_succ, List.map_append]
    rfl
  . intro k t hk
    rw [hselectResultMap, Map.lookup_insert_eq]
    rcases hsplit k t hk with ⟨hlt, hk'⟩ | ⟨rfl, rfl⟩
    . have hne : t ≠ table := by
        rintro rfl
        exact hfresh (List.mem_of_getElem? hk')
      rw [if_neg hne]
      exact h.selectResultMap_eq k t hk'
    . rw [if_pos rfl, hlength]
  . rw [hselectOperators, h.selectOperators_eq, List.zipIdx_append, List.filterMap_append, hop]
    congr 1
    simp only [List.zipIdx_singleton, List.filterMap_cons, List.filterMap_nil, Nat.zero_add]
    split
    . next heq => simp [heq]
    . next heq => simp [heq]
  . intro t ht
    rw [List.mem_append, List.mem_singleton, not_or] at ht
    rw [hmap t ht.2, h.map_lookup t ht.1]
  . rw [hlen, h.map_length]

theorem SelectInv.step (h : SelectInv joinPredicateMap selectPredicates done s) (hfresh : table ∉ done)
    (htable : catalog.getTable table = some table)
    : ∃ s',
        buildSelectTable catalog s (some table) (selectPredicates.get (some table)) = some s' ∧
        SelectInv joinPredicateMap selectPredicates (done ++ [table]) s' := by
  have hlookup := h.map_lookup table hfresh
  have hlen := h.map_length
  have hget : s.joinPredicateMap.get table = joinPredicateMap.get table := by
    unfold Map.get
    rw [hlookup]
  have hle : s.joinPredicateMap.keys.length ≤ 1 ↔ joinPredicateMap.keys.length ≤ 1 := by omega
  have hk : 2 * done.length = s.results.length := h.length_results.symm
  have hset₀ : ∀ tables : List TableName,
      (s.results ++ [[]] ++ [[]]).set s.results.length tables = s.results ++ [tables, []] := by
    intro tables
    simp
  have hset₁ : ∀ tables : List TableName,
      (s.results ++ [[]] ++ [[]]).set (s.results.length + 1) tables = s.results ++ [[], tables] := by
    intro tables
    rw [List.append_assoc, List.set_append_right _ _ (by omega)]
    simp
  unfold buildSelectTable
  simp only [htable, Results.new, hlookup, hget, hlen, hle, hset₀, hset₁, List.length_append,
    List.length_singleton, Option.bind_eq_bind, Option.bind_some, Option.pure_def]
  refine ⟨_, rfl, ?_⟩
  by_cases hhash : (joinPredicateMap.lookup table).isSome ∧ 1 < joinPredicateMap.keys.length
  . rw [if_pos hhash]
    refine h.extend hfresh [table] rfl ?_ rfl rfl ?_ (fun _ _ => rfl) Iff.rfl
    . simp [selectOperator, hhash]
    . simp only [selectOperator, hk]
      rw [if_pos hhash]
      rfl
  . rw [if_neg hhash]
    cases htree : selectPredicates.get (some table) with
    | none =>
      refine h.extend hfresh [] rfl ?_ rfl rfl ?_ (fun _ _ => rfl) Iff.rfl
      . simp only [selectOperator, htree]
        rw [if_neg hhash]
        rfl
      . simp only [selectOperator, htree]
        rw [if_neg hhash]
        simp
    | some tree =>
      dsimp only
      by_cases hplain : (joinPredicateMap.lookup table).isNone ∧ joinPredicateMap.keys.length ≤ 1
      . rw [if_pos hplain]
        refine h.extend hfresh [table] rfl ?_ rfl rfl ?_ (fun _ _ => rfl) Iff.rfl
        . simp only [selectOperator, htree]
          rw [if_neg hhash, if_pos hplain]
          rfl
        . simp only [selectOperator, htree, hk]
          rw [if_neg hhash, if_pos hplain]
          rfl
      . rw [if_neg hplain]
        refine h.extend hfresh [table] rfl ?_ rfl rfl ?_ ?_ ?_
        . simp only [selectOperator, htree]
          rw [if_neg hhash, if_neg hplain]
          rfl
        . simp only [selectOperator, htree, hk]
          rw [if_neg hhash, if_neg hplain]
          rfl
        . intro t ht
          exact touch_lookup_ne _ ht
        . dsimp only
          -- The entry that is added is not the second one.
          by_cases hsome : (joinPredicateMap.lookup table).isSome
          . rw [touch_of_isSome _ (hlookup ▸ hsome)]
          . have := touch_length_le s.joinPredicateMap table
            rw [not_and_or] at hplain
            rw [Option.not_isSome_iff_eq_none] at hsome
            simp only [hsome, Option.isNone_none, not_true_eq_false, false_or] at hplain
            omega

/--
`build_select` finds all tables of the query in the catalog.
-/
theorem buildSelect_eq {names : List (Option TableName)} (hnodup : names.Nodup)
    (h : buildSelect catalog joinPredicateMap selectPredicates names = some s)
    : ∃ tables : List TableName,
        names = tables.map some ∧
        (∀ t ∈ tables, catalog.getTable t = some t) ∧
        SelectInv joinPredicateMap selectPredicates tables s := by
  unfold buildSelect at h
  induction names using List.reverseRecOn generalizing s with
  | nil =>
    rw [List.foldlM_nil, Option.pure_def, Option.some.injEq] at h
    rw [← h]
    exact ⟨[], rfl, by simp, SelectInv.init _ _⟩
  | append_singleton names name ih =>
    rw [List.foldlM_append, Option.bind_eq_bind, Option.bind_eq_some_iff] at h
    obtain ⟨s₁, h₁, h⟩ := h
    obtain ⟨hnodup', -, hnot⟩ := List.nodup_append.mp hnodup
    obtain ⟨tables, rfl, htables, hinv⟩ := ih hnodup' h₁
    rw [List.foldlM_cons, Option.bind_eq_bind, Option.bind_eq_some_iff] at h
    obtain ⟨s₂, h₂, h⟩ := h
    rw [List.foldlM_nil, Option.pure_def, Option.some.injEq] at h
    subst h
    cases name with
    | none => simp [buildSelectTable] at h₂
    | some t =>
      have hfresh : t ∉ tables := by
        intro hmem
        exact hnot (some t) (List.mem_map_of_mem hmem) (some t) (by simp) rfl
      have hcatalog : catalog.getTable t = some t := by
        unfold Catalog.getTable
        cases hlookup : catalog.lookup t with
        | none => simp [buildSelectTable, Catalog.getTable, hlookup] at h₂
        | some n => rfl
      obtain ⟨s₃, h₃, hinv'⟩ := hinv.step hfresh hcatalog
      rw [h₂, Option.some.injEq] at h₃
      refine ⟨tables ++ [t], by simp, ?_, h₃ ▸ hinv'⟩
      intro t' ht'
      rcases List.mem_append.mp ht' with ht' | ht'
      . exact htables t' ht'
      . rw [List.mem_singleton.mp ht']
        exact hcatalog

end

theorem foldl_addSelect_eq (consumer : Nat) (plan : ExecutionPlan) (ops : List Operator)
    : ops.foldl (addSelect (some consumer)) plan
        =
      {
        plan with
          operators := plan.operators ++ ops
          links := plan.links ++ (List.range' plan.operators.length ops.length).map (·, consumer)
      } := by
  induction ops generalizing plan with
  | nil => simp
  | cons op ops ih =>
    rw [List.foldl_cons, ih]
    simp [addSelect, ExecutionPlan.addOperator, ExecutionPlan.createLink, List.range'_succ]

theorem foldl_addSelect_operators (consumer : Option Nat) (plan : ExecutionPlan) (ops : List Operator)
    : (ops.foldl (addSelect consumer) plan).operators = plan.operators ++ ops ∧
      (ops.foldl (addSelect consumer) plan).operatorResult = plan.operatorResult := by
  induction ops generalizing plan with
  | nil => simp
  | cons op ops ih =>
    obtain ⟨hoperators, hresult⟩ := ih (addSelect consumer plan op)
    rw [List.foldl_cons, hoperators, hresult]
    cases consumer <;>
      simp [addSelect, ExecutionPlan.addOperator, ExecutionPlan.createLink]

section

variable {aggOp : Option (Operator × ResultPtr)} {joinResultOut : Option ResultPtr}
  {selectResult : List ResultPtr} {selectOperators : List Operator} {cols : List ColumnReference}

theorem assemblePlan_one (op : Operator) (out : ResultPtr)
    : assemblePlan aggOp (.one op) (some out) selectResult selectOperators cols
        =
      .ok (some {
        operators := (aggOp.map Prod.fst).toList ++ [op] ++ selectOperators
        links :=
          let join := (aggOp.map Prod.fst).toList.length
          (List.range' (join + 1) selectOperators.length).map (·, join) ++
            (aggOp.map fun _ => (join, 0)).toList
        operatorResult := some ((aggOp.map Prod.snd).getD out)
        resultColumns := cols
      }) := by
  cases aggOp with
  | none =>
    simp [assemblePlan, addJoins, ExecutionPlan.new, ExecutionPlan.addOperator, foldl_addSelect_eq]
  | some agg =>
    simp [assemblePlan, addJoins, ExecutionPlan.new, ExecutionPlan.addOperator, foldl_addSelect_eq,
      ExecutionPlan.createLink]

theorem assemblePlan_chain_some {ops : List Operator} (hne : ops ≠ []) (agg : Operator × ResultPtr)
    : assemblePlan (some agg) (.chain ops) joinResultOut selectResult selectOperators cols
        =
      .ok (some {
        operators := [agg.1] ++ ops ++ selectOperators
        links :=
          (List.range' (ops.length + 1) selectOperators.length).map (·, 1) ++
            (List.range' 1 ops.length).zip (List.range' 1 ops.length).tail ++ [(ops.length, 0)]
        operatorResult := some agg.2
        resultColumns := cols
      }) := by
  obtain ⟨n, hn⟩ := Nat.exists_eq_succ_of_ne_zero (mt List.length_eq_zero_iff.mp hne)
  have hlast : (List.range' 1 ops.length).getLast? = some ops.length := by
    rw [hn, Nat.succ_eq_add_one, List.range'_concat, List.getLast?_concat]
    simp [Nat.add_comm]
  have hhead : (List.range' 1 ops.length).head? = some 1 := by
    rw [hn, Nat.succ_eq_add_one, List.range'_succ]
    rfl
  simp [assemblePlan, addJoins, ExecutionPlan.new, ExecutionPlan.addOperator, hhead, hlast,
    foldl_addSelect_eq, ExecutionPlan.createLink]

theorem assemblePlan_chain_none {ops : List Operator} {plan : ExecutionPlan}
    (h : assemblePlan none (.chain ops) joinResultOut selectResult selectOperators cols = .ok (some plan))
    : plan.operators = ops ++ selectOperators ∧
      (plan.operatorResult = none ∨
        selectResult.length = 1 ∧ plan.operatorResult = selectResult.head?) := by
  obtain ⟨hops, hresult⟩ := foldl_addSelect_operators (none <|> (List.range' 0 ops.length).head?)
    ⟨ops, [], none, []⟩ selectOperators
  simp only [assemblePlan, addJoins, ExecutionPlan.new, List.nil_append, List.length_nil, hresult,
    and_true, true_and] at h
  by_cases hnil : selectOperators = []
  . simp only [hnil, ne_eq, not_true_eq_false, false_and, ↓reduceIte, List.foldl_nil, Except.ok.injEq,
      Option.some.injEq] at h
    rw [← h]
    simp [hnil]
  . by_cases hone : selectResult.length = 1
    . simp only [hnil, hone, ne_eq, not_false_eq_true, not_true_eq_false, and_false, ↓reduceIte,
        Except.ok.injEq, Option.some.injEq] at h
      rw [← h]
      exact ⟨hops, Or.inr ⟨hone, rfl⟩⟩
    . simp [hnil, hone] at h

end

theorem plan_bind_eq_ok {α β : Type} {x : Except PlanFailure α} {f : α → Except PlanFailure β} {b : β}
    (h : (x >>= f) = .ok b)
    : ∃ a, x = .ok a ∧ f a = .ok b := by
  cases x with
  | error e => cases h
  | ok a => exact ⟨a, rfl, h⟩

theorem createPlan_eq {hash : HashOrder TableName} {hash' : HashOrder (Option TableName)}
    {catalog : Catalog} {s : SelectResolver} {plan : ExecutionPlan}
    (h : createPlan hash hash' catalog s = .ok (some plan))
    : ∃ st joins joinResultOut results aggOp,
        buildSelect catalog s.joinPredicates s.selectPredicates
          (hash'.order s.selectPredicates.keys) = some st ∧
        buildJoins hash s st = .ok (joins, joinResultOut, results) ∧
        buildAggregate s joinResultOut results = .ok aggOp ∧
        assemblePlan aggOp joins joinResultOut st.selectResult st.selectOperators
          (buildOutputCols aggOp.isSome s.projectReferences) = .ok (some plan) := by
  unfold createPlan at h
  cases hselect : buildSelect catalog s.joinPredicates s.selectPredicates
      (hash'.order s.selectPredicates.keys) with
  | none =>
    rw [hselect] at h
    cases h
  | some st =>
    rw [hselect] at h
    obtain ⟨⟨joins, joinResultOut, results⟩, hjoins, h⟩ := plan_bind_eq_ok h
    obtain ⟨aggOp, hagg, h⟩ := plan_bind_eq_ok h
    exact ⟨st, joins, joinResultOut, results, aggOp, rfl, hjoins, hagg, h⟩

theorem createPlan_of_parts {hash : HashOrder TableName} {hash' : HashOrder (Option TableName)}
    {catalog : Catalog} {s : SelectResolver} {st : SelectState} {joins : JoinOperators}
    {joinResultOut : Option ResultPtr} {results : Results} {aggOp : Option (Operator × ResultPtr)}
    (hselect : buildSelect catalog s.joinPredicates s.selectPredicates
      (hash'.order s.selectPredicates.keys) = some st)
    (hjoins : buildJoins hash s st = .ok (joins, joinResultOut, results))
    (hagg : buildAggregate s joinResultOut results = .ok aggOp)
    : createPlan hash hash' catalog s
        =
      assemblePlan aggOp joins joinResultOut st.selectResult st.selectOperators
        (buildOutputCols aggOp.isSome s.projectReferences) := by
  unfold createPlan
  rw [hselect]
  dsimp only
  rw [hjoins]
  dsimp only [bind, Except.bind]
  rw [hagg]

end Hustle.Resolver
