import Hustle.Operators.JoinTuples
import Hustle.Optimizer.DisjointSetForest
import Hustle.Util.Cycles

/-!
This module contains the greedy ordering of joins of `optimizer/reorder_joins.cc`. The queue of the joins is
given by the order in which it is emptied, since the order of joins with the same estimated size is open.
-/

namespace Hustle.Optimizer

open Operators (JoinPredicate)

/--
The results that the operators of a plan share: one for a table of the query, or the output of the join that is
made in the `k`-th iteration.
-/
inductive ResultPtr where
  | base (table : Nat)
  | joinOut (k : Nat)
  deriving DecidableEq, Repr

structure HashJoin where
  operatorIndex : Nat
  left : Option ResultPtr
  right : Option ResultPtr
  output : ResultPtr
  pred : JoinPredicate
  deriving DecidableEq, Repr

structure ExecutionPlan where
  operators : List HashJoin
  dependents : List (Nat × Nat)
  result : Option ResultPtr
  deriving DecidableEq, Repr

namespace ExecutionPlan

def empty : ExecutionPlan where
  operators := []
  dependents := []
  result := none

def addOperator (plan : ExecutionPlan) (op : HashJoin) : ExecutionPlan :=
  { plan with operators := plan.operators ++ [{ op with operatorIndex := plan.operators.length }] }

def setOperatorResult (plan : ExecutionPlan) (result : ResultPtr) : ExecutionPlan :=
  { plan with result := some result }

def merge (plan other : ExecutionPlan) : ExecutionPlan where
  operators := plan.operators ++ other.operators
  -- the links are added once for every operator of the other plan
  dependents :=
    if other.operators.isEmpty then
      plan.dependents
    else
      plan.dependents ++ other.dependents.map fun link =>
        (link.1 + plan.operators.length, link.2 + plan.operators.length)
  result := other.result

end ExecutionPlan

structure JoinInfo where
  leftId : Nat
  rightId : Nat
  pred : JoinPredicate
  estSize : Nat
  deriving DecidableEq, Repr

def populateTablesMaps (tables : List Nat) (table : Nat) : List Nat :=
  if table ∈ tables then tables else tables ++ [table]

/--
The tables of the predicates; the position of a table is its id.
-/
def tablesOf (preds : List JoinPredicate) : List Nat :=
  (preds.flatMap fun p => [p.leftTable, p.rightTable]).foldl populateTablesMaps []

def joinInfos (numRows : Nat → Nat) (preds : List JoinPredicate) : List JoinInfo :=
  preds.map fun p =>
    { leftId := (tablesOf preds).idxOf p.leftTable
      rightId := (tablesOf preds).idxOf p.rightTable
      pred := p
      estSize := numRows p.leftTable * numRows p.rightTable % 2 ^ 64 }

/--
The orders in which the priority queue may hand out the joins.
-/
def Pops (infos order : List JoinInfo) : Prop :=
  order.Perm infos ∧ order.Pairwise (·.estSize ≤ ·.estSize)

structure State where
  plans : List (Option ExecutionPlan)
  joinForest : DisjointSetForest Nat
  numJoins : Nat
  finalPlanId : Option Nat
  deriving DecidableEq, Repr

namespace ReorderJoin

def initial (preds : List JoinPredicate) : State where
  plans := List.replicate (tablesOf preds).length none
  joinForest :=
    ((preds.flatMap fun p => [p.leftTable, p.rightTable]).map (tablesOf preds).idxOf).foldl
      DisjointSetForest.makeSet .empty
  numJoins := 0
  finalPlanId := none

/--
The input for a table, and the plan of its group, which is made if there is none.
-/
def inputResult (tables : List Nat) (plans : List (Option ExecutionPlan)) (tblId grpId : Nat)
    : Option ResultPtr × ExecutionPlan :=
  match plans[grpId]?.join with
  | none => (tables[tblId]?.map .base, .empty)
  | some plan => (plan.result, plan)

/--
The plan of the left group, after the join has been added to the plan of the right group and the two were merged.
-/
def mergedPlan (tables : List Nat) (s : State) (info : JoinInfo) (lgrp rgrp : Nat) : ExecutionPlan :=
  let (left, lplan) := inputResult tables s.plans info.leftId lgrp
  let (right, rplan) := inputResult tables s.plans info.rightId rgrp
  let joinOut := ResultPtr.joinOut s.numJoins
  let rplan := rplan.addOperator { operatorIndex := 0, left, right, output := joinOut, pred := info.pred }
  (lplan.merge rplan).setOperatorResult joinOut

def step (tables : List Nat) (s : State) (info : JoinInfo) : Except String State :=
  let (lgrp, forest) := s.joinForest.find info.leftId
  let (rgrp, forest) := forest.find info.rightId
  if lgrp = rgrp then
    throw "Unsupported join query"
  else
    let plan := mergedPlan tables s info lgrp rgrp
    let forest := forest.merge info.leftId info.rightId
    let (mergedId, forest) := forest.find info.leftId
    pure
      { plans := ((s.plans.set lgrp (some plan)).set rgrp none).set mergedId (some plan)
        joinForest := forest
        numJoins := s.numJoins + 1
        finalPlanId := some mergedId }

/--
The order is the one in which the queue hands the joins out.
-/
def applyJoinReordering (preds : List JoinPredicate) (order : List JoinInfo)
    : Except String (Option ExecutionPlan) := do
  let s ← order.foldlM (step (tablesOf preds)) (initial preds)
  pure (s.finalPlanId.bind fun id => s.plans[id]?.join)

end ReorderJoin

/-! What is expected of a plan. -/

namespace ExecutionPlan

/--
The result has rows of the table: it is the table itself, or the output of a join one of whose inputs has.
-/
inductive Holds (operators : List HashJoin) : ResultPtr → Nat → Prop
  | base (table : Nat) : Holds operators (.base table) table
  | left {op : HashJoin} {input : ResultPtr} {table : Nat} (hop : op ∈ operators)
      (hinput : op.left = some input) (h : Holds operators input table)
      : Holds operators op.output table
  | right {op : HashJoin} {input : ResultPtr} {table : Nat} (hop : op ∈ operators)
      (hinput : op.right = some input) (h : Holds operators input table)
      : Holds operators op.output table

def Indexed (plan : ExecutionPlan) : Prop :=
  plan.operators.map (·.operatorIndex) = List.range plan.operators.length

/--
A join that reads the output of another is linked after it.
-/
def Linked (plan : ExecutionPlan) : Prop :=
  ∀ i j op op', plan.operators[i]? = some op → plan.operators[j]? = some op' →
    (op'.left = some op.output ∨ op'.right = some op.output) → (i, j) ∈ plan.dependents

structure Executable (preds : List JoinPredicate) (plan : ExecutionPlan) : Prop where
  predicates : (plan.operators.map (·.pred)).Perm preds
  left : ∀ op ∈ plan.operators, ∃ input, op.left = some input ∧ Holds plan.operators input op.pred.leftTable
  right : ∀ op ∈ plan.operators, ∃ input, op.right = some input ∧ Holds plan.operators input op.pred.rightTable
  linked : plan.Linked

end ExecutionPlan

namespace ReorderJoin

def Cyclic (preds : List JoinPredicate) : Prop :=
  Multigraph.Cyclic JoinPredicate.leftTable JoinPredicate.rightTable preds

def Connected (preds : List JoinPredicate) : Prop :=
  Multigraph.Connected JoinPredicate.leftTable JoinPredicate.rightTable preds

/--
After every merge, the operators of the plans have their positions as index.
-/
def KeepsIndices (preds : List JoinPredicate) (order : List JoinInfo) : Prop :=
  ∀ done s, done <+: order → done.foldlM (step (tablesOf preds)) (initial preds) = .ok s →
    ∀ plan, some plan ∈ s.plans → plan.Indexed

/--
For every order of the queue, joins without a cycle that connect their tables get a plan that can be executed,
and joins with a cycle are rejected.
-/
def Reorders (numRows : Nat → Nat) (preds : List JoinPredicate) : Prop :=
  ∀ order, Pops (joinInfos numRows preds) order →
    (Connected preds → ¬Cyclic preds →
      ∃ plan, applyJoinReordering preds order = .ok (some plan) ∧ plan.Executable preds ∧
        KeepsIndices preds order) ∧
    (Cyclic preds → applyJoinReordering preds order = .error "Unsupported join query")

end ReorderJoin

/-! The tables and their ids. -/

theorem mem_foldl_populateTablesMaps {tables ts : List Nat} {t : Nat}
    : t ∈ ts.foldl populateTablesMaps tables ↔ t ∈ tables ∨ t ∈ ts := by
  induction ts generalizing tables with
  | nil => simp
  | cons u ts ih =>
    rw [List.foldl_cons, ih, populateTablesMaps]
    split
    . next h =>
      rw [List.mem_cons]
      constructor
      . rintro (ht | ht)
        . exact .inl ht
        . exact .inr (.inr ht)
      . rintro (ht | rfl | ht)
        . exact .inl ht
        . exact .inl h
        . exact .inr ht
    . rw [List.mem_append, List.mem_singleton, List.mem_cons, or_assoc]

theorem nodup_foldl_populateTablesMaps {tables : List Nat} (ts : List Nat) (h : tables.Nodup)
    : (ts.foldl populateTablesMaps tables).Nodup := by
  induction ts generalizing tables with
  | nil => exact h
  | cons u ts ih =>
    apply ih
    rw [populateTablesMaps]
    split
    . exact h
    . next hu => exact List.nodup_append_comm.mp (List.nodup_cons.mpr ⟨hu, h⟩)

theorem nodup_tablesOf (preds : List JoinPredicate) : (tablesOf preds).Nodup :=
  nodup_foldl_populateTablesMaps _ List.nodup_nil

theorem mem_tablesOf {preds : List JoinPredicate} {t : Nat}
    : t ∈ tablesOf preds ↔ t ∈ preds.flatMap fun p => [p.leftTable, p.rightTable] := by
  simp [tablesOf, mem_foldl_populateTablesMaps]

theorem leftTable_mem_tablesOf {preds : List JoinPredicate} {p : JoinPredicate} (hp : p ∈ preds)
    : p.leftTable ∈ tablesOf preds := by
  rw [mem_tablesOf, List.mem_flatMap]
  exact ⟨p, hp, by simp⟩

theorem rightTable_mem_tablesOf {preds : List JoinPredicate} {p : JoinPredicate} (hp : p ∈ preds)
    : p.rightTable ∈ tablesOf preds := by
  rw [mem_tablesOf, List.mem_flatMap]
  exact ⟨p, hp, by simp⟩

namespace ReorderJoin

def nodeOf (preds : List JoinPredicate) (s : State) (t : Nat) : Nat :=
  s.joinForest.nodeId ((tablesOf preds).idxOf t)

/--
The state after the joins `done`: two tables are in one group if the joins connect them. A group that no join
has touched has no plan, and the plan of another group ends with a join and has no links.
-/
structure Grouped (preds done : List JoinPredicate) (s : State) (rep : Nat → Nat) : Prop where
  partitions : s.joinForest.Partitions rep
  elements : ∀ t ∈ tablesOf preds, (tablesOf preds).idxOf t ∈ s.joinForest.elements
  length : s.plans.length = s.joinForest.nodes.length
  groups : ∀ t ∈ tablesOf preds, ∀ u ∈ tablesOf preds,
    rep (nodeOf preds s t) = rep (nodeOf preds s u) ↔
      Multigraph.Connects JoinPredicate.leftTable JoinPredicate.rightTable done t u
  untouched : ∀ t ∈ tablesOf preds, s.plans[rep (nodeOf preds s t)]?.join = none →
    ∀ p ∈ done, ¬Multigraph.Incident JoinPredicate.leftTable JoinPredicate.rightTable p t
  unlinked : ∀ t ∈ tablesOf preds, ∀ plan, s.plans[rep (nodeOf preds s t)]?.join = some plan →
    plan.dependents = [] ∧ ∃ op ∈ plan.operators, plan.result = some op.output

section

variable {preds done : List JoinPredicate} {s : State} {rep : Nat → Nat}

theorem Grouped.nodeOf_lt (h : Grouped preds done s rep) {t : Nat} (ht : t ∈ tablesOf preds)
    : nodeOf preds s t < s.joinForest.nodes.length :=
  h.partitions.nodeId_lt (h.elements t ht)

theorem initial_grouped (preds : List JoinPredicate) : Grouped preds [] (initial preds) id := by
  obtain ⟨hpart, hmem⟩ := DisjointSetForest.makeSets_partitions
    ((preds.flatMap fun p => [p.leftTable, p.rightTable]).map (tablesOf preds).idxOf)
    (@DisjointSetForest.empty_partitions Nat)
  have hpart : (initial preds).joinForest.Partitions id := hpart
  have helem : ∀ x, x ∈ (initial preds).joinForest.elements ↔ x ∈ (tablesOf preds).map (tablesOf preds).idxOf := by
    intro x
    rw [initial, hmem]
    simp [DisjointSetForest.empty, mem_tablesOf]
  have hnodup : ((tablesOf preds).map (tablesOf preds).idxOf).Nodup := by
    apply List.Nodup.map_on _ (nodup_tablesOf preds)
    intro t ht u hu heq
    exact (List.idxOf_inj ht).mp heq
  have hperm := (List.perm_ext_iff_of_nodup hpart.nodup hnodup).mpr helem
  have hin : ∀ t ∈ tablesOf preds, (tablesOf preds).idxOf t ∈ (initial preds).joinForest.elements := by
    intro t ht
    rw [helem]
    exact List.mem_map_of_mem ht
  have hnone : ∀ i : Nat, (initial preds).plans[i]?.join = none := by
    intro i
    simp only [initial, List.getElem?_replicate]
    split <;> rfl
  refine ⟨hpart, hin, ?_, ?_, ?_, ?_⟩
  . rw [hpart.length]
    have hlen := hperm.length_eq
    rw [List.length_map] at hlen
    rw [hlen, initial, List.length_replicate]
  . intro t ht u hu
    constructor
    . intro heq
      have heq := (List.idxOf_inj (hin t ht)).mp heq
      rw [(List.idxOf_inj ht).mp heq]
      exact .refl _
    . intro hcon
      rw [hcon.eq_of_isolated (by simp)]
  . intro t ht _
    simp
  . intro t ht plan hplan
    rw [hnone] at hplan
    cases hplan

/--
The plan that a join leaves for the groups of its tables.
-/
def joinedPlan (preds : List JoinPredicate) (s : State) (rep : Nat → Nat) (info : JoinInfo) : ExecutionPlan :=
  mergedPlan (tablesOf preds) s info (rep (nodeOf preds s info.pred.leftTable))
    (rep (nodeOf preds s info.pred.rightTable))

def leftInput (preds : List JoinPredicate) (s : State) (rep : Nat → Nat) (info : JoinInfo)
    : Option ResultPtr × ExecutionPlan :=
  inputResult (tablesOf preds) s.plans info.leftId (rep (nodeOf preds s info.pred.leftTable))

def rightInput (preds : List JoinPredicate) (s : State) (rep : Nat → Nat) (info : JoinInfo)
    : Option ResultPtr × ExecutionPlan :=
  inputResult (tablesOf preds) s.plans info.rightId (rep (nodeOf preds s info.pred.rightTable))

def newJoin (preds : List JoinPredicate) (s : State) (rep : Nat → Nat) (info : JoinInfo) : HashJoin where
  operatorIndex := (rightInput preds s rep info).2.operators.length
  left := (leftInput preds s rep info).1
  right := (rightInput preds s rep info).1
  output := .joinOut s.numJoins
  pred := info.pred

theorem joinedPlan_operators (preds : List JoinPredicate) (s : State) (rep : Nat → Nat) (info : JoinInfo)
    : (joinedPlan preds s rep info).operators
        =
      (leftInput preds s rep info).2.operators ++
        ((rightInput preds s rep info).2.operators ++ [newJoin preds s rep info]) := rfl

theorem newJoin_mem_joinedPlan (preds : List JoinPredicate) (s : State) (rep : Nat → Nat) (info : JoinInfo)
    : newJoin preds s rep info ∈ (joinedPlan preds s rep info).operators := by
  simp [joinedPlan_operators]

theorem joinedPlan_result (preds : List JoinPredicate) (s : State) (rep : Nat → Nat) (info : JoinInfo)
    : (joinedPlan preds s rep info).result = some (newJoin preds s rep info).output := rfl

def Describes (preds : List JoinPredicate) (info : JoinInfo) : Prop :=
  info.pred ∈ preds ∧ info.leftId = (tablesOf preds).idxOf info.pred.leftTable ∧
    info.rightId = (tablesOf preds).idxOf info.pred.rightTable

variable {info : JoinInfo}

theorem joinedPlan_dependents (h : Grouped preds done s rep) (hinfo : Describes preds info)
    : (joinedPlan preds s rep info).dependents = [] := by
  have hnil : ∀ t ∈ tablesOf preds, ∀ tblId,
      (inputResult (tablesOf preds) s.plans tblId (rep (nodeOf preds s t))).2.dependents = [] := by
    intro t ht tblId
    rw [inputResult]
    split
    . rfl
    . next plan hplan => exact (h.unlinked t ht plan hplan).1
  simp [joinedPlan, mergedPlan, ExecutionPlan.merge, ExecutionPlan.addOperator, ExecutionPlan.setOperatorResult,
    hnil _ (leftTable_mem_tablesOf hinfo.1), hnil _ (rightTable_mem_tablesOf hinfo.1)]

theorem find_groups (h : Grouped preds done s rep) (hinfo : Describes preds info)
    : (s.joinForest.find info.leftId).1 = rep (nodeOf preds s info.pred.leftTable) ∧
      ((s.joinForest.find info.leftId).2.find info.rightId).1
        =
      rep (nodeOf preds s info.pred.rightTable) := by
  obtain ⟨hpred, hleft, hright⟩ := hinfo
  have hl := h.elements _ (leftTable_mem_tablesOf hpred)
  have hr := h.elements _ (rightTable_mem_tablesOf hpred)
  rw [hleft, hright]
  exact ⟨DisjointSetForest.find_fst h.partitions hl,
    DisjointSetForest.find_fst (DisjointSetForest.find_partitions h.partitions hl).1 hr⟩

theorem step_eq_error (h : Grouped preds done s rep) (hinfo : Describes preds info)
    (hcon : Multigraph.Connects JoinPredicate.leftTable JoinPredicate.rightTable done
      info.pred.leftTable info.pred.rightTable)
    : step (tablesOf preds) s info = .error "Unsupported join query" := by
  obtain ⟨hl, hr⟩ := find_groups h hinfo
  have heq := (h.groups _ (leftTable_mem_tablesOf hinfo.1) _ (rightTable_mem_tablesOf hinfo.1)).mpr hcon
  simp only [step, hl, hr, heq, if_true]
  rfl

theorem rep_merge_eq_iff {a b l r x y : Nat} (hab : a = l ∧ b = r ∨ a = r ∧ b = l)
    : (if x = a then b else x) = (if y = a then b else y)
        ↔
      x = y ∨ (x = l ∧ r = y) ∨ (x = r ∧ l = y) := by
  rcases hab with ⟨rfl, rfl⟩ | ⟨rfl, rfl⟩ <;> split <;> split <;> omega

theorem groups_concat (h : Grouped preds done s rep) (hpred : info.pred ∈ preds) {a b : Nat}
    (hab : a = rep (nodeOf preds s info.pred.leftTable) ∧ b = rep (nodeOf preds s info.pred.rightTable) ∨
      a = rep (nodeOf preds s info.pred.rightTable) ∧ b = rep (nodeOf preds s info.pred.leftTable))
    {t u : Nat} (ht : t ∈ tablesOf preds) (hu : u ∈ tablesOf preds)
    : (if rep (nodeOf preds s t) = a then b else rep (nodeOf preds s t))
          = (if rep (nodeOf preds s u) = a then b else rep (nodeOf preds s u))
        ↔
      Multigraph.Connects JoinPredicate.leftTable JoinPredicate.rightTable (done ++ [info.pred]) t u := by
  have hltable := leftTable_mem_tablesOf hpred
  have hrtable := rightTable_mem_tablesOf hpred
  have hperm : (done ++ [info.pred]).Perm (info.pred :: done) := List.perm_append_singleton _ _
  have hcons : Multigraph.Connects JoinPredicate.leftTable JoinPredicate.rightTable (done ++ [info.pred]) t u
      ↔ Multigraph.Connects JoinPredicate.leftTable JoinPredicate.rightTable (info.pred :: done) t u :=
    ⟨fun hc => hc.mono hperm.subset, fun hc => hc.mono hperm.symm.subset⟩
  rw [rep_merge_eq_iff hab, hcons, Multigraph.connects_cons_iff, ← h.groups t ht u hu,
    ← h.groups t ht _ hltable, ← h.groups t ht _ hrtable, ← h.groups _ hltable u hu,
    ← h.groups _ hrtable u hu]

/--
The plans of the groups `l` and `r` are replaced by one plan, which the group `b` keeps.
-/
def joinPlans (plans : List (Option ExecutionPlan)) (l r b : Nat) (plan : ExecutionPlan)
    : List (Option ExecutionPlan) :=
  ((plans.set l (some plan)).set r none).set b (some plan)

theorem getElem?_joinPlans_of_ne {plans : List (Option ExecutionPlan)} {plan : ExecutionPlan} {a b l r g : Nat}
    (hab : a = l ∧ b = r ∨ a = r ∧ b = l) (hga : g ≠ a) (hgb : g ≠ b)
    : (joinPlans plans l r b plan)[g]? = plans[g]? := by
  rw [joinPlans, List.getElem?_set_ne hgb.symm]
  rcases hab with ⟨rfl, rfl⟩ | ⟨rfl, rfl⟩
  . rw [List.getElem?_set_ne hgb.symm, List.getElem?_set_ne hga.symm]
  . rw [List.getElem?_set_ne hga.symm, List.getElem?_set_ne hgb.symm]

theorem planOf_joinPlans {plans : List (Option ExecutionPlan)} {plan : ExecutionPlan} {a b l r : Nat}
    (hab : a = l ∧ b = r ∨ a = r ∧ b = l) (hb : b < plans.length) (g : Nat)
    : ((joinPlans plans l r b plan)[if g = a then b else g]?).join = some plan ∨
        g ≠ l ∧ g ≠ r ∧ (joinPlans plans l r b plan)[if g = a then b else g]? = plans[g]? := by
  have hnew : ((joinPlans plans l r b plan)[b]?).join = some plan := by
    simp [joinPlans, hb]
  by_cases hga : g = a
  . rw [if_pos hga]
    exact .inl hnew
  . rw [if_neg hga]
    by_cases hgb : g = b
    . rw [hgb]
      exact .inl hnew
    . refine .inr ⟨?_, ?_, getElem?_joinPlans_of_ne hab hga hgb⟩
      . rcases hab with ⟨rfl, rfl⟩ | ⟨rfl, rfl⟩ <;> assumption
      . rcases hab with ⟨rfl, rfl⟩ | ⟨rfl, rfl⟩ <;> assumption

theorem mem_joinPlans {plans : List (Option ExecutionPlan)} {plan plan' : ExecutionPlan} {l r b : Nat}
    (h : some plan' ∈ joinPlans plans l r b plan)
    : some plan' ∈ plans ∨ plan' = plan := by
  rcases List.mem_or_eq_of_mem_set h with h | h
  . rcases List.mem_or_eq_of_mem_set h with h | h
    . rcases List.mem_or_eq_of_mem_set h with h | h
      . exact .inl h
      . cases h
        exact .inr rfl
    . cases h
  . cases h
    exact .inr rfl

theorem step_grouped (h : Grouped preds done s rep) (hinfo : Describes preds info)
    (hcon : ¬Multigraph.Connects JoinPredicate.leftTable JoinPredicate.rightTable done
      info.pred.leftTable info.pred.rightTable)
    : ∃ s' rep' mergedId,
        step (tablesOf preds) s info = .ok s' ∧ Grouped preds (done ++ [info.pred]) s' rep' ∧
        s'.finalPlanId = some mergedId ∧
        s'.plans[mergedId]?.join = some (joinedPlan preds s rep info) ∧
        ∀ plan, some plan ∈ s'.plans → some plan ∈ s.plans ∨
          plan = joinedPlan preds s rep info := by
  obtain ⟨hl, hr⟩ := find_groups h hinfo
  have ⟨hpred, hleft, hright⟩ := hinfo
  have hltable := leftTable_mem_tablesOf hpred
  have hrtable := rightTable_mem_tablesOf hpred
  have hne := mt (h.groups _ hltable _ hrtable).mp hcon
  obtain ⟨a, b, forest', hab, hfind, hpart, hlen, helem⟩ :=
    DisjointSetForest.find_merge_partitions h.partitions (h.elements _ hltable) (h.elements _ hrtable) hne
  rw [← hleft, ← hright] at hfind
  change a = rep (nodeOf preds s info.pred.leftTable) ∧ b = rep (nodeOf preds s info.pred.rightTable) ∨
    a = rep (nodeOf preds s info.pred.rightTable) ∧ b = rep (nodeOf preds s info.pred.leftTable) at hab
  have hplans : b < s.plans.length := by
    rw [h.length]
    rcases hab with ⟨-, rfl⟩ | ⟨-, rfl⟩
    . exact h.partitions.rep_lt (h.nodeOf_lt hrtable)
    . exact h.partitions.rep_lt (h.nodeOf_lt hltable)
  let plan := joinedPlan preds s rep info
  let s' : State :=
    { plans := joinPlans s.plans (rep (nodeOf preds s info.pred.leftTable))
        (rep (nodeOf preds s info.pred.rightTable)) b plan
      joinForest := forest'
      numJoins := s.numJoins + 1
      finalPlanId := some b }
  have hstep : step (tablesOf preds) s info = .ok s' := by
    simp only [step, hl, hr, if_neg hne, hfind]
    rfl
  have hnode : ∀ t, nodeOf preds s' t = nodeOf preds s t := by
    intro t
    simp only [nodeOf, DisjointSetForest.nodeId, s', helem]
  refine ⟨s', _, b, hstep, ⟨hpart, ?_, ?_, ?_, ?_, ?_⟩, rfl, ?_, fun _ hplan => mem_joinPlans hplan⟩
  . intro t ht
    simp only [s', helem]
    exact h.elements t ht
  . simp [s', joinPlans, h.length, hlen]
  . intro t ht u hu
    rw [hnode, hnode]
    exact groups_concat h hpred hab ht hu
  . intro t ht hnone p hp
    rw [hnode] at hnone
    rcases @planOf_joinPlans _ plan _ _ _ _ hab hplans (rep (nodeOf preds s t)) with hnew | ⟨htl, htr, hsame⟩
    . exact absurd (hnone.symm.trans hnew) (by simp)
    . rcases List.mem_append.mp hp with hp | hp
      . exact h.untouched t ht ((congrArg Option.join hsame).symm.trans hnone) p hp
      . rw [List.mem_singleton.mp hp]
        rintro (rfl | rfl)
        . exact htl rfl
        . exact htr rfl
  . intro t ht plan' hplan'
    rw [hnode] at hplan'
    rcases @planOf_joinPlans _ plan _ _ _ _ hab hplans (rep (nodeOf preds s t)) with hnew | ⟨-, -, hsame⟩
    . cases hplan'.symm.trans hnew
      exact ⟨joinedPlan_dependents h hinfo, _, newJoin_mem_joinedPlan .., joinedPlan_result ..⟩
    . exact h.unlinked t ht plan' ((congrArg Option.join hsame).symm.trans hplan')
  . simp [s', joinPlans, hplans, plan]

/-! Runs of the loop. -/

theorem run_grouped {infos : List JoinInfo} (h : Grouped preds done s rep)
    (hinfos : ∀ info ∈ infos, Describes preds info) (hacyclic : ¬Cyclic (done ++ infos.map (·.pred)))
    : ∃ s' rep', infos.foldlM (step (tablesOf preds)) s = .ok s' ∧
        Grouped preds (done ++ infos.map (·.pred)) s' rep' := by
  induction infos generalizing done s rep with
  | nil => exact ⟨s, rep, rfl, by simpa using h⟩
  | cons info infos ih =>
    have hcon : ¬Multigraph.Connects JoinPredicate.leftTable JoinPredicate.rightTable done
        info.pred.leftTable info.pred.rightTable :=
      fun hcon => hacyclic (Multigraph.cyclic_of_connects hcon)
    obtain ⟨s₁, rep₁, -, hstep, hgroup, -⟩ := step_grouped h (hinfos info (by simp)) hcon
    have hsplit : done ++ (info :: infos).map (·.pred) = (done ++ [info.pred]) ++ infos.map (·.pred) := by
      simp
    rw [hsplit] at hacyclic ⊢
    obtain ⟨s', rep', hrun, hgroup'⟩ := ih hgroup (fun i hi => hinfos i (by simp [hi])) hacyclic
    refine ⟨s', rep', ?_, hgroup'⟩
    rw [List.foldlM_cons, hstep]
    exact hrun

theorem run_eq_error {infos : List JoinInfo} (h : Grouped preds done s rep)
    (hinfos : ∀ info ∈ infos, Describes preds info) (hdone : ¬Cyclic done)
    (hcyclic : Cyclic (done ++ infos.map (·.pred)))
    : infos.foldlM (step (tablesOf preds)) s = .error "Unsupported join query" := by
  induction infos generalizing done s rep with
  | nil =>
    rw [List.map_nil, List.append_nil] at hcyclic
    exact absurd hcyclic hdone
  | cons info infos ih =>
    rw [List.foldlM_cons]
    by_cases hcon : Multigraph.Connects JoinPredicate.leftTable JoinPredicate.rightTable done
        info.pred.leftTable info.pred.rightTable
    . rw [step_eq_error h (hinfos info (by simp)) hcon]
      rfl
    . obtain ⟨s₁, rep₁, -, hstep, hgroup, -⟩ := step_grouped h (hinfos info (by simp)) hcon
      rw [hstep]
      apply ih hgroup (fun i hi => hinfos i (by simp [hi])) (Multigraph.not_cyclic_concat hdone hcon)
      simpa using hcyclic

theorem describes_of_pops {numRows : Nat → Nat} {order : List JoinInfo}
    (hpops : Pops (joinInfos numRows preds) order)
    : (∀ info ∈ order, Describes preds info) ∧ (order.map (·.pred)).Perm preds := by
  constructor
  . intro info hinfo
    obtain ⟨p, hp, rfl⟩ := List.mem_map.mp (hpops.1.mem_iff.mp hinfo)
    exact ⟨hp, rfl, rfl⟩
  . have := hpops.1.map (·.pred)
    simpa [joinInfos, Function.comp_def] using this

theorem exists_pops (infos : List JoinInfo) : ∃ order, Pops infos order := by
  refine ⟨infos.mergeSort fun a b => a.estSize ≤ b.estSize, List.mergeSort_perm _ _, ?_⟩
  have := @List.pairwise_mergeSort _ (fun a b : JoinInfo => decide (a.estSize ≤ b.estSize))
    (by simp; omega) (by simp; omega) infos
  simpa using this

theorem applyJoinReordering_cyclic {numRows : Nat → Nat} {order : List JoinInfo}
    (hpops : Pops (joinInfos numRows preds) order) (hcyclic : Cyclic preds)
    : applyJoinReordering preds order = .error "Unsupported join query" := by
  obtain ⟨hinfos, hperm⟩ := describes_of_pops hpops
  have hcyclic : Cyclic ([] ++ order.map (·.pred)) := (Multigraph.cyclic_perm hperm).mpr hcyclic
  rw [applyJoinReordering, run_eq_error (initial_grouped preds) hinfos Multigraph.not_cyclic_nil hcyclic]
  rfl

theorem not_linked_joinedPlan (h : Grouped preds done s rep) (hinfo : Describes preds info) {t : Nat}
    (ht : t = info.pred.leftTable ∨ t = info.pred.rightTable) {plan : ExecutionPlan}
    (hplan : s.plans[rep (nodeOf preds s t)]?.join = some plan)
    : ¬(joinedPlan preds s rep info).Linked := by
  intro hlinked
  have hltable := leftTable_mem_tablesOf hinfo.1
  have hrtable := rightTable_mem_tablesOf hinfo.1
  have htable : t ∈ tablesOf preds := by
    rcases ht with rfl | rfl
    . exact hltable
    . exact hrtable
  obtain ⟨-, op, hop, hresult⟩ := h.unlinked t htable plan hplan
  have hreads : (newJoin preds s rep info).left = some op.output ∨
      (newJoin preds s rep info).right = some op.output := by
    rcases ht with rfl | rfl
    . left
      simp only [newJoin, leftInput, inputResult, hplan, hresult]
    . right
      simp only [newJoin, rightInput, inputResult, hplan, hresult]
  have hmem : op ∈ (joinedPlan preds s rep info).operators := by
    rw [joinedPlan_operators]
    rcases ht with rfl | rfl
    . simp [leftInput, inputResult, hplan, hop]
    . simp [rightInput, inputResult, hplan, hop]
  obtain ⟨i, hi⟩ := List.getElem?_of_mem hmem
  obtain ⟨j, hj⟩ := List.getElem?_of_mem (newJoin_mem_joinedPlan preds s rep info)
  have := hlinked i j op _ hi hj hreads
  rw [joinedPlan_dependents h hinfo] at this
  cases this

theorem exists_plan_of_connected (h : Grouped preds done s rep) (hinfo : Describes preds info)
    (hdone : done ≠ [])
    (hconnected : Multigraph.Connected JoinPredicate.leftTable JoinPredicate.rightTable
      (info.pred :: done))
    : ∃ t, (t = info.pred.leftTable ∨ t = info.pred.rightTable) ∧
        ∃ plan, s.plans[rep (nodeOf preds s t)]?.join = some plan := by
  by_contra hnone
  push Not at hnone
  have hnone : ∀ t, (t = info.pred.leftTable ∨ t = info.pred.rightTable) →
      s.plans[rep (nodeOf preds s t)]?.join = none := by
    intro t ht
    apply Option.eq_none_iff_forall_ne_some.mpr
    exact hnone t ht
  have hleft := h.untouched _ (leftTable_mem_tablesOf hinfo.1) (hnone _ (.inl rfl))
  have hright := h.untouched _ (rightTable_mem_tablesOf hinfo.1) (hnone _ (.inr rfl))
  obtain ⟨p, hp⟩ := List.exists_mem_of_ne_nil done hdone
  -- no earlier join meets the tables of the last one, so nothing connects them with the others
  have hcon := hconnected.2 info.pred (by simp) p (by simp [hp])
  rcases Multigraph.connects_cons_iff.mp hcon with hcon | ⟨-, hcon⟩ | ⟨-, hcon⟩
  . exact hleft p hp (.inl (hcon.eq_of_isolated hleft))
  . exact hright p hp (.inl (hcon.eq_of_isolated hright))
  . exact hleft p hp (.inl (hcon.eq_of_isolated hleft))

theorem applyJoinReordering_concat {before : List JoinInfo}
    (hinfos : ∀ i ∈ before ++ [info], Describes preds i)
    (hacyclic : ¬Cyclic ((before ++ [info]).map (·.pred)))
    : ∃ s s' rep,
        before.foldlM (step (tablesOf preds)) (initial preds) = .ok s ∧
        Grouped preds (before.map (·.pred)) s rep ∧
        (before ++ [info]).foldlM (step (tablesOf preds)) (initial preds) = .ok s' ∧
        applyJoinReordering preds (before ++ [info]) = .ok (some (joinedPlan preds s rep info)) ∧
        ∀ plan, some plan ∈ s'.plans → some plan ∈ s.plans ∨ plan = joinedPlan preds s rep info := by
  rw [List.map_append, List.map_singleton] at hacyclic
  have hbefore : ¬Cyclic ([] ++ before.map (·.pred)) :=
    fun hcyclic => hacyclic (hcyclic.append [info.pred])
  obtain ⟨s, rep, hrun, hgroup⟩ :=
    run_grouped (initial_grouped preds) (fun i hi => hinfos i (by simp [hi])) hbefore
  rw [List.nil_append] at hgroup
  obtain ⟨s', -, mergedId, hstep, -, hfinal, hplan, hplans⟩ :=
    step_grouped hgroup (hinfos info (by simp)) (mt Multigraph.cyclic_of_connects hacyclic)
  have hrun' : (before ++ [info]).foldlM (step (tablesOf preds)) (initial preds) = .ok s' := by
    rw [List.foldlM_append, hrun]
    change [info].foldlM (step (tablesOf preds)) s = _
    rw [List.foldlM_cons, hstep]
    rfl
  refine ⟨s, s', rep, hrun, hgroup, hrun', ?_, hplans⟩
  rw [applyJoinReordering, hrun']
  change Except.ok (s'.finalPlanId.bind fun id => s'.plans[id]?.join) = _
  rw [hfinal, Option.bind_some, hplan]

theorem length_eq_one_of_reorders {numRows : Nat → Nat} (hreorders : Reorders numRows preds)
    (hconnected : Connected preds) (hacyclic : ¬Cyclic preds)
    : preds.length = 1 := by
  by_contra hlen
  obtain ⟨order, hpops⟩ := exists_pops (joinInfos numRows preds)
  obtain ⟨hinfos, hperm⟩ := describes_of_pops hpops
  obtain ⟨plan, happly, hexec, -⟩ := (hreorders order hpops).1 hconnected hacyclic
  have horder : order.length = preds.length := by simpa using hperm.length_eq
  have hpos : 0 < preds.length := List.length_pos_iff.mpr hconnected.1
  rcases List.eq_nil_or_concat order with rfl | ⟨before, info, rfl⟩
  . simp only [List.length_nil] at horder
    omega
  . rw [List.concat_eq_append] at *
    have hinfo := hinfos info (by simp)
    obtain ⟨s, -, rep, -, hgroup, -, hresult, -⟩ :=
      applyJoinReordering_concat hinfos (mt (Multigraph.cyclic_perm hperm).mp hacyclic)
    rw [hresult] at happly
    cases happly
    have hdone : before.map (·.pred) ≠ [] := by
      intro hnil
      simp only [List.map_eq_nil_iff] at hnil
      subst hnil
      simp only [List.nil_append, List.length_singleton] at horder
      omega
    have hperm' : (info.pred :: before.map (·.pred)).Perm preds := by
      rw [List.map_append, List.map_singleton] at hperm
      exact (List.perm_append_singleton _ _).symm.trans hperm
    obtain ⟨t, ht, plan, hplan⟩ := exists_plan_of_connected hgroup hinfo hdone <| by
      refine ⟨by simp, ?_⟩
      intro e he e' he'
      have := hconnected.2 e (hperm'.mem_iff.mp he) e' (hperm'.mem_iff.mp he')
      exact this.mono hperm'.symm.subset
    exact not_linked_joinedPlan hgroup hinfo ht hplan hexec.linked

theorem executable_singleton (hinfo : Describes preds info) (hlen : preds = [info.pred]) (rep : Nat → Nat)
    : (joinedPlan preds (initial preds) rep info).Executable preds ∧
      (joinedPlan preds (initial preds) rep info).Indexed := by
  have hnone : ∀ i : Nat, (initial preds).plans[i]?.join = none := by
    intro i
    simp only [initial, List.getElem?_replicate]
    split <;> rfl
  have hbase : ∀ t ∈ tablesOf preds,
      (tablesOf preds)[(tablesOf preds).idxOf t]?.map ResultPtr.base = some (.base t) := by
    intro t ht
    rw [List.getElem?_eq_getElem (List.idxOf_lt_length_of_mem ht), List.getElem_idxOf]
    rfl
  have hleft : leftInput preds (initial preds) rep info = (some (.base info.pred.leftTable), .empty) := by
    simp only [leftInput, inputResult, hnone, hinfo.2.1, hbase _ (leftTable_mem_tablesOf hinfo.1)]
  have hright : rightInput preds (initial preds) rep info = (some (.base info.pred.rightTable), .empty) := by
    simp only [rightInput, inputResult, hnone, hinfo.2.2, hbase _ (rightTable_mem_tablesOf hinfo.1)]
  have hops : (joinedPlan preds (initial preds) rep info).operators
      = [{ operatorIndex := 0, left := some (.base info.pred.leftTable),
           right := some (.base info.pred.rightTable), output := .joinOut 0, pred := info.pred }] := by
    rw [joinedPlan_operators, newJoin, hleft, hright]
    rfl
  refine ⟨⟨?_, ?_, ?_, ?_⟩, ?_⟩
  . rw [hops, hlen]
    simp
  . rw [hops]
    simp [ExecutionPlan.Holds.base]
  . rw [hops]
    simp [ExecutionPlan.Holds.base]
  . intro i j op op' hi hj hreads
    rw [hops] at hi hj
    have hop := List.mem_singleton.mp (List.mem_of_getElem? hi)
    have hop' := List.mem_singleton.mp (List.mem_of_getElem? hj)
    simp [hop, hop'] at hreads
  . simp [ExecutionPlan.Indexed, hops]

theorem reorders_of_length_eq_one (numRows : Nat → Nat)
    (h : Connected preds → ¬Cyclic preds → preds.length = 1)
    : Reorders numRows preds := by
  intro order hpops
  refine ⟨?_, applyJoinReordering_cyclic hpops⟩
  intro hconnected hacyclic
  obtain ⟨hinfos, hperm⟩ := describes_of_pops hpops
  have hlen : (order.map (·.pred)).length = 1 := hperm.length_eq.trans (h hconnected hacyclic)
  rw [List.length_map, List.length_eq_one_iff] at hlen
  obtain ⟨info, rfl⟩ := hlen
  obtain ⟨s, s', rep, hrun, -, hrun', hresult, hplans⟩ :=
    @applyJoinReordering_concat preds info [] hinfos (mt (Multigraph.cyclic_perm hperm).mp hacyclic)
  cases hrun
  have hpreds : preds = [info.pred] := (List.perm_singleton.mp hperm.symm)
  obtain ⟨hexec, hindexed⟩ := executable_singleton (hinfos info (by simp)) hpreds rep
  refine ⟨_, hresult, hexec, ?_⟩
  have hinitial : ∀ plan, some plan ∉ (initial preds).plans := by
    simp [initial]
  intro done s'' hdone hrun'' plan hplan
  rcases List.prefix_concat_iff.mp (show done <+: [] ++ [info] from hdone) with rfl | hdone
  . rw [hrun'] at hrun''
    cases hrun''
    rcases hplans plan hplan with hplan | rfl
    . exact absurd hplan (hinitial plan)
    . exact hindexed
  . rw [List.prefix_nil.mp hdone] at hrun''
    cases hrun''
    exact absurd hplan (hinitial plan)

/--
`merge` keeps the indices that the operators had in the old plans, and no link is ever made. A plan that can be
executed comes out for a single join only.
-/
theorem reorders_iff (numRows : Nat → Nat) (preds : List JoinPredicate)
    : Reorders numRows preds
        ↔
      (Connected preds → ¬Cyclic preds → preds.length = 1) :=
  ⟨length_eq_one_of_reorders, reorders_of_length_eq_one numRows⟩

/--
Three tables of 3, 4 and 5 rows, the second of which is joined with both others.
-/
theorem not_reorders_chain
    : ¬Reorders (· + 3)
        [{ leftTable := 2, leftCol := "tkey", rightTable := 1, rightCol := "skey" },
         { leftTable := 0, leftCol := "rkey", rightTable := 1, rightCol := "skey" }] := by
  intro h
  let r : JoinPredicate := { leftTable := 0, leftCol := "rkey", rightTable := 1, rightCol := "skey" }
  let t : JoinPredicate := { leftTable := 2, leftCol := "tkey", rightTable := 1, rightCol := "skey" }
  have hconnected : Connected [t, r] := by
    refine ⟨by simp, ?_⟩
    have hr : Multigraph.Connects JoinPredicate.leftTable JoinPredicate.rightTable [t, r] 0 1 :=
      Multigraph.connects_of_mem (e := r) (by simp)
    have ht : Multigraph.Connects JoinPredicate.leftTable JoinPredicate.rightTable [t, r] 2 1 :=
      Multigraph.connects_of_mem (e := t) (by simp)
    have hall : ∀ p ∈ [t, r], Multigraph.Connects JoinPredicate.leftTable JoinPredicate.rightTable
        [t, r] p.leftTable 1 := by
      intro p hp
      simp only [List.mem_cons, List.not_mem_nil, or_false] at hp
      rcases hp with rfl | rfl
      . exact ht
      . exact hr
    intro e he e' he'
    exact .trans _ _ _ (hall e he) (.symm _ _ (hall e' he'))
  have hacyclic : ¬Cyclic [t, r] := by
    have hfirst : ¬Cyclic ([] ++ [t]) := by
      apply Multigraph.not_cyclic_concat Multigraph.not_cyclic_nil
      intro hcon
      have := hcon.eq_of_isolated (by simp)
      simp [t] at this
    apply Multigraph.not_cyclic_concat hfirst
    intro hcon
    have := hcon.eq_of_isolated (by simp [Multigraph.Incident, t, r])
    simp [r] at this
  have := length_eq_one_of_reorders h hconnected hacyclic
  simp at this

end

end ReorderJoin

end Hustle.Optimizer
