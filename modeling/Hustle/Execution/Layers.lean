import Hustle.Execution.Engine

/-!
This module contains plans in layers: selects, joins one behind the other, and an aggregate. In every order of their
operators the joins come behind the selects, in the order in which they are linked.
-/

namespace Hustle.Resolver.ExecutionPlan

open Precedence (Precedes)

/--
An aggregate, if there is one, joins, each of which is linked to the next one and the last one to the aggregate, and
selects, which are linked to the first join.
-/
structure Layered (plan : ExecutionPlan) (aggs joins selects : List Operator) : Prop where
  operators_eq : plan.operators = aggs ++ joins ++ selects
  length_aggs_le : aggs.length ≤ 1
  joins_ne : joins ≠ []
  isAggregate_aggs : ∀ op ∈ aggs, op.isAggregate = true
  isAggregate_joins : ∀ op ∈ joins, op.isAggregate = false
  isAggregate_selects : ∀ op ∈ selects, op.isAggregate = false
  select_links : ∀ i < selects.length, (aggs.length + joins.length + i, aggs.length) ∈ plan.links
  join_links : ∀ i, i + 1 < joins.length → (aggs.length + i, aggs.length + (i + 1)) ∈ plan.links
  aggregate_link : aggs ≠ [] → (aggs.length + (joins.length - 1), 0) ∈ plan.links

namespace Layered

variable {plan : ExecutionPlan} {aggs joins selects : List Operator} {order : List Nat}

theorem getElem?_joins (h : plan.Layered aggs joins selects) {i : Nat} (hi : i < joins.length)
    : plan.operators[aggs.length + i]? = joins[i]? := by
  rw [h.operators_eq, List.append_assoc, List.getElem?_append_right (by omega), Nat.add_sub_cancel_left,
    List.getElem?_append_left hi]

theorem getElem?_selects (h : plan.Layered aggs joins selects) (i : Nat)
    : plan.operators[aggs.length + joins.length + i]? = selects[i]? := by
  rw [h.operators_eq, List.getElem?_append_right (by rw [List.length_append]; omega), List.length_append,
    Nat.add_sub_cancel_left]

theorem map_joins (h : plan.Layered aggs joins selects)
    : (List.range' aggs.length joins.length).map (plan.operators[·]?) = joins.map some := by
  apply List.ext_getElem
  . simp
  . intro i hi hi'
    have hlt : i < joins.length := by simpa using hi
    simp [h.getElem?_joins hlt, hlt]

theorem map_selects (h : plan.Layered aggs joins selects)
    : (List.range' (aggs.length + joins.length) selects.length).map (plan.operators[·]?) = selects.map some := by
  apply List.ext_getElem
  . simp
  . intro i hi hi'
    have hlt : i < selects.length := by simpa using hi
    simp [h.getElem?_selects, hlt]

theorem isChain (h : plan.Layered aggs joins selects) (horder : plan.IsOrder order)
    : (List.range' aggs.length joins.length ++ List.range' 0 aggs.length).IsChain (Precedes order) := by
  have hpos := List.length_pos_of_ne_nil h.joins_ne
  apply List.IsChain.append
  . rw [List.isChain_iff_getElem]
    intro i hi
    rw [List.length_range'] at hi
    simpa using horder.precedes _ (h.join_links i hi)
  . rw [List.isChain_iff_getElem]
    intro i hi
    have := h.length_aggs_le
    rw [List.length_range'] at hi
    omega
  . intro a ha c hc
    obtain ⟨n, hn⟩ := Nat.exists_eq_succ_of_ne_zero (Nat.ne_of_gt hpos)
    rw [hn, Nat.succ_eq_add_one, List.range'_concat, List.getLast?_concat, Option.mem_some, Nat.one_mul] at ha
    cases aggs with
    | nil => simp at hc
    | cons agg aggs =>
      rw [List.length_cons, List.range'_succ, List.head?_cons, Option.mem_some] at hc
      have := horder.precedes _ (h.aggregate_link (List.cons_ne_nil agg aggs))
      rw [hn, Nat.succ_eq_add_one, Nat.add_sub_cancel, ha, hc] at this
      exact this

theorem order_eq (h : plan.Layered aggs joins selects) (horder : plan.IsOrder order)
    : ∃ ids, ids.Perm (List.range' (aggs.length + joins.length) selects.length) ∧
        order = ids ++ (List.range' aggs.length joins.length ++ List.range' 0 aggs.length) := by
  have hperm : order.Perm (List.range' (aggs.length + joins.length) selects.length ++
      (List.range' aggs.length joins.length ++ List.range' 0 aggs.length)) := by
    apply horder.perm.trans
    rw [h.operators_eq, List.length_append, List.length_append, List.range_eq_range', ← List.range'_append_1,
      Nat.zero_add, ← List.range'_append_1, Nat.zero_add]
    apply List.perm_append_comm.trans
    exact List.perm_append_comm.append_left _
  apply Precedence.eq_append_of_isChain (horder.perm.nodup_iff.mpr List.nodup_range) hperm (h.isChain horder)
  intro a ha c hc
  obtain ⟨i, hi, rfl⟩ : ∃ i < selects.length, aggs.length + joins.length + i = a := by
    rw [List.mem_range'_1] at ha
    exact ⟨a - (aggs.length + joins.length), by omega, by omega⟩
  obtain ⟨n, hn⟩ := Nat.exists_eq_succ_of_ne_zero (Nat.ne_of_gt (List.length_pos_of_ne_nil h.joins_ne))
  have hhead : aggs.length = c := by
    rw [hn, Nat.succ_eq_add_one, List.range'_succ, List.cons_append, List.head?_cons, Option.mem_some] at hc
    exact hc
  rw [← hhead]
  exact horder.precedes _ (h.select_links i hi)

theorem map_beforeAggregate (h : plan.Layered aggs joins selects) (horder : plan.IsOrder order)
    : ∃ selects' : List Operator, selects'.Perm selects ∧
        (plan.beforeAggregate order).map (plan.operators[·]?) = (selects' ++ joins).map some := by
  obtain ⟨ids, hids, rfl⟩ := h.order_eq horder
  have hmap : (ids.map (plan.operators[·]?)).Perm (selects.map some) := by
    rw [← h.map_selects]
    exact hids.map _
  obtain ⟨selects', hselects', hperm⟩ : ∃ selects' : List Operator, ids.map (plan.operators[·]?) = selects'.map some ∧
      selects'.Perm selects := by
    have := congrFun₂ (List.eq_map_comp_perm (some : Operator → Option Operator)) (ids.map (plan.operators[·]?)) selects
    exact this.mpr hmap
  refine ⟨selects', hperm, ?_⟩
  have hbefore : plan.beforeAggregate
      (ids ++ (List.range' aggs.length joins.length ++ List.range' 0 aggs.length))
        = ids ++ List.range' aggs.length joins.length := by
    rw [beforeAggregate, ← List.append_assoc, List.takeWhile_append_of_pos]
    . cases haggs : aggs with
      | nil => simp
      | cons agg rest =>
        have hop : plan.operators[0]? = some agg := by
          rw [h.operators_eq, haggs]
          rfl
        have hagg := h.isAggregate_aggs agg (by rw [haggs]; exact List.mem_cons_self)
        rw [List.length_cons, List.range'_succ, List.takeWhile_cons_of_neg (by simp [hop, hagg]), List.append_nil]
    . intro id hid
      rcases List.mem_append.mp hid with hid | hid
      . have hmem := List.mem_map_of_mem (f := (plan.operators[·]?)) hid
        rw [hselects'] at hmem
        obtain ⟨op, hop, heq⟩ := List.mem_map.mp hmem
        simp [← heq, h.isAggregate_selects op (hperm.mem_iff.mp hop)]
      . have hmem := List.mem_map_of_mem (f := (plan.operators[·]?)) hid
        rw [h.map_joins] at hmem
        obtain ⟨op, hop, heq⟩ := List.mem_map.mp hmem
        simp [← heq, h.isAggregate_joins op hop]
  rw [hbefore, List.map_append, hselects', h.map_joins, List.map_append]

end Layered

end Hustle.Resolver.ExecutionPlan

namespace Hustle.Execution.Engine

open Operators
open Resolver (ExecutionPlan Operator SelectResolver TableName selectOperator)

variable {e : Engine} {schedules : Schedules} {plan : ExecutionPlan} {aggs joins selects : List Operator}
  {order : List Nat}

theorem foldlM_runId {ids : List Nat} {ops : List Operator} (h : ids.map (plan.operators[·]?) = ops.map some)
    (results : List OperatorResult)
    : ids.foldlM (e.runId schedules plan) results = ops.foldlM (e.run schedules) results := by
  induction ids generalizing ops results with
  | nil =>
    rw [List.map_nil, eq_comm, List.map_eq_nil_iff] at h
    rw [h]
    rfl
  | cons id ids ih =>
    cases ops with
    | nil => cases h
    | cons op ops =>
      rw [List.map_cons, List.map_cons, List.cons.injEq] at h
      have hhead : e.runId schedules plan results id = e.run schedules results op := by
        rw [runId, h.1]
        rfl
      rw [List.foldlM_cons, List.foldlM_cons, hhead]
      congr 1
      funext results'
      exact ih h.2 results'

theorem isAggregate_selectOperators {s : SelectResolver} {tables : List TableName} {op : Operator}
    (hop : op ∈ s.selectOperators tables) : op.isAggregate = false := by
  obtain ⟨entry, -, hop⟩ := List.mem_filterMap.mp hop
  unfold selectOperator at hop
  split at hop
  . cases hop
    rfl
  . split at hop
    . cases hop
    . split at hop <;> (cases hop; rfl)

theorem runPlan_eq (h : plan.Layered aggs joins selects) (horder : plan.IsOrder order) (results : List OperatorResult)
    : ∃ selects' : List Operator, selects'.Perm selects ∧
        e.runPlan schedules plan order results
          = (selects'.foldlM (e.run schedules) results).bind fun results' => joins.foldlM (e.run schedules) results' := by
  obtain ⟨selects', hperm, hmap⟩ := h.map_beforeAggregate horder
  refine ⟨selects', hperm, ?_⟩
  rw [runPlan, foldlM_runId hmap, List.foldlM_append]
  rfl

end Hustle.Execution.Engine
