import Hustle.Operators.ExprValues

/-!
This module contains when a hash aggregate computes GROUP BY. The filter of a table is only used if a column of the
table is aggregated, not if an expression is.
-/

namespace Hustle.Operators

open HashAggregate (Keeps Reads groupHash groupAt isActive itemValue)
open Resolver

/--
An aggregate over the tuples of the previous result.
-/
structure GroupQuery where
  db : TypedTables
  result : OperatorResult
  src : TupleList
  ref : AggregateReference
  groupBy : List ColumnReference
  orderBy : List OrderByReference
  env : AggEnv

namespace GroupQuery

def key (q : GroupQuery) (ρ : Nat → Nat) : List Value :=
  q.groupBy.map fun ref => q.db.value ref ρ

def expr (q : GroupQuery) : ExprReference :=
  match q.ref.exprRef with
  | .null => .column q.ref.colRef
  | expr => expr

def value (q : GroupQuery) (ρ : Nat → Nat) : BitVec 64 :=
  (q.db.exprValue ρ q.expr).getD 0

def aggregate (q : GroupQuery) (tuples : List (Nat → Nat)) : BitVec 64 :=
  match q.ref.kernel with
  | .count => BitVec.ofNat 64 tuples.length
  | _ => (tuples.map q.value).sum

/--
The sum or the count of an INT64 column, or the sum of an INT64 expression. The hash tells the groups apart, and the
sorting of an array gives all of its indices.
-/
structure Admissible (q : GroupQuery) : Prop where
  describes : Describes q.db q.result q.src
  groups : ∀ ref ∈ q.groupBy, ∃ col, Refers q.db q.result ref col
  kernel : q.ref.kernel = .sum ∨ (q.ref.kernel = .count ∧ q.ref.exprRef = .null)
  complete : q.expr.Complete
  columns : ∀ ref ∈ exprColumns q.expr, ∃ chunks, Refers q.db q.result ref (.int64 chunks)
  values : ∀ ρ ∈ q.src.activeTuples, (q.db.exprValue ρ q.expr).isSome
  distinct : ∀ ρ ∈ q.src.activeTuples, ∀ ρ' ∈ q.src.activeTuples,
    groupHash q.env.hash (q.key ρ) = groupHash q.env.hash (q.key ρ') → q.key ρ = q.key ρ'
  sorts : ∀ desc col, (q.env.sortIndices desc col).Perm (List.range col.length)
  capacity : ∀ n, n ≤ q.env.capacity n

def Gathers (q : GroupQuery) : Prop :=
  ∀ ref ∈ q.groupBy ++ exprColumns q.expr, FitsGather q.env.capacity q.db q.result ref

/--
In every order of the steps of the tasks, the output has one row for every group of the active tuples.
-/
def Computes (q : GroupQuery) : Prop :=
  ∃ steps, HashAggregateStrategy.tasks q.env.hardwareConcurrency q.src.lengths.length = some steps ∧
    ∀ order, order.Perm steps →
      ∃ rows, HashAggregate.execute q.env q.db q.result q.ref q.groupBy q.orderBy order = some rows ∧
        GroupsBy q.src.activeTuples q.key q.aggregate rows

/--
An expression is aggregated for all tuples only, and it does not write over a column.
-/
structure Supported (q : GroupQuery) : Prop where
  threads : 0 < q.env.hardwareConcurrency
  chunks : q.src.lengths.length + q.env.hardwareConcurrency < 2 ^ 31
  blocks : q.src.lengths ≠ []
  expression : q.ref.exprRef = .null ∨
    ((∀ k < q.src.size, q.src.active k) ∧ q.ref.exprRef.writesColumn = false)
  gathers : q.Gathers
  orders : ∀ i ref, q.orderBy[i]? = some ref → ref.colRef.table ≠ none →
    i < (orderToGroup q.groupBy q.orderBy).length

end GroupQuery

/-! Sorting. -/

theorem take_perm {α : Type} {arr : List α} {indices : List Nat} (h : indices.Perm (List.range arr.length))
    : ∃ out, take arr indices = some out ∧ out.Perm arr := by
  cases arr with
  | nil =>
    rw [List.length_nil, List.range_zero, List.perm_nil] at h
    exact ⟨[], by simp [h, take], .refl _⟩
  | cons x xs =>
    refine ⟨indices.map fun i => (x :: xs).getD i x, ?_, ?_⟩
    . apply Run.mapM_eq_some
      intro i hi
      have hlt := List.mem_range.mp (h.mem_iff.mp hi)
      rw [List.getD_eq_getElem?_getD, List.getElem?_eq_getElem hlt]
      rfl
    . apply (h.map _).trans
      apply List.Perm.of_eq
      apply List.ext_getElem
      . simp
      . intro i hi hi'
        simp [List.getD_eq_getElem?_getD, List.getElem?_eq_getElem hi']

theorem lt_of_mem_orderToGroup {groupBy : List ColumnReference} {orderBy : List OrderByReference} {j : Nat}
    (h : j ∈ orderToGroup groupBy orderBy)
    : j < groupBy.length := by
  obtain ⟨ref, -, hj⟩ := List.mem_flatMap.mp h
  exact List.mem_range.mp (List.mem_filter.mp hj).1

theorem sortColumn_eq_some {groupBy : List ColumnReference} {orderBy : List OrderByReference}
    {ref : OrderByReference × Nat} {rows : List AggRow}
    (href : ref.1.colRef.table ≠ none → ref.2 < (orderToGroup groupBy orderBy).length)
    (hrows : ∀ row ∈ rows, row.1.length = groupBy.length)
    : ∃ col, sortColumn groupBy orderBy ref rows = some col ∧ col.length = rows.length := by
  rw [sortColumn]
  cases htable : ref.1.colRef.table with
  | none => exact ⟨_, rfl, by simp⟩
  | some name =>
    have hlt := href (by simp [htable])
    have hj := lt_of_mem_orderToGroup (List.getElem_mem hlt)
    refine ⟨rows.map fun row => row.1.getD (orderToGroup groupBy orderBy)[ref.2] (.int64 0), ?_, by simp⟩
    simp only [List.getElem?_eq_getElem hlt, Option.bind_eq_bind, Option.bind_some]
    apply Run.mapM_eq_some
    intro row hrow
    rw [← hrows row hrow] at hj
    rw [List.getD_eq_getElem?_getD, List.getElem?_eq_getElem hj]
    rfl

theorem sortResult_perm {sortIndices : Bool → List Value → List Nat} {groupBy : List ColumnReference}
    {orderBy : List OrderByReference} {rows : List AggRow}
    (hsort : ∀ desc col, (sortIndices desc col).Perm (List.range col.length))
    (horders : ∀ i ref, orderBy[i]? = some ref → ref.colRef.table ≠ none →
      i < (orderToGroup groupBy orderBy).length)
    (hrows : ∀ row ∈ rows, row.1.length = groupBy.length)
    : ∃ rows', sortResult sortIndices groupBy orderBy rows = some rows' ∧ rows'.Perm rows := by
  have hall : ∀ ref ∈ orderBy.zipIdx.reverse, ref.1.colRef.table ≠ none →
      ref.2 < (orderToGroup groupBy orderBy).length := by
    rintro ⟨ref, i⟩ href htable
    rw [List.mem_reverse] at href
    exact horders i ref (List.mem_zipIdx_iff_getElem?.mp href) htable
  rw [sortResult]
  generalize orderBy.zipIdx.reverse = refs at hall
  induction refs generalizing rows with
  | nil => exact ⟨rows, rfl, .refl _⟩
  | cons ref refs ih =>
    obtain ⟨col, hcol, hlen⟩ := sortColumn_eq_some (hall ref (by simp)) hrows
    have hperm := hsort ref.1.isDesc col
    rw [hlen] at hperm
    obtain ⟨rows₁, htake, hperm₁⟩ := take_perm hperm
    obtain ⟨rows', hrun, hperm'⟩ := ih (fun row hrow => hrows row (hperm₁.mem_iff.mp hrow))
      (fun ref href => hall ref (by simp [href]))
    refine ⟨rows', ?_, hperm'.trans hperm₁⟩
    rw [List.foldlM_cons, hcol, Option.bind_eq_bind, Option.bind_eq_bind, Option.bind_some, htake]
    exact hrun

/-! The arrays that the operator reads. -/

section

variable {db : TypedTables} {result : OperatorResult} {src : TupleList} {m : Memory} {heap : Heap} {c i : Nat}
  {ref : ColumnReference}

theorem TupleList.getElem?_chunk (hi : i < src.length c) : (src.chunk c)[i]? = some (src.offset c + i) := by
  rw [TupleList.chunk_eq, List.getElem?_range' hi]
  simp

theorem TupleList.lt_size_of_mem_chunk {k : Nat} (hc : c < src.lengths.length) (hk : k ∈ src.chunk c)
    : k < src.size := by
  rw [← List.mem_range, ← src.flatMap_chunk]
  exact List.mem_flatMap.mpr ⟨c, List.mem_range.mpr hc, hk⟩

theorem TupleList.mem_activeTuples {k : Nat} (hk : k < src.size) (hactive : src.active k)
    : src.tuple k ∈ src.activeTuples :=
  List.mem_map_of_mem (List.mem_filter.mpr ⟨List.mem_range.mpr hk, hactive⟩)

theorem materialized_array {chunks : List ArrayPtr} {col : Column} (hm : m.Ok db result src)
    (hlookup : m.materializedCols.lookup ref = some chunks) (href : Refers db result ref col)
    (hheap : Keeps m.heap heap) (hc : c < src.lengths.length)
    : ∃ ptr, chunks[c]? = some ptr ∧
        heap[ptr]? = some (col.select ((src.chunk c).map fun k => src.tuple k (db.tableId ref.table))) := by
  obtain ⟨-, hchunks⟩ := hm ref chunks col hlookup href
  obtain ⟨ptr, hptr, hlt, harr⟩ := hchunks c hc
  exact ⟨ptr, hptr, (hheap ptr hlt).trans harr⟩

theorem groupAt_eq {groupBy : List ColumnReference} {cols : List (List ArrayPtr)} (hm : m.Ok db result src)
    (hcols : List.Forall₂ (fun ref chunks => m.materializedCols.lookup ref = some chunks) groupBy cols)
    (hrefs : ∀ ref ∈ groupBy, ∃ col, Refers db result ref col) (hheap : Keeps m.heap heap)
    (hc : c < src.lengths.length) (hi : i < src.length c)
    : groupAt cols heap c i = some (groupBy.map fun ref => db.value ref (src.tuple (src.offset c + i))) := by
  induction hcols with
  | nil => rfl
  | @cons ref chunks groupBy cols hlookup hcols ih =>
    obtain ⟨col, href⟩ := hrefs ref (by simp)
    obtain ⟨ptr, hptr, harr⟩ := materialized_array hm hlookup href hheap hc
    have hvalue : (col.select ((src.chunk c).map fun k => src.tuple k (db.tableId ref.table))).get? i
        = some (db.value ref (src.tuple (src.offset c + i))) := by
      rw [Column.select_get?, List.getElem?_map, TupleList.getElem?_chunk hi]
      simp [TypedTables.value, href.2]
    have ih := ih fun ref href => hrefs ref (by simp [href])
    rw [groupAt] at ih
    rw [groupAt, List.mapM_cons, ih]
    simp only [hptr, harr, hvalue, Option.bind_eq_bind, Option.bind_some, List.map_cons]
    rfl

theorem int64_array {chunks : List ArrayPtr} {values : Chunked (BitVec 64)} (hm : m.Ok db result src)
    (hlookup : m.materializedCols.lookup ref = some chunks) (href : Refers db result ref (.int64 values))
    (hheap : Keeps m.heap heap) (hc : c < src.lengths.length)
    : ∃ ptr, chunks[c]? = some ptr ∧
        heap[ptr]? = some (.int64 (((src.chunk c).map src.tuple).map fun ρ =>
          (db.exprValue ρ (.column ref)).getD 0)) := by
  obtain ⟨ptr, hptr, harr⟩ := materialized_array hm hlookup href hheap hc
  refine ⟨ptr, hptr, ?_⟩
  rw [harr, Column.select]
  simp [TypedTables.exprValue, TypedTables.value, href.2, Column.value]

theorem isActive_eq {t : LazyTable} (hdesc : Describes db result src) (ht : t ∈ result)
    (hc : c < src.lengths.length) (hi : i < src.length c)
    : isActive t.filter c i = some (src.active (src.offset c + i)) := by
  cases hdesc with
  | @single t' hindices hfilter =>
    rw [List.mem_singleton] at ht
    subst ht
    cases hf : t.filter with
    | none => simp [isActive, passes_none]
    | some filter =>
      have hlen := hfilter filter hf
      have hc' : c < filter.length := by
        rw [← @List.length_map _ _ filter List.length, hlen]
        exact hc
      have hbits : filter[c].length = (db.chunkLengths t.table).getD c 0 := by
        rw [← hlen]
        simp [List.getD_eq_getElem?_getD, List.getElem?_eq_getElem hc']
      have hi' : i < filter[c].length := by
        rw [hbits]
        exact hi
      have hflat := getElem?_flatten_offset (List.getElem?_eq_getElem hc') hi'
      rw [length_flatten_take, hlen] at hflat
      rw [isActive]
      simp only [List.getElem?_eq_getElem hc', Option.bind_eq_bind, Option.bind_some,
        List.getElem?_eq_getElem hi', Option.some.injEq]
      change filter[c][i] = decide (Passes (some filter) (((db.chunkLengths t.table).take c).sum + i))
      rw [List.getElem?_eq_getElem hi'] at hflat
      simp [Passes, hflat]
  | joined htables =>
    rw [(htables t ht).1]
    rfl

end

namespace GroupQuery

variable {q : GroupQuery}

theorem columnChunks_eq_some {chunks : List ArrayPtr} {n : Nat} (hlen : chunks.length = n) (hn : n ≠ 0)
    : HashAggregate.columnChunks chunks = some n := by
  cases chunks with
  | nil => exact absurd hlen.symm hn
  | cons ptr chunks =>
    rw [← hlen]
    rfl

def summand (q : GroupQuery) (k : Nat) : BitVec 64 :=
  match q.ref.kernel with
  | .count => 1
  | _ => q.value (q.src.tuple k)

theorem initializeColumns_column (h : q.Admissible) (hgathers : q.Gathers) (hblocks : q.src.lengths ≠ [])
    (hnull : q.ref.exprRef = .null)
    : ∃ op heap, HashAggregate.initializeColumns q.env q.db q.result q.ref q.groupBy = some (op, heap) ∧
        op.kernel = q.ref.kernel ∧ op.Reads heap q.src (fun k => q.key (q.src.tuple k)) q.summand := by
  have hexpr : q.expr = .column q.ref.colRef := by rw [expr, hnull]
  obtain ⟨values, href⟩ := h.columns q.ref.colRef (by simp [hexpr, exprColumns])
  obtain ⟨t, ht⟩ := href.1
  obtain ⟨cols, m₁, hcols, hm₁, -, hall⟩ := Memory.materializeColumns_represents h.capacity h.describes
    Memory.empty_ok h.groups fun ref href => hgathers ref (List.mem_append_left _ href)
  obtain ⟨chunks, m, hcol, hm, hgrows, hlookup⟩ := Memory.materializeColumn_represents h.capacity h.describes hm₁ href
    (hgathers _ (by simp [hexpr, exprColumns]))
  have hall' : List.Forall₂ (fun ref chunks => m.materializedCols.lookup ref = some chunks) q.groupBy cols :=
    hall.imp fun ref chunks hlookup => hgrows.2 ref chunks hlookup
  have hlen := (hm _ _ _ hlookup href).1
  refine ⟨⟨q.ref.kernel, cols, .column chunks, t.filter⟩, m.heap, ?_, rfl, ?_, ?_, ?_, ?_⟩
  . simp only [HashAggregate.initializeColumns, hcols, hnull, ht, hcol, Option.bind_eq_bind, Option.bind_some]
    rfl
  . exact columnChunks_eq_some hlen fun hzero => hblocks (List.length_eq_zero_iff.mp hzero)
  . intro heap' hheap c hc i hi
    exact groupAt_eq hm hall' h.groups hheap hc hi
  . intro c hc i hi
    exact isActive_eq h.describes (List.mem_of_find?_eq_some ht) hc hi
  . intro heap' hheap c hc
    obtain ⟨ptr, hptr, harr⟩ := int64_array hm hlookup href hheap hc
    refine ⟨ptr, heap', _, ?_, hheap, harr, ?_, ?_⟩
    . simp [HashAggregate.aggChunk, hptr]
    . simp [Values.length, TupleList.chunk_eq]
    . intro i hi
      simp only [itemValue, summand, value, hexpr]
      cases q.ref.kernel with
      | count => rfl
      | sum => simp [TupleList.getElem?_chunk hi]
      | mean => simp [TupleList.getElem?_chunk hi]

theorem numChunks_postfix {materializeColumn : ColumnReference → Except EvalError (List ArrayPtr)}
    {e : ExprReference} (hcomplete : e.Complete) {elems : List ExprElem}
    (helems : Expression.convertPostfix materializeColumn e = .ok elems) {n : Nat} (hn : n ≠ 0)
    (hlen : ∀ ref ∈ exprColumns e, ∀ chunks, materializeColumn ref = .ok chunks → chunks.length = n) (init : Nat)
    : elems.foldlM (fun n e =>
        match e with
        | .column chunks => (HashAggregate.columnChunks chunks).map (max n)
        | .arith _ => some n) init
        =
      some (max init n) := by
  induction e generalizing elems init with
  | null => exact hcomplete.elim
  | column ref =>
    obtain ⟨chunks, hmat, helems⟩ := Expression.bind_eq_ok helems
    cases helems
    simp [columnChunks_eq_some (hlen ref (by simp [exprColumns]) chunks hmat) hn]
  | arith op left right ihl ihr =>
    obtain ⟨lefts, hl, helems⟩ := Expression.bind_eq_ok helems
    obtain ⟨rights, hr, helems⟩ := Expression.bind_eq_ok helems
    cases helems
    have hlefts := ihl hcomplete.1 hl (fun ref href => hlen ref (by simp [exprColumns, href])) init
    have hrights := ihr hcomplete.2 hr (fun ref href => hlen ref (by simp [exprColumns, href])) (max init n)
    rw [List.foldlM_append, List.foldlM_append, hlefts, Option.bind_eq_bind, Option.bind_some, hrights]
    simp

/--
The lookup that `convertPostfix` is given.
-/
def materializedChunks (m : Memory) (col : ColumnReference) : Except EvalError (List ArrayPtr) :=
  match m.materializedCols.lookup col with
  | some chunks => .ok chunks
  | none => .error .invalidAccess

theorem initializeColumns_expression (h : q.Admissible) (hgathers : q.Gathers) (hblocks : q.src.lengths ≠ [])
    (hne : q.ref.exprRef ≠ .null)
    (hactive : ∀ k < q.src.size, q.src.active k) (hwrites : q.ref.exprRef.writesColumn = false)
    : ∃ op heap, HashAggregate.initializeColumns q.env q.db q.result q.ref q.groupBy = some (op, heap) ∧
        op.kernel = q.ref.kernel ∧ op.Reads heap q.src (fun k => q.key (q.src.tuple k)) q.summand := by
  have hexpr : q.expr = q.ref.exprRef := by
    rw [expr]
    split
    . next hnull => exact absurd hnull hne
    . rfl
  have hkernel : q.ref.kernel = .sum := by
    rcases h.kernel with hk | ⟨-, hnull⟩
    . exact hk
    . exact absurd hnull hne
  have hcols' := h.columns
  have hcomplete := h.complete
  rw [hexpr] at hcols' hcomplete
  obtain ⟨cols, m₁, hcols, hm₁, -, hall⟩ := Memory.materializeColumns_represents h.capacity h.describes
    Memory.empty_ok h.groups fun ref href => hgathers ref (List.mem_append_left _ href)
  have hrefs : ∀ ref ∈ exprColumns q.ref.exprRef, ∃ col, Refers q.db q.result ref col := by
    intro ref href
    obtain ⟨chunks, href⟩ := hcols' ref href
    exact ⟨_, href⟩
  obtain ⟨ecols, m, hecols, hm, hgrows, hexprs⟩ :=
    Memory.materializeColumns_represents h.capacity h.describes hm₁ hrefs fun ref href =>
      hgathers ref (List.mem_append_right _ (hexpr ▸ href))
  have hall' : List.Forall₂ (fun ref chunks => m.materializedCols.lookup ref = some chunks) q.groupBy cols :=
    hall.imp fun ref chunks hlookup => hgrows.2 ref chunks hlookup
  let materializeColumn := materializedChunks m
  have hlookup : ∀ ref ∈ exprColumns q.ref.exprRef, ∃ chunks, m.materializedCols.lookup ref = some chunks := by
    intro ref href
    obtain ⟨k, hk⟩ := List.getElem?_of_mem href
    obtain ⟨hlt, hget⟩ := List.getElem?_eq_some_iff.mp hk
    have hlookup := hexprs.get hlt (hexprs.length_eq ▸ hlt)
    simp only [List.get_eq_getElem, hget] at hlookup
    exact ⟨_, hlookup⟩
  have hmat : ∀ ref chunks, m.materializedCols.lookup ref = some chunks → materializeColumn ref = .ok chunks := by
    intro ref chunks hlookup
    simp only [materializeColumn, materializedChunks, hlookup]
  obtain ⟨elems, helems⟩ := @Expression.convertPostfix_ok materializeColumn q.ref.exprRef (by
    intro ref href
    obtain ⟨chunks, hlookup⟩ := hlookup ref href
    exact ⟨chunks, hmat ref chunks hlookup⟩)
  refine ⟨⟨q.ref.kernel, cols, .expression elems, none⟩, m.heap, ?_, rfl, ?_, ?_, ?_, ?_⟩
  . rw [HashAggregate.initializeColumns]
    simp only [hcols, Option.bind_eq_bind, Option.bind_some]
    rw [hecols, Option.bind_some]
    apply Option.bind_eq_some_iff.mpr
    exact ⟨elems, congrArg Except.toOption helems, rfl⟩
  . have hchunks := numChunks_postfix hcomplete helems
      (fun hzero => hblocks (List.length_eq_zero_iff.mp hzero)) (by
        intro ref href chunks hmat'
        obtain ⟨chunks', hlookup⟩ := hlookup ref href
        rw [hmat ref chunks' hlookup] at hmat'
        cases hmat'
        obtain ⟨values, href⟩ := hcols' ref href
        exact (hm ref chunks _ hlookup href).1) 0
    rw [Nat.zero_max] at hchunks
    exact hchunks
  . intro heap' hheap c hc i hi
    exact groupAt_eq hm hall' h.groups hheap hc hi
  . intro c hc i hi
    have hlt := TupleList.lt_size_of_mem_chunk hc (List.mem_of_getElem? (TupleList.getElem?_chunk hi))
    rw [hactive _ hlt]
    rfl
  . intro heap' hheap c hc
    obtain ⟨heap'', ptr, heval, hkeeps, harr⟩ := @Expression.evaluate_eq q.db materializeColumn heap' c
      ((q.src.chunk c).map q.src.tuple) q.ref.exprRef hcomplete hwrites (by
        intro ref href
        obtain ⟨chunks, hlookup⟩ := hlookup ref href
        obtain ⟨values, href⟩ := hcols' ref href
        obtain ⟨ptr, hptr, harr⟩ := int64_array hm hlookup href hheap hc
        exact ⟨chunks, ptr, hmat ref chunks hlookup, hptr, harr⟩) (by
        intro ρ hρ
        obtain ⟨k, hk, rfl⟩ := List.mem_map.mp hρ
        have hlt := TupleList.lt_size_of_mem_chunk hc hk
        rw [← hexpr]
        exact h.values _ (TupleList.mem_activeTuples hlt (hactive k hlt))) elems helems
    refine ⟨ptr, heap'', _, ?_, hheap.trans hkeeps, harr, ?_, ?_⟩
    . simp only [HashAggregate.aggChunk, heval]
      rfl
    . simp [Values.length, TupleList.chunk_eq]
    . intro i hi
      simp [itemValue, summand, value, hexpr, hkernel, TupleList.getElem?_chunk hi]

theorem initializeColumns_reads (h : q.Admissible) (hsup : q.Supported)
    : ∃ op heap, HashAggregate.initializeColumns q.env q.db q.result q.ref q.groupBy = some (op, heap) ∧
        op.kernel = q.ref.kernel ∧ op.Reads heap q.src (fun k => q.key (q.src.tuple k)) q.summand := by
  by_cases hnull : q.ref.exprRef = .null
  . exact initializeColumns_column h hsup.gathers hsup.blocks hnull
  . rcases hsup.expression with hnull' | ⟨hactive, hwrites⟩
    . exact absurd hnull' hnull
    . exact initializeColumns_expression h hsup.gathers hsup.blocks hnull hactive hwrites

theorem sum_summand (tuples : List Nat) : (tuples.map q.summand).sum = q.aggregate (tuples.map q.src.tuple) := by
  rw [aggregate]
  cases hk : q.ref.kernel with
  | count =>
    have hone : tuples.map q.summand = List.replicate tuples.length 1 := by
      apply List.ext_getElem
      . simp
      . simp [summand, hk]
    rw [hone, List.sum_replicate, List.length_map]
    simp
  | sum =>
    have hsummand : q.summand = q.value ∘ q.src.tuple := by
      funext k
      simp [summand, hk]
    rw [hsummand, List.map_map]
  | mean =>
    have hsummand : q.summand = q.value ∘ q.src.tuple := by
      funext k
      simp [summand, hk]
    rw [hsummand, List.map_map]

end GroupQuery

theorem GroupsBy.perm {τ : Type} {tuples : List τ} {key : τ → List Value} {aggregate : List τ → BitVec 64}
    {rows rows' : List AggRow} (h : GroupsBy tuples key aggregate rows) (hperm : rows'.Perm rows)
    : GroupsBy tuples key aggregate rows' where
  nodup := (hperm.map Prod.fst).nodup_iff.mpr h.nodup
  mem group := by rw [(hperm.map Prod.fst).mem_iff, h.mem]
  value row hrow := h.value row (hperm.mem_iff.mp hrow)

theorem GroupsBy.map {τ υ : Type} {tuples : List τ} {f : τ → υ} {key : υ → List Value}
    {aggregate : List υ → BitVec 64} {rows : List AggRow}
    (h : GroupsBy tuples (fun x => key (f x)) (fun xs => aggregate (xs.map f)) rows)
    : GroupsBy (tuples.map f) key aggregate rows where
  nodup := h.nodup
  mem group := by
    rw [h.mem]
    simp
  value row hrow := by
    rw [h.value row hrow, List.filter_map]
    rfl

namespace GroupQuery

variable {q : GroupQuery}

theorem length_of_groupsBy {rows : List AggRow} (h : GroupsBy q.src.activeTuples q.key q.aggregate rows)
    : ∀ row ∈ rows, row.1.length = q.groupBy.length := by
  intro row hrow
  obtain ⟨ρ, -, hkey⟩ := (h.mem row.1).mp (List.mem_map_of_mem hrow)
  rw [← hkey]
  simp [key]

theorem execute_groupsBy (h : q.Admissible) (hsup : q.Supported) {steps order : List (Nat × Nat)}
    (hsteps : HashAggregateStrategy.tasks q.env.hardwareConcurrency q.src.lengths.length = some steps)
    (horder : order.Perm steps)
    : ∃ rows, HashAggregate.execute q.env q.db q.result q.ref q.groupBy q.orderBy order = some rows ∧
        GroupsBy q.src.activeTuples q.key q.aggregate rows := by
  obtain ⟨op, heap, hinit, hkernel, hreads⟩ := initializeColumns_reads h hsup
  have hmean : op.kernel ≠ .mean := by
    rw [hkernel]
    rcases h.kernel with hk | ⟨hk, -⟩ <;> simp [hk]
  have hdist : HashAggregate.Distinguishes q.env.hash q.src fun k => q.key (q.src.tuple k) := by
    intro j hj k hk hactive hactive' heq
    exact h.distinct _ (TupleList.mem_activeTuples hj hactive) _ (TupleList.mem_activeTuples hk hactive') heq
  obtain ⟨rows, hrows, hgroups⟩ :=
    HashAggregate.aggregateRows_groupsBy q.env.divide hreads hmean hdist hsup.threads hsteps horder
  have hgroups' : GroupsBy q.src.activeTuples q.key q.aggregate rows := by
    apply GroupsBy.map
    have : (fun ks : List Nat => (ks.map q.summand).sum) = fun ks => q.aggregate (ks.map q.src.tuple) := by
      funext ks
      exact sum_summand ks
    rwa [this] at hgroups
  obtain ⟨rows', hsort, hperm⟩ := sortResult_perm h.sorts hsup.orders (length_of_groupsBy hgroups')
  refine ⟨rows', ?_, hgroups'.perm hperm⟩
  simp only [HashAggregate.execute, hinit, hrows, Option.bind_eq_bind, Option.bind_some, hsort]

theorem tasks_of_supported (hsup : q.Supported)
    : ∃ steps, HashAggregateStrategy.tasks q.env.hardwareConcurrency q.src.lengths.length = some steps := by
  rw [HashAggregateStrategy.tasks, if_neg (Nat.not_le.mpr hsup.chunks)]
  exact ⟨_, rfl⟩

/--
A hash aggregate computes GROUP BY, for every layout of the chunks, every number of threads and every order of the
steps of the tasks.
-/
theorem computes_of_supported (h : q.Admissible) (hsup : q.Supported) : q.Computes := by
  obtain ⟨steps, hsteps⟩ := tasks_of_supported hsup
  refine ⟨steps, hsteps, ?_⟩
  intro order horder
  exact execute_groupsBy h hsup hsteps horder

theorem gathers_of_indices (h : ∀ t ∈ q.result, t.indices = none) : q.Gathers := by
  intro ref _ t ht indices hindices
  rw [h t (List.mem_of_find?_eq_some ht)] at hindices
  cases hindices

/--
A table with the columns `a` and `b`, and two rows of which the first one passes the filter.
-/
def filteredRow (ref : AggregateReference) (groupBy : List ColumnReference) : GroupQuery where
  db :=
    { tableId := fun _ => 0
      chunkLengths := fun _ => [2]
      column := fun _ name =>
        if name = "a" then some (.int64 [[1, 2]]) else if name = "b" then some (.int64 [[1, 1]]) else none
      column_aligned := by
        intro t name col h
        split at h
        . cases h
          rfl
        . split at h
          . cases h
            rfl
          . cases h
      numRows_lt := fun _ => by decide
      hasOffsets := by
        intro t name col h
        split at h
        . cases h
          trivial
        . split at h
          . cases h
            trivial
          . cases h }
  result := [⟨0, some [[true, false]], none, none, none⟩]
  src := { lengths := [2], tuple := fun row _ => row, active := fun row => decide (Passes (some [[true, false]]) row) }
  ref := ref
  groupBy := groupBy
  orderBy := []
  env :=
    { hash := fun v => match v with | .int64 value => value | .string _ => 0
      divide := fun value _ => value
      sortIndices := fun _ col => List.range col.length
      hardwareConcurrency := 1
      capacity := Context.paddedCapacity }

theorem filteredRow_describes (ref : AggregateReference) (groupBy : List ColumnReference)
    : Describes (filteredRow ref groupBy).db (filteredRow ref groupBy).result (filteredRow ref groupBy).src := by
  apply Describes.single rfl
  intro filter hfilter
  cases hfilter
  rfl

theorem filteredRow_refers (ref : AggregateReference) (groupBy : List ColumnReference) (table : Option TableName)
    : (∃ chunks, Refers (filteredRow ref groupBy).db (filteredRow ref groupBy).result ⟨table, "a"⟩ (.int64 chunks)) ∧
      ∃ chunks, Refers (filteredRow ref groupBy).db (filteredRow ref groupBy).result ⟨table, "b"⟩ (.int64 chunks) :=
  ⟨⟨[[1, 2]], ⟨_, rfl⟩, rfl⟩, ⟨[[1, 1]], ⟨_, rfl⟩, rfl⟩⟩

def filteredColumn : GroupQuery :=
  filteredRow ⟨.sum, "s", ⟨none, "a"⟩, .null⟩ [⟨none, "b"⟩]

/--
Four joined tuples of a table with a column of strings, whose chunks are known.
-/
def joinedLetters : GroupQuery where
  db :=
    { tableId := fun _ => 0
      chunkLengths := fun _ => [1, 2]
      column := fun _ name =>
        if name = "a" then some (.int64 [[1], [2, 3]])
        else if name = "s" then some (.string [[[120]], [[121], [120]]])
        else none
      column_aligned := by
        intro t name col h
        split at h
        . cases h
          rfl
        . split at h
          . cases h
            rfl
          . cases h
      numRows_lt := fun _ => by decide
      hasOffsets := by
        intro t name col h
        split at h
        . cases h
          trivial
        . split at h
          . cases h
            show ∀ strings ∈ [[[120]], [[121], [120]]], _
            decide
          . cases h }
  result := [⟨0, none, some [0, 2, 1, 2], some [0, 1, 1, 1], none⟩]
  src :=
    { lengths := (slices [0, 2, 1, 2]).map List.length
      tuple := fun k => ([0, 2, 1, 2].map fun (row : Nat) (_ : Nat) => row).getD k fun _ => 0
      active := fun _ => true }
  ref := ⟨.sum, "sum", ⟨none, "a"⟩, .null⟩
  groupBy := [⟨none, "s"⟩]
  orderBy := []
  env :=
    { hash := fun v => match v with | .int64 value => value | .string bytes => BitVec.ofNat 64 (bytes.headD 0).toNat
      divide := fun value _ => value
      sortIndices := fun _ col => List.range col.length
      hardwareConcurrency := 2
      capacity := Context.paddedCapacity }

theorem joinedLetters_admissible : joinedLetters.Admissible where
  describes := by
    refine @Describes.joined _ _ ([0, 2, 1, 2].map fun row _ => row) ?_
    intro t ht
    rw [List.mem_singleton.mp ht]
    refine ⟨rfl, rfl, by decide, by decide, ?_, ?_⟩
    . intro chunks hchunks
      cases hchunks
      decide
    . intro chunks hchunks
      cases hchunks
      decide
  groups := by
    intro ref href
    rw [List.mem_singleton.mp href]
    exact ⟨_, ⟨_, rfl⟩, rfl⟩
  kernel := .inl rfl
  complete := trivial
  columns := by
    intro ref href
    rw [List.mem_singleton.mp href]
    exact ⟨_, ⟨_, rfl⟩, rfl⟩
  values := by decide
  distinct := by decide
  sorts := fun _ _ => .refl _
  capacity := Context.le_paddedCapacity

theorem joinedLetters_supported : joinedLetters.Supported where
  threads := by decide
  chunks := by decide
  blocks := by decide
  expression := .inl rfl
  gathers := by
    intro ref href t ht indices hindices col hcol
    have hmem := List.mem_of_find?_eq_some ht
    rw [List.mem_singleton.mp hmem] at hindices hcol
    cases hindices
    rcases List.mem_pair.mp (show ref ∈ [⟨none, "s"⟩, ⟨none, "a"⟩] from href) with rfl | rfl
    . cases hcol
      exact ⟨by decide, by decide, fun _ => by decide⟩
    . cases hcol
      exact ⟨by decide, by decide, fun h => h.elim⟩
  orders := by simp [joinedLetters]

theorem computes_of_supported_filteredColumn
    : (filteredColumn.Admissible ∧ filteredColumn.Supported ∧ filteredColumn.Computes) ∧
        joinedLetters.Admissible ∧ joinedLetters.Supported ∧ joinedLetters.Computes := by
  have hrefers := filteredRow_refers ⟨.sum, "s", ⟨none, "a"⟩, .null⟩ [⟨none, "b"⟩] none
  have hadmissible : filteredColumn.Admissible := by
    refine ⟨filteredRow_describes _ _, ?_, .inl rfl, trivial, ?_, by decide, by decide, fun _ _ => .refl _,
      Context.le_paddedCapacity⟩
    . intro ref href
      rw [List.mem_singleton.mp href]
      obtain ⟨chunks, href⟩ := hrefers.2
      exact ⟨_, href⟩
    . intro ref href
      rw [List.mem_singleton.mp href]
      exact hrefers.1
  have hsupported : filteredColumn.Supported :=
    ⟨by decide, by decide, by decide, .inl rfl, gathers_of_indices (by decide), by simp [filteredColumn, filteredRow]⟩
  exact ⟨⟨hadmissible, hsupported, computes_of_supported hadmissible hsupported⟩, joinedLetters_admissible,
    joinedLetters_supported, computes_of_supported joinedLetters_admissible joinedLetters_supported⟩

/--
The sum of `a * b`, which is 1 for the row that passes the filter.
-/
def filteredExpression : GroupQuery :=
  filteredRow ⟨.sum, "s", ⟨none, "a"⟩, .arith .star (.column ⟨none, "a"⟩) (.column ⟨none, "b"⟩)⟩ []

/--
The sum over both rows comes out.
-/
theorem not_computes_filteredExpression : filteredExpression.Admissible ∧ ¬filteredExpression.Computes := by
  constructor
  . have hrefers := filteredRow_refers
      ⟨.sum, "s", ⟨none, "a"⟩, .arith .star (.column ⟨none, "a"⟩) (.column ⟨none, "b"⟩)⟩ [] none
    refine ⟨filteredRow_describes _ _, by simp [filteredExpression, filteredRow], .inl rfl, ⟨trivial, trivial⟩, ?_,
      by decide, by decide, fun _ _ => .refl _, Context.le_paddedCapacity⟩
    intro ref href
    have href : ref ∈ [⟨none, "a"⟩, ⟨none, "b"⟩] := href
    simp only [List.mem_cons, List.not_mem_nil, or_false] at href
    rcases href with rfl | rfl
    . exact hrefers.1
    . exact hrefers.2
  . rintro ⟨steps, hsteps, h⟩
    obtain ⟨rows, hrows, hgroups⟩ := h steps (.refl _)
    have hexecute : HashAggregate.execute filteredExpression.env filteredExpression.db filteredExpression.result
        filteredExpression.ref filteredExpression.groupBy filteredExpression.orderBy [(0, 0)]
        = some [([], 3#64)] := by
      decide
    have hstep : steps = [(0, 0)] := by
      have htasks : HashAggregateStrategy.tasks 1 1 = some [(0, 0)] := by decide
      exact Option.some.inj (hsteps.symm.trans htasks)
    rw [hstep, hexecute] at hrows
    cases hrows
    exact absurd (hgroups.value ([], 3#64) (by simp)) (by decide)

end GroupQuery

end Hustle.Operators
