import Hustle.Operators.HashAggregate
import Mathlib.Data.BitVec

/-!
This module contains what a hash aggregate computes from arrays that have the values of the tuples: one row for
every group of the active tuples, with the sum of the values of the group.
-/

namespace Hustle.Operators

open Accumulate (upsert upserts Totals Picks keys sumOf)
open Resolver (AggregateKernel AggregateReference ColumnReference ExprReference OrderByReference)

/--
There is one row for every group of the tuples, and it has the aggregate of the tuples of the group.
-/
structure GroupsBy {τ : Type} (tuples : List τ) (key : τ → List Value) (aggregate : List τ → BitVec 64)
    (rows : List AggRow) : Prop where
  nodup : (rows.map Prod.fst).Nodup
  mem : ∀ group, group ∈ rows.map Prod.fst ↔ ∃ x ∈ tuples, key x = group
  value : ∀ row ∈ rows, row.2 = aggregate (tuples.filter fun x => key x = row.1)

/-! The numbers of the tuples in the chunks. -/

namespace TupleList

variable (src : TupleList)

def offset (c : Nat) : Nat :=
  (src.lengths.take c).sum

def length (c : Nat) : Nat :=
  src.lengths.getD c 0

theorem chunk_eq (c : Nat) : src.chunk c = List.range' (src.offset c) (src.length c) := rfl

theorem flatMap_chunk : (List.range src.lengths.length).flatMap src.chunk = List.range src.size := by
  have h : ∀ n ≤ src.lengths.length, (List.range n).flatMap src.chunk = List.range (src.offset n) := by
    intro n hn
    induction n with
    | zero => simp [offset]
    | succ n ih =>
      have hlen : src.length n = src.lengths[n] := by
        simp [length, List.getD_eq_getElem?_getD, List.getElem?_eq_getElem hn]
      have hoffset : src.offset (n + 1) = src.offset n + src.length n := by
        rw [offset, offset, List.take_add_one, List.getElem?_eq_getElem hn, hlen, List.sum_append]
        rfl
      rw [List.range_succ, List.flatMap_append, ih (by omega), List.flatMap_singleton, chunk_eq, hoffset,
        List.range_add, List.range'_eq_map_range]
  rw [h _ (Nat.le_refl _), offset, List.take_length]
  rfl

end TupleList

/-! The partition of the chunks. -/

namespace HashAggregateStrategy

variable {numThreads numChunks : Nat}

def startOf (numThreads numChunks tid : Nat) : Nat :=
  numChunks / numThreads * tid + min tid (numChunks % numThreads)

theorem getChunkID_eq (hthreads : 0 < numThreads) {tid : Nat} (htid : tid < numThreads)
    : getChunkID tid numThreads numChunks
        =
      (startOf numThreads numChunks tid, startOf numThreads numChunks (tid + 1)) := by
  have hdiv := Nat.div_add_mod numChunks numThreads
  have hmod := Nat.mod_lt numChunks hthreads
  generalize hm : numChunks / numThreads = m at hdiv
  generalize hFR : numChunks % numThreads = FR at hdiv hmod
  have hM : 0 < FR → (numChunks + numThreads - 1) / numThreads = m + 1 := by
    intro hpos
    rw [show numChunks + numThreads - 1 = numThreads * (m + 1) + (FR - 1) by
      rw [Nat.mul_add]
      omega]
    rw [Nat.mul_add_div hthreads, Nat.div_eq_of_lt (by omega)]
  have hbound : m * (tid + 1) + min (tid + 1) FR ≤ numChunks := by
    rw [← hdiv]
    have : m * (tid + 1) ≤ m * numThreads := Nat.mul_le_mul_left m htid
    rw [Nat.mul_comm numThreads m]
    omega
  simp only [getChunkID, startOf, hm, hFR]
  split
  . next hlt =>
    rw [hM (by omega), Nat.add_mul, Nat.add_mul, Nat.min_eq_left (Nat.le_of_lt hlt)]
    rw [Nat.min_eq_left (show tid + 1 ≤ FR from hlt)] at hbound ⊢
    rw [Nat.min_eq_left (by omega)]
    simp
  . next hge =>
    have hFRM : (numChunks + numThreads - 1) / numThreads * FR = (m + 1) * FR := by
      by_cases hpos : 0 < FR
      . rw [hM hpos]
      . simp [show FR = 0 by omega]
    have hsub : m * (tid - FR) + m * FR = m * tid := by
      rw [← Nat.mul_add]
      congr 1
      omega
    have hsub' : m * (tid + 1 - FR) + m * FR = m * (tid + 1) := by
      rw [← Nat.mul_add]
      congr 1
      omega
    rw [Nat.min_eq_right (show FR ≤ tid + 1 by omega)] at hbound ⊢
    rw [hFRM, Nat.add_mul, Nat.min_eq_right (show FR ≤ tid by omega), Nat.min_eq_left (by omega)]
    apply Prod.ext
    . simp only
      omega
    . simp only
      omega

theorem startOf_mono (tid : Nat) : startOf numThreads numChunks tid ≤ startOf numThreads numChunks (tid + 1) := by
  rw [startOf, startOf, Nat.mul_add]
  omega

theorem flatMap_range_startOf (k : Nat)
    : ((List.range k).flatMap fun tid => List.range' (startOf numThreads numChunks tid)
        (startOf numThreads numChunks (tid + 1) - startOf numThreads numChunks tid))
        =
      List.range (startOf numThreads numChunks k) := by
  induction k with
  | zero => simp [startOf]
  | succ k ih =>
    have hsum : startOf numThreads numChunks (k + 1) = startOf numThreads numChunks k +
        (startOf numThreads numChunks (k + 1) - startOf numThreads numChunks k) := by
      have := @startOf_mono numThreads numChunks k
      omega
    rw [List.range_succ, List.flatMap_append, ih, List.flatMap_singleton]
    conv_rhs => rw [hsum, List.range_add]
    rw [List.range'_eq_map_range]

theorem startOf_suggestedNumTasks (hthreads : 0 < numThreads)
    : startOf numThreads numChunks (suggestedNumTasks numThreads numChunks) = numChunks := by
  rw [suggestedNumTasks, startOf]
  split
  . next hlt => rw [Nat.div_eq_of_lt hlt, Nat.mod_eq_of_lt hlt, Nat.zero_mul, Nat.zero_add, Nat.min_self]
  . have hdiv := Nat.div_add_mod numChunks numThreads
    rw [Nat.min_eq_right (Nat.mod_lt numChunks hthreads).le, Nat.mul_comm, hdiv]

theorem tasks_partition (hthreads : 0 < numThreads) {steps : List (Nat × Nat)}
    (h : tasks numThreads numChunks = some steps)
    : steps.map Prod.snd = List.range numChunks ∧
      ∀ step ∈ steps, step.1 < suggestedNumTasks numThreads numChunks := by
  rw [tasks] at h
  split at h
  . cases h
  . rw [Option.some.injEq] at h
    subst h
    have hle : suggestedNumTasks numThreads numChunks ≤ numThreads := by
      rw [suggestedNumTasks]
      split <;> omega
    constructor
    . rw [List.map_flatMap]
      calc (List.range (suggestedNumTasks numThreads numChunks)).flatMap _
        _ = (List.range (suggestedNumTasks numThreads numChunks)).flatMap fun tid =>
              List.range' (startOf numThreads numChunks tid)
                (startOf numThreads numChunks (tid + 1) - startOf numThreads numChunks tid) := by
            apply List.flatMap_congr
            intro tid htid
            rw [List.mem_range] at htid
            simp [getChunkID_eq hthreads (Nat.lt_of_lt_of_le htid hle)]
        _ = List.range numChunks := by rw [flatMap_range_startOf, startOf_suggestedNumTasks hthreads]
    . intro step hstep
      obtain ⟨tid, htid, hstep⟩ := List.mem_flatMap.mp hstep
      obtain ⟨c, -, rfl⟩ := List.mem_map.mp hstep
      exact List.mem_range.mp htid

end HashAggregateStrategy

namespace HashAggregate

def Keeps (heap heap' : Heap) : Prop :=
  ∀ i < heap.length, heap'[i]? = heap[i]?

/--
The arrays of the operator have the groups, the values and the filter of the tuples, and scanning a chunk writes
over none of them.
-/
structure Reads (op : HashAggregate) (heap : Heap) (src : TupleList) (key : Nat → List Value)
    (value : Nat → BitVec 64) : Prop where
  numChunks : op.numChunks = some src.lengths.length
  group : ∀ heap', Keeps heap heap' → ∀ c < src.lengths.length, ∀ i < src.length c,
    groupAt op.groupByCols heap' c i = some (key (src.offset c + i))
  active : ∀ c < src.lengths.length, ∀ i < src.length c,
    isActive op.filter c i = some (src.active (src.offset c + i))
  scan : ∀ heap', Keeps heap heap' → ∀ c < src.lengths.length,
    ∃ ptr heap'' arr, op.aggChunk heap' c = some (ptr, heap'') ∧ Keeps heap heap'' ∧ heap''[ptr]? = some arr ∧
      arr.length = src.length c ∧ ∀ i < src.length c, itemValue op.kernel arr i = some (value (src.offset c + i))

def activeItems (src : TupleList) (c : Nat) (items : List Nat) : List (Nat × (Nat × Nat)) :=
  (items.filter fun i => src.active (src.offset c + i)).map fun i => (src.offset c + i, (c, i))

def entries (src : TupleList) (c : Nat) : List (Nat × (Nat × Nat)) :=
  activeItems src c (List.range (src.length c))

section

variable (hash : Value → BitVec 64) (key : Nat → List Value) (value : Nat → BitVec 64)

def valueEntry (x : Nat × (Nat × Nat)) : BitVec 64 × BitVec 64 :=
  (groupHash hash (key x.1), value x.1)

def tupleEntry (x : Nat × (Nat × Nat)) : BitVec 64 × (Nat × Nat) :=
  (groupHash hash (key x.1), x.2)

def addEntries (kernel : AggregateKernel) (maps : LocalMaps) (xs : List (Nat × (Nat × Nat))) : LocalMaps where
  valueMap := upserts (· + ·) maps.valueMap (xs.map (valueEntry hash key value))
  countMap :=
    match kernel with
    | .mean => upserts (· + ·) maps.countMap (xs.map (valueEntry hash key fun _ => 1))
    | _ => maps.countMap
  tupleMap := upserts (fun _ old => old) maps.tupleMap (xs.map (tupleEntry hash key))

end

section

variable {hash : Value → BitVec 64} {op : HashAggregate} {heap heap' : Heap} {src : TupleList}
  {key : Nat → List Value} {value : Nat → BitVec 64}

theorem addEntries_nil (kernel : AggregateKernel) (maps : LocalMaps)
    : addEntries hash key value kernel maps [] = maps := by
  cases kernel <;> rfl

theorem addEntries_cons (kernel : AggregateKernel) (maps : LocalMaps) (x : Nat × (Nat × Nat))
    (xs : List (Nat × (Nat × Nat)))
    : addEntries hash key value kernel maps (x :: xs)
        =
      addEntries hash key value kernel (addItem kernel (groupHash hash (key x.1)) (value x.1) x.2 maps) xs := by
  cases kernel <;> rfl

theorem aggregateItem_eq (h : op.Reads heap src key value) (hheap : Keeps heap heap') {c i : Nat}
    (hc : c < src.lengths.length) (hi : i < src.length c) {arr : Values}
    (harr : itemValue op.kernel arr i = some (value (src.offset c + i))) (maps : LocalMaps)
    : op.aggregateItem hash heap' arr c maps i
        =
      some (addEntries hash key value op.kernel maps (activeItems src c [i])) := by
  simp only [aggregateItem, h.active c hc i hi, Option.bind_eq_bind, Option.bind_some]
  by_cases hactive : src.active (src.offset c + i)
  . simp only [hactive, if_true, h.group heap' hheap c hc i hi, harr, Option.bind_some]
    simp only [activeItems, List.filter_singleton, hactive]
    simp [addEntries_cons, addEntries_nil]
  . simp [hactive, activeItems, addEntries_nil]

theorem addEntries_append (kernel : AggregateKernel) (maps : LocalMaps) (xs ys : List (Nat × (Nat × Nat)))
    : addEntries hash key value kernel maps (xs ++ ys)
        =
      addEntries hash key value kernel (addEntries hash key value kernel maps xs) ys := by
  induction xs generalizing maps with
  | nil => rw [List.nil_append, addEntries_nil]
  | cons x xs ih => rw [List.cons_append, addEntries_cons, ih, addEntries_cons]

theorem firstPhaseAggregateChunk_eq (h : op.Reads heap src key value) (hheap : Keeps heap heap') {c : Nat}
    (hc : c < src.lengths.length) (maps : LocalMaps)
    : ∃ heap'', op.firstPhaseAggregateChunk hash heap' maps c
          = some (heap'', addEntries hash key value op.kernel maps (entries src c)) ∧
        Keeps heap heap'' := by
  obtain ⟨ptr, heap'', arr, hagg, hheap'', harr, hlen, hitem⟩ := h.scan heap' hheap c hc
  have hloop : ∀ items maps, (∀ i ∈ items, i < src.length c) →
      items.foldlM (op.aggregateItem hash heap'' arr c) maps
        = some (addEntries hash key value op.kernel maps (activeItems src c items)) := by
    intro items
    induction items with
    | nil =>
      intro maps _
      simp [activeItems, addEntries_nil]
    | cons i items ih =>
      intro maps hitems
      have hi := hitems i (by simp)
      rw [List.foldlM_cons, aggregateItem_eq h hheap'' hc hi (hitem i hi), Option.bind_eq_bind, Option.bind_some,
        ih _ fun j hj => hitems j (by simp [hj])]
      have hsplit : activeItems src c (i :: items) = activeItems src c [i] ++ activeItems src c items := by
        simp only [activeItems, ← List.map_append, ← List.filter_append, List.singleton_append]
      rw [hsplit, addEntries_append]
  refine ⟨heap'', ?_, hheap''⟩
  simp only [firstPhaseAggregateChunk, hagg, harr, Option.bind_eq_bind, Option.bind_some, hlen]
  rw [hloop _ maps (by simp)]
  rfl

/-! The maps of all tasks. -/

structure Collected (hash : Value → BitVec 64) (op : HashAggregate) (heap : Heap) (key : Nat → List Value)
    (value : Nat → BitVec 64) (seen : List (Nat × (Nat × Nat))) (s : FirstPhase) : Prop where
  heap : Keeps heap s.heap
  maps : ∃ parts : List (List (Nat × (Nat × Nat))), parts.flatten.Perm seen ∧
    s.maps = parts.map (addEntries hash key value op.kernel ⟨[], [], []⟩)

theorem flatten_set_perm {α : Type} {parts : List (List α)} {i : Nat} {part : List α} (h : parts[i]? = some part)
    (new : List α)
    : (parts.set i (part ++ new)).flatten.Perm (parts.flatten ++ new) := by
  obtain ⟨hlt, rfl⟩ := List.getElem?_eq_some_iff.mp h
  have hsplit : parts = parts.take i ++ parts[i] :: parts.drop (i + 1) := by
    rw [← List.drop_eq_getElem_cons hlt, List.take_append_drop]
  rw [List.set_eq_take_append_cons_drop, if_pos hlt]
  conv_rhs => rw [hsplit]
  simp only [List.flatten_append, List.flatten_cons, List.append_assoc]
  apply List.Perm.append_left
  apply List.Perm.append_left
  exact List.perm_append_comm

theorem firstPhaseStep_collected (h : op.Reads heap src key value) {seen : List (Nat × (Nat × Nat))}
    {s : FirstPhase} (hs : Collected hash op heap key value seen s) {step : Nat × Nat}
    (htid : step.1 < s.maps.length) (hc : step.2 < src.lengths.length)
    : ∃ s', op.firstPhaseStep hash s step = some s' ∧ s'.maps.length = s.maps.length ∧
        Collected hash op heap key value (seen ++ entries src step.2) s' := by
  obtain ⟨parts, hperm, hmaps⟩ := hs.maps
  have htid' : step.1 < parts.length := by simpa [hmaps] using htid
  obtain ⟨heap'', hscan, hheap''⟩ := @firstPhaseAggregateChunk_eq hash _ _ _ _ _ _ h hs.heap _ hc
    (addEntries hash key value op.kernel ⟨[], [], []⟩ parts[step.1])
  refine ⟨⟨heap'', s.maps.set step.1 (addEntries hash key value op.kernel
    (addEntries hash key value op.kernel ⟨[], [], []⟩ parts[step.1]) (entries src step.2))⟩, ?_, ?_, hheap'',
    parts.set step.1 (parts[step.1] ++ entries src step.2), ?_, ?_⟩
  . rw [firstPhaseStep, hmaps, List.getElem?_map, List.getElem?_eq_getElem htid']
    simp only [Option.map_some, Option.bind_eq_bind, Option.bind_some, hscan]
    rfl
  . simp [hmaps]
  . exact (flatten_set_perm (List.getElem?_eq_getElem htid') _).trans (hperm.append_right _)
  . rw [← addEntries_append, List.map_set, hmaps]

theorem firstPhase_collected (h : op.Reads heap src key value) {seen : List (Nat × (Nat × Nat))}
    {s : FirstPhase} (hs : Collected hash op heap key value seen s) {order : List (Nat × Nat)}
    (horder : ∀ step ∈ order, step.1 < s.maps.length ∧ step.2 < src.lengths.length)
    : ∃ s', order.foldlM (op.firstPhaseStep hash) s = some s' ∧
        Collected hash op heap key value (seen ++ order.flatMap fun step => entries src step.2) s' := by
  induction order generalizing seen s with
  | nil => exact ⟨s, rfl, by simpa using hs⟩
  | cons step order ih =>
    obtain ⟨htid, hc⟩ := horder step (by simp)
    obtain ⟨s₁, hstep, hlen, hs₁⟩ := firstPhaseStep_collected h hs htid hc
    obtain ⟨s', hrun, hs'⟩ := ih hs₁ (fun step hstep => by
      rw [hlen]
      exact horder step (by simp [hstep]))
    refine ⟨s', ?_, ?_⟩
    . rw [List.foldlM_cons, hstep]
      exact hrun
    . rw [List.flatMap_cons, ← List.append_assoc]
      exact hs'

/-! The second phase. -/

theorem totals_globalValueMap (kernel : AggregateKernel) (parts : List (List (Nat × (Nat × Nat))))
    : Totals (globalValueMap (parts.map (addEntries hash key value kernel ⟨[], [], []⟩)))
        (parts.flatten.map (valueEntry hash key value)) := by
  have h : ∀ (global : HashMap) es, Totals global es →
      Totals ((parts.map (addEntries hash key value kernel ⟨[], [], []⟩)).foldl
        (fun global m => upserts (· + ·) global m.valueMap) global)
        (es ++ parts.flatten.map (valueEntry hash key value)) := by
    induction parts with
    | nil =>
      intro global es hglobal
      simpa using hglobal
    | cons part parts ih =>
      intro global es hglobal
      have hpart := (Totals.nil.upserts (part.map (valueEntry hash key value)))
      have := ih _ _ (hglobal.merge hpart)
      rw [List.nil_append, List.append_assoc, ← List.map_append, ← List.flatten_cons] at this
      exact this
  exact h [] [] Totals.nil

theorem picks_globalTupleMap (kernel : AggregateKernel) (parts : List (List (Nat × (Nat × Nat))))
    : Picks (globalTupleMap (parts.map (addEntries hash key value kernel ⟨[], [], []⟩)))
        (parts.flatten.map (tupleEntry hash key)) := by
  have h : ∀ (global : TupleMap) es, Picks global es →
      Picks ((parts.map (addEntries hash key value kernel ⟨[], [], []⟩)).foldl
        (fun global m => upserts (fun _ old => old) global m.tupleMap) global)
        (es ++ parts.flatten.map (tupleEntry hash key)) := by
    induction parts with
    | nil =>
      intro global es hglobal
      simpa using hglobal
    | cons part parts ih =>
      intro global es hglobal
      have hpart := (Picks.nil.upserts (part.map (tupleEntry hash key)))
      have := ih _ _ (hglobal.merge hpart)
      rw [List.nil_append, List.append_assoc, ← List.map_append, ← List.flatten_cons] at this
      exact this
  exact h [] [] Picks.nil

/--
The keys of the active tuples have different hashes.
-/
def Distinguishes (hash : Value → BitVec 64) (src : TupleList) (key : Nat → List Value) : Prop :=
  ∀ j < src.size, ∀ k < src.size, src.active j → src.active k →
    groupHash hash (key j) = groupHash hash (key k) → key j = key k

def Placed (src : TupleList) (x : Nat × (Nat × Nat)) : Prop :=
  x.2.1 < src.lengths.length ∧ x.2.2 < src.length x.2.1 ∧ x.1 = src.offset x.2.1 + x.2.2

theorem placed_of_mem_entries {c : Nat} (hc : c < src.lengths.length) {x : Nat × (Nat × Nat)}
    (hx : x ∈ entries src c)
    : Placed src x := by
  obtain ⟨i, hi, rfl⟩ := List.mem_map.mp hx
  have hi := List.mem_range.mp (List.mem_filter.mp hi).1
  exact ⟨hc, hi, rfl⟩

theorem map_fst_entries (c : Nat) : (entries src c).map Prod.fst = (src.chunk c).filter src.active := by
  rw [entries, activeItems, List.map_map, TupleList.chunk_eq, List.range'_eq_map_range, List.filter_map]
  rfl

theorem map_fst_flatMap_entries
    : ((List.range src.lengths.length).flatMap (entries src)).map Prod.fst
        =
      (List.range src.size).filter src.active := by
  rw [List.map_flatMap, ← src.flatMap_chunk, List.filter_flatMap]
  simp only [map_fst_entries]

/-! The output. -/

theorem lookup_eq_some {m : HashMap} {k v : BitVec 64} (hnodup : (keys m).Nodup) (h : (k, v) ∈ m)
    : m.lookup k = some v := by
  induction m with
  | nil => cases h
  | cons e m ih =>
    have hnodup : e.1 ∉ keys m ∧ (keys m).Nodup := List.nodup_cons.mp hnodup
    rcases List.mem_cons.mp h with rfl | h
    . exact List.lookup_cons_self
    . have hne : k ≠ e.1 := by
        rintro rfl
        exact hnodup.1 (Accumulate.mem_keys_of_mem h)
      rw [List.lookup_cons, show (k == e.1) = false by simpa using hne]
      exact ih hnodup.2 h

theorem active_of_mem_tupleMap (h : op.Reads heap src key value) (hheap : Keeps heap heap')
    {seen : List (Nat × (Nat × Nat))}
    (hseen : seen.Perm ((List.range src.lengths.length).flatMap (entries src)))
    {tupleMap : TupleMap} (htuples : Picks tupleMap (seen.map (tupleEntry hash key))) {e : BitVec 64 × (Nat × Nat)}
    (he : e ∈ tupleMap)
    : ∃ k ∈ (List.range src.size).filter src.active,
        e.1 = groupHash hash (key k) ∧ groupAt op.groupByCols heap' e.2.1 e.2.2 = some (key k) := by
  have hnumbers := (hseen.map Prod.fst).trans (.of_eq map_fst_flatMap_entries)
  obtain ⟨x, hx, rfl⟩ := List.mem_map.mp (htuples.mem e he)
  obtain ⟨c, hc, hxc⟩ := List.mem_flatMap.mp (hseen.mem_iff.mp hx)
  obtain ⟨hlt, hi, hk⟩ := placed_of_mem_entries (List.mem_range.mp hc) hxc
  refine ⟨x.1, hnumbers.mem_iff.mp (List.mem_map_of_mem hx), rfl, ?_⟩
  have := h.group heap' hheap _ hlt _ hi
  rwa [← hk] at this

/--
The rows of the output, if the map of the aggregates has one for every group.
-/
theorem finish_groupsBy (h : op.Reads heap src key value) (hheap : Keeps heap heap')
    (hdist : Distinguishes hash src key) {seen : List (Nat × (Nat × Nat))}
    (hseen : seen.Perm ((List.range src.lengths.length).flatMap (entries src)))
    {tupleMap : TupleMap} (htuples : Picks tupleMap (seen.map (tupleEntry hash key)))
    {globalMap : HashMap} {aggregate : List Nat → BitVec 64}
    (hlookup : ∀ k ∈ (List.range src.size).filter src.active, globalMap.lookup (groupHash hash (key k))
      = some (aggregate (((List.range src.size).filter src.active).filter fun j => key j = key k)))
    : ∃ rows, op.finish heap' globalMap tupleMap = some rows ∧
        GroupsBy ((List.range src.size).filter src.active) key aggregate rows := by
  have hnumbers := (hseen.map Prod.fst).trans (.of_eq map_fst_flatMap_entries)
  have hplace : ∀ e ∈ tupleMap, ∃ k ∈ (List.range src.size).filter src.active,
      e.1 = groupHash hash (key k) ∧ groupAt op.groupByCols heap' e.2.1 e.2.2 = some (key k) :=
    fun e he => active_of_mem_tupleMap h hheap hseen htuples he
  choose! number hnumber hhash hgroup using hplace
  have hfinish : op.finish heap' globalMap tupleMap = some (tupleMap.map fun e => (key (number e),
      aggregate (((List.range src.size).filter src.active).filter fun j => key j = key (number e)))) := by
    apply Run.mapM_eq_some
    intro e he
    rw [hgroup e he, hhash e he, hlookup _ (hnumber e he)]
    rfl
  have hkeys : (tupleMap.map fun e => (key (number e),
      aggregate (((List.range src.size).filter src.active).filter fun j => key j = key (number e)))).map Prod.fst
      = tupleMap.map fun e => key (number e) := by
    rw [List.map_map]
    rfl
  refine ⟨_, hfinish, ?_, ?_, ?_⟩
  . rw [hkeys]
    apply List.Nodup.of_map (groupHash hash)
    have : (tupleMap.map fun e => key (number e)).map (groupHash hash) = keys tupleMap := by
      rw [List.map_map]
      apply List.map_congr_left
      intro e he
      exact (hhash e he).symm
    rw [this]
    exact htuples.nodup
  . intro group
    rw [hkeys]
    constructor
    . intro hgroup
      obtain ⟨e, he, rfl⟩ := List.mem_map.mp hgroup
      exact ⟨number e, hnumber e he, rfl⟩
    . rintro ⟨k, hk, rfl⟩
      obtain ⟨x, hx, rfl⟩ := List.mem_map.mp (hnumbers.mem_iff.mpr hk)
      have hmem : groupHash hash (key x.1) ∈ keys tupleMap := by
        rw [htuples.mem_keys]
        exact Accumulate.mem_keys_of_mem (List.mem_map_of_mem (f := tupleEntry hash key) hx)
      obtain ⟨place, he⟩ := Accumulate.exists_of_mem_keys hmem
      refine List.mem_map.mpr ⟨_, he, ?_⟩
      have hk' := hnumber _ he
      simp only [List.mem_filter, List.mem_range] at hk hk'
      exact hdist _ hk'.1 _ hk.1 hk'.2 hk.2 (hhash _ he).symm
  . intro row hrow
    obtain ⟨e, he, rfl⟩ := List.mem_map.mp hrow
    rfl

theorem sumOf_entries (hdist : Distinguishes hash src key) {seen : List (Nat × (Nat × Nat))}
    (hseen : seen.Perm ((List.range src.lengths.length).flatMap (entries src))) {k : Nat}
    (hk : k ∈ (List.range src.size).filter src.active)
    : sumOf (seen.map (valueEntry hash key value)) (groupHash hash (key k))
        =
      ((((List.range src.size).filter src.active).filter fun j => key j = key k).map value).sum := by
  have hnumbers := (hseen.map Prod.fst).trans (.of_eq map_fst_flatMap_entries)
  have hfilter : ((List.range src.size).filter src.active).filter (fun j => key j = key k)
      = ((List.range src.size).filter src.active).filter
          fun j => groupHash hash (key j) = groupHash hash (key k) := by
    apply List.filter_congr
    intro j hj
    simp only [List.mem_filter, List.mem_range] at hj hk
    simp only [decide_eq_decide]
    exact ⟨fun heq => by rw [heq], hdist j hj.1 k hk.1 hj.2 hk.2⟩
  rw [hfilter]
  have hsum := ((hnumbers.filter fun j =>
    decide (groupHash hash (key j) = groupHash hash (key k))).map value).sum_eq
  rw [← hsum, sumOf]
  simp only [List.filter_map, List.map_map]
  rfl

theorem finish_sum (h : op.Reads heap src key value) (hdist : Distinguishes hash src key)
    {seen : List (Nat × (Nat × Nat))}
    (hseen : seen.Perm ((List.range src.lengths.length).flatMap (entries src))) {s : FirstPhase}
    (hs : Collected hash op heap key value seen s)
    : ∃ rows, op.finish s.heap (globalValueMap s.maps) (globalTupleMap s.maps) = some rows ∧
        GroupsBy ((List.range src.size).filter src.active) key (fun ks => (ks.map value).sum) rows := by
  obtain ⟨parts, hperm, hmaps⟩ := hs.maps
  have hseen' := hperm.trans hseen
  rw [hmaps]
  apply finish_groupsBy h hs.heap hdist hseen' (picks_globalTupleMap op.kernel parts)
  intro k hk
  have htotals := @totals_globalValueMap hash key value op.kernel parts
  have hmem : groupHash hash (key k) ∈ keys (globalValueMap (parts.map
      (addEntries hash key value op.kernel ⟨[], [], []⟩))) := by
    rw [htotals.mem_keys]
    have hnumbers := (hseen'.map Prod.fst).trans (.of_eq map_fst_flatMap_entries)
    obtain ⟨x, hx, rfl⟩ := List.mem_map.mp (hnumbers.mem_iff.mpr hk)
    exact Accumulate.mem_keys_of_mem (List.mem_map_of_mem (f := valueEntry hash key value) hx)
  obtain ⟨v, hv⟩ := Accumulate.exists_of_mem_keys hmem
  rw [lookup_eq_some htotals.nodup hv, htotals.value _ _ hv, sumOf_entries hdist hseen' hk]

theorem firstPhase_seen (h : op.Reads heap src key value) {totalThreads : Nat} (hthreads : 0 < totalThreads)
    {steps order : List (Nat × Nat)}
    (hsteps : HashAggregateStrategy.tasks totalThreads src.lengths.length = some steps)
    (horder : order.Perm steps)
    : ∃ s seen, order.foldlM (op.firstPhaseStep hash) ⟨heap, List.replicate
          (HashAggregateStrategy.suggestedNumTasks totalThreads src.lengths.length) ⟨[], [], []⟩⟩ = some s ∧
        Collected hash op heap key value seen s ∧
        seen.Perm ((List.range src.lengths.length).flatMap (entries src)) := by
  obtain ⟨hchunks, htids⟩ := HashAggregateStrategy.tasks_partition hthreads hsteps
  let start : FirstPhase := ⟨heap, List.replicate
    (HashAggregateStrategy.suggestedNumTasks totalThreads src.lengths.length) ⟨[], [], []⟩⟩
  have hstart : Collected hash op heap key value [] start := by
    refine ⟨fun _ _ => rfl, List.replicate
      (HashAggregateStrategy.suggestedNumTasks totalThreads src.lengths.length) [], by simp, ?_⟩
    rw [List.map_replicate, addEntries_nil]
  have hin : ∀ step ∈ order, step.1 < start.maps.length ∧ step.2 < src.lengths.length := by
    intro step hstep
    have hstep := horder.mem_iff.mp hstep
    refine ⟨by simpa [start] using htids step hstep, ?_⟩
    have : step.2 ∈ steps.map Prod.snd := List.mem_map_of_mem hstep
    rw [hchunks, List.mem_range] at this
    exact this
  obtain ⟨s, hrun, hs⟩ := firstPhase_collected h hstart hin
  refine ⟨s, _, hrun, hs, ?_⟩
  rw [← hchunks, List.flatMap_map, List.nil_append]
  exact horder.flatMap_right _

theorem aggregateRows_groupsBy (divide : BitVec 64 → BitVec 64 → BitVec 64) (h : op.Reads heap src key value)
    (hkernel : op.kernel ≠ .mean) (hdist : Distinguishes hash src key) {totalThreads : Nat}
    (hthreads : 0 < totalThreads) {steps order : List (Nat × Nat)}
    (hsteps : HashAggregateStrategy.tasks totalThreads src.lengths.length = some steps)
    (horder : order.Perm steps)
    : ∃ rows, op.aggregateRows hash divide heap totalThreads order = some rows ∧
        GroupsBy ((List.range src.size).filter src.active) key (fun ks => (ks.map value).sum) rows := by
  obtain ⟨s, seen, hrun, hs, hseen⟩ := firstPhase_seen h hthreads hsteps horder
  obtain ⟨rows, hfinish, hrows⟩ := finish_sum h hdist hseen hs
  refine ⟨rows, ?_, hrows⟩
  rw [aggregateRows, h.numChunks]
  simp only [Option.bind_eq_bind, Option.bind_some]
  rw [hrun, Option.bind_some]
  have hsecond : secondPhaseAggregate divide op.kernel s.maps = some (globalValueMap s.maps) := by
    cases hk : op.kernel with
    | sum => rfl
    | count => rfl
    | mean => exact absurd hk hkernel
  rw [hsecond, Option.bind_some, hfinish]

end

end HashAggregate

end Hustle.Operators
