import Hustle.Operators.AggInput
import Hustle.Operators.Lip
import Hustle.Operators.MultiwayJoin

/-!
This module contains `LIP` as an operator on lazy tables. Its output goes to a join, which gathers the rows of the
fact table by the new array of indices and by the numbers of their chunks.
-/

namespace Hustle.Operators

namespace LazyTable

def materializedLengths (db : Tables) (t : LazyTable) : List Nat :=
  match t.indices, t.indexChunks with
  | none, _ => db.chunkLengths t.table
  | some indices, none => (slices indices).map List.length
  | some indices, some chunks => (slices (indices.zip chunks)).map List.length

theorem mapM_lengths {α β : Type} {f : α → Option β} {col : Chunked α} {out : Chunked β}
    (h : col.mapM (fun chunk => chunk.mapM f) = some out)
    : out.map List.length = col.map List.length := by
  induction col generalizing out with
  | nil =>
    cases h
    rfl
  | cons chunk col ih =>
    rw [List.mapM_cons] at h
    obtain ⟨chunk', hchunk, h⟩ := Option.bind_eq_some_iff.mp h
    obtain ⟨col', hcol, h⟩ := Option.bind_eq_some_iff.mp h
    cases h
    rw [List.map_cons, List.map_cons, Run.length_mapM hchunk, ih hcol]

theorem length_of_materializeColumn {db : Tables} {t : LazyTable} {name : String} {col : Chunked (BitVec 64)}
    (h : t.materializeColumn db name = some col)
    : col.map List.length = t.materializedLengths db := by
  rw [materializeColumn] at h
  obtain ⟨base, hbase, h⟩ := Option.bind_eq_some_iff.mp h
  rw [materializedLengths]
  cases hindices : t.indices with
  | none =>
    rw [hindices] at h
    cases h
    exact db.column_aligned _ _ _ hbase
  | some indices =>
    rw [hindices] at h
    simp only [applyIndices] at h
    split at h
    . cases h
    . cases hchunks : t.indexChunks with
      | none =>
        rw [hchunks] at h
        exact mapM_lengths h
      | some chunks =>
        rw [hchunks] at h
        exact mapM_lengths h

def materializedColumns (db : Tables) (t : LazyTable) (names : List String) : Map String (Chunked (BitVec 64)) :=
  names.foldl (fun cols name =>
    match t.materializeColumn db name with
    | some col => cols.insert name col
    | none => cols) ∅

theorem lookup_materializedColumns {db : Tables} {t : LazyTable} {names : List String} (name : String)
    : (t.materializedColumns db names).lookup name = if name ∈ names then t.materializeColumn db name else none := by
  have hfold : ∀ cols : Map String (Chunked (BitVec 64)),
      (names.foldl (fun cols name =>
        match t.materializeColumn db name with
        | some col => cols.insert name col
        | none => cols) cols).lookup name
        = if name ∈ names then (t.materializeColumn db name).or (cols.lookup name) else cols.lookup name := by
    induction names with
    | nil =>
      intro cols
      simp
    | cons name' names ih =>
      intro cols
      rw [List.foldl_cons, ih]
      cases hcol : t.materializeColumn db name' with
      | none =>
        by_cases heq : name = name'
        . subst heq
          simp [hcol]
        . simp [heq]
      | some col =>
        simp only [Map.lookup_insert_eq]
        by_cases heq : name = name'
        . subst heq
          simp [hcol]
        . simp [heq]
  rw [materializedColumns, hfold]
  split
  . rw [AList.lookup_empty, Option.or_none]
  . exact AList.lookup_empty _

/--
The fact table that the filters are probed with. Its own filter is not read.
-/
def factTable (db : Tables) (t : LazyTable) (names : List String) : FactTable where
  chunkLengths := t.materializedLengths db
  columns := t.materializedColumns db names
  filter := none
  columns_aligned := by
    intro name col h
    rw [lookup_materializedColumns] at h
    split at h
    . exact length_of_materializeColumn h
    . cases h
  filter_aligned := by
    intro f hf
    cases hf

/--
What is read of a dimension table: its key column, without its indices.
-/
def dimension (db : Tables) (t : LazyTable) (p : JoinPredicate) : Option Dimension := do
  let pkCol ← db.column t.table p.rightCol
  return ⟨p.rightCol, pkCol, t.filter, t.hashTable, p.leftCol⟩

end LazyTable

namespace Lip

/--
The last of the tables on the left of the predicates.
-/
def findFactTable (prevResult : OperatorResult) (preds : List JoinPredicate) : Option LazyTable :=
  preds.foldl (fun fact p => prevResult.foldl (fun fact t => if t.table = p.leftTable then some t else fact) fact)
    none

def findDimTables (prevResult : OperatorResult) (preds : List JoinPredicate) : List LazyTable :=
  preds.flatMap fun p => prevResult.filter fun t => t.table ≠ p.leftTable ∧ t.table = p.rightTable

/--
The operator. Dimension tables go to the front of the output, and the fact table keeps its filter.
-/
def executeResult (db : Tables) (prevResult : OperatorResult) (preds : List JoinPredicate) (tasks : List BuildTask)
    (hardwareConcurrency : Nat) (sort : Nat → List LookupFilter → List LookupFilter) : Option OperatorResult := do
  let fact ← findFactTable prevResult preds
  let dimTables := findDimTables prevResult preds
  if preds.length < dimTables.length then
    none
  else
    let dims ← (dimTables.zip preds).mapM fun x => x.1.dimension db x.2
    let out ← execute (fact.factTable db (dims.map Dimension.fkColName)) dims tasks hardwareConcurrency sort
    return dimTables.reverse ++ [⟨fact.table, fact.filter, some out.indices, some out.indexChunks, none⟩]

end Lip

/-! Index arrays with the numbers of their chunks. -/

namespace LazyTable

def Found (db : Tables) (t : LazyTable) : Prop :=
  ∀ chunks, t.indexChunks = some chunks →
    ∃ indices, t.indices = some indices ∧ ChunksFound (db.chunkLengths t.table) indices (some chunks)

def forget (t : LazyTable) : LazyTable :=
  { t with indexChunks := none }

theorem index_lt {lengths indices chunks : List Nat} (h : ChunksFound lengths indices (some chunks)) {i : Nat}
    (hi : i ∈ indices)
    : i < lengths.sum := by
  have hfound := h chunks rfl
  obtain ⟨k, hk, rfl⟩ := List.mem_iff_getElem.mp hi
  have hlt := (hfound.get hk (hfound.length_eq ▸ hk)).2
  have hsum := congrArg List.sum
    (List.take_append_drop (chunks.get ⟨k, hfound.length_eq ▸ hk⟩ + 1) lengths)
  rw [List.sum_append] at hsum
  exact Nat.lt_of_lt_of_le hlt (by omega)

theorem materializeColumn_forget {db : Tables} {t : LazyTable} (h : t.Found db) (name : String)
    : t.forget.materializeColumn db name = t.materializeColumn db name := by
  simp only [materializeColumn, forget]
  cases hcol : db.column t.table name with
  | none => rfl
  | some col =>
    cases hchunks : t.indexChunks with
    | none => rfl
    | some chunks =>
      obtain ⟨indices, hindices, hfound⟩ := h chunks hchunks
      simp only [hindices, Option.bind_eq_bind, Option.bind_some]
      by_cases hne : col = []
      . rw [applyIndices, applyIndices, if_pos hne, if_pos hne]
      . have hget : ∀ i ∈ indices, col.flatten[i]? = some (col.flatten[i]?.getD 0) := by
          intro i hi
          have hlt := index_lt hfound hi
          rw [← db.column_aligned _ _ _ hcol, ← List.length_flatten] at hlt
          rw [List.getElem?_eq_getElem hlt]
          rfl
        rw [← db.column_aligned _ _ _ hcol] at hfound
        rw [applyIndices_slices hne hget hfound, applyIndices_slices hne hget (by
          intro chunks hnone
          cases hnone)]

theorem take_forall₂ {R : Nat → Nat → Prop} {xs ys ks xs' : List Nat} (h : List.Forall₂ R xs ys)
    (htake : take xs ks = some xs')
    : ∃ ys', take ys ks = some ys' ∧ List.Forall₂ R xs' ys' := by
  induction ks generalizing xs' with
  | nil =>
    cases htake
    exact ⟨[], rfl, .nil⟩
  | cons k ks ih =>
    rw [take, List.mapM_cons] at htake
    obtain ⟨x, hx, htake⟩ := Option.bind_eq_some_iff.mp htake
    obtain ⟨rest, hrest, htake⟩ := Option.bind_eq_some_iff.mp htake
    cases htake
    obtain ⟨hk, hget⟩ := List.getElem?_eq_some_iff.mp hx
    obtain ⟨ys', hys', hall⟩ := ih hrest
    have hk' : k < ys.length := h.length_eq ▸ hk
    refine ⟨ys[k] :: ys', ?_, .cons ?_ hall⟩
    . rw [take] at hys'
      rw [take, List.mapM_cons, List.getElem?_eq_getElem hk', hys']
      rfl
    . rw [← hget]
      exact h.get hk hk'

end LazyTable

namespace MultiwayJoin

variable {db : Tables} {size : Nat → Nat} {s : State} {p : JoinPredicate}

def State.forget (s : State) : State :=
  ⟨s.prevResult.map LazyTable.forget, s.finished⟩

def State.Found (db : Tables) (s : State) : Prop :=
  ∀ t ∈ s.prevResult, t.Found db

theorem getTable_forget (result : OperatorResult) (table : Nat)
    : OperatorResult.getTable (result.map LazyTable.forget) table
        =
      (OperatorResult.getTable result table).map LazyTable.forget := by
  rw [OperatorResult.getTable, OperatorResult.getTable, List.find?_map]
  rfl

theorem propagate_forget (finished li : List Nat) (t : LazyTable)
    : propagate finished li t.forget = (propagate finished li t).map LazyTable.forget := by
  have htable : t.forget.table = t.table := rfl
  rw [propagate, propagate, htable]
  split
  . cases hindices : t.indices with
    | none => simp [LazyTable.forget, hindices]
    | some indices => cases htake : take indices li <;> simp [LazyTable.forget, hindices, htake]
  . rfl

theorem mapM_propagate_forget (finished li : List Nat) (result : OperatorResult)
    : (result.map LazyTable.forget).mapM (propagate finished li)
        =
      (result.mapM (propagate finished li)).map (List.map LazyTable.forget) := by
  induction result with
  | nil => rfl
  | cons t result ih =>
    rw [List.map_cons, List.mapM_cons, List.mapM_cons, propagate_forget, ih]
    cases propagate finished li t with
    | none => rfl
    | some t' => cases List.mapM (propagate finished li) result <;> rfl

theorem propagate_found {finished li : List Nat} {t t' : LazyTable} (h : t.Found db)
    (hprop : propagate finished li t = some t')
    : t'.Found db := by
  rw [propagate] at hprop
  split at hprop
  . obtain ⟨indices, -, hprop⟩ := Option.bind_eq_some_iff.mp hprop
    obtain ⟨indices', -, hprop⟩ := Option.bind_eq_some_iff.mp hprop
    cases hprop
    intro chunks hchunks
    cases hchunks
  . cases hprop
    exact h

theorem mapM_mem {α β : Type} {f : α → Option β} {l : List α} {out : List β} (h : l.mapM f = some out) {y : β}
    (hy : y ∈ out)
    : ∃ x ∈ l, f x = some y := by
  induction l generalizing out with
  | nil =>
    cases h
    cases hy
  | cons x l ih =>
    rw [List.mapM_cons] at h
    obtain ⟨y', hy', h⟩ := Option.bind_eq_some_iff.mp h
    obtain ⟨ys, hys, h⟩ := Option.bind_eq_some_iff.mp h
    cases h
    rcases List.mem_cons.mp hy with rfl | hy
    . exact ⟨x, by simp, hy'⟩
    . obtain ⟨x', hx', hf⟩ := ih hys hy
      exact ⟨x', by simp [hx'], hf⟩

/--
The numbers of the chunks of the left table in the output.
-/
def takeChunks (chunks : Option (List Nat)) (indices : List Nat) : Option (Option (List Nat)) :=
  match chunks with
  | some chunks => (take chunks indices).map some
  | none => some none

/--
The new tables, with the numbers of the chunks of the left table.
-/
theorem backPropogateResult_forget {left right : LazyTable} {li ri : List Nat} {out : OperatorResult}
    (hs : s.Found db) (hleft : left.Found db)
    (hout : backPropogateResult s.forget left.forget right.forget li ri = some out)
    : ∃ out', backPropogateResult s left right li ri = some out' ∧ out'.map LazyTable.forget = out ∧
        ∀ t ∈ out', t.Found db := by
  rw [backPropogateResult] at hout
  obtain ⟨leftIndices, hli, hout⟩ := Option.bind_eq_some_iff.mp hout
  obtain ⟨chunks, hchunks, hout⟩ := Option.bind_eq_some_iff.mp hout
  obtain ⟨rightIndices, hri, hout⟩ := Option.bind_eq_some_iff.mp hout
  obtain ⟨others, hothers, hout⟩ := Option.bind_eq_some_iff.mp hout
  cases hchunks
  cases hout
  have hfilter : (s.forget.prevResult.filter fun t => t.table ≠ left.forget.table ∧ t.table ≠ right.forget.table)
      = (s.prevResult.filter fun t => t.table ≠ left.table ∧ t.table ≠ right.table).map LazyTable.forget := by
    rw [State.forget, List.filter_map]
    rfl
  rw [hfilter, mapM_propagate_forget, Option.map_eq_some_iff] at hothers
  obtain ⟨others', hothers', rfl⟩ := hothers
  have hnew : ∃ leftChunks, takeChunks left.indexChunks li = some leftChunks ∧
      LazyTable.Found db ⟨left.table, none, some leftIndices, leftChunks, left.hashTable⟩ := by
    cases hc : left.indexChunks with
    | none =>
      refine ⟨none, rfl, ?_⟩
      intro chunks hchunks
      cases hchunks
    | some chunks =>
      obtain ⟨indices, hindices, hfound⟩ := hleft chunks hc
      have htake : take indices li = some leftIndices := by
        rw [updateIndices] at hli
        simp only [LazyTable.forget, hindices] at hli
        exact hli
      obtain ⟨chunks', hchunks', hall⟩ := LazyTable.take_forall₂ (hfound chunks rfl) htake
      refine ⟨some chunks', by simp [takeChunks, hchunks'], ?_⟩
      intro chunks'' hsome
      cases hsome
      refine ⟨leftIndices, rfl, ?_⟩
      intro chunks'' hsome
      cases hsome
      exact hall
  obtain ⟨leftChunks, hleftChunks, hfound⟩ := hnew
  refine ⟨⟨left.table, none, some leftIndices, leftChunks, left.hashTable⟩ ::
    ⟨right.table, none, some rightIndices, none, right.hashTable⟩ :: others', ?_, rfl, ?_⟩
  . have hli' : updateIndices left li = some leftIndices := hli
    have hri' : updateIndices right ri = some rightIndices := hri
    have hothers'' : (s.prevResult.filter fun t => t.table ≠ left.table ∧ t.table ≠ right.table).mapM
        (propagate s.finished li) = some others' := hothers'
    simp only [backPropogateResult, hli', hri', hothers'', Option.bind_eq_bind, Option.bind_some]
    cases hc : left.indexChunks with
    | none =>
      rw [hc] at hleftChunks
      cases hleftChunks
      rfl
    | some chunks =>
      rw [hc, takeChunks] at hleftChunks
      simp only [hleftChunks, Option.bind_some]
      rfl
  . intro t ht
    rcases List.mem_cons.mp ht with rfl | ht
    . exact hfound
    rcases List.mem_cons.mp ht with rfl | ht
    . intro chunks hchunks
      cases hchunks
    . obtain ⟨t', ht', hprop⟩ := mapM_mem hothers' ht
      exact propagate_found (hs t' (List.mem_of_mem_filter ht')) hprop

theorem hashJoin_forget {s₁ : State} (hs : s.Found db) (h : hashJoin db size s.forget p = some s₁)
    : ∃ s', hashJoin db size s p = some s' ∧ s'.forget = s₁ ∧ s'.Found db := by
  rw [hashJoin] at h
  obtain ⟨left', hleft', h⟩ := Option.bind_eq_some_iff.mp h
  obtain ⟨right', hright', h⟩ := Option.bind_eq_some_iff.mp h
  obtain ⟨pairs, hpairs, h⟩ := Option.bind_eq_some_iff.mp h
  obtain ⟨out, hout, h⟩ := Option.bind_eq_some_iff.mp h
  cases h
  simp only [State.forget, getTable_forget, Option.map_eq_some_iff] at hleft' hright'
  obtain ⟨left, hleft, rfl⟩ := hleft'
  obtain ⟨right, hright, rfl⟩ := hright'
  have hlfound := hs left (List.mem_of_find?_eq_some hleft)
  have hrfound := hs right (List.mem_of_find?_eq_some hright)
  have hpairs' : joinPairs db left right p size = some pairs := by
    rw [joinPairs, LazyTable.materializeColumn_forget hlfound, LazyTable.materializeColumn_forget hrfound] at hpairs
    exact hpairs
  obtain ⟨out', hout', hforget, hfound⟩ := @backPropogateResult_forget db
    { s with finished := p.leftTable :: p.rightTable :: s.finished } left right _ _ out hs hlfound hout
  refine ⟨⟨out', p.leftTable :: p.rightTable :: s.finished⟩, ?_, ?_, hfound⟩
  . simp only [hashJoin, hleft, hright, hpairs', hout', Option.bind_eq_bind, Option.bind_some]
    rfl
  . rw [State.forget, hforget]
    rfl

theorem foldlM_forget {preds : List JoinPredicate} {s₁ : State} (hs : s.Found db)
    (h : preds.foldlM (hashJoin db size) s.forget = some s₁)
    : ∃ s', preds.foldlM (hashJoin db size) s = some s' ∧ s'.forget = s₁ := by
  induction preds generalizing s with
  | nil =>
    cases h
    exact ⟨s, rfl, rfl⟩
  | cons p preds ih =>
    rw [List.foldlM_cons] at h
    obtain ⟨s₂, hs₂, h⟩ := Option.bind_eq_some_iff.mp h
    obtain ⟨s', hs', rfl, hfound⟩ := hashJoin_forget hs hs₂
    obtain ⟨s'', hs'', hforget⟩ := ih hfound h
    refine ⟨s'', ?_, hforget⟩
    rw [List.foldlM_cons, hs']
    exact hs''

end MultiwayJoin

end Hustle.Operators
