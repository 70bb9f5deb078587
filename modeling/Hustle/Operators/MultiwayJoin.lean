import Hustle.Operators.JoinTuples

/-!
This module contains the operator that joins any number of tables. Every join makes new lazy tables of all
tables, those that have been joined, those that are joined now, and those that wait for their join.
-/

namespace Hustle.Operators

namespace MultiwayJoin

/--
`prev_result_` and the tables that are `finished_`.
-/
structure State where
  prevResult : OperatorResult
  finished : List Nat

/--
The indices of a table that is joined now, given the indices of its indices.
-/
def updateIndices (t : LazyTable) (indicesOfIndices : List Nat) : Option (List Nat) :=
  match t.indices with
  | some indices => take indices indicesOfIndices
  | none => some indicesOfIndices

/--
The lazy table of a table that takes no part in the join. The filter of a table that waits is dropped.
-/
def propagate (finished : List Nat) (leftIndicesOfIndices : List Nat) (t : LazyTable) : Option LazyTable :=
  if t.table ∈ finished then do
    let indices ← t.indices
    let newIndices ← take indices leftIndicesOfIndices
    return ⟨t.table, none, some newIndices, none, t.hashTable⟩
  else
    return ⟨t.table, none, t.indices, t.indexChunks, t.hashTable⟩

def backPropogateResult (s : State) (left right : LazyTable) (leftIndicesOfIndices rightIndicesOfIndices : List Nat)
    : Option OperatorResult := do
  let leftIndices ← updateIndices left leftIndicesOfIndices
  let leftIndexChunks ←
    match left.indexChunks with
    | some chunks => (take chunks leftIndicesOfIndices).map some
    | none => some none
  let rightIndices ← updateIndices right rightIndicesOfIndices
  let others ← (s.prevResult.filter fun t => t.table ≠ left.table ∧ t.table ≠ right.table).mapM
    (propagate s.finished leftIndicesOfIndices)
  return ⟨left.table, none, some leftIndices, leftIndexChunks, left.hashTable⟩ ::
    ⟨right.table, none, some rightIndices, none, right.hashTable⟩ :: others

def hashJoin (db : Tables) (size : Nat → Nat) (s : State) (p : JoinPredicate) : Option State := do
  let left ← s.prevResult.getTable p.leftTable
  let right ← s.prevResult.getTable p.rightTable
  let pairs ← joinPairs db left right p size
  let s := { s with finished := p.leftTable :: p.rightTable :: s.finished }
  let prevResult ← backPropogateResult s left right (pairs.map Prod.fst) (pairs.map Prod.snd)
  return { s with prevResult := prevResult }

def execute (db : Tables) (size : Nat → Nat) (prevResult : OperatorResult) (preds : List JoinPredicate)
    : Option OperatorResult := do
  let s ← preds.foldlM (hashJoin db size) ⟨prevResult, []⟩
  return s.prevResult

end MultiwayJoin

/--
Tables without indices and hash tables, and predicates that join all of them.
-/
structure JoinQuery where
  db : Tables
  prevResult : OperatorResult
  first : JoinPredicate
  rest : List JoinPredicate
  first_ne : first.leftTable ≠ first.rightTable
  leftDeep : LeftDeep [first.leftTable, first.rightTable] rest
  tables_perm : (prevResult.map LazyTable.table).Perm
    (first.leftTable :: first.rightTable :: rest.map JoinPredicate.rightTable)
  columns : ∀ p ∈ first :: rest, db.HasColumns p
  fresh : ∀ t ∈ prevResult, t.Fresh db ∧ t.hashTable = none

namespace JoinQuery

def tables (q : JoinQuery) : List Nat :=
  q.first.leftTable :: q.first.rightTable :: q.rest.map JoinPredicate.rightTable

def filter (q : JoinQuery) (table : Nat) : Option (Chunked Bool) :=
  (q.prevResult.getTable table).bind LazyTable.filter

/--
Rows that pass the filters of their tables and satisfy all predicates.
-/
def Joins (q : JoinQuery) (ρ : Nat → Nat) : Prop :=
  q.db.Satisfies q.tables (q.first :: q.rest) ρ ∧ ∀ t ∈ q.tables, Passes (q.filter t) (ρ t)

/--
The output enumerates the relational join.
-/
def MultiwayJoins (q : JoinQuery) : Prop :=
  ∀ size, ∃ out, MultiwayJoin.execute q.db size q.prevResult (q.first :: q.rest) = some out ∧
    out.EnumeratesRows q.tables q.Joins

/--
The filters of the tables that wait for the first join remove no rows that the predicates join.
-/
def LaterFiltersPass (q : JoinQuery) : Prop :=
  ∀ ρ, q.db.Satisfies q.tables (q.first :: q.rest) ρ →
    Passes (q.filter q.first.leftTable) (ρ q.first.leftTable) →
    Passes (q.filter q.first.rightTable) (ρ q.first.rightTable) →
    ∀ p ∈ q.rest, Passes (q.filter p.rightTable) (ρ p.rightTable)

end JoinQuery

namespace MultiwayJoin

variable {db : Tables} {size : Nat → Nat} {s : State} {p : JoinPredicate} {tables joined : List Nat}
  {tuples : List (Nat → Nat)}

/--
What the lazy table of a table is that waits for its join.
-/
structure Waiting (db : Tables) (t : LazyTable) : Prop where
  fresh : t.Fresh db
  filter : t.filter = none
  hashTable : t.hashTable = none

/--
The invariant between two joins: the tables that are joined have the columns of the tuples as their index
arrays, the other ones are untouched but for their filters.
-/
structure Inv (db : Tables) (tables joined : List Nat) (tuples : List (Nat → Nat)) (s : State) : Prop where
  perm : (s.prevResult.map LazyTable.table).Perm tables
  finished : ∀ t, t ∈ s.finished ↔ t ∈ joined
  isJoined : ∀ t ∈ s.prevResult, t.table ∈ joined → t.Joined db tuples
  isWaiting : ∀ t ∈ s.prevResult, t.table ∉ joined → Waiting db t

theorem getTable_of_perm {result : OperatorResult} (h : (result.map LazyTable.table).Perm tables) {t : Nat}
    (ht : t ∈ tables)
    : ∃ lt ∈ result, result.getTable t = some lt ∧ lt.table = t := by
  obtain ⟨lt, hlt, rfl⟩ := List.mem_map.mp (h.mem_iff.mpr ht)
  cases hget : result.getTable lt.table with
  | none =>
    have := List.find?_eq_none.mp hget lt hlt
    simp at this
  | some lt' => exact ⟨lt', List.mem_of_find?_eq_some hget, rfl, OperatorResult.table_of_getTable hget⟩

theorem perm_front {result : OperatorResult} (h : (result.map LazyTable.table).Perm tables) (hnodup : tables.Nodup)
    {l r : Nat} (hl : l ∈ tables) (hr : r ∈ tables) (hne : l ≠ r)
    : (l :: r :: ((result.filter fun t => t.table ≠ l ∧ t.table ≠ r).map LazyTable.table)).Perm tables := by
  have hfilter : (result.filter fun t => t.table ≠ l ∧ t.table ≠ r).map LazyTable.table
      = (result.map LazyTable.table).filter fun t => t ≠ l ∧ t ≠ r := by
    rw [List.filter_map]
    rfl
  rw [hfilter]
  apply List.Perm.trans _ h
  have hres := h.nodup_iff.mpr hnodup
  rw [List.perm_ext_iff_of_nodup _ hres]
  . intro t
    simp only [List.mem_cons, List.mem_filter, decide_eq_true_eq]
    constructor
    . rintro (rfl | rfl | ⟨ht, -⟩)
      . exact h.mem_iff.mpr hl
      . exact h.mem_iff.mpr hr
      . exact ht
    . intro ht
      by_cases htl : t = l
      . exact .inl htl
      . by_cases htr : t = r
        . exact .inr (.inl htr)
        . exact .inr (.inr ⟨ht, htl, htr⟩)
  . simp only [List.nodup_cons, List.mem_cons, List.mem_filter, decide_eq_true_eq, not_or]
    refine ⟨⟨hne, ?_⟩, ?_, hres.filter _⟩
    . intro h
      exact h.2.1 rfl
    . intro h
      exact h.2.2 rfl

/--
The other tables after a join whose indices gather `tuples` to `tuples'`.
-/
theorem mapM_propagate {result : OperatorResult} {finished indices : List Nat} {tuples' : List (Nat → Nat)}
    (hfinished : ∀ t ∈ result, t.table ∈ finished → t.Joined db tuples ∧
      take (tuples.map fun ρ => ρ t.table) indices = some (tuples'.map fun ρ => ρ t.table))
    : result.mapM (propagate finished indices)
        =
      some (result.map fun t =>
        if t.table ∈ finished then ⟨t.table, none, some (tuples'.map fun ρ => ρ t.table), none, t.hashTable⟩
        else ⟨t.table, none, t.indices, t.indexChunks, t.hashTable⟩) := by
  apply Run.mapM_eq_some
  intro t ht
  unfold propagate
  split
  . next hmem =>
    obtain ⟨hjoined, htake⟩ := hfinished t ht hmem
    simp [hjoined.indices, htake]
  . rfl

/--
The invariant after a join, from what the join has found.
-/
theorem backPropogateResult_inv {left right : LazyTable} {li ri : List Nat} {tuples' : List (Nat → Nat)}
    (hperm : (s.prevResult.map LazyTable.table).Perm tables) (hnodup : tables.Nodup)
    (hl : left.table ∈ tables) (hr : right.table ∈ tables) (hne : left.table ≠ right.table)
    (hleft : updateIndices left li = some (tuples'.map fun ρ => ρ left.table)) (hchunks : left.indexChunks = none)
    (hright : updateIndices right ri = some (tuples'.map fun ρ => ρ right.table))
    (hfinished : ∀ t, t ∈ s.finished ↔ t ∈ joined) (hlj : left.table ∈ joined) (hrj : right.table ∈ joined)
    (hothers : ∀ t ∈ s.prevResult, t.table ≠ left.table → t.table ≠ right.table → t.table ∈ joined →
      t.Joined db tuples ∧ take (tuples.map fun ρ => ρ t.table) li = some (tuples'.map fun ρ => ρ t.table))
    (hwaiting : ∀ t ∈ s.prevResult, t.table ∉ joined → t.Fresh db ∧ t.hashTable = none)
    (hrows : ∀ t ∈ joined, db.chunkLengths t ≠ [] ∧ ∀ ρ ∈ tuples', ρ t < db.numRows t)
    : ∃ result, backPropogateResult s left right li ri = some result ∧
        Inv db tables joined tuples' ⟨result, s.finished⟩ := by
  have hmap := @mapM_propagate db tuples (s.prevResult.filter fun t => t.table ≠ left.table ∧ t.table ≠ right.table)
    s.finished li tuples' (by
      intro t ht hmem
      rw [List.mem_filter, decide_eq_true_eq] at ht
      exact hothers t ht.1 ht.2.1 ht.2.2 ((hfinished _).mp hmem))
  simp only [backPropogateResult, hleft, hchunks, hright, hmap, Option.bind_eq_bind, Option.bind_some]
  refine ⟨_, rfl, ?_, hfinished, ?_, ?_⟩
  . have hfront := perm_front hperm hnodup hl hr hne
    simp only [List.map_cons, List.map_map]
    have htable : (LazyTable.table ∘ fun t : LazyTable =>
        if t.table ∈ s.finished then
          (⟨t.table, none, some (tuples'.map fun ρ => ρ t.table), none, t.hashTable⟩ : LazyTable)
        else ⟨t.table, none, t.indices, t.indexChunks, t.hashTable⟩) = LazyTable.table := by
      funext t
      simp only [Function.comp_def]
      split <;> rfl
    rw [htable]
    exact hfront
  . -- tables that are joined
    intro t ht htj
    have hjoined : ∀ table hashTable, table ∈ joined →
        LazyTable.Joined db ⟨table, none, some (tuples'.map fun ρ => ρ table), none, hashTable⟩ tuples' := by
      intro table hashTable hmem
      exact ⟨rfl, rfl, rfl, (hrows table hmem).1, (hrows table hmem).2⟩
    rcases List.mem_cons.mp ht with rfl | ht
    . exact hjoined _ _ hlj
    rcases List.mem_cons.mp ht with rfl | ht
    . exact hjoined _ _ hrj
    obtain ⟨t', ht', rfl⟩ := List.mem_map.mp ht
    split at htj
    . next hmem =>
      rw [if_pos hmem]
      exact hjoined _ _ htj
    . next hmem => exact absurd ((hfinished _).mpr htj) hmem
  . -- tables that wait
    intro t ht htj
    rcases List.mem_cons.mp ht with rfl | ht
    . exact absurd hlj htj
    rcases List.mem_cons.mp ht with rfl | ht
    . exact absurd hrj htj
    obtain ⟨t', ht', rfl⟩ := List.mem_map.mp ht
    split at htj
    . next hmem => exact absurd ((hfinished _).mp hmem) htj
    . next hmem =>
      rw [if_neg hmem]
      obtain ⟨hfresh, hhash⟩ := hwaiting t' (List.mem_filter.mp ht').1 htj
      refine ⟨⟨hfresh.indices, hfresh.indexChunks, ?_, hfresh.chunks⟩, rfl, hhash⟩
      intro f hf
      cases hf

theorem hashJoin_first {result : OperatorResult} {left right : LazyTable}
    (hperm : (result.map LazyTable.table).Perm tables) (hnodup : tables.Nodup)
    (hfresh : ∀ t ∈ result, t.Fresh db ∧ t.hashTable = none) (hcols : db.HasColumns p)
    (hl : left ∈ result) (hgetl : result.getTable p.leftTable = some left)
    (hr : right ∈ result) (hgetr : result.getTable p.rightTable = some right)
    (hne : p.leftTable ≠ p.rightTable)
    : ∃ s', hashJoin db size ⟨result, []⟩ p = some s' ∧
        Inv db tables [p.leftTable, p.rightTable]
          (Enumerates.extend p.rightTable (joinRows db p right) (left.freshTuples db)) s' := by
  have hlt := OperatorResult.table_of_getTable hgetl
  have hrt := OperatorResult.table_of_getTable hgetr
  obtain ⟨hlfresh, -⟩ := hfresh left hl
  obtain ⟨hrfresh, hrhash⟩ := hfresh right hr
  obtain ⟨pairs, hpairs, hsnd, hfst⟩ :=
    joinPairs_fresh hrfresh hrt hlt hcols (.inl hrhash) hlfresh hne size
  have hmem : ∀ {t}, t ∈ result → t.table ∈ tables := fun ht => hperm.mem_iff.mp (List.mem_map_of_mem ht)
  have henum := enumerates_join (left.freshTuples_enumerates db) (left.freshTuples_dependsOn db)
    (List.mem_singleton.mpr hlt.symm) (by rw [hlt, List.mem_singleton]; exact hne.symm) hcols
    (fun ρ h => by rw [hlt] at h; exact h.1) right
  obtain ⟨result', hresult, hinv⟩ := @backPropogateResult_inv db
    ⟨result, [p.leftTable, p.rightTable]⟩ tables [p.leftTable, p.rightTable] (left.freshTuples db) left right
    (pairs.map Prod.fst) (pairs.map Prod.snd)
    (Enumerates.extend p.rightTable (joinRows db p right) (left.freshTuples db))
    hperm hnodup (hmem hl) (hmem hr) (by rw [hlt, hrt]; exact hne)
    (by rw [updateIndices, hlfresh.indices, hfst, hlt]) hlfresh.indexChunks
    (by rw [updateIndices, hrfresh.indices, hsnd, hrt]) (fun t => Iff.rfl) (by simp [hlt]) (by simp [hrt])
    (by
      intro t _ htl htr htj
      rw [hlt] at htl
      rw [hrt] at htr
      simp [htl, htr] at htj)
    (fun t ht _ => hfresh t ht)
    (by
      intro t ht
      rcases List.mem_cons.mp ht with rfl | ht
      . rw [← hlt]
        exact ⟨hlfresh.chunks, fun ρ hρ => (henum.sound ρ hρ).1.1⟩
      . rw [List.mem_singleton.mp ht]
        refine ⟨by rw [← hrt]; exact hrfresh.chunks, fun ρ hρ => (henum.sound ρ hρ).2.1⟩)
  refine ⟨⟨result', [p.leftTable, p.rightTable]⟩, ?_, hinv⟩
  simp [hashJoin, hgetl, hgetr, hpairs, hresult]

/--
A later join gathers the rows of all tables that are joined.
-/
theorem hashJoin_next (hinv : Inv db tables joined tuples s) (hnodup : tables.Nodup)
    (hsub : ∀ t ∈ joined, t ∈ tables) (hl : p.leftTable ∈ joined) (hr : p.rightTable ∉ joined)
    (hrt : p.rightTable ∈ tables) (hcols : db.HasColumns p)
    (hrows : ∀ ρ ∈ tuples, ∀ t ∈ joined, ρ t < db.numRows t)
    : ∃ right s', right.filter = none ∧ hashJoin db size s p = some s' ∧
        Inv db tables (joined ++ [p.rightTable])
          (Enumerates.extend p.rightTable (joinRows db p right) tuples) s' := by
  obtain ⟨left, hleft, hgetl, hlt⟩ := getTable_of_perm hinv.perm (hsub _ hl)
  obtain ⟨right, hright, hgetr, hrtable⟩ := getTable_of_perm hinv.perm hrt
  have hljoined := hinv.isJoined left hleft (by rw [hlt]; exact hl)
  have hrwaiting := hinv.isWaiting right hright (by rw [hrtable]; exact hr)
  have hne : p.leftTable ≠ p.rightTable := by
    intro heq
    rw [heq] at hl
    exact hr hl
  obtain ⟨pairs, hpairs, hsnd, htake⟩ :=
    joinPairs_joined hrwaiting.fresh hrtable hlt hcols (.inl hrwaiting.hashTable) hljoined size
  have hold : ∀ ρ' ∈ Enumerates.extend p.rightTable (joinRows db p right) tuples, ∀ t ∈ joined,
      ρ' t < db.numRows t := by
    intro ρ' hρ' t ht
    obtain ⟨ρ, hρ, hmem⟩ := List.mem_flatMap.mp hρ'
    obtain ⟨r, -, rfl⟩ := List.mem_map.mp hmem
    rw [Function.update_of_ne (by rintro rfl; exact hr ht)]
    exact hrows ρ hρ t ht
  have hnew : ∀ ρ' ∈ Enumerates.extend p.rightTable (joinRows db p right) tuples,
      ρ' p.rightTable < db.numRows p.rightTable := by
    intro ρ' hρ'
    obtain ⟨ρ, hρ, hmem⟩ := List.mem_flatMap.mp hρ'
    obtain ⟨r, hmatch, rfl⟩ := List.mem_map.mp hmem
    rw [Function.update_self]
    exact ((mem_joinRows hcols (hrows ρ hρ _ hl)).mp hmatch).1
  obtain ⟨result', hresult, hinv'⟩ := @backPropogateResult_inv db
    { s with finished := p.leftTable :: p.rightTable :: s.finished } tables (joined ++ [p.rightTable]) tuples
    left right (pairs.map Prod.fst) (pairs.map Prod.snd)
    (Enumerates.extend p.rightTable (joinRows db p right) tuples)
    hinv.perm hnodup (by rw [hlt]; exact hsub _ hl) (by rw [hrtable]; exact hrt)
    (by rw [hlt, hrtable]; exact hne)
    (by rw [updateIndices, hljoined.indices, hlt]; exact htake _ hne) hljoined.indexChunks
    (by rw [updateIndices, hrwaiting.fresh.indices, hsnd, hrtable])
    (by
      intro t
      simp only [List.mem_cons, List.mem_append, hinv.finished, List.not_mem_nil, or_false]
      constructor
      . rintro (rfl | rfl | h)
        . exact .inl hl
        . exact .inr rfl
        . exact .inl h
      . rintro (h | rfl)
        . exact .inr (.inr h)
        . exact .inr (.inl rfl))
    (by rw [hlt]; exact List.mem_append_left _ hl) (by rw [hrtable]; simp)
    (by
      intro t ht _ htr htj
      have htj' : t.table ∈ joined := by
        rcases List.mem_append.mp htj with h | h
        . exact h
        . rw [hrtable] at htr
          exact absurd (List.mem_singleton.mp h) htr
      exact ⟨hinv.isJoined t ht htj', htake _ (by rw [← hrtable]; exact htr)⟩)
    (by
      intro t ht htj
      have := hinv.isWaiting t ht (fun h => htj (List.mem_append_left _ h))
      exact ⟨this.fresh, this.hashTable⟩)
    (by
      intro t ht
      rcases List.mem_append.mp ht with h | h
      . obtain ⟨lt, hlt, -, hltable⟩ := getTable_of_perm hinv.perm (hsub t h)
        rw [← hltable] at h ⊢
        exact ⟨(hinv.isJoined lt hlt h).chunks, fun ρ hρ => hold ρ hρ _ h⟩
      . rw [List.mem_singleton.mp h]
        exact ⟨by rw [← hrtable]; exact hrwaiting.fresh.chunks, hnew⟩)
  refine ⟨right, ⟨result', p.leftTable :: p.rightTable :: s.finished⟩, hrwaiting.filter, ?_, hinv'⟩
  simp [hashJoin, hgetl, hgetr, hpairs, hresult]

/-! All joins. -/

theorem foldlM_hashJoin {preds done : List JoinPredicate} {f : (Nat → Nat) → Prop}
    (hinv : Inv db tables joined tuples s) (hnodup : tables.Nodup)
    (hsub : ∀ t ∈ joined ++ preds.map JoinPredicate.rightTable, t ∈ tables) (hdeep : LeftDeep joined preds)
    (hcols : ∀ p ∈ preds, db.HasColumns p) (hcovers : Covers joined done) (hf : Enumerates.DependsOn joined f)
    (henum : Enumerates joined (fun ρ => db.Satisfies joined done ρ ∧ f ρ) tuples)
    : ∃ tuples' s', preds.foldlM (hashJoin db size) s = some s' ∧
        Inv db tables (joined ++ preds.map JoinPredicate.rightTable) tuples' s' ∧
        Enumerates (joined ++ preds.map JoinPredicate.rightTable)
          (fun ρ => db.Satisfies (joined ++ preds.map JoinPredicate.rightTable) (done ++ preds) ρ ∧ f ρ) tuples' := by
  induction preds generalizing joined done tuples s with
  | nil =>
    simp only [List.map_nil, List.append_nil]
    exact ⟨tuples, s, rfl, hinv, henum⟩
  | cons p preds ih =>
    obtain ⟨hl, hr, hdeep⟩ := hdeep
    obtain ⟨right, s₁, hfilter, hs₁, hinv₁⟩ := @hashJoin_next db size s p tables joined tuples hinv hnodup
      (fun t ht => hsub t (List.mem_append_left _ ht)) hl hr (hsub _ (by simp)) (hcols p (by simp))
      (fun ρ hρ t ht => (henum.sound ρ hρ).1.rows_lt t ht)
    have hdep : Enumerates.DependsOn joined fun ρ => db.Satisfies joined done ρ ∧ f ρ :=
      fun ρ ρ' heq h => ⟨Tables.Satisfies.dependsOn hcovers ρ ρ' heq h.1, hf ρ ρ' heq h.2⟩
    have henum₁ : Enumerates (joined ++ [p.rightTable])
        (fun ρ => db.Satisfies (joined ++ [p.rightTable]) (done ++ [p]) ρ ∧ f ρ)
        (Enumerates.extend p.rightTable (joinRows db p right) tuples) := by
      apply (enumerates_join henum hdep hl hr (hcols p (by simp)) (fun ρ h => h.1.rows_lt _ hl) right).congr
      intro ρ
      rw [Tables.satisfies_append, hfilter]
      constructor
      . rintro ⟨⟨hsat, hfρ⟩, hlt, -, hagrees⟩
        exact ⟨⟨hsat, hlt, hagrees⟩, hfρ⟩
      . rintro ⟨⟨hsat, hlt, hagrees⟩, hfρ⟩
        exact ⟨⟨hsat, hfρ⟩, hlt, passes_none _, hagrees⟩
    have hf₁ : Enumerates.DependsOn (joined ++ [p.rightTable]) f := by
      intro ρ ρ' heq
      rw [List.map_append, List.map_append] at heq
      exact hf ρ ρ' (List.append_inj_left' heq rfl)
    have := ih hinv₁ (by simpa using hsub) hdeep (fun p' hp' => hcols p' (by simp [hp'])) (hcovers.append hl) hf₁
      henum₁
    simp only [List.append_assoc, List.singleton_append] at this
    obtain ⟨tuples', s', hs', hinv', henum'⟩ := this
    refine ⟨tuples', s', ?_, hinv', henum'⟩
    rw [List.foldlM_cons, hs₁]
    exact hs'

theorem Inv.represents (hinv : Inv db tables joined tuples s) (hsub : ∀ t ∈ joined, t ∈ tables)
    : s.prevResult.Represents joined tuples := by
  intro t ht
  obtain ⟨lt, hmem, hget, htable⟩ := getTable_of_perm hinv.perm (hsub t ht)
  refine ⟨lt, hget, ?_⟩
  rw [(hinv.isJoined lt hmem (by rw [htable]; exact ht)).indices, htable]

end MultiwayJoin

namespace JoinQuery

variable {q : JoinQuery}

theorem tables_nodup (q : JoinQuery) : q.tables.Nodup :=
  LeftDeep.nodup q.leftDeep (by simpa using q.first_ne)

/--
What the filters of the first two tables let pass.
-/
def FirstFiltersPass (q : JoinQuery) (ρ : Nat → Nat) : Prop :=
  Passes (q.filter q.first.leftTable) (ρ q.first.leftTable) ∧
    Passes (q.filter q.first.rightTable) (ρ q.first.rightTable)

/--
The spec of a run: only the filters of the first two tables are applied.
-/
theorem execute_enumerates (q : JoinQuery) (size : Nat → Nat)
    : ∃ out tuples, MultiwayJoin.execute q.db size q.prevResult (q.first :: q.rest) = some out ∧
        out.Represents q.tables tuples ∧
        Enumerates q.tables
          (fun ρ => q.db.Satisfies q.tables (q.first :: q.rest) ρ ∧ q.FirstFiltersPass ρ) tuples := by
  obtain ⟨left, hl, hgetl, hlt⟩ := MultiwayJoin.getTable_of_perm q.tables_perm (show q.first.leftTable ∈ _ by simp)
  obtain ⟨right, hr, hgetr, hrt⟩ := MultiwayJoin.getTable_of_perm q.tables_perm (show q.first.rightTable ∈ _ by simp)
  have hcols := q.columns q.first (by simp)
  obtain ⟨s₁, hs₁, hinv₁⟩ := @MultiwayJoin.hashJoin_first q.db size q.first q.tables q.prevResult left right
    q.tables_perm q.tables_nodup q.fresh hcols hl hgetl hr hgetr q.first_ne
  have hfl : q.filter q.first.leftTable = left.filter := by simp [filter, hgetl]
  have hfr : q.filter q.first.rightTable = right.filter := by simp [filter, hgetr]
  have henum₁ : Enumerates [q.first.leftTable, q.first.rightTable]
      (fun ρ => q.db.Satisfies [q.first.leftTable, q.first.rightTable] [q.first] ρ ∧ q.FirstFiltersPass ρ)
      (Enumerates.extend q.first.rightTable (joinRows q.db q.first right) (left.freshTuples q.db)) := by
    have henum := enumerates_join (left.freshTuples_enumerates q.db) (left.freshTuples_dependsOn q.db)
      (List.mem_singleton.mpr hlt.symm) (by rw [hlt, List.mem_singleton]; exact q.first_ne.symm) hcols
      (fun ρ h => by rw [hlt] at h; exact h.1) right
    rw [hlt] at henum
    apply henum.congr
    intro ρ
    unfold FirstFiltersPass
    rw [hfl, hfr]
    constructor
    . rintro ⟨⟨hllt, hlpass⟩, hrlt, hrpass, hagrees⟩
      refine ⟨⟨?_, by simpa using hagrees⟩, hlpass, hrpass⟩
      intro t ht
      rcases List.mem_cons.mp ht with rfl | ht
      . exact hllt
      . rw [List.mem_singleton.mp ht]
        exact hrlt
    . rintro ⟨hsat, hlpass, hrpass⟩
      exact ⟨⟨hsat.rows_lt _ (by simp), hlpass⟩, hsat.rows_lt _ (by simp), hrpass, hsat.agrees _ (by simp)⟩
  have hdep : Enumerates.DependsOn [q.first.leftTable, q.first.rightTable] q.FirstFiltersPass := by
    intro ρ ρ' heq h
    unfold FirstFiltersPass at h ⊢
    rw [← Enumerates.eq_of_map_eq heq (show q.first.leftTable ∈ _ by simp),
      ← Enumerates.eq_of_map_eq heq (show q.first.rightTable ∈ _ by simp)]
    exact h
  obtain ⟨tuples, s, hs, hinv, henum⟩ := @MultiwayJoin.foldlM_hashJoin q.db size s₁ q.tables
    [q.first.leftTable, q.first.rightTable] _ q.rest [q.first] q.FirstFiltersPass hinv₁ q.tables_nodup
    (fun t ht => ht) q.leftDeep (fun p hp => q.columns p (by simp [hp]))
    (by
      intro p hp
      rw [List.mem_singleton.mp hp]
      simp)
    hdep henum₁
  refine ⟨s.prevResult, tuples, ?_, hinv.represents fun t ht => ht, henum⟩
  simp [MultiwayJoin.execute, hs₁, hs]

theorem joins_dependsOn (q : JoinQuery) : Enumerates.DependsOn q.tables q.Joins := by
  intro ρ ρ' heq h
  have hfirst : Covers [q.first.leftTable, q.first.rightTable] [q.first] := by
    intro p hp
    rw [List.mem_singleton.mp hp]
    simp
  refine ⟨Tables.Satisfies.dependsOn (LeftDeep.covers q.leftDeep hfirst) ρ ρ' heq h.1, ?_⟩
  intro t ht
  rw [← Enumerates.eq_of_map_eq heq ht]
  exact h.2 t ht

theorem laterFiltersPass_of_multiwayJoins (h : q.MultiwayJoins) : q.LaterFiltersPass := by
  intro ρ hsat hl hr p hp
  obtain ⟨out, tuples, hout, hrep, henum⟩ := q.execute_enumerates id
  obtain ⟨out', hout', hrows⟩ := h id
  have heq : out = out' := Option.some.inj (hout.symm.trans hout')
  rw [← heq] at hrows
  obtain ⟨ρ', hjoins, hmap⟩ := hrep.of_enumeratesRows henum (by simp [tables]) hrows ⟨hsat, hl, hr⟩
  have := q.joins_dependsOn ρ' ρ hmap.symm hjoins
  apply this.2
  simp only [tables, List.mem_cons, List.mem_map]
  exact .inr (.inr ⟨p, hp, rfl⟩)

theorem multiwayJoins_of_laterFiltersPass (h : q.LaterFiltersPass) : q.MultiwayJoins := by
  intro size
  obtain ⟨out, tuples, hout, hrep, henum⟩ := q.execute_enumerates size
  refine ⟨out, hout, hrep.enumeratesRows (henum.congr ?_)⟩
  intro ρ
  constructor
  . rintro ⟨hsat, hl, hr⟩
    refine ⟨hsat, ?_⟩
    intro t ht
    simp only [tables, List.mem_cons, List.mem_map] at ht
    rcases ht with rfl | rfl | ⟨p, hp, rfl⟩
    . exact hl
    . exact hr
    . exact h ρ hsat hl hr p hp
  . rintro ⟨hsat, hpass⟩
    exact ⟨hsat, hpass _ (by simp [tables]), hpass _ (by simp [tables])⟩

/--
The relational join is computed exactly if the filters of the tables that wait do not matter.
-/
theorem multiwayJoins_iff (q : JoinQuery) : q.MultiwayJoins ↔ q.LaterFiltersPass :=
  ⟨laterFiltersPass_of_multiwayJoins, multiwayJoins_of_laterFiltersPass⟩

def singleRows : Tables where
  chunkLengths := fun _ => [1]
  column := fun _ _ => some [[0]]
  column_aligned := by
    intro t name col h
    cases h
    rfl

theorem singleRows_hasColumns (p : JoinPredicate) : singleRows.HasColumns p :=
  ⟨⟨_, rfl⟩, _, rfl⟩

/--
Three tables, the filter of the last one removes its only row.
-/
def filteredLast : JoinQuery where
  db := singleRows
  prevResult := [⟨0, none, none, none, none⟩, ⟨1, none, none, none, none⟩, ⟨2, some [[false]], none, none, none⟩]
  first := ⟨0, "key", 1, "key"⟩
  rest := [⟨0, "key", 2, "key"⟩]
  first_ne := by decide
  leftDeep := by simp [LeftDeep]
  tables_perm := .refl _
  columns := fun p _ => singleRows_hasColumns p
  fresh := by
    intro t ht
    simp only [List.mem_cons, List.not_mem_nil, or_false] at ht
    rcases ht with rfl | rfl | rfl
    . exact ⟨⟨rfl, rfl, by simp, by simp [singleRows]⟩, rfl⟩
    . exact ⟨⟨rfl, rfl, by simp, by simp [singleRows]⟩, rfl⟩
    . exact ⟨⟨rfl, rfl, by simp [singleRows], by simp [singleRows]⟩, rfl⟩

/--
The filter is dropped by the first join.
-/
theorem not_multiwayJoins_filteredLast : ¬filteredLast.MultiwayJoins := by
  intro h
  have hsat : filteredLast.db.Satisfies filteredLast.tables (filteredLast.first :: filteredLast.rest) fun _ => 0 := by
    constructor
    . intro t _
      exact Nat.one_pos
    . intro p _
      exact ⟨0, rfl, rfl⟩
  have hpass := laterFiltersPass_of_multiwayJoins h (fun _ => 0) hsat (passes_none 0) (passes_none 0)
    ⟨0, "key", 2, "key"⟩ (by simp [filteredLast])
  have hfalse := hpass [[false]] rfl
  revert hfalse
  decide

end JoinQuery

end Hustle.Operators
