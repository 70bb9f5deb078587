import Hustle.Operators.JoinTuples

/-!
This module contains the operator that joins two results, and chains of it. Its output has a second lazy table of
each of the two tables that it joins, which may have other indices than the first one.
-/

namespace Hustle.Operators

namespace HashJoin

def updateIndices (t : LazyTable) (joinIndices : List Nat) : Option LazyTable := do
  let indices ←
    match t.indices with
    | some indices => take indices joinIndices
    | none => some joinIndices
  return ⟨t.table, none, some indices, none, t.hashTable⟩

/--
The lazy table that `propogate_indices` adds for a table of the result of which `table` is joined.
-/
def propogateTable (table : Nat) (joinIndices : List Nat) (t : LazyTable) : Option LazyTable :=
  match t.indices with
  | some indices =>
    if t.table ≠ table then do
      let indices ← take indices joinIndices
      return ⟨t.table, none, some indices, none, t.hashTable⟩
    else
      return ⟨t.table, none, some joinIndices, none, t.hashTable⟩
  | none => return ⟨t.table, none, some joinIndices, none, t.hashTable⟩

def propogateIndices (result : OperatorResult) (table : Nat) (joinIndices : List Nat) : Option OperatorResult :=
  result.mapM (propogateTable table joinIndices)

def backPropogateResult (leftResult rightResult : OperatorResult) (left right : LazyTable)
    (leftIndices rightIndices : List Nat) : Option OperatorResult := do
  let newLeft ← updateIndices left leftIndices
  let lefts ← propogateIndices leftResult left.table leftIndices
  let newRight ← updateIndices right rightIndices
  let rights ← propogateIndices rightResult right.table rightIndices
  return newLeft :: lefts ++ newRight :: rights

def execute (db : Tables) (size : Nat → Nat) (leftResult rightResult : OperatorResult) (p : JoinPredicate)
    : Option OperatorResult := do
  let left ← leftResult.getTable p.leftTable
  let right ← rightResult.getTable p.rightTable
  let pairs ← joinPairs db left right p size
  backPropogateResult leftResult rightResult left right (pairs.map Prod.fst) (pairs.map Prod.snd)

/--
The outputs of joins are the left results of the next ones.
-/
def executeChain (db : Tables) (size : Nat → Nat) (leftResult : OperatorResult)
    (joins : List (JoinPredicate × LazyTable)) : Option OperatorResult :=
  joins.foldlM (fun leftResult join => execute db size leftResult [join.2] join.1) leftResult

end HashJoin

/--
A table without indices and the tables that are joined to it one after the other. Their hash tables are absent, or
those of their filtered join columns.
-/
structure JoinChain where
  db : Tables
  first : LazyTable
  joins : List (JoinPredicate × LazyTable)
  joins_ne_nil : joins ≠ []
  leftDeep : LeftDeep [first.table] (joins.map Prod.fst)
  rightTable : ∀ join ∈ joins, join.2.table = join.1.rightTable
  columns : ∀ join ∈ joins, db.HasColumns join.1
  fresh_first : first.Fresh db
  fresh : ∀ join ∈ joins, join.2.Fresh db ∧ join.2.HasHashTable db join.1.rightCol

namespace JoinChain

def tables (q : JoinChain) : List Nat :=
  q.first.table :: q.joins.map fun join => join.1.rightTable

/--
Rows that pass the filters of their tables and satisfy all predicates.
-/
structure Joins (q : JoinChain) (ρ : Nat → Nat) : Prop where
  satisfies : q.db.Satisfies q.tables (q.joins.map Prod.fst) ρ
  first_passes : Passes q.first.filter (ρ q.first.table)
  passes : ∀ join ∈ q.joins, Passes join.2.filter (ρ join.1.rightTable)

end JoinChain

namespace HashJoin

variable {db : Tables} {size : Nat → Nat} {p : JoinPredicate} {joined : List Nat} {tuples : List (Nat → Nat)}
  {result : OperatorResult}

theorem take_getD {arr indices : List Nat} (h : ∀ i ∈ indices, i < arr.length)
    : take arr indices = some (indices.map fun i => arr.getD i 0) := by
  apply Run.mapM_eq_some
  intro i hi
  simp [List.getElem?_eq_getElem (h i hi)]

theorem take_eq_some_iff {arr indices out : List Nat}
    : take arr indices = some out ↔ (∀ i ∈ indices, i < arr.length) ∧ out = indices.map fun i => arr.getD i 0 := by
  constructor
  . intro h
    have hlt : ∀ i ∈ indices, i < arr.length := by
      unfold take at h
      induction indices generalizing out with
      | nil => simp
      | cons i indices ih =>
        rw [List.mapM_cons] at h
        obtain ⟨v, hv, h⟩ := Option.bind_eq_some_iff.mp h
        obtain ⟨rest, hrest, -⟩ := Option.bind_eq_some_iff.mp h
        intro j hj
        rcases List.mem_cons.mp hj with rfl | hj
        . exact (List.getElem?_eq_some_iff.mp hv).1
        . exact ih hrest j hj
    have heq := take_getD hlt
    rw [h, Option.some.injEq] at heq
    exact ⟨hlt, heq⟩
  . rintro ⟨hlt, rfl⟩
    exact take_getD hlt

theorem getTable_mapM {f : LazyTable → Option LazyTable} {out : OperatorResult}
    (hf : ∀ t t', f t = some t' → t'.table = t.table) (h : result.mapM f = some out) (table : Nat)
    : match result.getTable table with
      | some t => ∃ t', f t = some t' ∧ out.getTable table = some t'
      | none => out.getTable table = none := by
  induction result generalizing out with
  | nil =>
    cases h
    rfl
  | cons t result ih =>
    rw [List.mapM_cons] at h
    obtain ⟨t', ht', h⟩ := Option.bind_eq_some_iff.mp h
    obtain ⟨rest, hrest, h⟩ := Option.bind_eq_some_iff.mp h
    cases h
    rw [OperatorResult.getTable_cons, OperatorResult.getTable_cons, hf t t' ht']
    split
    . next heq =>
      split at heq
      . next htable =>
        cases heq
        rw [if_pos htable]
        exact ⟨t', ht', rfl⟩
      . next htable =>
        rw [if_neg htable]
        have := ih hrest
        rw [heq] at this
        exact this
    . next heq =>
      split at heq
      . cases heq
      . next htable =>
        rw [if_neg htable]
        have := ih hrest
        rw [heq] at this
        exact this

/--
The invariant between two joins. Every lazy table has an index array, and the first one of a table has the column
of the tuples.
-/
structure Inv (db : Tables) (joined : List Nat) (tuples : List (Nat → Nat)) (result : OperatorResult) : Prop where
  isJoined : ∀ t ∈ joined, ∃ lt, result.getTable t = some lt ∧ lt.Joined db tuples
  indices : ∀ lt ∈ result, lt.table ∈ joined ∧ ∃ indices, lt.indices = some indices ∧
    indices.length = tuples.length

theorem propogateTable_table {table : Nat} {joinIndices : List Nat} {t t' : LazyTable}
    (h : propogateTable table joinIndices t = some t')
    : t'.table = t.table := by
  unfold propogateTable at h
  split at h
  . split at h
    . obtain ⟨indices, -, h⟩ := Option.bind_eq_some_iff.mp h
      cases h
      rfl
    . cases h
      rfl
  . cases h
    rfl

theorem propogateIndices_eq_some {n table : Nat} {joinIndices : List Nat}
    (hresult : ∀ lt ∈ result, ∃ indices, lt.indices = some indices ∧ indices.length = n)
    (hlt : ∀ i ∈ joinIndices, i < n)
    : ∃ out, propogateIndices result table joinIndices = some out ∧
        ∀ lt ∈ out, (∃ lt' ∈ result, lt.table = lt'.table) ∧ ∃ indices, lt.indices = some indices ∧
          indices.length = joinIndices.length := by
  have hstep : ∀ t ∈ result, ∃ t', propogateTable table joinIndices t = some t' ∧
      ∃ indices, t'.indices = some indices ∧ indices.length = joinIndices.length := by
    intro t ht
    obtain ⟨indices, hindices, hlen⟩ := hresult t ht
    rw [← hlen] at hlt
    simp only [propogateTable, hindices]
    split
    . rw [take_getD hlt]
      exact ⟨_, rfl, _, rfl, List.length_map _⟩
    . exact ⟨_, rfl, _, rfl, rfl⟩
  have hmap := @Run.mapM_eq_some _ _ (propogateTable table joinIndices)
    (fun t => (propogateTable table joinIndices t).getD t) result (by
      intro t ht
      obtain ⟨t', ht', -⟩ := hstep t ht
      rw [ht', Option.getD_some])
  refine ⟨_, hmap, ?_⟩
  intro lt hlt
  obtain ⟨t, ht, rfl⟩ := List.mem_map.mp hlt
  obtain ⟨t', ht', hindices⟩ := hstep t ht
  rw [ht', Option.getD_some]
  exact ⟨⟨t, ht, propogateTable_table ht'⟩, hindices⟩

/--
The first join of a chain.
-/
theorem execute_first_of_finds {left right : LazyTable} {ext : (Nat → Nat) → List Nat}
    (hleft : left.Fresh db) (hltable : left.table = p.leftTable)
    (hright : right.Fresh db) (hrtable : right.table = p.rightTable) (hfinds : Finds db p right ext)
    (hlcol : ∃ col, db.column p.leftTable p.leftCol = some col) (hne : p.leftTable ≠ p.rightTable)
    (hrows : ∀ ρ ∈ Enumerates.extend p.rightTable ext (left.freshTuples db),
      ∀ t ∈ [p.leftTable, p.rightTable], ρ t < db.numRows t)
    : ∃ out, execute db size [left] [right] p = some out ∧
        Inv db [p.leftTable, p.rightTable]
          (Enumerates.extend p.rightTable ext (left.freshTuples db)) out := by
  obtain ⟨pairs, hpairs, hsnd, hfst⟩ := joinPairs_fresh_of_finds hright hrtable hltable hfinds hlcol hleft hne size
  have hgetl : OperatorResult.getTable [left] p.leftTable = some left := by
    rw [OperatorResult.getTable_cons, if_pos hltable]
  have hgetr : OperatorResult.getTable [right] p.rightTable = some right := by
    rw [OperatorResult.getTable_cons, if_pos hrtable]
  have hjoinedl : LazyTable.Joined db ⟨p.leftTable, none, some (pairs.map Prod.fst), none, left.hashTable⟩
      (Enumerates.extend p.rightTable ext (left.freshTuples db)) :=
    ⟨by rw [hfst], rfl, rfl, by rw [← hltable]; exact hleft.chunks, fun ρ hρ => hrows ρ hρ _ (by simp)⟩
  have hjoinedr : LazyTable.Joined db ⟨p.rightTable, none, some (pairs.map Prod.snd), none, right.hashTable⟩
      (Enumerates.extend p.rightTable ext (left.freshTuples db)) :=
    ⟨by rw [hsnd], rfl, rfl, by rw [← hrtable]; exact hright.chunks, fun ρ hρ => hrows ρ hρ _ (by simp)⟩
  have hlenl : (pairs.map Prod.fst).length
      = (Enumerates.extend p.rightTable ext (left.freshTuples db)).length := by
    rw [hfst, List.length_map]
  have hlenr : (pairs.map Prod.snd).length
      = (Enumerates.extend p.rightTable ext (left.freshTuples db)).length := by
    rw [hsnd, List.length_map]
  have hout : execute db size [left] [right] p = some
      [⟨p.leftTable, none, some (pairs.map Prod.fst), none, left.hashTable⟩,
        ⟨p.leftTable, none, some (pairs.map Prod.fst), none, left.hashTable⟩,
        ⟨p.rightTable, none, some (pairs.map Prod.snd), none, right.hashTable⟩,
        ⟨p.rightTable, none, some (pairs.map Prod.snd), none, right.hashTable⟩] := by
    simp [execute, hgetl, hgetr, hpairs, backPropogateResult, updateIndices, propogateIndices, propogateTable,
      hleft.indices, hright.indices, hltable, hrtable]
  refine ⟨_, hout, ?_, ?_⟩
  . intro t ht
    rcases List.mem_cons.mp ht with rfl | ht
    . exact ⟨_, by rw [OperatorResult.getTable_cons, if_pos rfl], hjoinedl⟩
    . rw [List.mem_singleton.mp ht]
      refine ⟨_, ?_, hjoinedr⟩
      rw [OperatorResult.getTable_cons, if_neg hne, OperatorResult.getTable_cons, if_neg hne,
        OperatorResult.getTable_cons, if_pos rfl]
  . intro lt hlt
    simp only [List.mem_cons, List.not_mem_nil, or_false] at hlt
    rcases hlt with rfl | rfl | rfl | rfl
    . exact ⟨by simp, _, rfl, hlenl⟩
    . exact ⟨by simp, _, rfl, hlenl⟩
    . exact ⟨by simp, _, rfl, hlenr⟩
    . exact ⟨by simp, _, rfl, hlenr⟩

theorem execute_first {left right : LazyTable} (hleft : left.Fresh db) (hltable : left.table = p.leftTable)
    (hright : right.Fresh db) (hrtable : right.table = p.rightTable) (hcols : db.HasColumns p)
    (hhash : right.HasHashTable db p.rightCol) (hne : p.leftTable ≠ p.rightTable)
    (hrows : ∀ ρ ∈ Enumerates.extend p.rightTable (joinRows db p right) (left.freshTuples db),
      ∀ t ∈ [p.leftTable, p.rightTable], ρ t < db.numRows t)
    : ∃ out, execute db size [left] [right] p = some out ∧
        Inv db [p.leftTable, p.rightTable]
          (Enumerates.extend p.rightTable (joinRows db p right) (left.freshTuples db)) out :=
  execute_first_of_finds hleft hltable hright hrtable (finds_joinRows hright hrtable hcols hhash) hcols.1 hne hrows

/--
A later join of a chain.
-/
theorem execute_next_of_finds {right : LazyTable} {ext : (Nat → Nat) → List Nat} (hinv : Inv db joined tuples result)
    (hl : p.leftTable ∈ joined) (hr : p.rightTable ∉ joined) (hright : right.Fresh db) (hrtable : right.table = p.rightTable)
    (hfinds : Finds db p right ext) (hlcol : ∃ col, db.column p.leftTable p.leftCol = some col)
    (hrows : ∀ ρ ∈ Enumerates.extend p.rightTable ext tuples,
      ∀ t ∈ joined ++ [p.rightTable], ρ t < db.numRows t)
    : ∃ out, execute db size result [right] p = some out ∧
        Inv db (joined ++ [p.rightTable]) (Enumerates.extend p.rightTable ext tuples) out := by
  obtain ⟨left, hgetl, hjoined⟩ := hinv.isJoined p.leftTable hl
  have hltable := OperatorResult.table_of_getTable hgetl
  have hne : p.leftTable ≠ p.rightTable := by
    intro heq
    rw [heq] at hl
    exact hr hl
  obtain ⟨pairs, hpairs, hsnd, htake⟩ := joinPairs_joined_of_finds hright hrtable hltable hfinds hlcol hjoined size
  have hgetr : OperatorResult.getTable [right] p.rightTable = some right := by
    rw [OperatorResult.getTable_cons, if_pos hrtable]
  have hlt := (take_eq_some_iff.mp (htake p.leftTable hne)).1
  rw [List.length_map] at hlt
  have hlenr : (pairs.map Prod.snd).length
      = (Enumerates.extend p.rightTable ext tuples).length := by
    rw [hsnd, List.length_map]
  have hlenl : (pairs.map Prod.fst).length
      = (Enumerates.extend p.rightTable ext tuples).length := by
    rw [← hlenr, List.length_map, List.length_map]
  obtain ⟨lefts, hlefts, hleftsMem⟩ := @propogateIndices_eq_some result tuples.length p.leftTable
    (pairs.map Prod.fst) (fun lt hmem => (hinv.indices lt hmem).2) hlt
  have hchunks : ∀ t ∈ joined, db.chunkLengths t ≠ [] := by
    intro t ht
    obtain ⟨lt, hget, hjoined⟩ := hinv.isJoined t ht
    rw [← OperatorResult.table_of_getTable hget]
    exact hjoined.chunks
  have hmk : ∀ t hashTable, t ∈ joined ++ [p.rightTable] → db.chunkLengths t ≠ [] → LazyTable.Joined db
      ⟨t, none, some ((Enumerates.extend p.rightTable ext tuples).map fun ρ => ρ t), none,
        hashTable⟩ (Enumerates.extend p.rightTable ext tuples) := by
    intro t hashTable ht hchunks
    exact ⟨rfl, rfl, rfl, hchunks, fun ρ hρ => hrows ρ hρ t ht⟩
  have hout : execute db size result [right] p = some
      (⟨p.leftTable, none,
          some ((Enumerates.extend p.rightTable ext tuples).map fun ρ => ρ p.leftTable), none,
          left.hashTable⟩ :: lefts ++
        [⟨p.rightTable, none, some (pairs.map Prod.snd), none, right.hashTable⟩,
          ⟨p.rightTable, none, some (pairs.map Prod.snd), none, right.hashTable⟩]) := by
    simp only [execute, hgetl, hgetr, hpairs, Option.bind_eq_bind, Option.bind_some, backPropogateResult,
      updateIndices, hjoined.indices, hltable, htake _ hne, hlefts, hright.indices, hrtable]
    simp [propogateIndices, propogateTable, hright.indices, hrtable]
  refine ⟨_, hout, ?_, ?_⟩
  . intro t ht
    rw [List.cons_append, OperatorResult.getTable_cons]
    split
    . exact ⟨_, rfl, hmk _ _ (List.mem_append_left _ hl) (hchunks _ hl)⟩
    . next hneq =>
      rw [OperatorResult.getTable_append]
      have hfirst := getTable_mapM (fun _ _ => propogateTable_table) hlefts t
      rcases List.mem_append.mp ht with ht | ht
      . obtain ⟨lt, hget, hltj⟩ := hinv.isJoined t ht
        have htable := OperatorResult.table_of_getTable hget
        rw [hget] at hfirst
        obtain ⟨lt', hlt', hget'⟩ := hfirst
        have hnet : t ≠ p.rightTable := by
          rintro rfl
          exact hr ht
        simp only [propogateTable, hltj.indices, htable] at hlt'
        rw [if_pos (Ne.symm hneq), htake t hnet] at hlt'
        cases hlt'
        rw [hget', Option.some_or]
        exact ⟨_, rfl, hmk _ _ (List.mem_append_left _ ht) (hchunks _ ht)⟩
      . rw [List.mem_singleton] at ht
        have hnone : result.getTable t = none := by
          cases hget : result.getTable t with
          | none => rfl
          | some lt =>
            have hmem := (hinv.indices lt (List.mem_of_find?_eq_some hget)).1
            rw [OperatorResult.table_of_getTable hget, ht] at hmem
            exact absurd hmem hr
        rw [hnone] at hfirst
        rw [hfirst, Option.none_or, OperatorResult.getTable_cons, if_pos ht.symm, hsnd]
        exact ⟨_, rfl, hmk _ _ (by simp) (by rw [← hrtable]; exact hright.chunks)⟩
  . intro lt hlt
    rcases List.mem_append.mp hlt with hlt | hlt
    . rcases List.mem_cons.mp hlt with rfl | hlt
      . exact ⟨List.mem_append_left _ hl, _, rfl, List.length_map _⟩
      . obtain ⟨⟨lt', hmem, htable⟩, indices, hindices, hlen⟩ := hleftsMem lt hlt
        rw [htable]
        exact ⟨List.mem_append_left _ (hinv.indices lt' hmem).1, indices, hindices, hlen.trans hlenl⟩
    . simp only [List.mem_cons, List.not_mem_nil, or_false, or_self] at hlt
      rw [hlt]
      exact ⟨by simp, _, rfl, hlenr⟩

/--
A chain after its first join.
-/
theorem executeChain_inv_of_finds {joins : List (JoinPredicate × LazyTable)} {done : List JoinPredicate}
    {f : (Nat → Nat) → Prop} (hinv : Inv db joined tuples result) (hdeep : LeftDeep joined (joins.map Prod.fst))
    (hjoins : ∀ join ∈ joins, join.2.table = join.1.rightTable ∧ db.HasColumns join.1 ∧ join.2.Fresh db ∧
      FindsMatching db join.1 join.2)
    (hcovers : Covers joined done) (hf : Enumerates.DependsOn joined f)
    (henum : Enumerates joined (fun ρ => db.Satisfies joined done ρ ∧ f ρ) tuples)
    : ∃ out tuples', executeChain db size result joins = some out ∧
        Inv db (joined ++ joins.map fun join => join.1.rightTable) tuples' out ∧
        Enumerates (joined ++ joins.map fun join => join.1.rightTable)
          (fun ρ => db.Satisfies (joined ++ joins.map fun join => join.1.rightTable) (done ++ joins.map Prod.fst) ρ ∧
            f ρ ∧ ∀ join ∈ joins, Passes join.2.filter (ρ join.1.rightTable)) tuples' := by
  induction joins generalizing joined done tuples result f with
  | nil =>
    simp only [List.map_nil, List.append_nil, List.not_mem_nil, false_implies, implies_true, and_true]
    exact ⟨result, tuples, rfl, hinv, henum⟩
  | cons join joins ih =>
    obtain ⟨p, right⟩ := join
    obtain ⟨hl, hr, hdeep⟩ := hdeep
    obtain ⟨hrtable, hcols, hfresh, ext, hfinds, hperm⟩ := hjoins (p, right) (by simp)
    have hdep : Enumerates.DependsOn joined fun ρ => db.Satisfies joined done ρ ∧ f ρ :=
      fun ρ ρ' heq h => ⟨Tables.Satisfies.dependsOn hcovers ρ ρ' heq h.1, hf ρ ρ' heq h.2⟩
    have henum₁ : Enumerates (joined ++ [p.rightTable])
        (fun ρ => db.Satisfies (joined ++ [p.rightTable]) (done ++ [p]) ρ ∧ f ρ ∧
          Passes right.filter (ρ p.rightTable))
        (Enumerates.extend p.rightTable ext tuples) := by
      apply Enumerates.of_perm _ (Enumerates.extend_perm p.rightTable hperm tuples)
      apply (enumerates_join henum hdep hl hr hcols (fun ρ h => h.1.rows_lt _ hl) right).congr
      intro ρ
      rw [Tables.satisfies_append]
      constructor
      . rintro ⟨⟨hsat, hfρ⟩, hlt, hpass, hagrees⟩
        exact ⟨⟨hsat, hlt, hagrees⟩, hfρ, hpass⟩
      . rintro ⟨⟨hsat, hlt, hagrees⟩, hfρ, hpass⟩
        exact ⟨⟨hsat, hfρ⟩, hlt, hpass, hagrees⟩
    obtain ⟨result₁, hresult₁, hinv₁⟩ := @execute_next_of_finds db size p joined tuples result right ext hinv hl hr
      hfresh hrtable hfinds hcols.1 (fun ρ hρ t ht => (henum₁.sound ρ hρ).1.rows_lt t ht)
    have hf₁ : Enumerates.DependsOn (joined ++ [p.rightTable])
        fun ρ => f ρ ∧ Passes right.filter (ρ p.rightTable) := by
      intro ρ ρ' heq h
      rw [← Enumerates.eq_of_map_eq heq (show p.rightTable ∈ joined ++ [p.rightTable] by simp)]
      rw [List.map_append, List.map_append] at heq
      exact ⟨hf ρ ρ' (List.append_inj_left' heq rfl) h.1, h.2⟩
    have := ih hinv₁ hdeep (fun join hjoin => hjoins join (by simp [hjoin])) (hcovers.append hl) hf₁ henum₁
    simp only [List.append_assoc, List.singleton_append] at this
    obtain ⟨out, tuples', hout, hinv', henum'⟩ := this
    refine ⟨out, tuples', ?_, hinv', henum'.congr ?_⟩
    . rw [executeChain, List.foldlM_cons, hresult₁]
      exact hout
    . intro ρ
      simp only [List.map_cons, List.mem_cons, forall_eq_or_imp, and_assoc]

theorem executeChain_inv {joins : List (JoinPredicate × LazyTable)} {done : List JoinPredicate}
    {f : (Nat → Nat) → Prop} (hinv : Inv db joined tuples result) (hdeep : LeftDeep joined (joins.map Prod.fst))
    (hjoins : ∀ join ∈ joins, join.2.table = join.1.rightTable ∧ db.HasColumns join.1 ∧ join.2.Fresh db ∧
      join.2.HasHashTable db join.1.rightCol)
    (hcovers : Covers joined done) (hf : Enumerates.DependsOn joined f)
    (henum : Enumerates joined (fun ρ => db.Satisfies joined done ρ ∧ f ρ) tuples)
    : ∃ out tuples', executeChain db size result joins = some out ∧
        Inv db (joined ++ joins.map fun join => join.1.rightTable) tuples' out ∧
        Enumerates (joined ++ joins.map fun join => join.1.rightTable)
          (fun ρ => db.Satisfies (joined ++ joins.map fun join => join.1.rightTable) (done ++ joins.map Prod.fst) ρ ∧
            f ρ ∧ ∀ join ∈ joins, Passes join.2.filter (ρ join.1.rightTable)) tuples' := by
  refine executeChain_inv_of_finds hinv hdeep ?_ hcovers hf henum
  intro join hjoin
  obtain ⟨hrtable, hcols, hfresh, hhash⟩ := hjoins join hjoin
  exact ⟨hrtable, hcols, hfresh, findsMatching_of_hasHashTable hfresh hrtable hcols hhash⟩

theorem Inv.represents (hinv : Inv db joined tuples result) : result.Represents joined tuples := by
  intro t ht
  obtain ⟨lt, hget, hjoined⟩ := hinv.isJoined t ht
  refine ⟨lt, hget, ?_⟩
  rw [hjoined.indices, OperatorResult.table_of_getTable hget]

end HashJoin

namespace JoinChain

def visitsColumn (t : Nat) (name : String) : Option (Chunked (BitVec 64)) :=
  if name = "k" then
    [[[5, 6], [5]], [[5, 5, 6, 5]], [[1, 2], [2]]][t]?
  else if name = "l" then
    [[[0, 0], [0]], [[2, 2, 1, 2]], [[0, 0], [0]]][t]?
  else
    none

theorem visitsColumn_aligned (t : Nat) (name : String) (col : Chunked (BitVec 64))
    (h : visitsColumn t name = some col)
    : col.map List.length = [[2, 1], [4], [2, 1]].getD t [] := by
  unfold visitsColumn at h
  have hlt : t < 3 := by
    split at h
    . exact (List.getElem?_eq_some_iff.mp h).1
    . split at h
      . exact (List.getElem?_eq_some_iff.mp h).1
      . cases h
  have : t = 0 ∨ t = 1 ∨ t = 2 := by omega
  rcases this with rfl | rfl | rfl <;> split at h
  . cases h; rfl
  . split at h <;> cases h; rfl
  . cases h; rfl
  . split at h <;> cases h; rfl
  . cases h; rfl
  . split at h <;> cases h; rfl

def visitsDb : Tables where
  chunkLengths t := [[2, 1], [4], [2, 1]].getD t []
  column := visitsColumn
  column_aligned := visitsColumn_aligned

def visitsChain : JoinChain where
  db := visitsDb
  first := ⟨0, some [[true, false], [true]], none, none, none⟩
  joins := [
    (⟨0, "k", 1, "k"⟩, ⟨1, some [[true, true, true, false]], none, none, none⟩),
    (⟨1, "l", 2, "k"⟩, ⟨2, none, none, none, HashTable.build [[1, 2], [2]] none⟩)
  ]
  joins_ne_nil := by simp
  leftDeep := by simp [LeftDeep]
  rightTable := by simp
  columns := by
    intro join hjoin
    rcases List.mem_pair.mp hjoin with rfl | rfl
    . exact ⟨⟨_, rfl⟩, _, rfl⟩
    . exact ⟨⟨_, rfl⟩, _, rfl⟩
  fresh_first := ⟨rfl, rfl, by rintro f ⟨⟩; rfl, by decide⟩
  fresh := by
    intro join hjoin
    rcases List.mem_pair.mp hjoin with rfl | rfl
    . exact ⟨⟨rfl, rfl, by rintro f ⟨⟩; rfl, by decide⟩, .inl rfl⟩
    . exact ⟨⟨rfl, rfl, by rintro f ⟨⟩, by decide⟩, .inr ⟨_, rfl, rfl⟩⟩

end JoinChain

/-! The tables that a join lists. -/

/--
Every table is listed at most once, and the index arrays have one length.
-/
structure OperatorResult.WellFormed (result : OperatorResult) : Prop where
  nodup : (result.map LazyTable.table).Nodup
  indices : ∃ n, ∀ t ∈ result, ∀ indices, t.indices = some indices → indices.length = n

namespace HashJoin

/--
An output of a join of `n` tuples that lists every table of the inputs once, with indices of its own rows.
-/
structure OutputWellFormed (db : Tables) (inputs : OperatorResult) (n : Nat) (out : OperatorResult) : Prop where
  once : ∀ t ∈ inputs, (out.map LazyTable.table).count t.table = 1
  indices : ∀ t ∈ out, ∃ indices, t.indices = some indices ∧ indices.length = n ∧
    ∀ i ∈ indices, i < db.numRows t.table

theorem propogateIndices_tables {result out : OperatorResult} {table : Nat} {joinIndices : List Nat}
    (h : propogateIndices result table joinIndices = some out)
    : out.map LazyTable.table = result.map LazyTable.table := by
  unfold propogateIndices at h
  induction result generalizing out with
  | nil =>
    cases h
    rfl
  | cons t result ih =>
    rw [List.mapM_cons] at h
    obtain ⟨t', ht', h⟩ := Option.bind_eq_some_iff.mp h
    obtain ⟨rest, hrest, h⟩ := Option.bind_eq_some_iff.mp h
    cases h
    rw [List.map_cons, List.map_cons, propogateTable_table ht', ih hrest]

theorem updateIndices_table {t t' : LazyTable} {joinIndices : List Nat} (h : updateIndices t joinIndices = some t')
    : t'.table = t.table := by
  unfold updateIndices at h
  split at h
  . obtain ⟨indices, -, h⟩ := Option.bind_eq_some_iff.mp h
    cases h
    rfl
  . cases h
    rfl

theorem execute_tables {db : Tables} {size : Nat → Nat} {leftResult rightResult out : OperatorResult}
    {p : JoinPredicate} (h : execute db size leftResult rightResult p = some out)
    : p.leftTable ∈ leftResult.map LazyTable.table ∧
        out.map LazyTable.table
          =
        p.leftTable :: leftResult.map LazyTable.table ++ p.rightTable :: rightResult.map LazyTable.table := by
  obtain ⟨left, hleft, h⟩ := Option.bind_eq_some_iff.mp h
  obtain ⟨right, hright, h⟩ := Option.bind_eq_some_iff.mp h
  obtain ⟨pairs, -, h⟩ := Option.bind_eq_some_iff.mp h
  obtain ⟨newLeft, hnewLeft, h⟩ := Option.bind_eq_some_iff.mp h
  obtain ⟨lefts, hlefts, h⟩ := Option.bind_eq_some_iff.mp h
  obtain ⟨newRight, hnewRight, h⟩ := Option.bind_eq_some_iff.mp h
  obtain ⟨rights, hrights, h⟩ := Option.bind_eq_some_iff.mp h
  cases h
  have hltable := OperatorResult.table_of_getTable hleft
  have hrtable := OperatorResult.table_of_getTable hright
  constructor
  . rw [← hltable]
    exact List.mem_map_of_mem (List.mem_of_find?_eq_some hleft)
  . rw [List.map_append, List.map_cons, List.map_cons, updateIndices_table hnewLeft, updateIndices_table hnewRight,
      propogateIndices_tables hlefts, propogateIndices_tables hrights, hltable, hrtable]

/--
The joined tables are among the tables that the join is propagated to, so no output lists them once.
-/
theorem execute_lists_joined_twice (db : Tables) (size : Nat → Nat) (leftResult rightResult : OperatorResult)
    (p : JoinPredicate) (n : Nat)
    : ¬∃ out, execute db size leftResult rightResult p = some out ∧
        OutputWellFormed db (leftResult ++ rightResult) n out := by
  rintro ⟨out, hout, hwf⟩
  obtain ⟨hmem, htables⟩ := execute_tables hout
  obtain ⟨t, ht, htable⟩ := List.mem_map.mp hmem
  have honce := hwf.once t (List.mem_append_left _ ht)
  rw [htables, htable, List.cons_append, List.count_cons_self, List.count_append] at honce
  have := List.count_pos_iff.mpr hmem
  omega

def ordersColumn (t : Nat) (name : String) : Option (Chunked (BitVec 64)) :=
  if name = "k" then [[[5, 6, 7]], [[1, 1]], [[7]]][t]? else none

theorem ordersColumn_aligned (t : Nat) (name : String) (col : Chunked (BitVec 64))
    (h : ordersColumn t name = some col)
    : col.map List.length = [[3], [2], [1]].getD t [] := by
  unfold ordersColumn at h
  split at h
  . obtain ⟨ht, hcol⟩ := List.getElem?_eq_some_iff.mp h
    have : t = 0 ∨ t = 1 ∨ t = 2 := by
      simp at ht
      omega
    rcases this with rfl | rfl | rfl
    . rw [← hcol]; rfl
    . rw [← hcol]; rfl
    . rw [← hcol]; rfl
  . cases h

def ordersDb : Tables where
  chunkLengths t := [[3], [2], [1]].getD t []
  column := ordersColumn
  column_aligned := ordersColumn_aligned

/--
The tables `0` and `1` after a join.
-/
def ordersLeft : OperatorResult :=
  [⟨0, none, some [2, 0], none, none⟩, ⟨1, none, some [0, 1], none, none⟩]

def ordersRight : OperatorResult :=
  [⟨2, none, none, none, none⟩]

/--
The second lazy table of the table `0` has an index into the two tuples of the left result.
-/
theorem execute_orders
    : ordersLeft.WellFormed ∧ ordersRight.WellFormed ∧
        ∃ out, execute ordersDb (fun _ => 1) ordersLeft ordersRight ⟨0, "k", 2, "k"⟩ = some out ∧
          out.map (fun t => (t.table, t.indices))
            = [(0, some [2]), (0, some [0]), (1, some [0]), (2, some [0]), (2, some [0])] ∧
          ∀ n, ¬OutputWellFormed ordersDb (ordersLeft ++ ordersRight) n out := by
  refine ⟨⟨by decide, 2, by decide⟩, ⟨by decide, 0, by decide⟩, _, rfl, rfl, ?_⟩
  intro n h
  have := h.once ⟨0, none, some [2, 0], none, none⟩ (by decide)
  revert this
  decide

end HashJoin

end Hustle.Operators
