import Hustle.Operators.BloomFilter
import Hustle.Operators.ChunkedArray

/-!
This module contains how the Bloom filters of the dimension tables are built. Every dimension table has two
tasks, the first fetches its key column and the second inserts the keys into a filter. The column is passed
on in a map that is shared by all dimension tables and has the names of the columns as its keys.
-/

namespace Hustle.Operators

structure Dimension where
  /-- the name of the key column, and what `get_column_by_name` returns for it -/
  pkColName : String
  pkCol : Chunked (BitVec 64)
  filter : Option (Chunked Bool)
  hashTable : Option HashTable
  fkColName : String
  deriving DecidableEq

structure LookupFilter where
  bloomFilter : BloomFilter
  fkName : String
  hashTable : Option HashTable
  deriving DecidableEq

/--
The operators that build filters: `FilterJoin` insists on hash tables.
-/
inductive FilterBuilder where
  | filterJoin
  | lip
  deriving DecidableEq, Repr

namespace Dimension

/--
`GetFilterOutputSize` of the chunks of the filter, one for each chunk of the column.
-/
def lengthAfterFiltering (pkCol : Chunked (BitVec 64)) (filter : Chunked Bool) : Nat :=
  ((filter.take pkCol.length).map fun f => f.count true).sum

def numVals (pkCol : Chunked (BitVec 64)) : Option (Chunked Bool) → Nat
  | none => pkCol.flatten.length
  | some filter => lengthAfterFiltering pkCol filter

def buildBloomFilter (pkCol : Chunked (BitVec 64)) (filter : Option (Chunked Bool)) : Option BloomFilter :=
  -- a table without blocks has no column
  if pkCol = [] then
    none
  else do
    let bloomFilter ← BloomFilter.new (numVals pkCol filter)
    let keys ← applyFilter pkCol filter
    return keys.flatten.foldl BloomFilter.insert bloomFilter

/--
The second task of a dimension table, with the column that it finds in the map.
-/
def build (builder : FilterBuilder) (d : Dimension) (pkCol : Chunked (BitVec 64)) : Option LookupFilter := do
  let bloomFilter ← buildBloomFilter pkCol d.filter
  if builder = .filterJoin ∧ d.hashTable = none then
    none
  else
    return ⟨bloomFilter, d.fkColName, d.hashTable⟩

def keys (d : Dimension) : List (BitVec 64) :=
  (d.pkCol.flatten.zipIdx.filter fun x => decide (Passes d.filter x.2)).map Prod.fst

/--
The filter into which exactly the keys have been inserted.
-/
def lookupFilter (d : Dimension) : LookupFilter :=
  ⟨.ofValues d.keys, d.fkColName, d.hashTable⟩

/--
The cells of the filter can be counted, and `FilterJoin` finds a hash table.
-/
def Buildable (builder : FilterBuilder) (d : Dimension) : Prop :=
  (d.keys.length * 100 : Int) ≤ Storage.maxInt ∧ (builder = .filterJoin → d.hashTable ≠ none)

/--
The values of `pkCol` under the filter of `d` set the same cells as the keys of `d`.
-/
def SameCells (d : Dimension) (pkCol : Chunked (BitVec 64)) : Prop :=
  pkCol ≠ [] ∧ ∃ vals, applyFilter pkCol d.filter = some vals ∧
    vals.flatten.foldl BloomFilter.insert (.empty (numVals pkCol d.filter)) = .ofValues d.keys

theorem foldl_insert_numCells (f : BloomFilter) (vals : List (BitVec 64))
    : (vals.foldl BloomFilter.insert f).numCells = f.numCells := by
  induction vals generalizing f with
  | nil => rfl
  | cons v vals ih =>
    rw [List.foldl_cons, ih]
    rfl

theorem numVals_eq_of_foldl_insert {n : Nat} {vals keys : List (BitVec 64)}
    (h : vals.foldl BloomFilter.insert (.empty n) = .ofValues keys)
    : n = keys.length := by
  have hcells := congrArg BloomFilter.numCells h
  rw [BloomFilter.ofValues, foldl_insert_numCells, foldl_insert_numCells] at hcells
  simp only [BloomFilter.empty] at hcells
  omega

theorem build_eq_some_iff {builder : FilterBuilder} {d : Dimension} {pkCol : Chunked (BitVec 64)}
    : d.build builder pkCol = some d.lookupFilter ↔ d.Buildable builder ∧ d.SameCells pkCol := by
  simp only [build, buildBloomFilter, Buildable, SameCells]
  by_cases hcol : pkCol = []
  . simp [hcol]
  by_cases hhash : builder = .filterJoin ∧ d.hashTable = none
  . simp [hhash.1, hhash.2]
  have hhash' : builder = .filterJoin → d.hashTable ≠ none := fun hb hnone => hhash ⟨hb, hnone⟩
  simp only [if_neg hhash, ne_eq, hcol, not_false_eq_true, true_and]
  constructor
  . intro h
    obtain ⟨f, hf, h⟩ := Option.bind_eq_some_iff.mp h
    obtain ⟨g, hg, hf⟩ := Option.bind_eq_some_iff.mp hf
    obtain ⟨vals, hvals, hf⟩ := Option.bind_eq_some_iff.mp hf
    cases hf
    simp only [Option.pure_def, Option.some.injEq, lookupFilter, LookupFilter.mk.injEq, and_true] at h
    unfold BloomFilter.new at hg
    split at hg
    . next hle =>
      cases hg
      rw [numVals_eq_of_foldl_insert h] at hle
      exact ⟨⟨hle, hhash'⟩, vals, hvals, h⟩
    . cases hg
  . rintro ⟨⟨hle, -⟩, vals, hvals, h⟩
    rw [← numVals_eq_of_foldl_insert h] at hle
    simp [BloomFilter.new, hle, hvals, h, lookupFilter]

/-! Filters that are aligned with their columns. -/

theorem length_filter_zip {vs : List α} {bs : List Bool} (h : bs.length = vs.length)
    : ((vs.zip bs).filter Prod.snd).length = bs.count true := by
  rw [← List.countP_eq_length_filter]
  have hsnd : (vs.zip bs).map Prod.snd = bs := List.map_snd_zip (by omega)
  conv => rhs; rw [← hsnd]
  rw [List.count, List.countP_map]
  congr 1
  funext x
  simp

theorem keys_of_applyFilter {d : Dimension} (h : Aligned d.pkCol d.filter)
    : ∃ vals, applyFilter d.pkCol d.filter = some vals ∧ vals.flatten = d.keys :=
  applyFilter_eq_some h

theorem numVals_eq {d : Dimension} (h : Aligned d.pkCol d.filter)
    : numVals d.pkCol d.filter = d.keys.length := by
  obtain ⟨vals, hvals, hkeys⟩ := keys_of_applyFilter h
  rw [← hkeys]
  cases hf : d.filter with
  | none =>
    rw [hf] at hvals
    cases hvals
    rfl
  | some f =>
    have halign := h f hf
    have hlength : f.length = d.pkCol.length := by simpa using congrArg List.length halign
    have hflat := length_flatten_of_aligned halign
    obtain ⟨out, hout, hbits⟩ := selectChunks_flatten halign
    rw [hf] at hvals
    have heq : vals = out := Option.some.inj (hvals.symm.trans hout)
    rw [selectBits_eq_some hflat, Option.some.injEq] at hbits
    rw [heq, ← hbits, List.length_map, length_filter_zip hflat]
    simp only [numVals, lengthAfterFiltering]
    rw [← hlength, List.take_length, List.count_flatten]

theorem sameCells_self {d : Dimension} (h : Aligned d.pkCol d.filter) (hcol : d.pkCol ≠ [])
    : d.SameCells d.pkCol := by
  obtain ⟨vals, hvals, hkeys⟩ := keys_of_applyFilter h
  refine ⟨hcol, vals, hvals, ?_⟩
  rw [numVals_eq h, hkeys]
  rfl

theorem of_build_eq_some {builder : FilterBuilder} {d : Dimension} {f : LookupFilter}
    (h : Aligned d.pkCol d.filter) (hf : d.build builder d.pkCol = some f)
    : d.pkCol ≠ [] ∧ d.Buildable builder := by
  have hcol : d.pkCol ≠ [] := by
    intro hnil
    simp [build, buildBloomFilter, hnil] at hf
  have hvals := numVals_eq h
  obtain ⟨g, hg, hf⟩ := Option.bind_eq_some_iff.mp hf
  simp only [buildBloomFilter, if_neg hcol] at hg
  obtain ⟨e, he, -⟩ := Option.bind_eq_some_iff.mp hg
  refine ⟨hcol, ?_, ?_⟩
  . rw [hvals, BloomFilter.new] at he
    split at he
    . assumption
    . cases he
  . intro hb hnone
    rw [if_pos ⟨hb, hnone⟩] at hf
    cases hf

end Dimension

structure BuildState where
  pkCols : Map String (Chunked (BitVec 64))
  dimFilters : List (Option LookupFilter)
  deriving DecidableEq

inductive BuildTask where
  | fetchColumn (i : Nat)
  | buildFilter (i : Nat)
  deriving DecidableEq, Repr

namespace BuildState

/--
`resize` leaves filters that are null.
-/
def init (dims : List Dimension) : BuildState :=
  ⟨∅, List.replicate dims.length none⟩

def step (builder : FilterBuilder) (dims : List Dimension) (s : BuildState) : BuildTask → Option BuildState
  | .fetchColumn i => do
    let d ← dims[i]?
    return { s with pkCols := s.pkCols.insert d.pkColName d.pkCol }
  | .buildFilter i => do
    let d ← dims[i]?
    let pkCol ← s.pkCols.lookup d.pkColName
    let f ← d.build builder pkCol
    return { s with dimFilters := s.dimFilters.set i (some f) }

end BuildState

/--
The tasks of `n` dimension tables one after the other.
-/
def buildTasks (n : Nat) : List BuildTask :=
  (List.range n).flatMap fun i => [.fetchColumn i, .buildFilter i]

/--
An order of all tasks in which every column is fetched before its filter is built.
-/
structure IsSchedule (n : Nat) (tasks : List BuildTask) : Prop where
  perm : tasks.Perm (buildTasks n)
  ordered : ∀ i < n, [.fetchColumn i, .buildFilter i].Sublist tasks

/--
Whatever the order of the tasks is, dimension `i` ends with the filter of its own keys.
-/
def BuildsFilters (builder : FilterBuilder) (dims : List Dimension) : Prop :=
  ∀ tasks, IsSchedule dims.length tasks →
    ∃ s, tasks.foldlM (BuildState.step builder dims) (.init dims) = some s ∧
      s.dimFilters = dims.map fun d => some d.lookupFilter

/--
All key columns that have the name of the key column of a dimension table set the same cells as its keys.
-/
def Interchangeable (builder : FilterBuilder) (dims : List Dimension) : Prop :=
  ∀ d ∈ dims, d.Buildable builder ∧ ∀ d' ∈ dims, d'.pkColName = d.pkColName → d.SameCells d'.pkCol

theorem interchangeable_of_nodup {builder : FilterBuilder} {dims : List Dimension}
    (hnodup : (dims.map Dimension.pkColName).Nodup)
    (h : ∀ d ∈ dims, Aligned d.pkCol d.filter ∧ d.pkCol ≠ [] ∧ d.Buildable builder)
    : Interchangeable builder dims := by
  intro d hd
  obtain ⟨halign, hcol, hbuild⟩ := h d hd
  refine ⟨hbuild, ?_⟩
  intro d' hd' hname
  have heq := List.inj_on_of_nodup_map hnodup hd' hd hname
  rw [heq]
  exact Dimension.sameCells_self halign hcol

theorem Interchangeable.build_eq {builder : FilterBuilder} {dims : List Dimension}
    (h : Interchangeable builder dims) {d d' : Dimension} (hd : d ∈ dims) (hd' : d' ∈ dims)
    (hname : d'.pkColName = d.pkColName)
    : d.build builder d'.pkCol = some d.lookupFilter :=
  Dimension.build_eq_some_iff.mpr ⟨(h d hd).1, (h d hd).2 d' hd' hname⟩

namespace BuildState

variable {builder : FilterBuilder} {dims : List Dimension}

theorem mem_buildTasks {n : Nat} {task : BuildTask}
    : task ∈ buildTasks n ↔ ∃ i < n, task = .fetchColumn i ∨ task = .buildFilter i := by
  simp [buildTasks]

theorem buildTasks_nodup (n : Nat) : (buildTasks n).Nodup := by
  unfold buildTasks
  rw [List.nodup_flatMap]
  refine ⟨by simp, ?_⟩
  apply List.nodup_range.imp
  intro i j hne
  simp [Function.onFun, Ne.symm hne]

theorem fetched_of_schedule {n i : Nat} {before after : List BuildTask}
    (h : IsSchedule n (before ++ .buildFilter i :: after)) (hi : i < n)
    : .fetchColumn i ∈ before :=
  Run.mem_before_of_sublist (h.ordered i hi) (h.perm.nodup_iff.mpr (buildTasks_nodup n)) rfl

/--
What holds after some of the tasks: the columns that were fetched have the right name, and the filters
that were built are those of their own dimension tables.
-/
structure Built (dims : List Dimension) (done : List BuildTask) (s : BuildState) : Prop where
  fetched : ∀ i d, .fetchColumn i ∈ done → dims[i]? = some d →
    ∃ d' ∈ dims, d'.pkColName = d.pkColName ∧ s.pkCols.lookup d.pkColName = some d'.pkCol
  length_eq : s.dimFilters.length = dims.length
  built : ∀ i d, .buildFilter i ∈ done → dims[i]? = some d → s.dimFilters[i]? = some (some d.lookupFilter)

theorem Built.fetchColumn {done : List BuildTask} {s : BuildState} (h : Built dims done s) {i : Nat}
    {d : Dimension} (hd : dims[i]? = some d)
    : Built dims (done ++ [.fetchColumn i]) { s with pkCols := s.pkCols.insert d.pkColName d.pkCol } where
  fetched := by
    intro k e hk he
    dsimp only
    rw [Map.lookup_insert_eq]
    split
    . next hname => exact ⟨d, List.mem_of_getElem? hd, hname.symm, rfl⟩
    . next hname =>
      apply h.fetched k e _ he
      rcases List.mem_append.mp hk with hk | hk
      . exact hk
      . simp only [List.mem_singleton, BuildTask.fetchColumn.injEq] at hk
        rw [hk, hd, Option.some.injEq] at he
        rw [he] at hname
        exact absurd rfl hname
  length_eq := h.length_eq
  built := by
    intro k e hk he
    apply h.built k e _ he
    simpa using hk

theorem Built.buildFilter {done : List BuildTask} {s : BuildState} (h : Built dims done s) {i : Nat}
    {d : Dimension} (hd : dims[i]? = some d)
    : Built dims (done ++ [.buildFilter i])
        { s with dimFilters := s.dimFilters.set i (some d.lookupFilter) } where
  fetched := by
    intro k e hk he
    apply h.fetched k e _ he
    simpa using hk
  length_eq := by
    rw [List.length_set]
    exact h.length_eq
  built := by
    intro k e hk he
    dsimp only
    rw [List.getElem?_set]
    split
    . next heq =>
      rw [← heq, hd, Option.some.injEq] at he
      have := (List.getElem?_eq_some_iff.mp hd).1
      rw [if_pos (by rw [h.length_eq]; exact this), he]
    . next hne =>
      apply h.built k e _ he
      rcases List.mem_append.mp hk with hk | hk
      . exact hk
      . simp only [List.mem_singleton, BuildTask.buildFilter.injEq] at hk
        exact absurd hk.symm hne

theorem foldlM_built (h : Interchangeable builder dims) {tasks : List BuildTask}
    (htasks : IsSchedule dims.length tasks) (done rest : List BuildTask) (hsplit : tasks = done ++ rest)
    : ∃ s, done.foldlM (step builder dims) (init dims) = some s ∧ Built dims done s := by
  induction done using List.reverseRecOn generalizing rest with
  | nil =>
    refine ⟨init dims, rfl, ?_, by simp [init], ?_⟩
    . intro i d hi
      cases hi
    . intro i d hi
      cases hi
  | append_singleton done task ih =>
    rw [List.append_assoc, List.singleton_append] at hsplit
    obtain ⟨s, hs, hbuilt⟩ := ih _ hsplit
    have hmem : task ∈ buildTasks dims.length := by
      rw [← htasks.perm.mem_iff, hsplit]
      simp
    obtain ⟨i, hi, htask⟩ := mem_buildTasks.mp hmem
    have hd := List.getElem?_eq_getElem hi
    rw [List.foldlM_append, hs]
    simp only [Option.bind_eq_bind, Option.bind_some, List.foldlM_cons, List.foldlM_nil]
    rcases htask with rfl | rfl
    . refine ⟨_, ?_, hbuilt.fetchColumn hd⟩
      simp [step, hd]
    . rw [hsplit] at htasks
      have hfetched := fetched_of_schedule htasks hi
      obtain ⟨d', hd', hname, hcol⟩ := hbuilt.fetched i _ hfetched hd
      refine ⟨_, ?_, hbuilt.buildFilter hd⟩
      simp [step, hd, hcol, h.build_eq (List.getElem_mem hi) hd' hname]

theorem buildsFilters_of_interchangeable (h : Interchangeable builder dims) : BuildsFilters builder dims := by
  intro tasks htasks
  obtain ⟨s, hs, hbuilt⟩ := foldlM_built h htasks tasks [] (by simp)
  refine ⟨s, hs, ?_⟩
  apply List.ext_getElem?
  intro i
  rw [List.getElem?_map]
  cases hd : dims[i]? with
  | none =>
    rw [List.getElem?_eq_none_iff] at hd
    rw [List.getElem?_eq_none (by rw [hbuilt.length_eq]; exact hd)]
    rfl
  | some d =>
    have hi := (List.getElem?_eq_some_iff.mp hd).1
    have hmem : .buildFilter i ∈ tasks := by
      rw [htasks.perm.mem_iff, mem_buildTasks]
      exact ⟨i, hi, .inr rfl⟩
    rw [hbuilt.built i d hmem hd]
    rfl

/-! Schedules. -/

/--
The tasks of the dimension tables `ks`.
-/
def chains (ks : List Nat) : List BuildTask :=
  ks.flatMap fun k => [.fetchColumn k, .buildFilter k]

theorem chain_sublist_chains {ks : List Nat} {k : Nat} (hk : k ∈ ks)
    : [.fetchColumn k, .buildFilter k].Sublist (chains ks) := by
  unfold chains
  rw [List.flatMap_def]
  exact List.sublist_flatten_of_mem (List.mem_map_of_mem hk)

theorem chains_perm {n : Nat} {ks : List Nat} (h : (List.range n).Perm ks)
    : (chains ks).Perm (buildTasks n) := by
  unfold chains buildTasks
  exact (h.flatMap_right _).symm

theorem buildTasks_isSchedule (n : Nat) : IsSchedule n (buildTasks n) where
  perm := .refl _
  ordered := by
    intro k hk
    exact chain_sublist_chains (List.mem_range.mpr hk)

theorem isSchedule_first {n i : Nat} (hi : i < n)
    : IsSchedule n ([.fetchColumn i, .buildFilter i] ++ chains ((List.range n).erase i)) where
  perm := by
    have hperm := chains_perm (List.perm_cons_erase (List.mem_range.mpr hi))
    exact hperm
  ordered := by
    intro k hk
    by_cases hki : k = i
    . rw [hki]
      exact List.sublist_append_left _ _
    . apply (chain_sublist_chains _).trans (List.sublist_append_right _ _)
      exact (List.mem_erase_of_ne hki).mpr (List.mem_range.mpr hk)

/--
The column of `j` is fetched between the two tasks of `i`.
-/
theorem isSchedule_racing {n i j : Nat} (hi : i < n) (hj : j < n) (hij : i ≠ j)
    : IsSchedule n ([.fetchColumn i, .fetchColumn j, .buildFilter i] ++
        (BuildTask.buildFilter j :: chains (((List.range n).erase i).erase j))) where
  perm := by
    have hmem := (List.mem_erase_of_ne hij.symm).mpr (List.mem_range.mpr hj)
    have hperm := (List.perm_cons_erase (List.mem_range.mpr hi)).trans
      ((List.perm_cons_erase hmem).cons i)
    apply List.Perm.trans _ (chains_perm hperm)
    exact (List.Perm.swap _ _ _).cons _
  ordered := by
    intro k hk
    by_cases hki : k = i
    . rw [hki]
      apply List.Sublist.trans _ (List.sublist_append_left _ _)
      exact (List.Sublist.cons _ (.refl _)).cons_cons _
    . by_cases hkj : k = j
      . rw [hkj]
        apply List.Sublist.cons
        apply List.Sublist.cons_cons
        apply List.Sublist.cons
        exact (List.nil_sublist _).cons_cons _
      . apply (chain_sublist_chains _).trans
        . exact (List.sublist_cons_self _ _).trans (List.sublist_append_right _ _)
        . rw [List.mem_erase_of_ne hkj, List.mem_erase_of_ne hki]
          exact List.mem_range.mpr hk

theorem foldlM_getElem? {tasks : List BuildTask} {i : Nat} (hi : .buildFilter i ∉ tasks) {s s' : BuildState}
    (h : tasks.foldlM (step builder dims) s = some s')
    : s'.dimFilters[i]? = s.dimFilters[i]? := by
  induction tasks generalizing s with
  | nil =>
    cases h
    rfl
  | cons task tasks ih =>
    rw [List.mem_cons, not_or] at hi
    rw [List.foldlM_cons] at h
    obtain ⟨s₁, hs₁, h⟩ := Option.bind_eq_some_iff.mp h
    rw [ih hi.2 h]
    cases task with
    | fetchColumn k =>
      obtain ⟨d, -, hs₁⟩ := Option.bind_eq_some_iff.mp hs₁
      cases hs₁
      rfl
    | buildFilter k =>
      have hne : k ≠ i := by
        intro hk
        exact hi.1 (by rw [hk])
      obtain ⟨d, -, hs₁⟩ := Option.bind_eq_some_iff.mp hs₁
      obtain ⟨col, -, hs₁⟩ := Option.bind_eq_some_iff.mp hs₁
      obtain ⟨f, -, hs₁⟩ := Option.bind_eq_some_iff.mp hs₁
      cases hs₁
      exact List.getElem?_set_ne hne

theorem buildFilter_notMem_chains {ks : List Nat} {i : Nat} (hi : i ∉ ks) : .buildFilter i ∉ chains ks := by
  simp [chains, hi]

/--
What the filter of `i` is after a schedule that builds it first.
-/
theorem build_eq_of_foldlM {front rest : List BuildTask} {i : Nat} {d : Dimension} (hd : dims[i]? = some d)
    (hrest : .buildFilter i ∉ rest) {s s' : BuildState} {col : Chunked (BitVec 64)}
    (hs : front.foldlM (step builder dims) (init dims) = some s)
    (hlength : s.dimFilters.length = dims.length) (hcol : s.pkCols.lookup d.pkColName = some col)
    (h : (front ++ .buildFilter i :: rest).foldlM (step builder dims) (init dims) = some s')
    (hfilters : s'.dimFilters = dims.map fun d => some d.lookupFilter)
    : d.build builder col = some d.lookupFilter := by
  have hi := (List.getElem?_eq_some_iff.mp hd).1
  rw [List.foldlM_append, hs] at h
  simp only [Option.bind_eq_bind, Option.bind_some, List.foldlM_cons] at h
  obtain ⟨s₁, hs₁, h⟩ := Option.bind_eq_some_iff.mp h
  have hkeep := foldlM_getElem? hrest h
  simp only [step, hd, hcol, Option.bind_eq_bind, Option.bind_some] at hs₁
  obtain ⟨f, hf, hs₁⟩ := Option.bind_eq_some_iff.mp hs₁
  cases hs₁
  rw [hfilters, List.getElem?_map, hd, Option.map_some, List.getElem?_set_self (by omega)] at hkeep
  rw [hf]
  exact (Option.some.inj hkeep).symm

theorem build_eq_some_of_first {i : Nat} {d : Dimension} (hd : dims[i]? = some d) {s : BuildState}
    (h : ([BuildTask.fetchColumn i, .buildFilter i] ++ chains ((List.range dims.length).erase i)).foldlM
      (step builder dims) (init dims) = some s)
    : ∃ f, d.build builder d.pkCol = some f := by
  simp only [List.cons_append, List.foldlM_cons, step, hd, Option.bind_eq_bind, Option.bind_some,
    Option.pure_def, Map.lookup_insert_eq, if_true] at h
  obtain ⟨s₁, hs₁, -⟩ := Option.bind_eq_some_iff.mp h
  obtain ⟨f, hf, -⟩ := Option.bind_eq_some_iff.mp hs₁
  exact ⟨f, hf⟩

end BuildState

open BuildState in
/--
For every schedule of the tasks the dimension tables end with the filters of their own keys, exactly if key
columns that have the same name are interchangeable.
-/
theorem buildsFilters_iff (builder : FilterBuilder) (dims : List Dimension)
    : BuildsFilters builder dims ↔ Interchangeable builder dims := by
  refine ⟨?_, buildsFilters_of_interchangeable⟩
  intro h
  suffices hbuild : ∀ d ∈ dims, ∀ d' ∈ dims, d'.pkColName = d.pkColName →
      d.build builder d'.pkCol = some d.lookupFilter by
    intro d hd
    refine ⟨(Dimension.build_eq_some_iff.mp (hbuild d hd d hd rfl)).1, ?_⟩
    intro d' hd' hname
    exact (Dimension.build_eq_some_iff.mp (hbuild d hd d' hd' hname)).2
  intro d hmem d' hmem' hname
  obtain ⟨i, hd⟩ := List.mem_iff_getElem?.mp hmem
  obtain ⟨j, hd'⟩ := List.mem_iff_getElem?.mp hmem'
  have hi := (List.getElem?_eq_some_iff.mp hd).1
  have hj := (List.getElem?_eq_some_iff.mp hd').1
  by_cases hij : i = j
  . subst hij
    rw [hd, Option.some.injEq] at hd'
    subst hd'
    obtain ⟨s, hs, hfilters⟩ := h _ (isSchedule_first hi)
    have hrest : .buildFilter i ∉ chains ((List.range dims.length).erase i) :=
      buildFilter_notMem_chains (List.nodup_range.not_mem_erase)
    have hstep : [.fetchColumn i].foldlM (step builder dims) (init dims)
        = some { init dims with pkCols := (init dims).pkCols.insert d.pkColName d.pkCol } := by
      simp [step, hd]
    refine build_eq_of_foldlM hd hrest hstep (by simp [init]) ?_ hs hfilters
    rw [Map.lookup_insert_eq, if_pos rfl]
  . obtain ⟨s, hs, hfilters⟩ := h _ (isSchedule_racing hi hj hij)
    have hrest : .buildFilter i ∉
        .buildFilter j :: chains (((List.range dims.length).erase i).erase j) := by
      rw [List.mem_cons, not_or]
      constructor
      . intro heq
        exact hij (BuildTask.buildFilter.inj heq)
      . apply buildFilter_notMem_chains
        intro hin
        exact List.nodup_range.not_mem_erase (List.mem_of_mem_erase hin)
    have hstep : [.fetchColumn i, .fetchColumn j].foldlM (step builder dims) (init dims)
        = some { init dims with
            pkCols := ((init dims).pkCols.insert d.pkColName d.pkCol).insert d'.pkColName d'.pkCol } := by
      simp [step, hd, hd']
    refine build_eq_of_foldlM hd hrest hstep (by simp [init]) ?_ hs hfilters
    rw [Map.lookup_insert_eq, if_pos hname.symm]

def keyDimension (key : BitVec 64) : Dimension :=
  ⟨"key", [[key]], none, none, "fk"⟩

/--
Two key columns of one name: the second one is fetched before the first filter is built.
-/
theorem not_buildsFilters_key : ¬BuildsFilters .lip [keyDimension 1, keyDimension 2] := by
  intro h
  have htasks : IsSchedule 2 [.fetchColumn 0, .fetchColumn 1, .buildFilter 0, .buildFilter 1] :=
    BuildState.isSchedule_racing (by omega) (by omega) (by omega)
  obtain ⟨s, hs, hfilters⟩ := h _ htasks
  have hwrong : ([.fetchColumn 0, .fetchColumn 1, .buildFilter 0, .buildFilter 1].foldlM
      (BuildState.step .lip [keyDimension 1, keyDimension 2])
      (.init [keyDimension 1, keyDimension 2])).map
        (fun s => decide (s.dimFilters = [keyDimension 1, keyDimension 2].map fun d => some d.lookupFilter))
        = some false := by decide +kernel
  rw [hs, Option.map_some, Option.some.injEq, decide_eq_false_iff_not] at hwrong
  exact hwrong hfilters

end Hustle.Operators
