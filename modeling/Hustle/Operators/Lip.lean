import Hustle.Operators.ProbeFilters

/-!
This module contains look-ahead information passing, which removes rows of the fact table before it is joined.
-/

namespace Hustle.Operators

/--
A key passes if the Bloom filter has it and the hash table, if there is one, has it too.
-/
def LookupFilter.accepts (f : LookupFilter) (key : BitVec 64) : Bool :=
  f.bloomFilter.probe key && f.hashTable.all fun t => (t.lookup key).isSome

namespace Lip

structure State where
  lipIndices : List (List Nat)
  dimFilters : List LookupFilter

structure Output where
  indices : List Nat
  indexChunks : List Nat
  deriving DecidableEq, Repr

def probeChunk (fact : FactTable) (offsets : List Nat) (filterJ : Nat) (s : State) (chunkI : Nat)
    : Option State := do
  let f ← s.dimFilters[filterJ]?
  let col ← fact.columns.lookup f.fkName
  let chunk ← col[chunkI]?
  let offset ← offsets[chunkI]?
  -- the first filter is probed with all rows, the other ones with those that passed the filters before
  if filterJ = 0 then
    let indices := ((chunk.zipIdx offset).filter fun x => f.accepts x.1).map Prod.snd
    return { s with lipIndices := s.lipIndices.set chunkI indices }
  else
    let indices ← s.lipIndices[chunkI]?
    let indices ← Buffer.retain (fun row => (chunkValue chunk offset row).map f.accepts) indices 0 indices.length
    return { s with lipIndices := s.lipIndices.set chunkI indices }

/--
Probe all filters with a batch of chunks and sort the filters. `sort` is the order of their hit rates.
-/
def probeBatch (fact : FactTable) (offsets : List Nat) (size numChunks numDims : Nat)
    (sort : Nat → List LookupFilter → List LookupFilter) (s : State) (batch : Nat) : Option State := do
  let s ← (List.range numDims).foldlM
    (fun s j => (batchChunks size numChunks batch).foldlM (probeChunk fact offsets j) s) s
  return { s with dimFilters := sort batch s.dimFilters }

def finish (lipIndices : List (List Nat)) : Output where
  indices := lipIndices.flatten
  indexChunks := lipIndices.zipIdx.flatMap fun x => List.replicate x.1.length (x.2 % 2 ^ 16)

/--
`tasks` is the order in which the filters are built.
-/
def execute (fact : FactTable) (dims : List Dimension) (tasks : List BuildTask) (hardwareConcurrency : Nat)
    (sort : Nat → List LookupFilter → List LookupFilter) : Option Output := do
  let built ← tasks.foldlM (BuildState.step .lip dims) (.init dims)
  let filters ← built.dimFilters.mapM id
  let d ← dims[0]?
  let factCol ← fact.columns.lookup d.fkColName
  let offsets ← chunkRowOffsets factCol
  let size := batchSize hardwareConcurrency factCol.length
  let s ← (List.range (numBatches size factCol.length)).foldlM
    (probeBatch fact offsets size factCol.length dims.length sort)
    ⟨List.replicate factCol.length [], filters⟩
  return finish s.lipIndices

end Lip

def FactTable.accepts (fact : FactTable) (row : Nat) (f : LookupFilter) : Bool :=
  ((fact.key f.fkName row).map f.accepts).getD false

namespace Lip

variable {fact : FactTable}

def Passed (fact : FactTable) (fs : List LookupFilter) (chunkI : Nat) (lipIndices : List (List Nat)) : Prop :=
  ∃ rows, lipIndices[chunkI]? = some rows ∧
    rows.Perm ((fact.chunkRows chunkI).filter fun row => fs.all (fact.accepts row))

/--
What holds for a chunk that has been probed with the first `j` filters.
-/
def Probed (fact : FactTable) (fs : List LookupFilter) (j chunkI : Nat) (s : State) : Prop :=
  0 < j → Passed fact (fs.take j) chunkI s.lipIndices

theorem filter_zipIdx_accepts {chunk : List (BitVec 64)} {offset : Nat} {p : BitVec 64 → Bool} {q : Nat → Bool}
    (h : ∀ k (hk : k < chunk.length), p chunk[k] = q (offset + k))
    : ((chunk.zipIdx offset).filter fun x => p x.1).map Prod.snd
        =
      (List.range' offset chunk.length).filter q := by
  induction chunk generalizing offset with
  | nil => rfl
  | cons v chunk ih =>
    have hhead := h 0 (by simp)
    have htail := @ih (offset + 1) (by
      intro k hk
      have := h (k + 1) (by simpa using hk)
      rw [List.getElem_cons_succ] at this
      rw [this]
      congr 1
      omega)
    rw [List.getElem_cons_zero, Nat.add_zero] at hhead
    simp only [List.zipIdx_cons, List.filter_cons, List.length_cons, List.range'_succ, hhead]
    split
    . rw [List.map_cons, htail]
    . exact htail

theorem accepts_of_key {f : LookupFilter} {row : Nat} {key : BitVec 64} (h : fact.key f.fkName row = some key)
    : fact.accepts row f = f.accepts key := by
  simp [FactTable.accepts, h]

theorem all_take_succ {fs : List LookupFilter} {j : Nat} {f : LookupFilter} (hf : fs[j]? = some f) (row : Nat)
    : (fs.take (j + 1)).all (fact.accepts row)
        =
      ((fs.take j).all (fact.accepts row) && fact.accepts row f) := by
  rw [List.take_add_one, hf, List.all_append]
  simp

theorem probed_set {fs : List LookupFilter} {s : State} {rows : List Nat} {j i : Nat}
    (hlength : s.lipIndices.length = fact.chunkLengths.length)
    (hi : i < fact.chunkLengths.length)
    (hrows : rows.Perm ((fact.chunkRows i).filter fun row => (fs.take (j + 1)).all (fact.accepts row)))
    : (State.dimFilters ⟨s.lipIndices.set i rows, fs⟩ = fs ∧
          (State.lipIndices ⟨s.lipIndices.set i rows, fs⟩).length = fact.chunkLengths.length) ∧
        Probed fact fs (j + 1) i ⟨s.lipIndices.set i rows, fs⟩ ∧
        ∀ i' k, i' ≠ i → Probed fact fs k i' s → Probed fact fs k i' ⟨s.lipIndices.set i rows, fs⟩ := by
  refine ⟨⟨rfl, by rw [List.length_set]; exact hlength⟩, ?_, ?_⟩
  . intro _
    exact ⟨rows, List.getElem?_set_self (by omega), hrows⟩
  . intro i' k hne hprobed hk
    obtain ⟨rows', hget, hperm⟩ := hprobed hk
    refine ⟨rows', ?_, hperm⟩
    dsimp only
    rw [List.getElem?_set_ne (Ne.symm hne)]
    exact hget

/--
The spec of one task: the chunk passes one more filter and the other chunks are left alone.
-/
theorem probeChunk_probed {fs : List LookupFilter} {offsets : List Nat} {s : State} {j i : Nat}
    (hoffsets : ∀ i < fact.chunkLengths.length, offsets[i]? = some (fact.chunkLengths.take i).sum)
    (hcols : ∀ f ∈ fs, ∃ col, fact.columns.lookup f.fkName = some col)
    (hs : s.dimFilters = fs ∧ s.lipIndices.length = fact.chunkLengths.length)
    (hj : j < fs.length) (hi : i < fact.chunkLengths.length) (h : Probed fact fs j i s)
    : ∃ s', probeChunk fact offsets j s i = some s' ∧
        (s'.dimFilters = fs ∧ s'.lipIndices.length = fact.chunkLengths.length) ∧
        Probed fact fs (j + 1) i s' ∧ ∀ i' k, i' ≠ i → Probed fact fs k i' s → Probed fact fs k i' s' := by
  obtain ⟨hfilters, hlength⟩ := hs
  have hf := List.getElem?_eq_getElem hj
  obtain ⟨col, hcol⟩ := hcols fs[j] (List.getElem_mem hj)
  obtain ⟨chunk, hchunk, hlen⟩ := FactTable.getElem?_chunk hcol hi
  -- the values of the chunk are the foreign keys of its rows
  have hkey : ∀ row ∈ fact.chunkRows i,
      (chunkValue chunk (fact.chunkLengths.take i).sum row).map fs[j].accepts = some (fact.accepts row fs[j]) := by
    intro row hrow
    obtain ⟨hvalue, key, hkey⟩ := FactTable.chunkValue_eq_key hcol hchunk hlen hrow
    rw [hvalue, hkey, Option.map_some, accepts_of_key hkey]
  simp only [probeChunk, hfilters, hf, hcol, hchunk, hoffsets i hi, Option.bind_eq_bind, Option.bind_some]
  split
  . next hzero =>
    subst hzero
    refine ⟨_, rfl, probed_set hlength hi ?_⟩
    have hscan := @filter_zipIdx_accepts chunk (fact.chunkLengths.take i).sum fs[0].accepts
      (fun row => (fs.take 1).all (fact.accepts row)) (by
        intro k hk
        have hrow : (fact.chunkLengths.take i).sum + k ∈ fact.chunkRows i := by
          rw [FactTable.chunkRows, List.mem_range'_1, ← hlen]
          omega
        have := hkey _ hrow
        rw [chunkValue, if_pos (by omega), Nat.add_sub_cancel_left, List.getElem?_eq_getElem hk,
          Option.map_some, Option.some.injEq] at this
        rw [all_take_succ hf, ← this]
        rfl)
    rw [hscan, hlen]
    rfl
  . next hpos =>
    obtain ⟨rows, hget, hperm⟩ := h (by omega)
    have hmem : ∀ row ∈ rows, row ∈ fact.chunkRows i := by
      intro row hrow
      exact (List.mem_filter.mp (hperm.mem_iff.mp hrow)).1
    obtain ⟨kept, hkept, hkeptPerm⟩ := Buffer.retain_all_perm fun row hrow => hkey row (hmem row hrow)
    simp only [hget, hkept, Option.bind_some]
    refine ⟨_, rfl, probed_set hlength hi ?_⟩
    apply hkeptPerm.trans
    have hall : (fun row => (fs.take (j + 1)).all (fact.accepts row))
        = fun row => fact.accepts row fs[j] && (fs.take j).all (fact.accepts row) := by
      funext row
      rw [all_take_succ hf, Bool.and_comm]
    rw [hall, ← List.filter_filter]
    exact hperm.filter _

/-! Batches and the whole run. -/

theorem all_accepts_of_perm {fs fs' : List LookupFilter} (h : fs.Perm fs') (row : Nat)
    : fs.all (fact.accepts row) = fs'.all (fact.accepts row) := by
  rw [Bool.eq_iff_iff, List.all_eq_true, List.all_eq_true]
  constructor
  . intro hall f hf
    exact hall f (h.mem_iff.mpr hf)
  . intro hall f hf
    exact hall f (h.mem_iff.mp hf)

theorem Passed.of_perm {fs fs' : List LookupFilter} (h : fs.Perm fs') {i : Nat} {lipIndices : List (List Nat)}
    (hp : Passed fact fs i lipIndices)
    : Passed fact fs' i lipIndices := by
  obtain ⟨rows, hget, hperm⟩ := hp
  refine ⟨rows, hget, ?_⟩
  simp only [all_accepts_of_perm h] at hperm
  exact hperm

theorem probeBatch_passed {fs : List LookupFilter} {offsets : List Nat} {size batch : Nat} {s : State}
    {sort : Nat → List LookupFilter → List LookupFilter}
    (hoffsets : ∀ i < fact.chunkLengths.length, offsets[i]? = some (fact.chunkLengths.take i).sum)
    (hcols : ∀ f ∈ fs, ∃ col, fact.columns.lookup f.fkName = some col)
    (hsort : ∀ batch fs, (sort batch fs).Perm fs) (hsize : 0 < size) (hfs : 0 < fs.length)
    (hs : s.dimFilters.Perm fs ∧ s.lipIndices.length = fact.chunkLengths.length)
    : ∃ s', probeBatch fact offsets size fact.chunkLengths.length fs.length sort s batch = some s' ∧
        (s'.dimFilters.Perm fs ∧ s'.lipIndices.length = fact.chunkLengths.length) ∧
        (∀ i ∈ batchChunks size fact.chunkLengths.length batch, Passed fact fs i s'.lipIndices) ∧
        ∀ i, i ∉ batchChunks size fact.chunkLengths.length batch → Passed fact fs i s.lipIndices →
          Passed fact fs i s'.lipIndices := by
  have hlen := hs.1.length_eq
  have hall : s.dimFilters.take fs.length = s.dimFilters := by rw [← hlen, List.take_length]
  obtain ⟨s₁, hs₁, hinv₁, hprobed, hkeep⟩ :=
    Run.foldlM_stages (n := fs.length) (batchChunks_nodup size fact.chunkLengths.length batch)
      (P := Probed fact s.dimFilters)
      (fun t j i hj hi ht => probeChunk_probed hoffsets
        (fun f hf => hcols f (hs.1.mem_iff.mp hf)) ht (by omega) ((mem_batchChunks hsize).mp hi).2.2)
      ⟨rfl, hs.2⟩ (fun i _ h => absurd h (Nat.lt_irrefl 0))
  refine ⟨{ s₁ with dimFilters := sort batch s₁.dimFilters }, ?_, ⟨?_, hinv₁.2⟩, ?_, ?_⟩
  . rw [probeBatch, hs₁]
    rfl
  . exact (hsort batch s₁.dimFilters).trans (by rw [hinv₁.1]; exact hs.1)
  . intro i hi
    have := hprobed i hi hfs
    rw [hall] at this
    exact this.of_perm hs.1
  . intro i hi hp
    have := hkeep i fs.length hi
    have hbefore : Probed fact s.dimFilters fs.length i s := by
      intro _
      rw [hall]
      exact hp.of_perm hs.1.symm
    have := hkeep i fs.length hi hbefore hfs
    rw [hall] at this
    exact this.of_perm hs.1

theorem offsets_of_lookup {col : Chunked (BitVec 64)} {name : String}
    (h : fact.columns.lookup name = some col) (hchunks : 0 < fact.chunkLengths.length)
    : ∃ offsets, chunkRowOffsets col = some offsets ∧
        ∀ i < fact.chunkLengths.length, offsets[i]? = some (fact.chunkLengths.take i).sum := by
  have hlen := FactTable.length_eq_of_lookup h
  refine ⟨rowOffsetsFrom 0 col, ?_, ?_⟩
  . rw [chunkRowOffsets, if_neg]
    rintro rfl
    simp at hlen
    omega
  . intro i hi
    rw [getElem?_rowOffsetsFrom (by omega), Nat.zero_add, FactTable.offset_eq_of_lookup h]

theorem execute_eq_some {dims : List Dimension} {tasks : List BuildTask} {hardwareConcurrency : Nat}
    {sort : Nat → List LookupFilter → List LookupFilter} {built : BuildState} {fs : List LookupFilter}
    (hbuilt : tasks.foldlM (BuildState.step .lip dims) (.init dims) = some built)
    (hfs : built.dimFilters.mapM id = some fs) (hlength : fs.length = dims.length)
    (hcols : ∀ f ∈ fs, ∃ col, fact.columns.lookup f.fkName = some col)
    (hfks : ∀ d ∈ dims, ∃ col, fact.columns.lookup d.fkColName = some col)
    (hdims : dims ≠ []) (hchunks : 0 < fact.chunkLengths.length)
    (hsort : ∀ batch fs, (sort batch fs).Perm fs)
    : ∃ lipIndices, execute fact dims tasks hardwareConcurrency sort = some (finish lipIndices) ∧
        lipIndices.length = fact.chunkLengths.length ∧
        ∀ i < fact.chunkLengths.length, Passed fact fs i lipIndices := by
  have hpos : 0 < dims.length := List.length_pos_iff.mpr hdims
  have hd := List.getElem?_eq_getElem hpos
  obtain ⟨col, hcol⟩ := hfks dims[0] (List.getElem_mem hpos)
  have hlen := FactTable.length_eq_of_lookup hcol
  obtain ⟨offsets, hoffsets, hget⟩ := offsets_of_lookup hcol hchunks
  have hsize := batchSize_pos hchunks hardwareConcurrency
  obtain ⟨s, hs, hinv, hpassed⟩ := foldlM_batches hsize
    (fun s batch hs => probeBatch_passed hget hcols hsort hsize (by omega) hs)
    (s := ⟨List.replicate fact.chunkLengths.length [], fs⟩) ⟨.refl _, List.length_replicate⟩
  rw [hlength] at hs
  refine ⟨s.lipIndices, ?_, hinv.2, hpassed⟩
  simp [execute, hbuilt, hfs, hd, hcol, hoffsets, hlen, hs]

/-! The rows that are left. -/

theorem forall₂_indexChunks {R : Nat → Nat → Prop} {lipIndices : List (List Nat)} {first : Nat}
    (h : ∀ i rows, lipIndices[i]? = some rows → ∀ row ∈ rows, R row ((first + i) % 2 ^ 16))
    : List.Forall₂ R lipIndices.flatten
        ((lipIndices.zipIdx first).flatMap fun x => List.replicate x.1.length (x.2 % 2 ^ 16)) := by
  induction lipIndices generalizing first with
  | nil => exact .nil
  | cons rows lipIndices ih =>
    rw [List.zipIdx_cons, List.flatMap_cons, List.flatten_cons]
    apply List.rel_append
    . have hrows := h 0 rows rfl
      rw [Nat.add_zero] at hrows
      rw [List.forall₂_iff_get]
      refine ⟨by simp, ?_⟩
      intro k hk hk'
      simp only [List.get_eq_getElem, List.getElem_replicate]
      exact hrows _ (List.getElem_mem hk)
    . apply ih
      intro i rows' hget row hrow
      have := h (i + 1) rows' (by simpa using hget) row hrow
      rw [Nat.add_assoc, Nat.add_comm 1 i]
      exact this

theorem mem_chunkRows_of_passed {fs : List LookupFilter} {lipIndices : List (List Nat)} {i : Nat}
    {rows : List Nat} (h : Passed fact fs i lipIndices) (hget : lipIndices[i]? = some rows)
    : ∀ row ∈ rows, row ∈ fact.chunkRows i := by
  obtain ⟨rows', hget', hperm⟩ := h
  have heq : rows' = rows := Option.some.inj (hget'.symm.trans hget)
  intro row hrow
  rw [← heq] at hrow
  exact (List.mem_filter.mp (hperm.mem_iff.mp hrow)).1

end Lip

namespace Star

/--
All dimension tables carry hash tables of their filtered keys.
-/
def HasKeyTables (q : Star) : Prop :=
  ∀ d ∈ q.dims, ∃ t, d.hashTable = some t ∧ ∀ key, (t.lookup key).isSome ↔ key ∈ d.keys

/--
No joining row is lost, whatever the order of the tasks, the size of the batches and the order of the filters
between them are.
-/
def LipKeepsRows (q : Star) : Prop :=
  ∀ tasks hardwareConcurrency sort, IsSchedule q.dims.length tasks → (∀ batch fs, (sort batch fs).Perm fs) →
    ∃ out, Lip.execute q.fact q.dims tasks hardwareConcurrency sort = some out ∧
      out.indices.Nodup ∧ (∀ row, q.Joins row → row ∈ out.indices) ∧
      (q.HasKeyTables → ∀ row ∈ out.indices, q.Joins row) ∧
      List.Forall₂ (fun row chunk => row ∈ q.fact.chunkRows chunk) out.indices out.indexChunks

/--
There are filters, their cells can be counted, and no hash table misses a key of a joining row.
-/
def LipProbes (q : Star) : Prop :=
  q.dims ≠ [] ∧ (∀ d ∈ q.dims, d.pkCol ≠ [] ∧ (d.keys.length * 100 : Int) ≤ Storage.maxInt) ∧
    ∀ row, q.Joins row → ∀ d ∈ q.dims, ∀ t key,
      d.hashTable = some t → q.fact.key d.fkColName row = some key → (t.lookup key).isSome

variable {q : Star}

theorem lip_execute {tasks : List BuildTask} {hardwareConcurrency : Nat}
    {sort : Nat → List LookupFilter → List LookupFilter} (htasks : IsSchedule q.dims.length tasks)
    (hsort : ∀ batch fs, (sort batch fs).Perm fs) (hchunks : 0 < q.fact.chunkLengths.length)
    (hdims : q.dims ≠ [])
    (hbuild : ∀ d ∈ q.dims, d.pkCol ≠ [] ∧ (d.keys.length * 100 : Int) ≤ Storage.maxInt)
    : ∃ lipIndices, Lip.execute q.fact q.dims tasks hardwareConcurrency sort = some (Lip.finish lipIndices) ∧
        lipIndices.length = q.fact.chunkLengths.length ∧
        ∀ i < q.fact.chunkLengths.length,
          Lip.Passed q.fact (q.dims.map Dimension.lookupFilter) i lipIndices := by
  have hinter : Interchangeable .lip q.dims := by
    apply interchangeable_of_nodup q.pkColNames_nodup
    intro d hd
    refine ⟨q.filters_aligned d hd, (hbuild d hd).1, (hbuild d hd).2, ?_⟩
    intro h
    cases h
  obtain ⟨built, hbuilt, hfilters⟩ := BuildState.buildsFilters_of_interchangeable hinter tasks htasks
  refine Lip.execute_eq_some hbuilt ?_ (by simp) ?_ q.fkCol_mem hdims hchunks hsort
  . rw [hfilters, ← Run.mapM_id_map_some, List.map_map]
    rfl
  . intro f hf
    obtain ⟨d, hd, rfl⟩ := List.mem_map.mp hf
    exact q.fkCol_mem d hd

theorem accepts_lookupFilter {d : Dimension} {row : Nat} {key : BitVec 64}
    (hkey : q.fact.key d.fkColName row = some key)
    : q.fact.accepts row d.lookupFilter
        =
      ((BloomFilter.ofValues d.keys).probe key && d.hashTable.all fun t => (t.lookup key).isSome) := by
  rw [Lip.accepts_of_key hkey]
  rfl

theorem accepts_iff_of_joins {row : Nat} (h : q.Joins row) {d : Dimension} (hd : d ∈ q.dims)
    : q.fact.accepts row d.lookupFilter = true ↔
        ∀ t key, d.hashTable = some t → q.fact.key d.fkColName row = some key → (t.lookup key).isSome := by
  obtain ⟨key, hmem, hkey⟩ := h.2 d hd
  rw [accepts_lookupFilter hkey, BloomFilter.probe_ofValues hmem, Bool.true_and, Option.all_eq_true]
  constructor
  . intro hall t key' ht hkey'
    rw [hkey, Option.some.injEq] at hkey'
    rw [← hkey']
    exact hall t ht
  . intro hall t ht
    exact hall t key ht hkey

theorem mem_finish_iff {lipIndices : List (List Nat)}
    (hlength : lipIndices.length = q.fact.chunkLengths.length)
    (h : ∀ i < q.fact.chunkLengths.length,
      Lip.Passed q.fact (q.dims.map Dimension.lookupFilter) i lipIndices) (row : Nat)
    : row ∈ (Lip.finish lipIndices).indices ↔
        row < q.fact.numRows ∧ ∀ d ∈ q.dims, q.fact.accepts row d.lookupFilter = true := by
  have hperm := FactTable.flatten_perm hlength h
  rw [Lip.finish, hperm.mem_iff, List.mem_filter, List.mem_range, List.all_map, List.all_eq_true]
  rfl

theorem lipProbes_of_lipKeepsRows (hchunks : 0 < q.fact.chunkLengths.length) (h : q.LipKeepsRows)
    : q.LipProbes := by
  have hdims : q.dims ≠ [] := by
    intro hnil
    obtain ⟨out, hout, -⟩ := h (buildTasks q.dims.length) 1 (fun _ fs => fs)
      (BuildState.buildTasks_isSchedule _) (fun _ _ => .refl _)
    simp [Lip.execute, hnil] at hout
  have hbuild : ∀ d ∈ q.dims, d.pkCol ≠ [] ∧ (d.keys.length * 100 : Int) ≤ Storage.maxInt := by
    intro d hd
    obtain ⟨i, hget⟩ := List.mem_iff_getElem?.mp hd
    have hi := (List.getElem?_eq_some_iff.mp hget).1
    obtain ⟨out, hout, -⟩ := h _ 1 (fun _ fs => fs) (BuildState.isSchedule_first hi) (fun _ _ => .refl _)
    obtain ⟨built, hbuilt, -⟩ := Option.bind_eq_some_iff.mp hout
    obtain ⟨f, hf⟩ := BuildState.build_eq_some_of_first hget hbuilt
    have := Dimension.of_build_eq_some (q.filters_aligned d hd) hf
    exact ⟨this.1, this.2.1⟩
  refine ⟨hdims, hbuild, ?_⟩
  intro row hrow d hd
  obtain ⟨out, hout, -, hall, -⟩ := h (buildTasks q.dims.length) 1 (fun _ fs => fs)
    (BuildState.buildTasks_isSchedule _) (fun _ _ => .refl _)
  obtain ⟨lipIndices, hlip, hlength, hpassed⟩ := lip_execute (BuildState.buildTasks_isSchedule q.dims.length)
    (fun _ _ => .refl _) hchunks hdims hbuild
  rw [hlip, Option.some.injEq] at hout
  have hmem := hall row hrow
  rw [← hout, mem_finish_iff hlength hpassed] at hmem
  exact (accepts_iff_of_joins hrow hd).mp (hmem.2 d hd)

theorem lipKeepsRows_of_lipProbes (hchunks : 0 < q.fact.chunkLengths.length)
    (hchunks' : q.fact.chunkLengths.length < 2 ^ 16) (h : q.LipProbes)
    : q.LipKeepsRows := by
  obtain ⟨hdims, hbuild, htables⟩ := h
  intro tasks hardwareConcurrency sort htasks hsort
  obtain ⟨lipIndices, hlip, hlength, hpassed⟩ := lip_execute htasks hsort hchunks hdims hbuild
  refine ⟨_, hlip, ?_, ?_, ?_, ?_⟩
  . exact (FactTable.flatten_perm hlength hpassed).nodup_iff.mpr (List.nodup_range.filter _)
  . intro row hrow
    rw [mem_finish_iff hlength hpassed]
    refine ⟨hrow.1, ?_⟩
    intro d hd
    exact (accepts_iff_of_joins hrow hd).mpr (htables row hrow d hd)
  . intro hkeys row hrow
    rw [mem_finish_iff hlength hpassed] at hrow
    refine ⟨hrow.1, ?_⟩
    intro d hd
    obtain ⟨t, ht, hmem⟩ := hkeys d hd
    have haccepts := hrow.2 d hd
    cases hkey : q.fact.key d.fkColName row with
    | none =>
      have : q.fact.key d.lookupFilter.fkName row = none := hkey
      simp [FactTable.accepts, this] at haccepts
    | some key =>
      rw [accepts_lookupFilter hkey, Bool.and_eq_true, ht, Option.all_some] at haccepts
      exact ⟨key, (hmem key).mp haccepts.2, rfl⟩
  . apply Lip.forall₂_indexChunks
    intro i rows hget row hrow
    have hi := (List.getElem?_eq_some_iff.mp hget).1
    rw [Nat.zero_add, Nat.mod_eq_of_lt (by omega)]
    exact Lip.mem_chunkRows_of_passed (hpassed i (by omega)) hget row hrow

/--
The first dimension table has a hash table and a filter, which removes the key of the row 2 of the fact table.
-/
def chunked : Star where
  fact := FactTable.ofKeys [[0, 1], [2, 1]] [[5, 6], [5, 6]] (some [[true, false], [true, true]]) rfl (by decide)
  dims := [⟨"pa", [[0, 2], [1]], some [[true, false], [true]],
    some (HashTable.push (HashTable.push ∅ (⟨0, 0⟩, 0)) (⟨2, 1⟩, 1)), "a"⟩, ⟨"pb", [[6, 5]], none, none, "b"⟩]
  fkCol_mem := by
    intro d hd
    rw [List.mem_pair] at hd
    rcases hd with rfl | rfl
    . exact ⟨_, rfl⟩
    . exact ⟨_, rfl⟩
  pkColNames_nodup := by decide
  filters_aligned := by decide

def ofKeys (keys : List (BitVec 64)) : Star where
  fact := {
    chunkLengths := [1]
    columns := (∅ : Map _ _).insert "fk" [[0]]
    filter := none
    columns_aligned := by
      intro name col h
      rw [Map.lookup_insert_eq] at h
      split at h
      . cases h
        rfl
      . cases h
    filter_aligned := by
      intro f hf
      cases hf
  }
  dims := [⟨"pk", [keys], none, none, "fk"⟩]
  fkCol_mem := by
    intro d hd
    rw [List.mem_singleton] at hd
    rw [hd]
    exact ⟨[[0]], rfl⟩
  pkColNames_nodup := by simp
  filters_aligned := by
    intro d hd
    rw [List.mem_singleton] at hd
    rw [hd]
    exact aligned_none _

theorem ofKeys_chunks_pos (keys : List (BitVec 64)) : 0 < (ofKeys keys).fact.chunkLengths.length :=
  Nat.one_pos

end Star

end Hustle.Operators
