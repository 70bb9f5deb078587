import Hustle.Operators.Lip
import Hustle.Operators.LazyTable

/-!
This module contains the operator that joins the fact table with its dimension tables while it probes their
filters. The row that was found in a dimension table is remembered beside every row of the fact table that is
left, and both are exchanged together when a later filter removes a row.
-/

namespace Hustle.Operators

structure LookupFilterJoin where
  filter : LookupFilter
  /-- for each chunk of the fact table the rows of the dimension table -/
  indices : List (List Nat)

/--
The row of the dimension table that a key is joined with. It fails without a hash table, and if the key is
not unique.
-/
def LookupFilter.findRow (f : LookupFilter) (key : BitVec 64) : Option (Option Nat) := do
  let t ← f.hashTable
  if f.bloomFilter.probe key then
    match t.lookup key with
    | none => return none
    | some [id] => return some id.index
    | some _ => none
  else
    return none

namespace FilterJoin

structure State where
  lipIndices : List (List Nat)
  dimFilters : List LookupFilterJoin

structure Output where
  factIndices : List Nat
  dimIndices : List (List Nat)
  deriving DecidableEq, Repr

/--
`indices`, `prev_dim_indices` and `dim_indices` of one task.
-/
structure ProbeRows where
  indices : List Nat
  prevDimIndices : List (List Nat)
  dimIndices : List Nat

def scanRows (find : BitVec 64 → Option (Option Nat)) : List (BitVec 64 × Nat) → Option (List (Nat × Nat))
  | [] => some []
  | (key, row) :: rows => do
    let found ← find key
    let rest ← scanRows find rows
    match found with
    | some idx => return (row, idx) :: rest
    | none => return rest

/--
The loop of the other filters. The first `k` rows are joined and the next ones are still to be probed, a row
that is not found leaves the list together with the rows of the filters before.
-/
def probeRows (find : Nat → Option (Option Nat)) (rows : ProbeRows) (k : Nat) : Nat → Option ProbeRows
  | 0 => some ⟨rows.indices.take k, rows.prevDimIndices.map (List.take k), rows.dimIndices⟩
  | n + 1 => do
    let row ← rows.indices[k]?
    match ← find row with
    | some idx => probeRows find { rows with dimIndices := rows.dimIndices ++ [idx] } (k + 1) n
    | none =>
      let prevDimIndices := rows.prevDimIndices.map fun prev => Buffer.swap prev k (k + n)
      probeRows find ⟨Buffer.swap rows.indices k (k + n), prevDimIndices, rows.dimIndices⟩ k n

def storeRows (chunkI : Nat) : List (List Nat) → List LookupFilterJoin → List LookupFilterJoin
  | rows :: rest, f :: fs => { f with indices := f.indices.set chunkI rows } :: storeRows chunkI rest fs
  | _, fs => fs

def probeChunk (fact : FactTable) (offsets : List Nat) (filterJ : Nat) (s : State) (chunkI : Nat)
    : Option State := do
  let f ← s.dimFilters[filterJ]?
  let col ← fact.columns.lookup f.filter.fkName
  let chunk ← col[chunkI]?
  let offset ← offsets[chunkI]?
  if filterJ = 0 then
    let rows ← scanRows f.filter.findRow (chunk.zipIdx offset)
    return ⟨s.lipIndices.set chunkI (rows.map Prod.fst), storeRows chunkI [rows.map Prod.snd] s.dimFilters⟩
  else
    let indices ← s.lipIndices[chunkI]?
    let prevDimIndices ← (s.dimFilters.take filterJ).mapM fun prev => prev.indices[chunkI]?
    let rows ← probeRows (fun row => (chunkValue chunk offset row).bind f.filter.findRow)
      ⟨indices, prevDimIndices, []⟩ 0 indices.length
    return ⟨s.lipIndices.set chunkI rows.indices,
      storeRows chunkI (rows.prevDimIndices ++ [rows.dimIndices]) s.dimFilters⟩

/--
The hit counts are never updated, so that all hit rates are equal and every permutation is sorted.
-/
def probeBatch (fact : FactTable) (offsets : List Nat) (size numChunks numDims : Nat)
    (sort : Nat → List LookupFilterJoin → List LookupFilterJoin) (s : State) (batch : Nat) : Option State := do
  let s ← (List.range numDims).foldlM
    (fun s j => (batchChunks size numChunks batch).foldlM (probeChunk fact offsets j) s) s
  return { s with dimFilters := sort batch s.dimFilters }

/--
The rows of the filter at a position become the rows of the dimension table at the position.
-/
def finish (s : State) : Output where
  factIndices := s.lipIndices.flatten
  dimIndices := s.dimFilters.map fun f => f.indices.flatten

def execute (fact : FactTable) (dims : List Dimension) (tasks : List BuildTask) (parallelism : Nat)
    (sort : Nat → List LookupFilterJoin → List LookupFilterJoin) : Option Output := do
  let built ← tasks.foldlM (BuildState.step .filterJoin dims) (.init dims)
  let filters ← built.dimFilters.mapM id
  let d ← dims[0]?
  let factCol ← fact.columns.lookup d.fkColName
  let offsets ← chunkRowOffsets factCol
  let size := batchSize parallelism factCol.length
  let dimFilters := filters.map fun f => ⟨f, List.replicate factCol.length []⟩
  let s ← (List.range (numBatches size factCol.length)).foldlM
    (probeBatch fact offsets size factCol.length dims.length sort)
    ⟨List.replicate factCol.length [], dimFilters⟩
  return finish s

/--
The `k`-th entries of all index arrays.
-/
def Output.tuples (out : Output) : List (Nat × List Nat) :=
  (List.range out.factIndices.length).map fun k =>
    (out.factIndices.getD k 0, out.dimIndices.map fun rows => rows.getD k 0)

end FilterJoin

/--
The row of the dimension table of a filter that a row of the fact table is joined with.
-/
def FactTable.joinedRow (fact : FactTable) (row : Nat) (f : LookupFilter) : Option Nat :=
  (fact.key f.fkName row).bind fun key => (f.findRow key).join

namespace FilterJoin

variable {fact : FactTable}

theorem scanRows_eq_some {find : BitVec 64 → Option (Option Nat)} {chunk : List (BitVec 64)} {offset : Nat}
    {m : Nat → Option Nat} (h : ∀ k (hk : k < chunk.length), find chunk[k] = some (m (offset + k)))
    : scanRows find (chunk.zipIdx offset)
        =
      some (((List.range' offset chunk.length).filter fun row => (m row).isSome).map
        fun row => (row, (m row).getD 0)) := by
  induction chunk generalizing offset with
  | nil => rfl
  | cons v chunk ih =>
    have hhead := h 0 (by simp)
    have htail := @ih (offset + 1) (by
      intro k hk
      have := h (k + 1) (by simpa using hk)
      rw [List.getElem_cons_succ] at this
      rw [this]
      congr 2
      omega)
    rw [List.getElem_cons_zero, Nat.add_zero] at hhead
    simp only [List.zipIdx_cons, scanRows, hhead, htail, Option.bind_eq_bind, Option.bind_some,
      List.length_cons, List.range'_succ, List.filter_cons]
    cases hm : m offset with
    | none => simp
    | some idx => simp [hm]

/--
The lists of the filters before stay in step with the list of rows.
-/
theorem probeRows_eq_some {find : Nat → Option (Option Nat)} {m : Nat → Option Nat} {indices : List Nat}
    {gs : List (Nat → Nat)} {k n : Nat} (hlen : k + n ≤ indices.length)
    (hfind : ∀ row ∈ indices, find row = some (m row))
    (hfront : ∀ row ∈ indices.take k, (m row).isSome = true)
    (hback : ∀ row ∈ indices.drop (k + n), (m row).isSome = false)
    : ∃ out, probeRows find
          ⟨indices, gs.map fun g => indices.map g, (indices.take k).map fun row => (m row).getD 0⟩ k n
            =
          some ⟨out, gs.map fun g => out.map g, out.map fun row => (m row).getD 0⟩ ∧
        out.Perm (indices.filter fun row => (m row).isSome) := by
  induction n generalizing indices k with
  | zero =>
    refine ⟨indices.take k, ?_, ?_⟩
    . simp [probeRows, Function.comp_def, List.map_take]
    . obtain ⟨out, hout, hperm⟩ := @Buffer.retain_perm Nat (fun row => some (m row).isSome)
        (fun row => (m row).isSome) indices k 0 hlen (fun _ _ => rfl) hfront hback
      cases hout
      exact hperm
  | succ n ih =>
    have hk : k < indices.length := by omega
    have hrow := List.getElem?_eq_getElem hk
    simp only [probeRows, hrow, hfind _ (List.getElem_mem hk), Option.bind_eq_bind, Option.bind_some]
    cases hm : m indices[k] with
    | some idx =>
      have htake : indices.take (k + 1) = indices.take k ++ [indices[k]] := by
        rw [List.take_succ_eq_append_getElem hk]
      have hnext := @ih indices (k + 1) (by omega) hfind (by
        intro row hmem
        rw [htake, List.mem_append, List.mem_singleton] at hmem
        rcases hmem with hmem | rfl
        . exact hfront row hmem
        . rw [hm]
          rfl) (by
        rw [Nat.add_right_comm, Nat.add_assoc]
        exact hback)
      rw [htake, List.map_append, List.map_singleton, hm, Option.getD_some] at hnext
      exact hnext
    | none =>
      have hperm := Buffer.swap_perm indices k (k + n)
      obtain ⟨out, hout, hres⟩ := @ih (Buffer.swap indices k (k + n)) k
        (by rw [Buffer.length_swap]; omega)
        (fun row hmem => hfind row (hperm.mem_iff.mp hmem))
        (by rw [Buffer.take_swap indices (by omega)]; exact hfront)
        (by
          rw [Buffer.drop_swap hrow (by omega) (by omega)]
          intro row hmem
          rcases List.mem_cons.mp hmem with rfl | hmem
          . rw [hm]
            rfl
          . exact hback row hmem)
      refine ⟨out, ?_, hres.trans (hperm.filter _)⟩
      rw [Buffer.take_swap indices (by omega)] at hout
      rw [← hout]
      simp only [List.map_map, Function.comp_def, Buffer.swap_map]

/-! One task. -/

theorem getElem?_storeRows (chunkI : Nat) (rows : List (List Nat)) (fs : List LookupFilterJoin) (p : Nat)
    : (storeRows chunkI rows fs)[p]?
        =
      fs[p]?.map fun f =>
        match rows[p]? with
        | some r => { f with indices := f.indices.set chunkI r }
        | none => f := by
  induction rows, fs using storeRows.induct generalizing p with
  | case1 r rows f fs ih =>
    cases p with
    | zero => rfl
    | succ p => simpa [storeRows] using ih p
  | case2 rows fs hne =>
    rw [storeRows.eq_def]
    cases rows with
    | nil => simp
    | cons r rows =>
      cases fs with
      | nil => simp
      | cons f fs => exact absurd rfl (hne r rows f fs rfl)

theorem storeRows_map_filter (chunkI : Nat) (rows : List (List Nat)) (fs : List LookupFilterJoin)
    : (storeRows chunkI rows fs).map LookupFilterJoin.filter = fs.map LookupFilterJoin.filter := by
  apply List.ext_getElem?
  intro p
  rw [List.getElem?_map, List.getElem?_map, getElem?_storeRows]
  cases fs[p]? with
  | none => rfl
  | some f =>
    simp only [Option.map_some, Option.some.injEq]
    split <;> rfl

def joined (fact : FactTable) (f : LookupFilter) (row : Nat) : Nat :=
  (fact.joinedRow row f).getD 0

def foundBy (fact : FactTable) (fs : List LookupFilter) (row : Nat) : Bool :=
  fs.all fun f => (fact.joinedRow row f).isSome

structure Shaped (fact : FactTable) (fs : List LookupFilter) (s : State) : Prop where
  filters : s.dimFilters.map LookupFilterJoin.filter = fs
  lipIndices_length : s.lipIndices.length = fact.chunkLengths.length
  indices_length : ∀ f ∈ s.dimFilters, f.indices.length = fact.chunkLengths.length

/--
What holds for a chunk that has been probed with the first `j` filters: the rows that they find are left, and
beside them the filters have the rows of the dimension tables.
-/
def Joined (fact : FactTable) (fs : List LookupFilter) (j chunkI : Nat) (s : State) : Prop :=
  0 < j → ∃ rows, s.lipIndices[chunkI]? = some rows ∧
    rows.Perm ((fact.chunkRows chunkI).filter (foundBy fact (fs.take j))) ∧
    ∀ p < j, ∀ f, s.dimFilters[p]? = some f → f.indices[chunkI]? = some (rows.map (joined fact f.filter))

variable {fs : List LookupFilter} {s : State} {j i : Nat}

theorem Shaped.store (h : Shaped fact fs s) {rows : List Nat} {stored : List (List Nat)}
    : Shaped fact fs ⟨s.lipIndices.set i rows, storeRows i stored s.dimFilters⟩ where
  filters := by rw [storeRows_map_filter]; exact h.filters
  lipIndices_length := by rw [List.length_set]; exact h.lipIndices_length
  indices_length := by
    intro f hf
    obtain ⟨p, hp⟩ := List.mem_iff_getElem?.mp hf
    rw [getElem?_storeRows] at hp
    obtain ⟨g, hg, rfl⟩ := Option.map_eq_some_iff.mp hp
    have := h.indices_length g (List.mem_of_getElem? hg)
    split
    . rw [List.length_set]
      exact this
    . exact this

theorem Shaped.filter_eq (h : Shaped fact fs s) {p : Nat} {f : LookupFilterJoin} (hf : s.dimFilters[p]? = some f)
    : fs[p]? = some f.filter := by
  rw [← h.filters, List.getElem?_map, hf, Option.map_some]

theorem Shaped.joined_store (h : Shaped fact fs s) (hi : i < fact.chunkLengths.length) {rows : List Nat}
    (hrows : rows.Perm ((fact.chunkRows i).filter (foundBy fact (fs.take (j + 1)))))
    : Joined fact fs (j + 1) i
        ⟨s.lipIndices.set i rows, storeRows i ((fs.take (j + 1)).map fun f => rows.map (joined fact f)) s.dimFilters⟩ := by
  intro _
  have hlength := h.lipIndices_length
  refine ⟨rows, List.getElem?_set_self (by omega), hrows, ?_⟩
  intro p hp f hf
  rw [getElem?_storeRows] at hf
  obtain ⟨g, hg, rfl⟩ := Option.map_eq_some_iff.mp hf
  have hlen := h.indices_length g (List.mem_of_getElem? hg)
  have hstored : ((fs.take (j + 1)).map fun f => rows.map (joined fact f))[p]?
      = some (rows.map (joined fact g.filter)) := by
    rw [List.getElem?_map, List.getElem?_take_of_lt hp, h.filter_eq hg, Option.map_some]
  rw [hstored]
  exact List.getElem?_set_self (by omega)

theorem Joined.store {rows : List Nat} {stored : List (List Nat)} {i' k : Nat} (hne : i' ≠ i)
    (h : Joined fact fs k i' s)
    : Joined fact fs k i' ⟨s.lipIndices.set i rows, storeRows i stored s.dimFilters⟩ := by
  intro hk
  obtain ⟨rows', hget, hperm, hdims⟩ := h hk
  refine ⟨rows', ?_, hperm, ?_⟩
  . dsimp only
    rw [List.getElem?_set_ne (Ne.symm hne)]
    exact hget
  . intro p hp f hf
    rw [getElem?_storeRows] at hf
    obtain ⟨g, hg, rfl⟩ := Option.map_eq_some_iff.mp hf
    have := hdims p hp g hg
    split
    . dsimp only
      rw [List.getElem?_set_ne (Ne.symm hne)]
      exact this
    . exact this

theorem foundBy_take_succ {f : LookupFilter} (hf : fs[j]? = some f) (row : Nat)
    : foundBy fact (fs.take (j + 1)) row
        =
      (foundBy fact (fs.take j) row && (fact.joinedRow row f).isSome) := by
  rw [foundBy, List.take_add_one, hf, List.all_append]
  simp [foundBy]

/--
The spec of one task.
-/
theorem probeChunk_joined {offsets : List Nat}
    (hoffsets : ∀ i < fact.chunkLengths.length, offsets[i]? = some (fact.chunkLengths.take i).sum)
    (hcols : ∀ f ∈ fs, ∃ col, fact.columns.lookup f.fkName = some col)
    (hfind : ∀ f ∈ fs, ∀ key, ∃ m, f.findRow key = some m)
    (hs : Shaped fact fs s) (hj : j < fs.length) (hi : i < fact.chunkLengths.length) (h : Joined fact fs j i s)
    : ∃ s', probeChunk fact offsets j s i = some s' ∧ Shaped fact fs s' ∧ Joined fact fs (j + 1) i s' ∧
        ∀ i' k, i' ≠ i → Joined fact fs k i' s → Joined fact fs k i' s' := by
  have hlength : s.dimFilters.length = fs.length := by rw [← hs.filters, List.length_map]
  have hf := List.getElem?_eq_getElem (show j < s.dimFilters.length by omega)
  generalize s.dimFilters[j] = f at hf
  have hfs := hs.filter_eq hf
  have hmem := List.mem_of_getElem? hfs
  obtain ⟨col, hcol⟩ := hcols f.filter hmem
  obtain ⟨chunk, hchunk, hlen⟩ := FactTable.getElem?_chunk hcol hi
  have hvalue : ∀ row ∈ fact.chunkRows i,
      (chunkValue chunk (fact.chunkLengths.take i).sum row).bind f.filter.findRow
        = some (fact.joinedRow row f.filter) := by
    intro row hrow
    obtain ⟨hvalue, key, hkey⟩ := FactTable.chunkValue_eq_key hcol hchunk hlen hrow
    obtain ⟨m, hm⟩ := hfind f.filter hmem key
    rw [hvalue, FactTable.joinedRow, hkey, Option.bind_some, Option.bind_some, hm, Option.join_some]
  simp only [probeChunk, hf, hcol, hchunk, hoffsets i hi, Option.bind_eq_bind, Option.bind_some]
  split
  . next hzero =>
    subst hzero
    have hscan := @scanRows_eq_some f.filter.findRow chunk (fact.chunkLengths.take i).sum
      (fun row => fact.joinedRow row f.filter) (by
        intro k hk
        have := hvalue ((fact.chunkLengths.take i).sum + k) (by
          rw [FactTable.chunkRows, List.mem_range'_1, ← hlen]
          omega)
        rw [chunkValue, if_pos (by omega), Nat.add_sub_cancel_left, List.getElem?_eq_getElem hk,
          Option.bind_some] at this
        exact this)
    have htake : fs.take 1 = [f.filter] := by
      rw [List.take_add_one, hfs]
      simp
    have hrows := hs.joined_store (j := 0) hi (.refl _)
    rw [hscan, Option.bind_some]
    refine ⟨_, rfl, hs.store, ?_, fun i' k hne h => h.store hne⟩
    have hfound : foundBy fact [f.filter] = fun row => (fact.joinedRow row f.filter).isSome := by
      funext row
      simp [foundBy]
    rw [htake, hfound] at hrows
    simp only [List.map_map, Function.comp_def, List.map_id', hlen]
    exact hrows
  . next hpos =>
    obtain ⟨rows, hget, hperm, hdims⟩ := h (by omega)
    have hrowMem : ∀ row ∈ rows, row ∈ fact.chunkRows i := by
      intro row hrow
      exact (List.mem_filter.mp (hperm.mem_iff.mp hrow)).1
    -- the lists of the filters before
    have hprev : (s.dimFilters.take j).mapM (fun prev => prev.indices[i]?)
        = some (((fs.take j).map (joined fact)).map fun g => rows.map g) := by
      have hmap := @Run.mapM_eq_some _ _ (fun prev : LookupFilterJoin => prev.indices[i]?)
        (fun prev => rows.map (joined fact prev.filter)) (s.dimFilters.take j) (by
          intro prev hprev
          obtain ⟨p, hp⟩ := List.mem_iff_getElem?.mp hprev
          have hpj : p < j := by
            have := (List.getElem?_eq_some_iff.mp hp).1
            rw [List.length_take] at this
            omega
          rw [List.getElem?_take_of_lt hpj] at hp
          exact hdims p hpj prev hp)
      rw [hmap, ← hs.filters, ← List.map_take]
      simp only [List.map_map, Function.comp_def]
    obtain ⟨out, hout, houtPerm⟩ := @probeRows_eq_some
      (fun row => (chunkValue chunk (fact.chunkLengths.take i).sum row).bind f.filter.findRow)
      (fun row => fact.joinedRow row f.filter) rows ((fs.take j).map (joined fact)) 0 rows.length (by omega)
      (fun row hrow => hvalue row (hrowMem row hrow)) (by simp) (by simp)
    rw [List.take_zero, List.map_nil] at hout
    simp only [hget, hprev, hout, Option.bind_some]
    refine ⟨_, rfl, hs.store, ?_, fun i' k hne h => h.store hne⟩
    have hfound : foundBy fact (fs.take (j + 1))
        = fun row => (fact.joinedRow row f.filter).isSome && foundBy fact (fs.take j) row := by
      funext row
      rw [foundBy_take_succ hfs, Bool.and_comm]
    have hrows := @Shaped.joined_store _ _ _ j _ hs hi out (by
      rw [hfound, ← List.filter_filter]
      exact houtPerm.trans (hperm.filter _))
    rw [List.take_add_one, hfs, List.map_append] at hrows
    simp only [List.map_map, Function.comp_def]
    exact hrows

/-! Batches and the whole run. -/

/--
What holds for a chunk that has been probed with all filters, in whatever order they are.
-/
def Complete (fact : FactTable) (fs : List LookupFilter) (chunkI : Nat) (s : State) : Prop :=
  ∃ rows, s.lipIndices[chunkI]? = some rows ∧
    rows.Perm ((fact.chunkRows chunkI).filter (foundBy fact fs)) ∧
    ∀ f ∈ s.dimFilters, f.indices[chunkI]? = some (rows.map (joined fact f.filter))

theorem foundBy_of_perm {fs' : List LookupFilter} (h : fs.Perm fs') : foundBy fact fs = foundBy fact fs' := by
  funext row
  rw [Bool.eq_iff_iff, foundBy, foundBy, List.all_eq_true, List.all_eq_true]
  constructor
  . intro hall f hf
    exact hall f (h.mem_iff.mpr hf)
  . intro hall f hf
    exact hall f (h.mem_iff.mp hf)

theorem Complete.of_perm {fs' : List LookupFilter} {s' : State} (h : Complete fact fs i s) (hfs : fs.Perm fs')
    (hlip : s'.lipIndices = s.lipIndices) (hdims : s'.dimFilters.Perm s.dimFilters)
    : Complete fact fs' i s' := by
  obtain ⟨rows, hget, hperm, hindices⟩ := h
  refine ⟨rows, by rw [hlip]; exact hget, by rw [← foundBy_of_perm hfs]; exact hperm, ?_⟩
  intro f hf
  exact hindices f (hdims.mem_iff.mp hf)

theorem Shaped.complete_iff (h : Shaped fact fs s) (hfs : 0 < fs.length)
    : Complete fact fs i s ↔ Joined fact fs fs.length i s := by
  have hlength : s.dimFilters.length = fs.length := by rw [← h.filters, List.length_map]
  constructor
  . rintro ⟨rows, hget, hperm, hindices⟩ _
    refine ⟨rows, hget, by rw [List.take_length]; exact hperm, ?_⟩
    intro p _ f hf
    exact hindices f (List.mem_of_getElem? hf)
  . intro hj
    obtain ⟨rows, hget, hperm, hindices⟩ := hj hfs
    rw [List.take_length] at hperm
    refine ⟨rows, hget, hperm, ?_⟩
    intro f hf
    obtain ⟨p, hp⟩ := List.mem_iff_getElem?.mp hf
    have := (List.getElem?_eq_some_iff.mp hp).1
    exact hindices p (by omega) f hp

theorem probeBatch_joined {offsets : List Nat} {size batch : Nat}
    {sort : Nat → List LookupFilterJoin → List LookupFilterJoin}
    (hoffsets : ∀ i < fact.chunkLengths.length, offsets[i]? = some (fact.chunkLengths.take i).sum)
    (hcols : ∀ f ∈ fs, ∃ col, fact.columns.lookup f.fkName = some col)
    (hfind : ∀ f ∈ fs, ∀ key, ∃ m, f.findRow key = some m)
    (hsize : 0 < size) (hfs : 0 < fs.length) (hs : Shaped fact fs s)
    : ∃ s', probeBatch fact offsets size fact.chunkLengths.length fs.length sort s batch
            =
          some { s' with dimFilters := sort batch s'.dimFilters } ∧
        Shaped fact fs s' ∧
        (∀ i ∈ batchChunks size fact.chunkLengths.length batch, Complete fact fs i s') ∧
        ∀ i, i ∉ batchChunks size fact.chunkLengths.length batch → Complete fact fs i s → Complete fact fs i s' := by
  obtain ⟨s', hs', hinv', hjoined, hkeep⟩ :=
    Run.foldlM_stages (n := fs.length) (batchChunks_nodup size fact.chunkLengths.length batch)
      (P := Joined fact fs)
      (fun t j i hj hi ht => probeChunk_joined hoffsets hcols hfind ht hj ((mem_batchChunks hsize).mp hi).2.2)
      hs (fun i _ h => absurd h (Nat.lt_irrefl 0))
  refine ⟨s', ?_, hinv', ?_, ?_⟩
  . rw [probeBatch, hs']
    rfl
  . intro i hi
    exact (hinv'.complete_iff hfs).mpr (hjoined i hi)
  . intro i hi h
    exact (hinv'.complete_iff hfs).mpr (hkeep i _ hi ((hs.complete_iff hfs).mp h))

theorem Shaped.sort {s' : State} (h : Shaped fact fs s) (hlip : s'.lipIndices = s.lipIndices)
    (hdims : s'.dimFilters.Perm s.dimFilters)
    : Shaped fact (s'.dimFilters.map LookupFilterJoin.filter) s' where
  filters := rfl
  lipIndices_length := by rw [hlip]; exact h.lipIndices_length
  indices_length := by
    intro f hf
    exact h.indices_length f (hdims.mem_iff.mp hf)

structure Starts (fact : FactTable) (dims : List Dimension) (tasks : List BuildTask) (fs : List LookupFilter)
    : Prop where
  filters : ∃ built, tasks.foldlM (BuildState.step .filterJoin dims) (.init dims) = some built ∧
    built.dimFilters.mapM id = some fs
  filters_length : fs.length = dims.length
  columns : ∀ f ∈ fs, ∃ col, fact.columns.lookup f.fkName = some col
  fkCols : ∀ d ∈ dims, ∃ col, fact.columns.lookup d.fkColName = some col
  finds : ∀ f ∈ fs, ∀ key, ∃ m, f.findRow key = some m
  dims_ne_nil : dims ≠ []
  chunks_pos : 0 < fact.chunkLengths.length

variable {dims : List Dimension} {tasks : List BuildTask}

def start (fact : FactTable) (fs : List LookupFilter) : State where
  lipIndices := List.replicate fact.chunkLengths.length []
  dimFilters := fs.map fun f => ⟨f, List.replicate fact.chunkLengths.length []⟩

theorem start_shaped (fact : FactTable) (fs : List LookupFilter) : Shaped fact fs (start fact fs) where
  filters := by simp [start, Function.comp_def]
  lipIndices_length := by simp [start]
  indices_length := by
    intro f hf
    obtain ⟨g, -, rfl⟩ := List.mem_map.mp hf
    simp

theorem Starts.execute_eq (h : Starts fact dims tasks fs) (parallelism : Nat)
    (sort : Nat → List LookupFilterJoin → List LookupFilterJoin)
    : ∃ offsets, (∀ i < fact.chunkLengths.length, offsets[i]? = some (fact.chunkLengths.take i).sum) ∧
        execute fact dims tasks parallelism sort
          =
        ((List.range (numBatches (batchSize parallelism fact.chunkLengths.length)
            fact.chunkLengths.length)).foldlM
          (probeBatch fact offsets (batchSize parallelism fact.chunkLengths.length)
            fact.chunkLengths.length fs.length sort) (start fact fs)).map finish := by
  have hpos : 0 < dims.length := List.length_pos_iff.mpr h.dims_ne_nil
  have hd := List.getElem?_eq_getElem hpos
  obtain ⟨built, hbuilt, hfs⟩ := h.filters
  obtain ⟨col, hcol⟩ := h.fkCols dims[0] (List.getElem_mem hpos)
  have hlen := FactTable.length_eq_of_lookup hcol
  obtain ⟨offsets, hoffsets, hget⟩ := Lip.offsets_of_lookup hcol h.chunks_pos
  refine ⟨offsets, hget, ?_⟩
  simp only [execute, hbuilt, hfs, hd, hcol, hoffsets, hlen, h.filters_length, Option.bind_eq_bind,
    Option.bind_some, start, Option.map_eq_bind]
  rfl

def Permuted (fact : FactTable) (fs : List LookupFilter) (s : State) : Prop :=
  Shaped fact (s.dimFilters.map LookupFilterJoin.filter) s ∧ (s.dimFilters.map LookupFilterJoin.filter).Perm fs

theorem Starts.filters_pos (h : Starts fact dims tasks fs) : 0 < fs.length := by
  rw [h.filters_length]
  exact List.length_pos_iff.mpr h.dims_ne_nil

theorem Starts.probeBatch_complete (h : Starts fact dims tasks fs) {offsets : List Nat}
    (hoffsets : ∀ i < fact.chunkLengths.length, offsets[i]? = some (fact.chunkLengths.take i).sum)
    {sort : Nat → List LookupFilterJoin → List LookupFilterJoin} (hsort : ∀ batch fs, (sort batch fs).Perm fs)
    {size : Nat} (hsize : 0 < size) (s : State) (batch : Nat) (hs : Permuted fact fs s)
    : ∃ s', probeBatch fact offsets size fact.chunkLengths.length fs.length sort s batch = some s' ∧
        Permuted fact fs s' ∧
        (∀ i ∈ batchChunks size fact.chunkLengths.length batch, Complete fact fs i s') ∧
        ∀ i, i ∉ batchChunks size fact.chunkLengths.length batch → Complete fact fs i s → Complete fact fs i s' := by
  obtain ⟨hshaped, hperm⟩ := hs
  obtain ⟨s', hs', hshaped', hnew, hkeep⟩ := @probeBatch_joined fact _ s offsets size batch sort hoffsets
    (fun f hf => h.columns f (hperm.mem_iff.mp hf)) (fun f hf => h.finds f (hperm.mem_iff.mp hf)) hsize
    (by rw [hperm.length_eq]; exact h.filters_pos) hshaped
  rw [hperm.length_eq] at hs'
  have hsorted := hsort batch s'.dimFilters
  refine ⟨_, hs', ⟨hshaped'.sort rfl hsorted, ?_⟩, ?_, ?_⟩
  . apply (hsorted.map _).trans
    rw [hshaped'.filters]
    exact hperm
  . intro i hi
    exact (hnew i hi).of_perm hperm rfl hsorted
  . intro i hi hc
    exact (hkeep i hi (hc.of_perm hperm.symm rfl (.refl _))).of_perm hperm rfl hsorted

theorem Starts.execute_eq_some (h : Starts fact dims tasks fs) (parallelism : Nat)
    {sort : Nat → List LookupFilterJoin → List LookupFilterJoin} (hsort : ∀ batch fs, (sort batch fs).Perm fs)
    : ∃ s, execute fact dims tasks parallelism sort = some (finish s) ∧ Permuted fact fs s ∧
        ∀ i < fact.chunkLengths.length, Complete fact fs i s := by
  obtain ⟨offsets, hget, heq⟩ := h.execute_eq parallelism sort
  have hsize := batchSize_pos h.chunks_pos parallelism
  have hstart : Permuted fact fs (start fact fs) := by
    have hshaped := start_shaped fact fs
    unfold Permuted
    rw [hshaped.filters]
    exact ⟨hshaped, .refl _⟩
  obtain ⟨s, hs, hinv, hcomplete⟩ := foldlM_batches hsize (h.probeBatch_complete hget hsort hsize) hstart
  refine ⟨s, ?_, hinv, hcomplete⟩
  rw [heq, hs, Option.map_some]

theorem Starts.execute_single (h : Starts fact dims tasks fs)
    (sort : Nat → List LookupFilterJoin → List LookupFilterJoin)
    : ∃ s, execute fact dims tasks (fact.chunkLengths.length + 1) sort
            =
          some (finish { s with dimFilters := sort 0 s.dimFilters }) ∧
        Shaped fact fs s ∧ ∀ i < fact.chunkLengths.length, Complete fact fs i s := by
  obtain ⟨offsets, hget, heq⟩ := h.execute_eq (fact.chunkLengths.length + 1) sort
  have hsize : batchSize (fact.chunkLengths.length + 1) fact.chunkLengths.length
      = fact.chunkLengths.length + 1 := by
    simp [batchSize]
  have hbatches : numBatches (fact.chunkLengths.length + 1) fact.chunkLengths.length = 1 := by
    simp [numBatches]
  obtain ⟨s, hs, hshaped, hnew, -⟩ := @probeBatch_joined fact fs (start fact fs) offsets
    (fact.chunkLengths.length + 1) 0 sort hget h.columns h.finds (by omega) h.filters_pos (start_shaped fact fs)
  refine ⟨s, ?_, hshaped, ?_⟩
  . rw [heq, hsize, hbatches]
    simp [hs]
  . intro i hi
    apply hnew
    rw [mem_batchChunks (by omega)]
    omega

/-! The output. -/

theorem Complete.flatten_perm (h : ∀ i < fact.chunkLengths.length, Complete fact fs i s)
    (hlength : s.lipIndices.length = fact.chunkLengths.length)
    : s.lipIndices.flatten.Perm ((List.range fact.numRows).filter (foundBy fact fs)) := by
  apply FactTable.flatten_perm hlength
  intro i hi
  obtain ⟨rows, hget, hperm, -⟩ := h i hi
  exact ⟨rows, hget, hperm⟩

theorem Complete.indices_eq (h : ∀ i < fact.chunkLengths.length, Complete fact fs i s)
    (hlength : s.lipIndices.length = fact.chunkLengths.length) {f : LookupFilterJoin} (hf : f ∈ s.dimFilters)
    (hlen : f.indices.length = fact.chunkLengths.length)
    : f.indices.flatten = s.lipIndices.flatten.map (joined fact f.filter) := by
  have heq : f.indices = s.lipIndices.map (List.map (joined fact f.filter)) := by
    apply List.ext_getElem?
    intro i
    rw [List.getElem?_map]
    by_cases hi : i < fact.chunkLengths.length
    . obtain ⟨rows, hget, -, hindices⟩ := h i hi
      rw [hindices f hf, hget, Option.map_some]
    . rw [List.getElem?_eq_none (by omega), List.getElem?_eq_none (by omega), Option.map_none]
  rw [heq, List.map_flatten]

theorem Complete.finish_eq {order : List LookupFilter} (hs : Shaped fact order s)
    (h : ∀ i < fact.chunkLengths.length, Complete fact fs i s)
    : finish s = ⟨s.lipIndices.flatten, order.map fun f => s.lipIndices.flatten.map (joined fact f)⟩ := by
  have hdims : s.dimFilters.map (fun f => f.indices.flatten)
      = s.dimFilters.map fun f => s.lipIndices.flatten.map (joined fact f.filter) := by
    apply List.map_congr_left
    intro f hf
    exact Complete.indices_eq h hs.lipIndices_length hf (hs.indices_length f hf)
  rw [finish, hdims, ← hs.filters, List.map_map]
  rfl

theorem tuples_eq (rows : List Nat) (order : List LookupFilter)
    : Output.tuples ⟨rows, order.map fun f => rows.map (joined fact f)⟩
        =
      rows.map fun row => (row, order.map fun f => joined fact f row) := by
  apply List.ext_getElem
  . simp [Output.tuples]
  . intro k hk _
    have hlt : k < rows.length := by simpa [Output.tuples] using hk
    simp [Output.tuples, List.getElem?_eq_getElem hlt, Function.comp_def]

end FilterJoin

/--
A star whose dimension tables have unique keys and hash tables of their filtered key columns.
-/
structure KeyedStar extends Star where
  keys_nodup : ∀ d ∈ dims, d.pkCol.flatten.Nodup
  hashTables : ∀ d ∈ dims, ∃ t, HashTable.build d.pkCol d.filter = some t ∧ d.hashTable = some t

namespace KeyedStar

/--
The row `r` of the dimension table passes its filter and has the key that the row of the fact table refers to.
-/
def Matches (q : KeyedStar) (row : Nat) (d : Dimension) (r : Nat) : Prop :=
  Passes d.filter r ∧ ∃ key, q.fact.key d.fkColName row = some key ∧ d.pkCol.flatten[r]? = some key

/--
A row of the fact table that passes its filter, and the matching rows of all dimension tables.
-/
def StarTuple (q : KeyedStar) (row : Nat) (rows : List Nat) : Prop :=
  row < q.fact.numRows ∧ Passes q.fact.filter row ∧ List.Forall₂ (q.Matches row) q.dims rows

/--
The output enumerates the tuples of the star, whatever the order of the tasks, the size of the batches and
the order of the filters between them are.
-/
def FilterJoinsStar (q : KeyedStar) : Prop :=
  ∀ tasks parallelism sort, IsSchedule q.dims.length tasks → (∀ batch fs, (sort batch fs).Perm fs) →
    ∃ out, FilterJoin.execute q.fact q.dims tasks parallelism sort = some out ∧
      out.dimIndices.length = q.dims.length ∧
      (∀ rows ∈ out.dimIndices, rows.length = out.factIndices.length) ∧
      out.tuples.Nodup ∧ ∀ row rows, (row, rows) ∈ out.tuples ↔ q.StarTuple row rows

/--
There are filters, their cells can be counted, and a row that matches in all dimension tables passes the filter
of the fact table and matches rows that all have the same number.
-/
def Unmixed (q : KeyedStar) : Prop :=
  q.dims ≠ [] ∧ q.fact.chunkLengths ≠ [] ∧
    (∀ d ∈ q.dims, (d.keys.length * 100 : Int) ≤ Storage.maxInt) ∧
    ∀ row rows, row < q.fact.numRows → List.Forall₂ (q.Matches row) q.dims rows →
      Passes q.fact.filter row ∧ ∀ r ∈ rows, ∀ r' ∈ rows, r = r'

variable {q : KeyedStar} {d : Dimension} {row r : Nat}

theorem pkCol_ne_nil (hd : d ∈ q.dims) : d.pkCol ≠ [] := by
  obtain ⟨t, ht, -⟩ := q.hashTables d hd
  intro hnil
  simp [HashTable.build, hnil] at ht

theorem mem_keys {key : BitVec 64} : key ∈ d.keys ↔ ∃ r, r ∈ matchingRows d.pkCol d.filter key := by
  simp only [Dimension.keys, List.mem_map, List.mem_filter, decide_eq_true_eq, Prod.exists, exists_eq_right,
    List.mem_zipIdx_iff_getElem?, mem_matchingRows, exists_and_right]

theorem findRow_lookupFilter (hd : d ∈ q.dims) (key : BitVec 64)
    : ∃ m, d.lookupFilter.findRow key = some m ∧ ∀ r, m = some r ↔ r ∈ matchingRows d.pkCol d.filter key := by
  obtain ⟨t, ht, htable⟩ := q.hashTables d hd
  obtain ⟨t', ht', hfind⟩ := HashTable.find_build (pkCol_ne_nil hd) (q.filters_aligned d hd)
  have heq : t = t' := Option.some.inj (ht.symm.trans ht')
  rw [← heq] at hfind
  obtain ⟨hrows, hnone⟩ := hfind key
  have hhash : d.lookupFilter.hashTable = some t := htable
  simp only [LookupFilter.findRow, hhash, Option.bind_eq_bind, Option.bind_some]
  cases hlookup : t.lookup key with
  | none =>
    have hnil := hnone.mp hlookup
    refine ⟨none, by split <;> rfl, ?_⟩
    simp [hnil]
  | some ids =>
    have hids : ids.map RecordID.index = matchingRows d.pkCol d.filter key := by
      rw [← hrows, HashTable.find, hlookup, Option.getD_some]
    have hne : matchingRows d.pkCol d.filter key ≠ [] := by
      intro hnil
      rw [hnone.mpr hnil] at hlookup
      cases hlookup
    have hunique : ∀ r ∈ matchingRows d.pkCol d.filter key, ∀ r' ∈ matchingRows d.pkCol d.filter key, r = r' := by
      intro r hr r' hr'
      rw [mem_matchingRows] at hr hr'
      have hlt := (List.getElem?_eq_some_iff.mp hr.1).1
      exact (List.getElem?_inj hlt (q.keys_nodup d hd)).mp (hr.1.trans hr'.1.symm)
    have hprobe : d.lookupFilter.bloomFilter.probe key = true := by
      apply BloomFilter.probe_ofValues
      exact mem_keys.mpr (List.exists_mem_of_ne_nil _ hne)
    rw [if_pos hprobe]
    have hnodup := matchingRows_nodup d.pkCol d.filter key
    rw [← hids] at hne hunique hnodup ⊢
    rcases ids with _ | ⟨id, _ | ⟨id', rest⟩⟩
    . exact absurd rfl hne
    . exact ⟨some id.index, rfl, by simp [eq_comm]⟩
    . have := hunique id.index (by simp) id'.index (by simp)
      simp [this] at hnodup

theorem joinedRow_eq_some_iff (hd : d ∈ q.dims)
    : q.fact.joinedRow row d.lookupFilter = some r ↔ q.Matches row d r := by
  have hname : d.lookupFilter.fkName = d.fkColName := rfl
  rw [FactTable.joinedRow, hname, Matches]
  cases hkey : q.fact.key d.fkColName row with
  | none => simp
  | some key =>
    obtain ⟨m, hm, hmem⟩ := findRow_lookupFilter hd key
    rw [Option.bind_some, hm, Option.join_some, hmem, mem_matchingRows]
    simp [and_comm]

theorem Matches.joined_eq (hd : d ∈ q.dims) (h : q.Matches row d r)
    : FilterJoin.joined q.fact d.lookupFilter row = r := by
  rw [FilterJoin.joined, (joinedRow_eq_some_iff hd).mpr h, Option.getD_some]

theorem forall₂_matches_iff {rows : List Nat} {dims : List Dimension} (hsub : ∀ d ∈ dims, d ∈ q.dims)
    : List.Forall₂ (q.Matches row) dims rows ↔
        FilterJoin.foundBy q.fact (dims.map Dimension.lookupFilter) row = true ∧
          rows = dims.map fun d => FilterJoin.joined q.fact d.lookupFilter row := by
  induction dims generalizing rows with
  | nil => simp [FilterJoin.foundBy]
  | cons d dims ih =>
    have ih := fun rows => @ih rows fun d' hd' => hsub d' (by simp [hd'])
    have hd := hsub d (by simp)
    simp only [FilterJoin.foundBy, List.map_cons, List.all_cons, Bool.and_eq_true] at ih ⊢
    constructor
    . intro h
      cases h with
      | cons hhead htail =>
        obtain ⟨hfound, hrows⟩ := (ih _).mp htail
        rw [(joinedRow_eq_some_iff hd).mpr hhead, hhead.joined_eq hd, hrows]
        exact ⟨⟨rfl, hfound⟩, rfl⟩
    . rintro ⟨⟨hsome, hfound⟩, rfl⟩
      obtain ⟨r, hr⟩ := Option.isSome_iff_exists.mp hsome
      have hmatch := (joinedRow_eq_some_iff hd).mp hr
      rw [hmatch.joined_eq hd]
      exact .cons hmatch ((ih _).mpr ⟨hfound, rfl⟩)

def filters (q : KeyedStar) : List LookupFilter :=
  q.dims.map Dimension.lookupFilter

theorem starts (hdims : q.dims ≠ []) (hchunks : q.fact.chunkLengths ≠ [])
    (hbuild : ∀ d ∈ q.dims, (d.keys.length * 100 : Int) ≤ Storage.maxInt) {tasks : List BuildTask}
    (htasks : IsSchedule q.dims.length tasks)
    : FilterJoin.Starts q.fact q.dims tasks q.filters where
  filters := by
    have hinter : Interchangeable .filterJoin q.dims := by
      apply interchangeable_of_nodup q.pkColNames_nodup
      intro d hd
      refine ⟨q.filters_aligned d hd, pkCol_ne_nil hd, hbuild d hd, ?_⟩
      obtain ⟨t, -, ht⟩ := q.hashTables d hd
      simp [ht]
    obtain ⟨built, hbuilt, hfilters⟩ := BuildState.buildsFilters_of_interchangeable hinter tasks htasks
    refine ⟨built, hbuilt, ?_⟩
    rw [hfilters, ← Run.mapM_id_map_some, filters, List.map_map]
    rfl
  filters_length := List.length_map _
  columns := by
    intro f hf
    obtain ⟨d, hd, rfl⟩ := List.mem_map.mp hf
    exact q.fkCol_mem d hd
  fkCols := q.fkCol_mem
  finds := by
    intro f hf key
    obtain ⟨d, hd, rfl⟩ := List.mem_map.mp hf
    obtain ⟨m, hm, -⟩ := findRow_lookupFilter hd key
    exact ⟨m, hm⟩
  dims_ne_nil := hdims
  chunks_pos := List.length_pos_iff.mpr hchunks

theorem mem_tuples_iff {rows : List Nat} {order : List LookupFilter}
    (h : rows.Perm ((List.range q.fact.numRows).filter (FilterJoin.foundBy q.fact q.filters)))
    {t : Nat × List Nat}
    : t ∈ rows.map (fun row => (row, order.map fun f => FilterJoin.joined q.fact f row)) ↔
        (t.1 < q.fact.numRows ∧ FilterJoin.foundBy q.fact q.filters t.1 = true) ∧
          t.2 = order.map fun f => FilterJoin.joined q.fact f t.1 := by
  simp only [List.mem_map, h.mem_iff, List.mem_filter, List.mem_range]
  constructor
  . rintro ⟨row, hrow, rfl⟩
    exact ⟨hrow, rfl⟩
  . rintro ⟨hrow, heq⟩
    exact ⟨t.1, hrow, by rw [← heq]⟩

theorem filterJoinsStar_of_unmixed (h : q.Unmixed) : q.FilterJoinsStar := by
  obtain ⟨hdims, hchunks, hbuild, hsame⟩ := h
  intro tasks parallelism sort htasks hsort
  obtain ⟨s, hs, ⟨hshaped, hperm⟩, hcomplete⟩ :=
    (starts hdims hchunks hbuild htasks).execute_eq_some parallelism hsort
  have hrows := FilterJoin.Complete.flatten_perm hcomplete hshaped.lipIndices_length
  rw [FilterJoin.Complete.finish_eq hshaped hcomplete] at hs
  refine ⟨_, hs, ?_, ?_, ?_, ?_⟩
  . simp only [List.length_map]
    rw [← List.length_map LookupFilterJoin.filter, hperm.length_eq]
    exact List.length_map _
  . intro rows hmem
    obtain ⟨f, -, rfl⟩ := List.mem_map.mp hmem
    exact List.length_map _
  . rw [FilterJoin.tuples_eq]
    apply List.Nodup.map
    . intro row row' heq
      exact congrArg Prod.fst heq
    . exact hrows.nodup_iff.mpr (List.nodup_range.filter _)
  . intro row rows
    rw [FilterJoin.tuples_eq, mem_tuples_iff hrows]
    -- all filters have found rows with the same number, so that their order does not matter
    have horder : row < q.fact.numRows → FilterJoin.foundBy q.fact q.filters row = true →
        (s.dimFilters.map LookupFilterJoin.filter).map (fun f => FilterJoin.joined q.fact f row)
          = q.dims.map fun d => FilterJoin.joined q.fact d.lookupFilter row := by
      intro hlt hfound
      have hmatches := (forall₂_matches_iff fun _ hd => hd).mpr ⟨hfound, rfl⟩
      obtain ⟨-, hall⟩ := hsame row _ hlt hmatches
      have hmapPerm := hperm.map fun f => FilterJoin.joined q.fact f row
      have hfilters : q.filters.map (fun f => FilterJoin.joined q.fact f row)
          = q.dims.map fun d => FilterJoin.joined q.fact d.lookupFilter row := by
        rw [filters, List.map_map]
        rfl
      rw [hfilters] at hmapPerm
      apply List.ext_getElem
      . exact hmapPerm.length_eq
      . intro k hk hk'
        exact hall _ (hmapPerm.mem_iff.mp (List.getElem_mem hk)) _ (List.getElem_mem hk')
    constructor
    . rintro ⟨⟨hlt, hfound⟩, heq⟩
      have hmatches := (forall₂_matches_iff fun _ hd => hd).mpr ⟨hfound, rfl⟩
      dsimp only at heq
      rw [heq, horder hlt hfound]
      exact ⟨hlt, (hsame row _ hlt hmatches).1, hmatches⟩
    . rintro ⟨hlt, hpass, hmatches⟩
      obtain ⟨hfound, heq⟩ := (forall₂_matches_iff fun _ hd => hd).mp hmatches
      exact ⟨⟨hlt, hfound⟩, by rw [heq, horder hlt hfound]⟩

/-! What a run that enumerates the tuples needs. -/

theorem dims_ne_nil_of_filterJoinsStar (h : q.FilterJoinsStar) : q.dims ≠ [] := by
  intro hnil
  obtain ⟨out, hout, -⟩ := h (buildTasks q.dims.length) 1 (fun _ fs => fs)
    (BuildState.buildTasks_isSchedule _) (fun _ _ => .refl _)
  simp [FilterJoin.execute, hnil] at hout

theorem chunks_ne_nil_of_filterJoinsStar (h : q.FilterJoinsStar) : q.fact.chunkLengths ≠ [] := by
  intro hnil
  obtain ⟨out, hout, -⟩ := h (buildTasks q.dims.length) 1 (fun _ fs => fs)
    (BuildState.buildTasks_isSchedule _) (fun _ _ => .refl _)
  obtain ⟨built, -, hout⟩ := Option.bind_eq_some_iff.mp hout
  obtain ⟨fs, -, hout⟩ := Option.bind_eq_some_iff.mp hout
  obtain ⟨d, -, hout⟩ := Option.bind_eq_some_iff.mp hout
  obtain ⟨col, hcol, hout⟩ := Option.bind_eq_some_iff.mp hout
  have hlen := FactTable.length_eq_of_lookup hcol
  rw [hnil, List.length_nil, List.length_eq_zero_iff] at hlen
  simp [chunkRowOffsets, hlen] at hout

theorem countable_of_filterJoinsStar (h : q.FilterJoinsStar) (hd : d ∈ q.dims)
    : (d.keys.length * 100 : Int) ≤ Storage.maxInt := by
  obtain ⟨i, hget⟩ := List.mem_iff_getElem?.mp hd
  have hi := (List.getElem?_eq_some_iff.mp hget).1
  obtain ⟨out, hout, -⟩ := h _ 1 (fun _ fs => fs) (BuildState.isSchedule_first hi) (fun _ _ => .refl _)
  obtain ⟨built, hbuilt, -⟩ := Option.bind_eq_some_iff.mp hout
  obtain ⟨f, hf⟩ := BuildState.build_eq_some_of_first hget hbuilt
  exact (Dimension.of_build_eq_some (q.filters_aligned d hd) hf).2.1

theorem starTuple_swap (h : q.FilterJoinsStar) {rows : List Nat} (hlt : row < q.fact.numRows)
    (hmatches : List.Forall₂ (q.Matches row) q.dims rows) (i j : Nat)
    : q.StarTuple row (Buffer.swap rows i j) := by
  have hstarts := starts (dims_ne_nil_of_filterJoinsStar h) (chunks_ne_nil_of_filterJoinsStar h)
    (fun d hd => countable_of_filterJoinsStar h hd) (BuildState.buildTasks_isSchedule q.dims.length)
  obtain ⟨s, hs, hshaped, hcomplete⟩ := hstarts.execute_single fun _ fs => Buffer.swap fs i j
  obtain ⟨out, hout, -, -, -, htuples⟩ := h _ (q.fact.chunkLengths.length + 1) (fun _ fs => Buffer.swap fs i j)
    (BuildState.buildTasks_isSchedule q.dims.length) (fun _ fs => Buffer.swap_perm fs i j)
  rw [hs, Option.some.injEq] at hout
  have hrows := FilterJoin.Complete.flatten_perm hcomplete hshaped.lipIndices_length
  have hsorted := @FilterJoin.Shaped.sort _ _ s { s with dimFilters := Buffer.swap s.dimFilters i j } hshaped rfl
    (Buffer.swap_perm s.dimFilters i j)
  have hcomplete' : ∀ k < q.fact.chunkLengths.length, FilterJoin.Complete q.fact q.filters k
      { s with dimFilters := Buffer.swap s.dimFilters i j } := by
    intro k hk
    exact (hcomplete k hk).of_perm (.refl _) rfl (Buffer.swap_perm _ _ _)
  rw [FilterJoin.Complete.finish_eq hsorted hcomplete', ← Buffer.swap_map, hshaped.filters] at hout
  obtain ⟨hfound, heq⟩ := (forall₂_matches_iff fun _ hd => hd).mp hmatches
  apply (htuples row _).mp
  rw [← hout, FilterJoin.tuples_eq, mem_tuples_iff hrows]
  refine ⟨⟨hlt, hfound⟩, ?_⟩
  dsimp only
  rw [← Buffer.swap_map, filters, List.map_map, heq]
  rfl

theorem unmixed_of_filterJoinsStar (h : q.FilterJoinsStar) : q.Unmixed := by
  refine ⟨dims_ne_nil_of_filterJoinsStar h, chunks_ne_nil_of_filterJoinsStar h,
    fun d hd => countable_of_filterJoinsStar h hd, ?_⟩
  intro row rows hlt hmatches
  refine ⟨(starTuple_swap h hlt hmatches 0 0).2.1, ?_⟩
  intro r hr r' hr'
  obtain ⟨i, hi, rfl⟩ := List.mem_iff_getElem.mp hr
  obtain ⟨j, hj, rfl⟩ := List.mem_iff_getElem.mp hr'
  obtain ⟨-, -, hswap⟩ := starTuple_swap h hlt hmatches i j
  -- a key is unique in its table, so that the exchanged rows are the rows themselves
  have heq : Buffer.swap rows i j = rows := by
    rw [((forall₂_matches_iff fun _ hd => hd).mp hswap).2, ((forall₂_matches_iff fun _ hd => hd).mp hmatches).2]
  have hget := Buffer.getElem?_swap rows i j j hi hj
  rw [heq, if_pos rfl, List.getElem?_eq_getElem hi, List.getElem?_eq_getElem hj, Option.some.injEq] at hget
  exact hget.symm

/--
Two dimension tables, and the rows 0 and 1 of the fact table match the rows of the same numbers in both. The row 2 is
filtered out.
-/
def chunked : KeyedStar where
  fact := FactTable.ofKeys [[0, 1], [2]] [[5, 6], [5]] (some [[true, true], [false]]) rfl (by decide)
  dims := [⟨"pa", [[0, 1]], none, HashTable.build [[0, 1]] none, "a"⟩,
    ⟨"pb", [[5], [6, 7]], some [[true], [true, false]], HashTable.build [[5], [6, 7]] (some [[true], [true, false]]), "b"⟩]
  fkCol_mem := by
    intro d hd
    rw [List.mem_pair] at hd
    rcases hd with rfl | rfl
    . exact ⟨_, rfl⟩
    . exact ⟨_, rfl⟩
  pkColNames_nodup := by decide
  filters_aligned := by decide
  keys_nodup := by decide
  hashTables := by
    intro d hd
    rw [List.mem_pair] at hd
    rcases hd with rfl | rfl
    . exact ⟨_, rfl, rfl⟩
    . exact ⟨_, rfl, rfl⟩

theorem filteredOut_columns : ∀ name col, AList.lookup name ((∅ : Map String (Chunked (BitVec 64))).insert "fk" [[0]])
    = some col → col.map List.length = [1] := by
  intro name col h
  rw [Map.lookup_insert_eq] at h
  split at h
  . cases h
    rfl
  . cases h

/--
A fact table of one row that its filter removes, and a dimension table that has its key.
-/
def filteredOut : KeyedStar where
  fact := {
    chunkLengths := [1]
    columns := (∅ : Map _ _).insert "fk" [[0]]
    filter := some [[false]]
    columns_aligned := filteredOut_columns
    filter_aligned := by
      intro f hf
      cases hf
      rfl
  }
  dims := [⟨"pk", [[0]], none, some (HashTable.push ∅ (⟨0, 0⟩, 0)), "fk"⟩]
  fkCol_mem := by
    intro d hd
    rw [List.mem_singleton] at hd
    rw [hd]
    exact ⟨[[0]], rfl⟩
  pkColNames_nodup := List.nodup_singleton _
  filters_aligned := by
    intro d hd
    rw [List.mem_singleton] at hd
    rw [hd]
    exact aligned_none _
  keys_nodup := by
    intro d hd
    rw [List.mem_singleton] at hd
    rw [hd]
    exact List.nodup_singleton _
  hashTables := by
    intro d hd
    rw [List.mem_singleton] at hd
    rw [hd]
    exact ⟨_, rfl, rfl⟩

end KeyedStar

end Hustle.Operators
