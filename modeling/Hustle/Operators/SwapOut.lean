import Hustle.Operators.FilterJoin
import Hustle.Util.Cells

/-!
This module contains the loops of `FilterJoin::ProbeFilters` with the arrays and the bounds that they work on. All
accesses are checked, and the numbers have the widths of the C++ code. The loops compute what `probeChunk` does, and
keep the rows of the fact table and of the dimension tables aligned.
-/

namespace Hustle.Operators.FilterJoin

open Storage (castInt castInt_of_le checkInt checkInt_eq_some)

namespace SwapOut

/--
The value that a `uint32_t` gets from another integer.
-/
def castUint (n : Int) : Nat :=
  (n % 2 ^ 32).toNat

/-! The first filter. -/

/--
`indices` and `dim_indices` come from `malloc`.
-/
structure Scan where
  indices : List (Option Nat)
  dimIndices : List (Option Nat)
  joinRowIdx : Int

def Scan.keep (s : Scan) (row dimRow : Nat) : Option Scan := do
  let indices ← Cells.write s.indices s.joinRowIdx (some row)
  let dimIndices ← Cells.write s.dimIndices s.joinRowIdx (some dimRow)
  let joinRowIdx ← checkInt (s.joinRowIdx + 1)
  return ⟨indices, dimIndices, joinRowIdx⟩

def Scan.step (f : LookupFilter) (offset : Nat) (s : Scan) (cell : BitVec 64 × Nat) : Option Scan := do
  match ← f.findRow cell.1 with
  | some dimRow => s.keep (castUint (cell.2 + offset)) dimRow
  | none => return s

def Scan.run (f : LookupFilter) (offset : Nat) (chunk : List (BitVec 64)) : Option Scan :=
  chunk.zipIdx.foldlM (step f offset) ⟨Cells.uninitialised chunk.length, Cells.uninitialised chunk.length, 0⟩

/-! The other filters. -/

/--
`indices` and `prev_dim_indices` are the lists themselves, and `dim_indices` comes from `malloc`.
-/
structure Loop where
  indices : List Nat
  prevDimIndices : List (List Nat)
  dimIndices : List (Option Nat)
  joinRowIdx : Int
  indicesLength : Int

namespace Loop

def keep (l : Loop) (dimRow : Nat) : Option Loop := do
  let dimIndices ← Cells.write l.dimIndices l.joinRowIdx (some dimRow)
  let joinRowIdx ← checkInt (l.joinRowIdx + 1)
  return { l with dimIndices := dimIndices, joinRowIdx := joinRowIdx }

/--
A row that is not found, be it in the Bloom filter or in the hash table.
-/
def swapOut (l : Loop) : Option Loop := do
  let prevDimIndices ← l.prevDimIndices.mapM fun prev => Cells.swap prev l.joinRowIdx l.indicesLength
  let indices ← Cells.swap l.indices l.joinRowIdx l.indicesLength
  return { l with indices := indices, prevDimIndices := prevDimIndices, indicesLength := l.indicesLength - 1 }

def step (f : LookupFilter) (chunk : List (BitVec 64)) (offset : Nat) (l : Loop) : Option Loop := do
  let row ← Cells.read l.indices l.joinRowIdx
  let key ← Cells.read chunk (castUint (row - offset))
  match ← f.findRow key with
  | some dimRow => l.keep dimRow
  | none => l.swapOut

/--
The `while` loop, which fails if it is not at its end after the given number of rounds.
-/
def run (f : LookupFilter) (chunk : List (BitVec 64)) (offset : Nat) : Nat → Loop → Option Loop
  | 0, l => if l.joinRowIdx ≤ l.indicesLength then none else some l
  | rounds + 1, l =>
    if l.joinRowIdx ≤ l.indicesLength then do
      let l ← l.step f chunk offset
      run f chunk offset rounds l
    else
      some l

end Loop

/-! The task of a filter and a chunk. -/

/--
What the task stores: the rows that are left, and the rows of the dimension tables beside them.
-/
def store (chunkI : Nat) (s : State) (indices : List Nat) (dimIndices : List (List Nat)) : State :=
  ⟨s.lipIndices.set chunkI indices, storeRows chunkI dimIndices s.dimFilters⟩

def probeFirst (f : LookupFilter) (chunk : List (BitVec 64)) (offset chunkI : Nat) (s : State) : Option State := do
  let scan ← Scan.run f offset chunk
  let indicesLength := scan.joinRowIdx - 1
  let indices ← Cells.copyOut scan.indices (indicesLength + 1)
  let dimIndices ← Cells.copyOut scan.dimIndices (indicesLength + 1)
  return store chunkI s indices [dimIndices]

/--
There is one round for each of the rows.
-/
def probeNext (f : LookupFilter) (chunk : List (BitVec 64)) (offset filterJ chunkI : Nat) (s : State)
    : Option State := do
  let prevDimIndices ← (s.dimFilters.take filterJ).mapM fun prev => prev.indices[chunkI]?
  let indices ← s.lipIndices[chunkI]?
  let start : Loop := {
    indices := indices
    prevDimIndices := prevDimIndices
    dimIndices := Cells.uninitialised chunk.length
    joinRowIdx := 0
    indicesLength := castInt (indices.length - 1)
  }
  let l ← Loop.run f chunk offset indices.length start
  let dimIndices ← Cells.copyOut l.dimIndices (l.indicesLength + 1)
  let prevDimIndices := l.prevDimIndices.map fun prev => Cells.resize 0 prev (l.indicesLength + 1)
  return store chunkI s (Cells.resize 0 l.indices (l.indicesLength + 1)) (prevDimIndices ++ [dimIndices])

/--
`ProbeFilters` for the filter and the chunk of a task.
-/
def probeFilters (fact : FactTable) (offsets : List Nat) (s : State) (task : Nat × Nat) : Option State := do
  let (filterJ, chunkI) := task
  let f ← s.dimFilters[filterJ]?
  let col ← fact.columns.lookup f.filter.fkName
  let offset ← offsets[chunkI]?
  let chunk ← col[chunkI]?
  if chunkI < s.lipIndices.length ∧ chunkI < f.indices.length then
    if filterJ = 0 then
      probeFirst f.filter chunk (castUint offset) chunkI s
    else
      probeNext f.filter chunk (castUint offset) filterJ chunkI s
  else
    none

section

variable {f : LookupFilter} {chunk : List (BitVec 64)} {offset : Nat}

theorem castUint_natCast {n : Nat} (h : (n : Int) ≤ Storage.maxInt) : castUint n = n := by
  unfold Storage.maxInt at h
  rw [castUint]
  omega

structure Scan.Has (s : Scan) (capacity : Nat) (rows : List (Nat × Nat)) : Prop where
  indices : Cells.Holds s.indices (rows.map Prod.fst)
  dimIndices : Cells.Holds s.dimIndices (rows.map Prod.snd)
  indices_length : s.indices.length = capacity
  dimIndices_length : s.dimIndices.length = capacity
  joinRowIdx : s.joinRowIdx = rows.length

theorem Scan.Has.keep {s : Scan} {capacity : Nat} {rows : List (Nat × Nat)} (h : s.Has capacity rows)
    (hroom : rows.length < capacity) (hcapacity : (capacity : Int) ≤ Storage.maxInt) (row dimRow : Nat)
    : ∃ s', s.keep row dimRow = some s' ∧ s'.Has capacity (rows ++ [(row, dimRow)]) := by
  have hlen : (rows.map Prod.fst).length = rows.length := List.length_map _
  have hlen' : (rows.map Prod.snd).length = rows.length := List.length_map _
  obtain ⟨hwrite, hholds⟩ := h.indices.write (by rw [h.indices_length, hlen]; exact hroom) row
  obtain ⟨hwrite', hholds'⟩ := h.dimIndices.write (by rw [h.dimIndices_length, hlen']; exact hroom) dimRow
  rw [hlen] at hwrite hholds
  rw [hlen'] at hwrite' hholds'
  have hnext : checkInt (rows.length + 1) = some ((rows.length + 1 : Nat) : Int) :=
    checkInt_eq_some (show ((rows.length + 1 : Nat) : Int) ≤ Storage.maxInt by omega)
  refine ⟨⟨s.indices.set rows.length (some row), s.dimIndices.set rows.length (some dimRow),
    (rows.length + 1 : Nat)⟩, ?_, ?_⟩
  . rw [Scan.keep, h.joinRowIdx, hwrite, Option.bind_eq_bind, Option.bind_some, hwrite', Option.bind_eq_bind,
      Option.bind_some, hnext]
    rfl
  . exact {
      indices := by rw [List.map_append]; exact hholds
      dimIndices := by rw [List.map_append]; exact hholds'
      indices_length := by rw [List.length_set]; exact h.indices_length
      dimIndices_length := by rw [List.length_set]; exact h.dimIndices_length
      joinRowIdx := by rw [List.length_append]; rfl
    }

/--
The loop of the first filter writes the rows that `scanRows` finds.
-/
theorem Scan.Has.foldlM {keys : List (BitVec 64)} {m capacity : Nat} {rows found : List (Nat × Nat)} {s : Scan}
    (h : s.Has capacity rows) (hroom : rows.length + keys.length ≤ capacity) (hcapacity : (capacity : Int) ≤ Storage.maxInt)
    (hrows : ((m + keys.length + offset : Nat) : Int) ≤ Storage.maxInt)
    (hscan : scanRows f.findRow (keys.zipIdx (m + offset)) = some found)
    : ∃ s', (keys.zipIdx m).foldlM (step f offset) s = some s' ∧ s'.Has capacity (rows ++ found) := by
  induction keys generalizing m found rows s with
  | nil =>
    cases hscan
    rw [List.append_nil]
    exact ⟨s, rfl, h⟩
  | cons key keys ih =>
    rw [List.length_cons] at hroom hrows
    rw [List.zipIdx_cons, scanRows] at hscan
    obtain ⟨found₁, hfind, hscan⟩ := Option.bind_eq_some_iff.mp hscan
    obtain ⟨rest, hrest, hfound⟩ := Option.bind_eq_some_iff.mp hscan
    rw [Nat.add_right_comm] at hrest
    rw [List.zipIdx_cons, List.foldlM_cons]
    cases found₁ with
    | some dimRow =>
      cases hfound
      obtain ⟨s₁, hs₁, hhas⟩ := h.keep (by omega) hcapacity (m + offset) dimRow
      obtain ⟨s', hs', hhas'⟩ := ih hhas (by rw [List.length_append, List.length_singleton]; omega) (by omega) hrest
      have hcast : castUint (m + offset) = m + offset :=
        castUint_natCast (show ((m + offset : Nat) : Int) ≤ Storage.maxInt by omega)
      have hstep : step f offset s (key, m) = some s₁ := by
        rw [step, hfind, Option.bind_eq_bind, Option.bind_some]
        dsimp only
        rw [hcast, hs₁]
      refine ⟨s', ?_, ?_⟩
      . rw [hstep]
        exact hs'
      . rw [List.append_assoc] at hhas'
        exact hhas'
    | none =>
      cases hfound
      have hs₁ : step f offset s (key, m) = some s := by
        rw [step, hfind]
        rfl
      obtain ⟨s', hs', hhas'⟩ := ih h (by omega) (by omega) hrest
      refine ⟨s', ?_, hhas'⟩
      rw [hs₁]
      exact hs'

theorem Scan.run_eq_some {found : List (Nat × Nat)} (hrows : ((chunk.length + offset : Nat) : Int) ≤ Storage.maxInt)
    (hscan : scanRows f.findRow (chunk.zipIdx offset) = some found)
    : ∃ scan, run f offset chunk = some scan ∧ scan.Has chunk.length found := by
  have hstart : (⟨Cells.uninitialised chunk.length, Cells.uninitialised chunk.length, 0⟩ : Scan).Has chunk.length [] :=
    ⟨Cells.holds_nil _, Cells.holds_nil _, List.length_replicate, List.length_replicate, rfl⟩
  apply hstart.foldlM
  . exact Nat.le_of_eq (Nat.zero_add _)
  . omega
  . rw [Nat.zero_add]
    exact hrows
  . rw [Nat.zero_add]
    exact hscan

namespace Loop

/--
The loop has `rows`, of which the first `k` are joined and the next `n` are still to be probed.
-/
structure Has (l : Loop) (rows : ProbeRows) (capacity k n : Nat) : Prop where
  indices : l.indices = rows.indices
  prevDimIndices : l.prevDimIndices = rows.prevDimIndices
  dimIndices : Cells.Holds l.dimIndices rows.dimIndices
  dimIndices_length : l.dimIndices.length = capacity
  joined : rows.dimIndices.length = k
  aligned : ∀ prev ∈ rows.prevDimIndices, prev.length = rows.indices.length
  bound : k + n ≤ rows.indices.length
  room : rows.indices.length ≤ capacity
  joinRowIdx : l.joinRowIdx = k
  indicesLength : l.indicesLength + 1 = (k + n : Nat)

variable {l : Loop} {rows : ProbeRows} {capacity k n : Nat}

theorem Has.keep (h : l.Has rows capacity k (n + 1)) (hcapacity : (capacity : Int) ≤ Storage.maxInt) (dimRow : Nat)
    : ∃ l', l.keep dimRow = some l' ∧
        l'.Has { rows with dimIndices := rows.dimIndices ++ [dimRow] } capacity (k + 1) n := by
  have hbound := h.bound
  have hroom := h.room
  obtain ⟨hwrite, hholds⟩ := h.dimIndices.write (by rw [h.joined, h.dimIndices_length]; omega) dimRow
  rw [h.joined] at hwrite hholds
  have hnext : checkInt (k + 1) = some ((k + 1 : Nat) : Int) :=
    checkInt_eq_some (show ((k + 1 : Nat) : Int) ≤ Storage.maxInt by omega)
  refine ⟨{ l with dimIndices := l.dimIndices.set k (some dimRow), joinRowIdx := (k + 1 : Nat) }, ?_, ?_⟩
  . rw [Loop.keep, h.joinRowIdx, hwrite, Option.bind_eq_bind, Option.bind_some, hnext]
    rfl
  . exact {
      indices := h.indices
      prevDimIndices := h.prevDimIndices
      dimIndices := hholds
      dimIndices_length := by rw [List.length_set]; exact h.dimIndices_length
      joined := by rw [List.length_append, h.joined]; rfl
      aligned := h.aligned
      bound := by dsimp only; omega
      room := h.room
      joinRowIdx := rfl
      indicesLength := by rw [h.indicesLength]; omega
    }

theorem Has.swapOut (h : l.Has rows capacity k (n + 1))
    : ∃ l', l.swapOut = some l' ∧
        l'.Has ⟨Buffer.swap rows.indices k (k + n), rows.prevDimIndices.map fun prev => Buffer.swap prev k (k + n),
          rows.dimIndices⟩ capacity k n := by
  have hbound := h.bound
  have hlast : l.indicesLength = ((k + n : Nat) : Int) := by
    have hlength := h.indicesLength
    omega
  have hswap := @Cells.swap_natCast _ rows.indices k (k + n) (by omega) (by omega)
  have hprev := @Run.mapM_eq_some _ _ (fun prev : List Nat => Cells.swap prev k (k + n : Nat))
    (fun prev => Buffer.swap prev k (k + n)) rows.prevDimIndices (by
      intro prev hmem
      have hlen := h.aligned prev hmem
      exact Cells.swap_natCast (by omega) (by omega))
  refine ⟨{ l with
    indices := Buffer.swap rows.indices k (k + n)
    prevDimIndices := rows.prevDimIndices.map fun prev => Buffer.swap prev k (k + n)
    indicesLength := l.indicesLength - 1 }, ?_, ?_⟩
  . rw [Loop.swapOut, h.indices, h.prevDimIndices, h.joinRowIdx, hlast, hprev, Option.bind_eq_bind, Option.bind_some,
      hswap]
    rfl
  . exact {
      indices := rfl
      prevDimIndices := rfl
      dimIndices := h.dimIndices
      dimIndices_length := h.dimIndices_length
      joined := h.joined
      aligned := by
        intro prev hmem
        obtain ⟨prev', hmem', rfl⟩ := List.mem_map.mp hmem
        rw [Buffer.length_swap, Buffer.length_swap]
        exact h.aligned prev' hmem'
      bound := by rw [Buffer.length_swap]; omega
      room := by rw [Buffer.length_swap]; exact h.room
      joinRowIdx := h.joinRowIdx
      indicesLength := by dsimp only; omega
    }

structure Leaves (l : Loop) (out : ProbeRows) : Prop where
  indices : Cells.resize 0 l.indices (l.indicesLength + 1) = out.indices
  prevDimIndices : (l.prevDimIndices.map fun prev => Cells.resize 0 prev (l.indicesLength + 1)) = out.prevDimIndices
  dimIndices : Cells.copyOut l.dimIndices (l.indicesLength + 1) = some out.dimIndices

theorem Has.leaves (h : l.Has rows capacity k 0)
    : l.Leaves ⟨rows.indices.take k, rows.prevDimIndices.map (List.take k), rows.dimIndices⟩ where
  indices := by
    rw [h.indices, h.indicesLength]
    exact Cells.resize_of_le h.bound
  prevDimIndices := by
    rw [h.prevDimIndices, h.indicesLength]
    apply List.map_congr_left
    intro prev hmem
    apply Cells.resize_of_le
    rw [h.aligned prev hmem]
    exact h.bound
  dimIndices := by
    rw [h.indicesLength, ← h.joined]
    exact h.dimIndices.copyOut

theorem step_of_found {row dimRow : Nat} {key : BitVec 64} (hread : Cells.read l.indices l.joinRowIdx = some row)
    (hkey : Cells.read chunk (castUint (row - offset)) = some key) (hfound : f.findRow key = some (some dimRow))
    : l.step f chunk offset = l.keep dimRow := by
  rw [step, hread, Option.bind_eq_bind, Option.bind_some, hkey, Option.bind_eq_bind, Option.bind_some, hfound]
  rfl

theorem step_of_not_found {row : Nat} {key : BitVec 64} (hread : Cells.read l.indices l.joinRowIdx = some row)
    (hkey : Cells.read chunk (castUint (row - offset)) = some key) (hfound : f.findRow key = some none)
    : l.step f chunk offset = l.swapOut := by
  rw [step, hread, Option.bind_eq_bind, Option.bind_some, hkey, Option.bind_eq_bind, Option.bind_some, hfound]
  rfl

/--
The loop computes what `probeRows` does, in one round for each row.
-/
theorem Has.run {find : Nat → Option (Option Nat)} {out : ProbeRows} (h : l.Has rows capacity k n)
    (hcapacity : (capacity : Int) ≤ Storage.maxInt)
    (hfind : ∀ row ∈ rows.indices, (Cells.read chunk (castUint (row - offset))).bind f.findRow = find row)
    (hprobe : probeRows find rows k n = some out)
    : ∃ l', run f chunk offset n l = some l' ∧ l'.Leaves out := by
  -- a round either joins a row or takes the last one away, so that the rows still to be probed become fewer
  induction n generalizing l rows k with
  | zero =>
    have hdone : ¬ l.joinRowIdx ≤ l.indicesLength := by
      have hjoin := h.joinRowIdx
      have hlength := h.indicesLength
      omega
    rw [probeRows, Option.some.injEq] at hprobe
    rw [Loop.run, if_neg hdone, ← hprobe]
    exact ⟨l, rfl, h.leaves⟩
  | succ n ih =>
    have hmore : l.joinRowIdx ≤ l.indicesLength := by
      have hjoin := h.joinRowIdx
      have hlength := h.indicesLength
      omega
    rw [probeRows] at hprobe
    obtain ⟨row, hrow, hprobe⟩ := Option.bind_eq_some_iff.mp hprobe
    obtain ⟨found, hfound, hprobe⟩ := Option.bind_eq_some_iff.mp hprobe
    have hread : Cells.read l.indices l.joinRowIdx = some row := by
      rw [h.indices, h.joinRowIdx, Cells.read_natCast]
      exact hrow
    rw [← hfind row (List.mem_of_getElem? hrow)] at hfound
    obtain ⟨key, hkey, hfound⟩ := Option.bind_eq_some_iff.mp hfound
    rw [Loop.run, if_pos hmore]
    cases found with
    | some dimRow =>
      obtain ⟨l₁, hl₁, hhas⟩ := h.keep hcapacity dimRow
      rw [step_of_found hread hkey hfound, hl₁]
      exact ih hhas hfind hprobe
    | none =>
      obtain ⟨l₁, hl₁, hhas⟩ := h.swapOut
      rw [step_of_not_found hread hkey hfound, hl₁]
      apply ih hhas
      . intro row' hmem
        exact hfind row' ((Buffer.swap_perm _ _ _).mem_iff.mp hmem)
      . exact hprobe

end Loop

theorem read_eq_chunkValue {row : Nat} (hle : offset ≤ row) (hint : (row : Int) ≤ Storage.maxInt)
    : Cells.read chunk (castUint (row - offset)) = chunkValue chunk offset row := by
  have hcast : castUint ((row : Int) - offset) = row - offset := by
    have hsub : (row : Int) - offset = (row - offset : Nat) := by omega
    rw [hsub]
    apply castUint_natCast
    omega
  rw [hcast, Cells.read_natCast, chunkValue, if_pos hle]

theorem castInt_pred {n : Nat} (h : (n : Int) ≤ Storage.maxInt) : castInt (n - 1) + 1 = n := by
  cases n with
  | zero => decide
  | succ n =>
    rw [castInt_of_le (by omega) (by omega)]
    omega

variable {fact : FactTable} {fs : List LookupFilter} {s : State} {offsets : List Nat} {i j : Nat}

theorem probeFirst_of_scanRows {found : List (Nat × Nat)} (hrows : ((chunk.length + offset : Nat) : Int) ≤ Storage.maxInt)
    (hscan : scanRows f.findRow (chunk.zipIdx offset) = some found)
    : probeFirst f chunk offset i s = some (store i s (found.map Prod.fst) [found.map Prod.snd]) := by
  obtain ⟨scan, hrun, hhas⟩ := Scan.run_eq_some hrows hscan
  have hlength : scan.joinRowIdx - 1 + 1 = found.length := by
    have hjoin := hhas.joinRowIdx
    omega
  have hcopy := hhas.indices.copyOut
  have hcopy' := hhas.dimIndices.copyOut
  rw [List.length_map] at hcopy hcopy'
  rw [probeFirst, hrun, Option.bind_eq_bind, Option.bind_some]
  dsimp only
  rw [hlength, hcopy, Option.bind_eq_bind, Option.bind_some, hcopy']
  rfl

theorem probeNext_of_probeRows {indices : List Nat} {prevDimIndices : List (List Nat)} {out : ProbeRows}
    (hindices : s.lipIndices[i]? = some indices)
    (hprev : ((s.dimFilters.take j).mapM fun prev => prev.indices[i]?) = some prevDimIndices)
    (haligned : ∀ prev ∈ prevDimIndices, prev.length = indices.length) (hroom : indices.length ≤ chunk.length)
    (hcapacity : (chunk.length : Int) ≤ Storage.maxInt)
    (hread : ∀ row ∈ indices, offset ≤ row ∧ (row : Int) ≤ Storage.maxInt)
    (hprobe : probeRows (fun row => (chunkValue chunk offset row).bind f.findRow) ⟨indices, prevDimIndices, []⟩ 0
      indices.length = some out)
    : probeNext f chunk offset j i s = some (store i s out.indices (out.prevDimIndices ++ [out.dimIndices])) := by
  have hstart : Loop.Has ⟨indices, prevDimIndices, Cells.uninitialised chunk.length, 0, castInt (indices.length - 1)⟩
      ⟨indices, prevDimIndices, []⟩ chunk.length 0 indices.length := {
    indices := rfl
    prevDimIndices := rfl
    dimIndices := Cells.holds_nil _
    dimIndices_length := List.length_replicate
    joined := rfl
    aligned := haligned
    bound := Nat.le_of_eq (Nat.zero_add _)
    room := hroom
    joinRowIdx := rfl
    indicesLength := by
      rw [castInt_pred (by omega), Nat.zero_add]
  }
  have hfind : ∀ row ∈ indices, (Cells.read chunk (castUint (row - offset))).bind f.findRow
      = (chunkValue chunk offset row).bind f.findRow := by
    intro row hmem
    obtain ⟨hle, hint⟩ := hread row hmem
    rw [read_eq_chunkValue hle hint]
  obtain ⟨l, hl, hleaves⟩ := hstart.run hcapacity hfind hprobe
  rw [probeNext, hprev, Option.bind_eq_bind, Option.bind_some, hindices, Option.bind_eq_bind, Option.bind_some]
  dsimp only
  rw [hl, Option.bind_eq_bind, Option.bind_some, hleaves.dimIndices, Option.bind_some, hleaves.indices,
    hleaves.prevDimIndices]
  rfl

theorem offset_le (hi : i < fact.chunkLengths.length)
    : (fact.chunkLengths.take i).sum + fact.chunkLengths.getD i 0 ≤ fact.numRows := by
  have hsplit := List.take_append_drop (i + 1) fact.chunkLengths
  have hsum := congrArg List.sum hsplit
  rw [List.sum_append, List.take_succ_eq_append_getElem hi, List.sum_append, List.sum_singleton] at hsum
  rw [List.getD_eq_getElem?_getD, List.getElem?_eq_getElem hi, Option.getD_some, FactTable.numRows]
  omega

/--
The task does what `probeChunk` does, and does not fail where that does not.
-/
theorem probeFilters_of_probeChunk {s' : State}
    (hoffsets : ∀ i < fact.chunkLengths.length, offsets[i]? = some (fact.chunkLengths.take i).sum)
    (hint : (fact.numRows : Int) ≤ Storage.maxInt) (hs : Shaped fact fs s) (hi : i < fact.chunkLengths.length)
    (hjoined : Joined fact fs j i s) (h : probeChunk fact offsets j s i = some s')
    : probeFilters fact offsets s (j, i) = some s' := by
  obtain ⟨g, hg, h⟩ := Option.bind_eq_some_iff.mp h
  obtain ⟨col, hcol, h⟩ := Option.bind_eq_some_iff.mp h
  obtain ⟨chunk, hchunk, h⟩ := Option.bind_eq_some_iff.mp h
  obtain ⟨offset, hoffset, h⟩ := Option.bind_eq_some_iff.mp h
  have hle := offset_le hi
  have hlen : chunk.length = fact.chunkLengths.getD i 0 := by
    obtain ⟨chunk', hchunk', hlen⟩ := FactTable.getElem?_chunk hcol hi
    rw [hchunk] at hchunk'
    cases hchunk'
    exact hlen
  have hsum : offset = (fact.chunkLengths.take i).sum := by
    rw [hoffsets i hi] at hoffset
    exact (Option.some.inj hoffset).symm
  have hcast := @castUint_natCast offset (by omega)
  have hinside : i < s.lipIndices.length ∧ i < g.indices.length := by
    rw [hs.lipIndices_length, hs.indices_length g (List.mem_of_getElem? hg)]
    exact ⟨hi, hi⟩
  rw [probeFilters, Option.bind_eq_bind, hg, Option.bind_some, hcol, Option.bind_eq_bind, Option.bind_some, hoffset,
    Option.bind_eq_bind, Option.bind_some, hchunk, Option.bind_eq_bind, Option.bind_some, if_pos hinside, hcast]
  split at h
  . next hzero =>
    obtain ⟨found, hscan, h⟩ := Option.bind_eq_some_iff.mp h
    cases h
    rw [if_pos hzero, probeFirst_of_scanRows (by omega) hscan]
    rfl
  . next hpos =>
    obtain ⟨indices, hindices, h⟩ := Option.bind_eq_some_iff.mp h
    obtain ⟨prevDimIndices, hprev, h⟩ := Option.bind_eq_some_iff.mp h
    obtain ⟨out, hprobe, h⟩ := Option.bind_eq_some_iff.mp h
    cases h
    obtain ⟨rows, hrows, hperm, hdims⟩ := hjoined (by omega)
    rw [hindices] at hrows
    cases hrows
    rw [if_neg hpos]
    apply probeNext_of_probeRows hindices hprev
    . intro prev hmem
      obtain ⟨p, hp⟩ := List.mem_iff_getElem?.mp hmem
      have hlt := (List.getElem?_eq_some_iff.mp hp).1
      rw [Run.length_mapM hprev] at hlt
      have hget := List.getElem?_eq_getElem hlt
      obtain ⟨prev', hprev', hp'⟩ := Run.getElem?_mapM hprev hget
      rw [hp, Option.some.injEq] at hp'
      rw [List.length_take] at hlt
      rw [List.getElem?_take_of_lt (by omega)] at hget
      have hrows := hdims p (by omega) _ hget
      rw [hprev', ← hp', Option.some.injEq] at hrows
      rw [hrows, List.length_map]
    . rw [hperm.length_eq, hlen]
      apply Nat.le_trans (List.length_filter_le _ _)
      exact Nat.le_of_eq List.length_range'
    . omega
    . intro row hmem
      have hrow := (List.mem_filter.mp (hperm.mem_iff.mp hmem)).1
      rw [FactTable.chunkRows, List.mem_range'_1] at hrow
      omega
    . exact hprobe

theorem probeFilters_joined
    (hoffsets : ∀ i < fact.chunkLengths.length, offsets[i]? = some (fact.chunkLengths.take i).sum)
    (hcols : ∀ f ∈ fs, ∃ col, fact.columns.lookup f.fkName = some col)
    (hfind : ∀ f ∈ fs, ∀ key, ∃ m, f.findRow key = some m) (hint : (fact.numRows : Int) ≤ Storage.maxInt)
    (hs : Shaped fact fs s) (hj : j < fs.length) (hi : i < fact.chunkLengths.length) (h : Joined fact fs j i s)
    : ∃ s', probeFilters fact offsets s (j, i) = some s' ∧ Shaped fact fs s' ∧ Joined fact fs (j + 1) i s' ∧
        ∀ i' k, i' ≠ i → Joined fact fs k i' s → Joined fact fs k i' s' := by
  obtain ⟨s', hs', hspec⟩ := probeChunk_joined hoffsets hcols hfind hs hj hi h
  exact ⟨s', probeFilters_of_probeChunk hoffsets hint hs hi h hs', hspec⟩

end

end SwapOut

/-! What the filters are probed with, and in which order. -/

/--
Filters in any order, with hash tables that have one row for each key, and Bloom filters that have all of these keys.
The chunks of a foreign key column give the row offsets, and the table counts its rows with an `int`.
-/
structure Probing where
  fact : FactTable
  filters : List LookupFilter
  offsets : List Nat
  offsets_eq : ∃ name col, fact.columns.lookup name = some col ∧ chunkRowOffsets col = some offsets
  numRows_le : (fact.numRows : Int) ≤ Storage.maxInt
  columns : ∀ f ∈ filters, ∃ col, fact.columns.lookup f.fkName = some col
  hashTables : ∀ f ∈ filters, ∃ t, f.hashTable = some t ∧ ∀ key ids, t.lookup key = some ids →
    (∃ id, ids = [id]) ∧ f.bloomFilter.probe key = true

namespace Probing

def run (q : Probing) (s : State) (tasks : List (Nat × Nat)) : Option State :=
  tasks.foldlM (SwapOut.probeFilters q.fact q.offsets) s

def probedWith (chunk : Nat) (tasks : List (Nat × Nat)) : List Nat :=
  (tasks.filter fun task => decide (task.2 = chunk)).map Prod.fst

/--
Every chunk is probed with the filters from the first one on. The chunks do not wait for each other.
-/
def InOrder (q : Probing) (tasks : List (Nat × Nat)) : Prop :=
  (∀ task ∈ tasks, task.1 < q.filters.length ∧ task.2 < q.fact.chunkLengths.length) ∧
    ∀ chunk, ∃ m, probedWith chunk tasks = List.range m

/--
`r` is the row of the dimension table of the filter with the foreign key of `row`.
-/
def Matches (q : Probing) (f : LookupFilter) (row r : Nat) : Prop :=
  ∃ t key id, f.hashTable = some t ∧ q.fact.key f.fkName row = some key ∧ t.lookup key = some [id] ∧ id.index = r

/--
What a chunk has after the filters up to `j`: the rows that are found in their hash tables, once each, and as many
rows of the dimension tables, which match them position by position.
-/
def Aligned (q : Probing) (j chunk : Nat) (s : State) : Prop :=
  ∃ rows, s.lipIndices[chunk]? = some rows ∧ rows.Nodup ∧
    (∀ row, row ∈ rows ↔ row ∈ q.fact.chunkRows chunk ∧ ∀ f ∈ q.filters.take (j + 1), ∃ r, q.Matches f row r) ∧
    ∀ i ≤ j, ∃ f dimRows, s.dimFilters[i]? = some f ∧ q.filters[i]? = some f.filter ∧
      f.indices[chunk]? = some dimRows ∧ List.Forall₂ (q.Matches f.filter) rows dimRows

variable {q : Probing} {f : LookupFilter} {s : State} {tasks : List (Nat × Nat)} {chunk j : Nat}

theorem findRow_eq_some (hf : f ∈ q.filters) (key : BitVec 64)
    : ∃ m, f.findRow key = some m ∧
        ∀ r, m = some r ↔ ∃ t id, f.hashTable = some t ∧ t.lookup key = some [id] ∧ id.index = r := by
  obtain ⟨t, ht, hkeys⟩ := q.hashTables f hf
  simp only [LookupFilter.findRow, ht, Option.bind_eq_bind, Option.bind_some, Option.some.injEq]
  cases hlookup : t.lookup key with
  | none =>
    refine ⟨none, by split <;> rfl, ?_⟩
    simp [hlookup]
  | some ids =>
    obtain ⟨⟨id, rfl⟩, hprobe⟩ := hkeys key ids hlookup
    rw [if_pos hprobe]
    refine ⟨some id.index, rfl, ?_⟩
    simp [hlookup]

theorem joinedRow_eq_some_iff (hf : f ∈ q.filters) {row r : Nat}
    : q.fact.joinedRow row f = some r ↔ q.Matches f row r := by
  rw [FactTable.joinedRow, Matches]
  cases hkey : q.fact.key f.fkName row with
  | none => simp
  | some key =>
    obtain ⟨m, hm, hfound⟩ := findRow_eq_some hf key
    rw [Option.bind_some, hm, Option.join_some, hfound]
    simp

theorem getElem?_offsets (hchunk : chunk < q.fact.chunkLengths.length)
    : q.offsets[chunk]? = some (q.fact.chunkLengths.take chunk).sum := by
  obtain ⟨name, col, hcol, hoffsets⟩ := q.offsets_eq
  rw [chunkRowOffsets] at hoffsets
  split at hoffsets
  . cases hoffsets
  . rw [← Option.some.inj hoffsets, getElem?_rowOffsetsFrom (by rw [FactTable.length_eq_of_lookup hcol]; exact hchunk),
      Nat.zero_add,
      FactTable.offset_eq_of_lookup hcol]

theorem probedWith_concat (task : Nat × Nat)
    : probedWith chunk (tasks ++ [task])
        =
      if task.2 = chunk then probedWith chunk tasks ++ [task.1] else probedWith chunk tasks := by
  rw [probedWith, List.filter_append, List.map_append]
  split
  . next heq => simp [probedWith, heq]
  . next hne => simp [probedWith, hne]

theorem InOrder.of_concat {task : Nat × Nat} (h : q.InOrder (tasks ++ [task]))
    : q.InOrder tasks ∧ (probedWith task.2 tasks).length = task.1 := by
  obtain ⟨hmem, horder⟩ := h
  have hlast : ∃ m, probedWith task.2 tasks = List.range m ∧ task.1 = m := by
    obtain ⟨m, hm⟩ := horder task.2
    rw [probedWith_concat, if_pos rfl] at hm
    cases m with
    | zero => simp at hm
    | succ m =>
      rw [List.range_succ] at hm
      obtain ⟨hinit, hlast⟩ := List.append_inj' hm rfl
      exact ⟨m, hinit, by simpa using hlast⟩
  obtain ⟨m, hm, htask⟩ := hlast
  refine ⟨⟨fun t ht => hmem t (List.mem_append_left _ ht), ?_⟩, ?_⟩
  . intro chunk
    by_cases heq : task.2 = chunk
    . rw [← heq]
      exact ⟨m, hm⟩
    . obtain ⟨m', hm'⟩ := horder chunk
      rw [probedWith_concat, if_neg heq] at hm'
      exact ⟨m', hm'⟩
  . rw [hm, List.length_range, htask]

/--
The spec of a run: every chunk has been probed with the filters that it was probed with, whatever happened to the
other chunks in between.
-/
theorem run_joined (hs : Shaped q.fact q.filters s) (htasks : q.InOrder tasks)
    : ∃ s', q.run s tasks = some s' ∧ Shaped q.fact q.filters s' ∧
        ∀ chunk < q.fact.chunkLengths.length,
          Joined q.fact q.filters (probedWith chunk tasks).length chunk s' := by
  -- the last task finds its chunk probed with the filters before its own
  induction tasks using List.reverseRecOn with
  | nil => exact ⟨s, rfl, hs, fun chunk _ h => absurd h (Nat.lt_irrefl 0)⟩
  | append_singleton tasks task ih =>
    obtain ⟨hinit, hnext⟩ := htasks.of_concat
    obtain ⟨hfilter, hchunk⟩ := htasks.1 task (by simp)
    obtain ⟨s₁, hs₁, hshaped₁, hjoined₁⟩ := ih hinit
    have hbefore := hjoined₁ task.2 hchunk
    rw [hnext] at hbefore
    obtain ⟨s', hs', hshaped', hjoined', hkeep⟩ := SwapOut.probeFilters_joined (fun _ => getElem?_offsets) q.columns
      (fun f hf key => ⟨_, (findRow_eq_some hf key).choose_spec.1⟩) q.numRows_le hshaped₁ hfilter hchunk hbefore
    refine ⟨s', ?_, hshaped', ?_⟩
    . rw [run, List.foldlM_append]
      change (q.run s tasks).bind _ = _
      rw [hs₁, Option.bind_some, List.foldlM_cons, hs']
      rfl
    . intro chunk hlt
      rw [probedWith_concat]
      by_cases heq : task.2 = chunk
      . rw [if_pos heq, List.length_append, ← heq, hnext]
        exact hjoined'
      . rw [if_neg heq]
        exact hkeep chunk _ (Ne.symm heq) (hjoined₁ chunk hlt)

theorem foundBy_iff {fs : List LookupFilter} (hsub : ∀ f ∈ fs, f ∈ q.filters) {row : Nat}
    : foundBy q.fact fs row = true ↔ ∀ f ∈ fs, ∃ r, q.Matches f row r := by
  rw [foundBy, List.all_eq_true]
  apply forall₂_congr
  intro f hf
  rw [Option.isSome_iff_exists]
  apply exists_congr
  intro r
  exact joinedRow_eq_some_iff (hsub f hf)

theorem aligned_of_joined (hs : Shaped q.fact q.filters s) (hj : j < q.filters.length)
    (h : Joined q.fact q.filters (j + 1) chunk s)
    : q.Aligned j chunk s := by
  obtain ⟨rows, hrows, hperm, hdims⟩ := h (Nat.succ_pos j)
  have hsub : ∀ f ∈ q.filters.take (j + 1), f ∈ q.filters := fun f hf => List.mem_of_mem_take hf
  have hmem : ∀ row, row ∈ rows ↔
      row ∈ q.fact.chunkRows chunk ∧ ∀ f ∈ q.filters.take (j + 1), ∃ r, q.Matches f row r := by
    intro row
    rw [hperm.mem_iff, List.mem_filter, foundBy_iff hsub]
  refine ⟨rows, hrows, ?_, hmem, ?_⟩
  . rw [hperm.nodup_iff]
    exact List.Nodup.filter _ List.nodup_range'
  . intro i hi
    have hlength : s.dimFilters.length = q.filters.length := by rw [← hs.filters, List.length_map]
    have hget := List.getElem?_eq_getElem (show i < s.dimFilters.length by omega)
    have hfilter := hs.filter_eq hget
    refine ⟨_, _, hget, hfilter, hdims i (by omega) _ hget, ?_⟩
    rw [List.forall₂_map_right_iff, List.forall₂_same]
    intro row hrow
    have hf : s.dimFilters[i].filter ∈ q.filters.take (j + 1) := by
      apply @List.mem_of_getElem? _ _ i
      rw [List.getElem?_take_of_lt (by omega)]
      exact hfilter
    obtain ⟨r, hr⟩ := ((hmem row).mp hrow).2 _ hf
    rw [joined, (joinedRow_eq_some_iff (hsub _ hf)).mpr hr]
    exact hr

def bothKeys : HashTable :=
  ((∅ : Map (BitVec 64) (List RecordID)).insert 5 [⟨0, 0⟩] : Map _ _).insert 7 [⟨1, 0⟩]

def lastKey : HashTable :=
  (∅ : Map (BitVec 64) (List RecordID)).insert 7 [⟨0, 0⟩]

theorem lookup_lastKey {key : BitVec 64} {ids : List RecordID} (h : lastKey.lookup key = some ids)
    : (∃ id, ids = [id]) ∧ key = 7 := by
  rw [lastKey, Map.lookup_insert_eq] at h
  split at h
  . next heq =>
    cases h
    exact ⟨⟨_, rfl⟩, heq⟩
  . cases h

theorem lookup_bothKeys {key : BitVec 64} {ids : List RecordID} (h : bothKeys.lookup key = some ids)
    : (∃ id, ids = [id]) ∧ (key = 5 ∨ key = 7) := by
  rw [bothKeys, Map.lookup_insert_eq] at h
  split at h
  . next heq =>
    cases h
    exact ⟨⟨_, rfl⟩, .inr heq⟩
  . rw [Map.lookup_insert_eq] at h
    split at h
    . next heq =>
      cases h
      exact ⟨⟨_, rfl⟩, .inl heq⟩
    . cases h

/--
A chunk of two rows, of which the second filter swaps out the first one.
-/
def twoRows : Probing where
  fact := {
    chunkLengths := [2]
    columns := (∅ : Map _ _).insert "fk" [[5, 7]]
    filter := none
    columns_aligned := by
      intro name col h
      rw [Map.lookup_insert_eq] at h
      split at h
      . cases h
        rfl
      . cases h
    filter_aligned := by
      intro f hf
      cases hf
  }
  filters := [⟨.ofValues [5, 7], "fk", some bothKeys⟩, ⟨.ofValues [7], "fk", some lastKey⟩]
  offsets := [0]
  offsets_eq := ⟨"fk", [[5, 7]], rfl, rfl⟩
  numRows_le := by decide
  columns := by
    intro f hf
    refine ⟨[[5, 7]], ?_⟩
    rcases List.mem_pair.mp hf with rfl | rfl
    . rfl
    . rfl
  hashTables := by
    intro f hf
    rcases List.mem_pair.mp hf with rfl | rfl
    . refine ⟨bothKeys, rfl, ?_⟩
      intro key ids h
      obtain ⟨hids, hkey⟩ := lookup_bothKeys h
      refine ⟨hids, BloomFilter.probe_ofValues ?_⟩
      rcases hkey with rfl | rfl
      . simp
      . simp
    . refine ⟨lastKey, rfl, ?_⟩
      intro key ids h
      obtain ⟨hids, rfl⟩ := lookup_lastKey h
      exact ⟨hids, BloomFilter.probe_ofValues (by simp)⟩

theorem twoRows_inOrder : twoRows.InOrder [(0, 0), (1, 0)] := by
  constructor
  . decide
  . intro chunk
    by_cases hzero : chunk = 0
    . rw [hzero]
      exact ⟨2, rfl⟩
    . refine ⟨0, ?_⟩
      simp [probedWith, Ne.symm hzero]

example : (twoRows.run (start twoRows.fact twoRows.filters) [(0, 0), (1, 0)]).map finish = some ⟨[1], [[1], [0]]⟩ := by
  decide +kernel

end Probing

end Hustle.Operators.FilterJoin
