import Hustle.Operators.HashProbe
import Hustle.Util.Enumerates

/-!
This module contains one step of a chain of joins: a left table, which is fresh or has been joined before, is
joined with a fresh right table. The rows of all tables that have been joined are kept as assignments of row
numbers to tables, and the index arrays of the lazy tables are the columns of the list of assignments.
-/

namespace Hustle.Operators

structure JoinPredicate where
  leftTable : Nat
  leftCol : String
  rightTable : Nat
  rightCol : String
  deriving DecidableEq, Repr

namespace Tables

def numRows (db : Tables) (table : Nat) : Nat :=
  (db.chunkLengths table).sum

/--
The two columns of the predicate have the same value in the rows.
-/
def Agrees (db : Tables) (p : JoinPredicate) (ρ : Nat → Nat) : Prop :=
  ∃ key, db.value p.leftTable p.leftCol (ρ p.leftTable) = some key ∧
    db.value p.rightTable p.rightCol (ρ p.rightTable) = some key

def HasColumns (db : Tables) (p : JoinPredicate) : Prop :=
  (∃ col, db.column p.leftTable p.leftCol = some col) ∧ ∃ col, db.column p.rightTable p.rightCol = some col

end Tables

/--
The build phase. A hash table that the right table carries is used instead of a new one.
-/
def LazyTable.joinTable (right : LazyTable) (rightJoinCol : Chunked (BitVec 64)) : Option HashTable :=
  match right.hashTable with
  | some t => some t
  | none => HashTable.build rightJoinCol right.filter

/--
The positions in the left table and the rows of the right table that are joined by a predicate.
-/
def joinPairs (db : Tables) (left right : LazyTable) (p : JoinPredicate) (size : Nat → Nat)
    : Option (List (Nat × Nat)) := do
  let leftJoinCol ← left.materializeColumn db p.leftCol
  let rightJoinCol ← right.materializeColumn db p.rightCol
  let hashTable ← right.joinTable rightJoinCol
  hashTable.probe leftJoinCol left.filter size

namespace LazyTable

/--
A lazy table without indices, whose filter has the chunks of the table.
-/
structure Fresh (db : Tables) (t : LazyTable) : Prop where
  indices : t.indices = none
  indexChunks : t.indexChunks = none
  filter : ∀ f, t.filter = some f → f.map List.length = db.chunkLengths t.table
  chunks : db.chunkLengths t.table ≠ []

/--
The index array has the rows of the tuples, and nothing else selects rows.
-/
structure Joined (db : Tables) (t : LazyTable) (tuples : List (Nat → Nat)) : Prop where
  indices : t.indices = some (tuples.map fun ρ => ρ t.table)
  filter : t.filter = none
  indexChunks : t.indexChunks = none
  chunks : db.chunkLengths t.table ≠ []
  rows_lt : ∀ ρ ∈ tuples, ρ t.table < db.numRows t.table

/--
No hash table, or the one that would be built.
-/
def HasHashTable (db : Tables) (t : LazyTable) (name : String) : Prop :=
  t.hashTable = none ∨ ∃ col, db.column t.table name = some col ∧ t.hashTable = HashTable.build col t.filter

def freshTuples (db : Tables) (t : LazyTable) : List (Nat → Nat) :=
  ((List.range (db.numRows t.table)).filter fun row => decide (Passes t.filter row)).map fun row _ => row

theorem freshTuples_enumerates (db : Tables) (t : LazyTable)
    : Enumerates [t.table] (fun ρ => ρ t.table < db.numRows t.table ∧ Passes t.filter (ρ t.table))
        (t.freshTuples db) where
  nodup := by
    simp only [freshTuples, List.map_map]
    apply List.Nodup.map
    . intro row row' h
      simpa using h
    . exact List.nodup_range.filter _
  sound := by
    intro ρ hρ
    obtain ⟨row, hrow, rfl⟩ := List.mem_map.mp hρ
    simpa using hrow
  complete := by
    rintro ρ ⟨hlt, hpass⟩
    refine ⟨fun _ => ρ t.table, List.mem_map.mpr ⟨ρ t.table, ?_, rfl⟩, rfl⟩
    simpa using ⟨hlt, hpass⟩

theorem freshTuples_dependsOn (db : Tables) (t : LazyTable)
    : Enumerates.DependsOn [t.table] fun ρ => ρ t.table < db.numRows t.table ∧ Passes t.filter (ρ t.table) := by
  intro ρ ρ' heq h
  rw [← Enumerates.eq_of_map_eq heq (List.mem_singleton.mpr rfl)]
  exact h

end LazyTable

/-! Columns. -/

variable {db : Tables} {p : JoinPredicate} {left right : LazyTable} {tuples : List (Nat → Nat)}

namespace Tables

def key (db : Tables) (table : Nat) (name : String) (row : Nat) : BitVec 64 :=
  (db.value table name row).getD 0

theorem length_flatten_column {t : Nat} {name : String} {col : Chunked (BitVec 64)}
    (h : db.column t name = some col)
    : col.flatten.length = db.numRows t := by
  rw [List.length_flatten, db.column_aligned t name col h]
  rfl

theorem getElem?_column {t row : Nat} {name : String} {col : Chunked (BitVec 64)}
    (h : db.column t name = some col) (hrow : row < db.numRows t)
    : col.flatten[row]? = some (db.key t name row) := by
  rw [← length_flatten_column h] at hrow
  simp [key, value, h, List.getElem?_eq_getElem hrow]

theorem column_ne_nil {t : Nat} {name : String} {col : Chunked (BitVec 64)}
    (h : db.column t name = some col) (hchunks : db.chunkLengths t ≠ [])
    : col ≠ [] := by
  rintro rfl
  have := db.column_aligned t name [] h
  simp only [List.map_nil] at this
  exact hchunks this.symm

theorem flatten_column {t : Nat} {name : String} {col : Chunked (BitVec 64)} (h : db.column t name = some col)
    : col.flatten = (List.range (db.numRows t)).map (db.key t name) := by
  apply List.ext_getElem?
  intro row
  by_cases hrow : row < db.numRows t
  . rw [getElem?_column h hrow, List.getElem?_map, List.getElem?_range hrow, Option.map_some]
  . have hlen := length_flatten_column h
    rw [List.getElem?_eq_none (by omega), List.getElem?_eq_none (by simp; omega)]

end Tables

theorem LazyTable.Fresh.aligned (h : left.Fresh db) {name : String} {col : Chunked (BitVec 64)}
    (hcol : db.column left.table name = some col)
    : Aligned col left.filter := by
  intro f hf
  rw [h.filter f hf, db.column_aligned _ _ _ hcol]

theorem LazyTable.Fresh.hashTable (h : right.Fresh db) {col : Chunked (BitVec 64)}
    (hcol : db.column right.table p.rightCol = some col) (hhash : right.HasHashTable db p.rightCol)
    : ∃ t, right.joinTable col = some t ∧
        ∀ key, (t.find key).map RecordID.index = matchingRows col right.filter key := by
  have hne := Tables.column_ne_nil hcol h.chunks
  obtain ⟨t, ht, hfind⟩ := HashTable.find_build hne (h.aligned hcol)
  refine ⟨t, ?_, fun key => (hfind key).1⟩
  unfold LazyTable.joinTable
  rcases hhash with hnone | ⟨col', hcol', hsome⟩
  . rw [hnone]
    exact ht
  . rw [hcol, Option.some.injEq] at hcol'
    rw [← hcol', ht] at hsome
    rw [hsome]

def joinRows (db : Tables) (p : JoinPredicate) (right : LazyTable) (ρ : Nat → Nat) : List Nat :=
  match db.column p.rightTable p.rightCol with
  | some col => matchingRows col right.filter (db.key p.leftTable p.leftCol (ρ p.leftTable))
  | none => []

theorem joinRows_eq {col : Chunked (BitVec 64)} (hcol : db.column p.rightTable p.rightCol = some col)
    (right : LazyTable) (ρ : Nat → Nat)
    : joinRows db p right ρ = matchingRows col right.filter (db.key p.leftTable p.leftCol (ρ p.leftTable)) := by
  rw [joinRows, hcol]

theorem joinRows_nodup (db : Tables) (p : JoinPredicate) (right : LazyTable) (ρ : Nat → Nat)
    : (joinRows db p right ρ).Nodup := by
  unfold joinRows
  split
  . exact matchingRows_nodup _ _ _
  . exact List.nodup_nil

theorem mem_joinRows (hcols : db.HasColumns p) {ρ : Nat → Nat} {row : Nat}
    (hrow : ρ p.leftTable < db.numRows p.leftTable)
    : row ∈ joinRows db p right ρ ↔ row < db.numRows p.rightTable ∧ Passes right.filter row ∧
        ∃ key, db.value p.leftTable p.leftCol (ρ p.leftTable) = some key ∧
          db.value p.rightTable p.rightCol row = some key := by
  obtain ⟨⟨lcol, hlcol⟩, rcol, hrcol⟩ := hcols
  have hleft : db.value p.leftTable p.leftCol (ρ p.leftTable)
      = some (db.key p.leftTable p.leftCol (ρ p.leftTable)) := by
    rw [← Tables.getElem?_column hlcol hrow]
    simp [Tables.value, hlcol]
  have hright : db.value p.rightTable p.rightCol row = rcol.flatten[row]? := by
    simp [Tables.value, hrcol]
  rw [joinRows_eq hrcol, mem_matchingRows, hleft, hright]
  simp only [Option.some.injEq, exists_eq_left']
  constructor
  . rintro ⟨hget, hpass⟩
    have hlt := (List.getElem?_eq_some_iff.mp hget).1
    rw [Tables.length_flatten_column hrcol] at hlt
    exact ⟨hlt, hpass, hget⟩
  . rintro ⟨-, hpass, hget⟩
    exact ⟨hget, hpass⟩

/-! One join. -/

/--
Every tuple with its position, beside each of the rows that it is joined with.
-/
def joinedTuples (ext : (Nat → Nat) → List Nat) (positions : List ((Nat → Nat) × Nat))
    : List (((Nat → Nat) × Nat) × Nat) :=
  positions.flatMap fun x => (ext x.1).map fun r => (x, r)

section Positions

variable {ext : (Nat → Nat) → List Nat} {positions : List ((Nat → Nat) × Nat)}

theorem mem_of_mem_joinedTuples {y : ((Nat → Nat) × Nat) × Nat} (h : y ∈ joinedTuples ext positions)
    : y.1 ∈ positions := by
  obtain ⟨x, hx, hy⟩ := List.mem_flatMap.mp h
  obtain ⟨r, -, rfl⟩ := List.mem_map.mp hy
  exact hx

theorem joinedTuples_pairs (ext : (Nat → Nat) → List Nat) (positions : List ((Nat → Nat) × Nat))
    : (positions.flatMap fun x => (ext x.1).map fun r => (x.2, r))
        =
      (joinedTuples ext positions).map fun y => (y.1.2, y.2) := by
  simp only [joinedTuples, List.map_flatMap, List.map_map, Function.comp_def]

theorem joinedTuples_extend (ext : (Nat → Nat) → List Nat) (positions : List ((Nat → Nat) × Nat)) (k : Nat)
    : Enumerates.extend k ext (positions.map Prod.fst)
        =
      (joinedTuples ext positions).map fun y => Function.update y.1.1 k y.2 := by
  simp only [Enumerates.extend, joinedTuples, List.map_flatMap, List.flatMap_map, List.map_map, Function.comp_def]

theorem joinedTuples_right (k : Nat)
    : ((joinedTuples ext positions).map fun y => (y.1.2, y.2)).map Prod.snd
        =
      (Enumerates.extend k ext (positions.map Prod.fst)).map fun ρ => ρ k := by
  rw [joinedTuples_extend, List.map_map, List.map_map]
  apply List.map_congr_left
  intro y _
  simp

theorem joinedTuples_take {k t : Nat} (ht : t ≠ k) (h : ∀ x ∈ positions, tuples[x.2]? = some x.1)
    : take (tuples.map fun ρ => ρ t) (((joinedTuples ext positions).map fun y => (y.1.2, y.2)).map Prod.fst)
        =
      some ((Enumerates.extend k ext (positions.map Prod.fst)).map fun ρ => ρ t) := by
  have hget : ∀ y ∈ joinedTuples ext positions, tuples[y.1.2]? = some y.1.1 :=
    fun y hy => h y.1 (mem_of_mem_joinedTuples hy)
  rw [List.map_map, @take_map _ _ (fun ρ : Nat → Nat => ρ t) tuples _ (fun i => tuples.getD i fun _ => 0)]
  . rw [joinedTuples_extend, List.map_map, List.map_map, Option.some.injEq]
    apply List.map_congr_left
    intro y hy
    simp [List.getD_eq_getElem?_getD, hget y hy, Function.update_of_ne ht]
  . intro i hi
    obtain ⟨y, hy, rfl⟩ := List.mem_map.mp hi
    simp [List.getD_eq_getElem?_getD, hget y hy]

theorem joinedTuples_left {k t : Nat} (ht : t ≠ k) (h : ∀ x ∈ positions, x.2 = x.1 t)
    : ((joinedTuples ext positions).map fun y => (y.1.2, y.2)).map Prod.fst
        =
      (Enumerates.extend k ext (positions.map Prod.fst)).map fun ρ => ρ t := by
  rw [joinedTuples_extend, List.map_map, List.map_map]
  apply List.map_congr_left
  intro y hy
  simp [h y.1 (mem_of_mem_joinedTuples hy), Function.update_of_ne ht]

end Positions

section Step

/--
The hash table that is probed has the rows of `ext` for a tuple, in this order.
-/
def Finds (db : Tables) (p : JoinPredicate) (right : LazyTable) (ext : (Nat → Nat) → List Nat) : Prop :=
  ∃ col t, db.column p.rightTable p.rightCol = some col ∧ right.joinTable col = some t ∧
    ∀ ρ, ext ρ = (t.find (db.key p.leftTable p.leftCol (ρ p.leftTable))).map RecordID.index

theorem finds_joinRows (hright : right.Fresh db) (hrtable : right.table = p.rightTable) (hcols : db.HasColumns p)
    (hhash : right.HasHashTable db p.rightCol) : Finds db p right (joinRows db p right) := by
  obtain ⟨-, col, hrcol⟩ := hcols
  obtain ⟨t, ht, hfind⟩ := hright.hashTable (hrtable ▸ hrcol) hhash
  refine ⟨col, t, hrcol, ht, ?_⟩
  intro ρ
  rw [joinRows_eq hrcol, hfind]

/--
The hash table that is probed has the rows that pass the filter, in whatever order.
-/
def FindsMatching (db : Tables) (p : JoinPredicate) (right : LazyTable) : Prop :=
  ∃ ext, Finds db p right ext ∧ ∀ ρ, (ext ρ).Perm (joinRows db p right ρ)

theorem findsMatching_of_hasHashTable (hright : right.Fresh db) (hrtable : right.table = p.rightTable)
    (hcols : db.HasColumns p) (hhash : right.HasHashTable db p.rightCol) : FindsMatching db p right :=
  ⟨_, finds_joinRows hright hrtable hcols hhash, fun _ => .refl _⟩

variable {ext : (Nat → Nat) → List Nat} (hright : right.Fresh db) (hrtable : right.table = p.rightTable)
  (hltable : left.table = p.leftTable)

include hright hrtable in
theorem joinPairs_eq (hfinds : Finds db p right ext) {leftJoinCol : Chunked (BitVec 64)} {size : Nat → Nat}
    (hcol : left.materializeColumn db p.leftCol = some leftJoinCol) (hne : leftJoinCol ≠ [])
    (halign : Aligned leftJoinCol left.filter)
    : ∃ m : BitVec 64 → List Nat, (∀ ρ, ext ρ = m (db.key p.leftTable p.leftCol (ρ p.leftTable))) ∧
        joinPairs db left right p size
          =
        some ((leftJoinCol.flatten.zipIdx.filter fun x => decide (Passes left.filter x.2)).flatMap
          fun x => (m x.1).map fun r => (x.2, r)) := by
  obtain ⟨col, t, hrcol, ht, hext⟩ := hfinds
  refine ⟨fun key => (t.find key).map RecordID.index, hext, ?_⟩
  have hrmat : right.materializeColumn db p.rightCol = some col := by
    simp [LazyTable.materializeColumn, hrtable, hrcol, hright.indices]
  simp only [joinPairs, hcol, hrmat, Option.bind_eq_bind, Option.bind_some, ht]
  exact HashTable.probe_eq_some (fun _ => rfl) hne halign size

include hright hrtable hltable in
/--
Join a table that has been joined before.
-/
theorem joinPairs_joined_of_finds (hfinds : Finds db p right ext)
    (hlcol : ∃ col, db.column p.leftTable p.leftCol = some col) (hleft : left.Joined db tuples) (size : Nat → Nat)
    : ∃ pairs, joinPairs db left right p size = some pairs ∧
        (pairs.map Prod.snd = (Enumerates.extend p.rightTable ext tuples).map fun ρ => ρ p.rightTable) ∧
        ∀ t, t ≠ p.rightTable → take (tuples.map fun ρ => ρ t) (pairs.map Prod.fst)
          = some ((Enumerates.extend p.rightTable ext tuples).map fun ρ => ρ t) := by
  obtain ⟨lcol, hlcol⟩ := hlcol
  have hlcol' : db.column left.table p.leftCol = some lcol := by
    rw [hltable]
    exact hlcol
  have hindex : ∀ i ∈ tuples.map (fun ρ => ρ left.table),
      lcol.flatten[i]? = some (db.key p.leftTable p.leftCol i) := by
    intro i hi
    obtain ⟨ρ, hρ, rfl⟩ := List.mem_map.mp hi
    have := hleft.rows_lt ρ hρ
    rw [hltable] at this ⊢
    exact Tables.getElem?_column hlcol this
  obtain ⟨out, hout, hne, hflat⟩ := applyIndices_eq_some (Tables.column_ne_nil hlcol' hleft.chunks) hindex
  have hmat : left.materializeColumn db p.leftCol = some out := by
    simp [LazyTable.materializeColumn, hlcol', hleft.indices, hleft.indexChunks, hout]
  obtain ⟨m, hext, hpairs⟩ := @joinPairs_eq db p left right ext hright hrtable hfinds out size hmat hne
    (by rw [hleft.filter]; exact aligned_none _)
  have hall : (out.flatten.zipIdx.filter fun x => decide (Passes left.filter x.2))
      = tuples.zipIdx.map fun x => (db.key p.leftTable p.leftCol (x.1 p.leftTable), x.2) := by
    rw [List.filter_eq_self.mpr, hflat, List.map_map, hltable, List.zipIdx_map]
    . rfl
    . intro x _
      rw [hleft.filter]
      exact decide_eq_true (passes_none _)
  have hexact : ∀ x : (Nat → Nat) × Nat,
      ((m (db.key p.leftTable p.leftCol (x.1 p.leftTable))).map fun r => (x.2, r))
        = (ext x.1).map fun r => (x.2, r) := by
    intro x
    rw [hext]
  rw [hall, List.flatMap_map] at hpairs
  simp only [hexact] at hpairs
  rw [joinedTuples_pairs] at hpairs
  have hfst : tuples.zipIdx.map Prod.fst = tuples := List.zipIdx_map_fst _ _
  refine ⟨_, hpairs, ?_, ?_⟩
  . have := @joinedTuples_right ext tuples.zipIdx p.rightTable
    rw [hfst] at this
    exact this
  . intro t ht
    have := @joinedTuples_take tuples ext tuples.zipIdx p.rightTable t ht (by
      intro x hx
      exact List.mem_zipIdx_iff_getElem?.mp hx)
    rw [hfst] at this
    exact this

include hright hrtable hltable in
/--
Join a table that has not been joined before.
-/
theorem joinPairs_fresh_of_finds (hfinds : Finds db p right ext)
    (hlcol : ∃ col, db.column p.leftTable p.leftCol = some col) (hleft : left.Fresh db)
    (hne : p.leftTable ≠ p.rightTable) (size : Nat → Nat)
    : ∃ pairs, joinPairs db left right p size = some pairs ∧
        (pairs.map Prod.snd = (Enumerates.extend p.rightTable ext (left.freshTuples db)).map
          fun ρ => ρ p.rightTable) ∧
        (pairs.map Prod.fst = (Enumerates.extend p.rightTable ext (left.freshTuples db)).map
          fun ρ => ρ p.leftTable) := by
  obtain ⟨lcol, hlcol⟩ := hlcol
  have hlcol' : db.column left.table p.leftCol = some lcol := by
    rw [hltable]
    exact hlcol
  have hmat : left.materializeColumn db p.leftCol = some lcol := by
    simp [LazyTable.materializeColumn, hlcol', hleft.indices]
  obtain ⟨m, hext, hpairs⟩ := @joinPairs_eq db p left right ext hright hrtable hfinds lcol size hmat
    (Tables.column_ne_nil hlcol' hleft.chunks) (hleft.aligned hlcol')
  -- the positions are the rows themselves
  have hall : (lcol.flatten.zipIdx.filter fun x => decide (Passes left.filter x.2))
      = (left.freshTuples db).map fun ρ =>
          (db.key p.leftTable p.leftCol (ρ p.leftTable), ρ p.leftTable) := by
    rw [Tables.flatten_column hlcol, List.zipIdx_map, List.filter_map, LazyTable.freshTuples, List.map_map,
      hltable]
    have hzip : (List.range (db.numRows p.leftTable)).zipIdx
        = (List.range (db.numRows p.leftTable)).map fun row => (row, row) := by
      apply List.ext_getElem
      . simp
      . intro i hi _
        simp
    rw [hzip, List.filter_map, List.map_map]
    rfl
  rw [hall, List.flatMap_map] at hpairs
  have hexact : ∀ ρ : Nat → Nat,
      ((m (db.key p.leftTable p.leftCol (ρ p.leftTable))).map fun r => (ρ p.leftTable, r))
        = (ext ρ).map fun r => (ρ p.leftTable, r) := by
    intro ρ
    rw [hext]
  simp only [hexact] at hpairs
  have hpositions : ((left.freshTuples db).flatMap fun ρ => (ext ρ).map fun r => (ρ p.leftTable, r))
      = (((left.freshTuples db).map fun ρ => (ρ, ρ p.leftTable)).flatMap
          fun x => (ext x.1).map fun r => (x.2, r)) := by
    rw [List.flatMap_map]
  rw [hpositions, joinedTuples_pairs] at hpairs
  have hfst : ((left.freshTuples db).map fun ρ => (ρ, ρ p.leftTable)).map Prod.fst = left.freshTuples db := by
    rw [List.map_map]
    exact List.map_id _
  refine ⟨_, hpairs, ?_, ?_⟩
  . have := @joinedTuples_right ext ((left.freshTuples db).map fun ρ => (ρ, ρ p.leftTable)) p.rightTable
    rw [hfst] at this
    exact this
  . have := @joinedTuples_left ext
      ((left.freshTuples db).map fun ρ => (ρ, ρ p.leftTable)) p.rightTable p.leftTable hne (by
        intro x hx
        obtain ⟨ρ, -, rfl⟩ := List.mem_map.mp hx
        rfl)
    rw [hfst] at this
    exact this

variable (hcols : db.HasColumns p) (hhash : right.HasHashTable db p.rightCol)

include hright hrtable hltable hcols hhash in
theorem joinPairs_joined (hleft : left.Joined db tuples) (size : Nat → Nat)
    : ∃ pairs, joinPairs db left right p size = some pairs ∧
        (pairs.map Prod.snd = (Enumerates.extend p.rightTable (joinRows db p right) tuples).map
          fun ρ => ρ p.rightTable) ∧
        ∀ t, t ≠ p.rightTable → take (tuples.map fun ρ => ρ t) (pairs.map Prod.fst)
          = some ((Enumerates.extend p.rightTable (joinRows db p right) tuples).map fun ρ => ρ t) :=
  joinPairs_joined_of_finds hright hrtable hltable (finds_joinRows hright hrtable hcols hhash) hcols.1 hleft size

include hright hrtable hltable hcols hhash in
theorem joinPairs_fresh (hleft : left.Fresh db) (hne : p.leftTable ≠ p.rightTable) (size : Nat → Nat)
    : ∃ pairs, joinPairs db left right p size = some pairs ∧
        (pairs.map Prod.snd = (Enumerates.extend p.rightTable (joinRows db p right) (left.freshTuples db)).map
          fun ρ => ρ p.rightTable) ∧
        (pairs.map Prod.fst = (Enumerates.extend p.rightTable (joinRows db p right) (left.freshTuples db)).map
          fun ρ => ρ p.leftTable) :=
  joinPairs_fresh_of_finds hright hrtable hltable (finds_joinRows hright hrtable hcols hhash) hcols.1 hleft hne size

end Step

/-! What the tuples enumerate. -/

/--
Rows of the tables whose values agree with the predicates.
-/
structure Tables.Satisfies (db : Tables) (tables : List Nat) (preds : List JoinPredicate) (ρ : Nat → Nat) : Prop where
  rows_lt : ∀ t ∈ tables, ρ t < db.numRows t
  agrees : ∀ p ∈ preds, db.Agrees p ρ

/--
The tables of a list of predicates are among `tables`.
-/
def Covers (tables : List Nat) (preds : List JoinPredicate) : Prop :=
  ∀ p ∈ preds, p.leftTable ∈ tables ∧ p.rightTable ∈ tables

theorem Covers.append {joined : List Nat} {done : List JoinPredicate} (h : Covers joined done) (hl : p.leftTable ∈ joined)
    : Covers (joined ++ [p.rightTable]) (done ++ [p]) := by
  intro p' hp'
  rcases List.mem_append.mp hp' with hp' | hp'
  . exact ⟨List.mem_append_left _ (h p' hp').1, List.mem_append_left _ (h p' hp').2⟩
  . rw [List.mem_singleton.mp hp']
    exact ⟨List.mem_append_left _ hl, by simp⟩

/--
Predicates that join one new table after the other to the tables that are joined already.
-/
def LeftDeep : List Nat → List JoinPredicate → Prop
  | _, [] => True
  | tables, p :: preds => p.leftTable ∈ tables ∧ p.rightTable ∉ tables ∧ LeftDeep (tables ++ [p.rightTable]) preds

theorem LeftDeep.nodup {tables : List Nat} {preds : List JoinPredicate} (h : LeftDeep tables preds)
    (hnodup : tables.Nodup)
    : (tables ++ preds.map JoinPredicate.rightTable).Nodup := by
  induction preds generalizing tables with
  | nil => simpa using hnodup
  | cons p preds ih =>
    obtain ⟨-, hr, hdeep⟩ := h
    have := ih hdeep (by
      rw [List.nodup_append]
      refine ⟨hnodup, by simp, ?_⟩
      rintro t ht t' ht' rfl
      rw [List.mem_singleton.mp ht'] at ht
      exact hr ht)
    simpa using this

theorem LeftDeep.covers {tables : List Nat} {done preds : List JoinPredicate} (h : LeftDeep tables preds)
    (hdone : Covers tables done)
    : Covers (tables ++ preds.map JoinPredicate.rightTable) (done ++ preds) := by
  induction preds generalizing tables done with
  | nil => simpa using hdone
  | cons p preds ih =>
    obtain ⟨hl, -, hdeep⟩ := h
    have := ih hdeep (hdone.append hl)
    simpa using this

theorem Tables.Satisfies.dependsOn {tables : List Nat} {preds : List JoinPredicate} (h : Covers tables preds)
    : Enumerates.DependsOn tables (db.Satisfies tables preds) := by
  intro ρ ρ' heq hρ
  constructor
  . intro t ht
    rw [← Enumerates.eq_of_map_eq heq ht]
    exact hρ.rows_lt t ht
  . intro p hp
    have hagrees := hρ.agrees p hp
    unfold Agrees at hagrees ⊢
    rw [← Enumerates.eq_of_map_eq heq (h p hp).1, ← Enumerates.eq_of_map_eq heq (h p hp).2]
    exact hagrees

theorem Tables.satisfies_append {tables : List Nat} {preds : List JoinPredicate} {ρ : Nat → Nat}
    : db.Satisfies (tables ++ [p.rightTable]) (preds ++ [p]) ρ ↔
        db.Satisfies tables preds ρ ∧ ρ p.rightTable < db.numRows p.rightTable ∧ db.Agrees p ρ := by
  constructor
  . intro h
    exact ⟨⟨fun t ht => h.rows_lt t (by simp [ht]), fun p' hp => h.agrees p' (by simp [hp])⟩,
      h.rows_lt _ (by simp), h.agrees _ (by simp)⟩
  . rintro ⟨h, hlt, hagrees⟩
    constructor
    . intro t ht
      rcases List.mem_append.mp ht with ht | ht
      . exact h.rows_lt t ht
      . rw [List.mem_singleton.mp ht]
        exact hlt
    . intro p' hp
      rcases List.mem_append.mp hp with hp | hp
      . exact h.agrees p' hp
      . rw [List.mem_singleton.mp hp]
        exact hagrees

theorem enumerates_join {tables : List Nat} {q : (Nat → Nat) → Prop} (h : Enumerates tables q tuples)
    (hq : Enumerates.DependsOn tables q) (hl : p.leftTable ∈ tables) (hr : p.rightTable ∉ tables)
    (hcols : db.HasColumns p) (hrange : ∀ ρ, q ρ → ρ p.leftTable < db.numRows p.leftTable) (right : LazyTable)
    : Enumerates (tables ++ [p.rightTable])
        (fun ρ => q ρ ∧ ρ p.rightTable < db.numRows p.rightTable ∧ Passes right.filter (ρ p.rightTable) ∧
          db.Agrees p ρ)
        (Enumerates.extend p.rightTable (joinRows db p right) tuples) := by
  apply (h.extend_enumerates hq hr (joinRows_nodup db p right) _).congr
  . intro ρ
    constructor
    . rintro ⟨hρ, hmem⟩
      exact ⟨hρ, (mem_joinRows hcols (hrange ρ hρ)).mp hmem⟩
    . rintro ⟨hρ, hmem⟩
      exact ⟨hρ, (mem_joinRows hcols (hrange ρ hρ)).mpr hmem⟩
  . intro ρ ρ' heq
    unfold joinRows
    rw [Enumerates.eq_of_map_eq heq hl]

theorem enumerates_pairs {first : LazyTable} (hltable : first.table = p.leftTable) (hcols : db.HasColumns p)
    (hne : p.leftTable ≠ p.rightTable) {ext : (Nat → Nat) → List Nat}
    (hperm : ∀ ρ, (ext ρ).Perm (joinRows db p right ρ))
    : Enumerates [p.leftTable, p.rightTable]
        (fun ρ => db.Satisfies [p.leftTable, p.rightTable] [p] ρ ∧ Passes first.filter (ρ p.leftTable) ∧
          Passes right.filter (ρ p.rightTable)) (Enumerates.extend p.rightTable ext (first.freshTuples db)) := by
  have hstart := first.freshTuples_enumerates db
  have hdepends := first.freshTuples_dependsOn db
  rw [hltable] at hstart hdepends
  apply Enumerates.of_perm _ (Enumerates.extend_perm p.rightTable hperm _)
  apply (enumerates_join hstart hdepends (by simp) (by simpa using Ne.symm hne) hcols (fun _ h => h.1) right).congr
  intro ρ
  have hsatisfies := @Tables.satisfies_append db p [p.leftTable] [] ρ
  rw [List.singleton_append, List.nil_append] at hsatisfies
  have hleft : db.Satisfies [p.leftTable] [] ρ ↔ ρ p.leftTable < db.numRows p.leftTable :=
    ⟨fun h => h.rows_lt _ (by simp), fun h => ⟨by simpa using h, by simp⟩⟩
  rw [hsatisfies, hleft]
  tauto

namespace OperatorResult

/--
The tables have index arrays of one length, and the `k`-th entries of all of them enumerate the assignments with
property `q`, each exactly once.
-/
def EnumeratesRows (result : OperatorResult) (tables : List Nat) (q : (Nat → Nat) → Prop) : Prop :=
  ∃ (arrays : Nat → List Nat) (n : Nat),
    (∀ t ∈ tables, (arrays t).length = n ∧ ∃ lt, result.getTable t = some lt ∧ lt.indices = some (arrays t)) ∧
    ((List.range n).map fun k => tables.map fun t => (arrays t).getD k 0).Nodup ∧
    ∀ rows, rows ∈ ((List.range n).map fun k => tables.map fun t => (arrays t).getD k 0) ↔
      ∃ ρ, q ρ ∧ rows = tables.map ρ

/--
The index arrays of the tables are the columns of the tuples.
-/
def Represents (result : OperatorResult) (tables : List Nat) (tuples : List (Nat → Nat)) : Prop :=
  ∀ t ∈ tables, ∃ lt, result.getTable t = some lt ∧ lt.indices = some (tuples.map fun ρ => ρ t)

/--
The first lazy tables of the tables have been joined to the tuples.
-/
def HasJoined (db : Tables) (result : OperatorResult) (tables : List Nat) (tuples : List (Nat → Nat)) : Prop :=
  ∀ t ∈ tables, ∃ lt, result.getTable t = some lt ∧ lt.Joined db tuples

variable {result : OperatorResult} {tables : List Nat} {q q' : (Nat → Nat) → Prop}

theorem HasJoined.represents (h : HasJoined db result tables tuples) : Represents result tables tuples := by
  intro t ht
  obtain ⟨lt, hget, hjoined⟩ := h t ht
  refine ⟨lt, hget, ?_⟩
  rw [hjoined.indices, table_of_getTable hget]

theorem EnumeratesRows.congr (h : result.EnumeratesRows tables q) (hq : ∀ ρ, q ρ ↔ q' ρ)
    : result.EnumeratesRows tables q' := by
  obtain ⟨arrays, n, harrays, hnodup, hmem⟩ := h
  exact ⟨arrays, n, harrays, hnodup, fun rows =>
    (hmem rows).trans (exists_congr fun ρ => and_congr_left fun _ => hq ρ)⟩

theorem range_map_columns (tables : List Nat) (tuples : List (Nat → Nat))
    : ((List.range tuples.length).map fun k => tables.map fun t => (tuples.map fun ρ => ρ t).getD k 0)
        =
      tuples.map fun ρ => tables.map ρ := by
  apply List.ext_getElem
  . simp
  . intro k hk _
    have hlt : k < tuples.length := by simpa using hk
    simp [List.getElem?_eq_getElem hlt]

theorem Represents.enumeratesRows (h : Represents result tables tuples) (hq : Enumerates tables q tuples)
    : EnumeratesRows result tables q := by
  refine ⟨fun t => tuples.map fun ρ => ρ t, tuples.length, ?_, ?_, ?_⟩
  . intro t ht
    exact ⟨List.length_map _, h t ht⟩
  . rw [range_map_columns]
    exact hq.nodup
  . intro rows
    rw [range_map_columns]
    exact hq.mem_map_iff

theorem Represents.of_enumeratesRows (h : Represents result tables tuples) (hq : Enumerates tables q tuples)
    (htables : tables ≠ []) (h' : EnumeratesRows result tables q') {ρ : Nat → Nat} (hρ : q ρ)
    : ∃ ρ', q' ρ' ∧ tables.map ρ = tables.map ρ' := by
  obtain ⟨arrays, n, harrays, -, hmem⟩ := h'
  have heq : ∀ t ∈ tables, arrays t = tuples.map fun ρ => ρ t := by
    intro t ht
    obtain ⟨lt, hlt, hindices⟩ := h t ht
    obtain ⟨-, lt', hlt', hindices'⟩ := harrays t ht
    have heq : lt = lt' := Option.some.inj (hlt.symm.trans hlt')
    rw [← heq, hindices, Option.some.injEq] at hindices'
    exact hindices'.symm
  have hn : n = tuples.length := by
    obtain ⟨t, ht⟩ := List.exists_mem_of_ne_nil tables htables
    rw [← (harrays t ht).1, heq t ht, List.length_map]
  apply (hmem _).mp
  have hcolumns : ((List.range n).map fun k => tables.map fun t => (arrays t).getD k 0)
      = tuples.map fun ρ => tables.map ρ := by
    rw [← range_map_columns, hn]
    apply List.map_congr_left
    intro k _
    apply List.map_congr_left
    intro t ht
    rw [heq t ht]
  rw [hcolumns]
  exact hq.mem_map_iff.mpr ⟨ρ, hρ, rfl⟩

end OperatorResult

end Hustle.Operators
