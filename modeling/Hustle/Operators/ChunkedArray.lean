import Hustle.Storage.Basic

/-!
This module contains the chunked arrays that operators work on, the Boolean filters that belong to them,
and the hash tables that joins build from them. A row number is a `uint32_t` in the source, which is enough
for the rows of a table, whose number is an `int`.
-/

namespace Hustle.Operators

/--
An `arrow::ChunkedArray`.
-/
abbrev Chunked (α : Type) := List (List α)

structure RecordID where
  index : Nat
  chunk : Nat
  deriving DecidableEq, Repr

/--
The rows of a chunk with their numbers. The number of the chunk is a `uint16_t`.
-/
def numbered (offset chunk : Nat) : List α → List (RecordID × α)
  | [] => []
  | v :: vs => (⟨offset, chunk % 2 ^ 16⟩, v) :: numbered (offset + 1) chunk vs

/--
The rows of a column with their numbers, the first chunk starts with the row `offset`.
-/
def numberedFrom (offset chunk : Nat) : Chunked α → Chunked (RecordID × α)
  | [] => []
  | c :: cs => numbered offset chunk c :: numberedFrom (offset + c.length) (chunk + 1) cs

/--
The values whose bit is set, none if there are fewer bits than values.
-/
def selectBits : List α → List Bool → Option (List α)
  | [], _ => some []
  | _ :: _, [] => none
  | v :: vs, b :: bs => do
    let rest ← selectBits vs bs
    return if b then v :: rest else rest

def selectChunks : Chunked α → Chunked Bool → Option (Chunked α)
  | [], _ => some []
  | _ :: _, [] => none
  | c :: cs, f :: fs => do
    let c ← selectBits c f
    let cs ← selectChunks cs fs
    return c :: cs

/--
The loops over the rows of all chunks that skip the rows whose bit in the filter is not set.
-/
def applyFilter (col : Chunked α) : Option (Chunked Bool) → Option (Chunked α)
  | none => some col
  | some filter => selectChunks col filter

/--
The filter has a bit for every row, chunk by chunk.
-/
def Aligned (col : Chunked α) (filter : Option (Chunked Bool)) : Prop :=
  ∀ f, filter = some f → f.map List.length = col.map List.length

def Passes (filter : Option (Chunked Bool)) (row : Nat) : Prop :=
  ∀ f, filter = some f → f.flatten[row]? = some true

instance (col : Chunked α) (filter : Option (Chunked Bool)) : Decidable (Aligned col filter) :=
  match filter with
  | none => .isTrue (by simp [Aligned])
  | some f => decidable_of_iff (f.map List.length = col.map List.length) (by simp [Aligned])

instance (filter : Option (Chunked Bool)) (row : Nat) : Decidable (Passes filter row) :=
  match filter with
  | none => .isTrue (by simp [Passes])
  | some f => decidable_of_iff (f.flatten[row]? = some true) (by simp [Passes])

theorem aligned_none (col : Chunked α) : Aligned col none := by
  intro f hf
  cases hf

theorem passes_none (row : Nat) : Passes none row := by
  intro f hf
  cases hf

/-! Selecting rows chunk by chunk selects them from the whole column. -/

theorem selectBits_append {vs ws : List α} {bs cs : List Bool} (h : bs.length = vs.length)
    : selectBits (vs ++ ws) (bs ++ cs)
        =
      (do
        let xs ← selectBits vs bs
        let ys ← selectBits ws cs
        return xs ++ ys) := by
  induction vs generalizing bs with
  | nil =>
    rw [List.length_nil, List.length_eq_zero_iff] at h
    subst h
    simp [selectBits]
  | cons v vs ih =>
    cases bs with
    | nil => simp at h
    | cons b bs =>
      simp only [List.length_cons, Nat.add_right_cancel_iff] at h
      simp only [List.cons_append, selectBits, ih h, Option.bind_eq_bind, Option.bind_assoc,
        Option.bind_some, Option.pure_def]
      congr 1
      funext xs
      congr 1
      funext ys
      split <;> rfl

theorem selectBits_eq_some {vs : List α} {bs : List Bool} (h : bs.length = vs.length)
    : selectBits vs bs = some (((vs.zip bs).filter Prod.snd).map Prod.fst) := by
  induction vs generalizing bs with
  | nil => rfl
  | cons v vs ih =>
    cases bs with
    | nil => simp at h
    | cons b bs =>
      simp only [List.length_cons, Nat.add_right_cancel_iff] at h
      simp only [selectBits, ih h, Option.bind_eq_bind, Option.bind_some, List.zip_cons_cons]
      cases b <;> rfl

theorem selectChunks_flatten {col : Chunked α} {filter : Chunked Bool}
    (h : filter.map List.length = col.map List.length)
    : ∃ out, selectChunks col filter = some out ∧ selectBits col.flatten filter.flatten = some out.flatten := by
  induction col generalizing filter with
  | nil => exact ⟨[], rfl, rfl⟩
  | cons c cs ih =>
    cases filter with
    | nil => simp at h
    | cons f fs =>
      simp only [List.map_cons, List.cons.injEq] at h
      obtain ⟨out, hout, hflat⟩ := ih h.2
      refine ⟨((c.zip f).filter Prod.snd).map Prod.fst :: out, ?_, ?_⟩
      . simp [selectChunks, selectBits_eq_some h.1, hout]
      . rw [List.flatten_cons, List.flatten_cons, selectBits_append h.1, hflat, selectBits_eq_some h.1]
        rfl

theorem length_flatten_of_aligned {col : Chunked α} {filter : Chunked Bool}
    (h : filter.map List.length = col.map List.length)
    : filter.flatten.length = col.flatten.length := by
  rw [List.length_flatten, List.length_flatten, h]

theorem filter_zip_eq_filter_zipIdx {vs : List α} {bs : List Bool} {offset : Nat} {p : Nat → Bool}
    (hlen : bs.length = vs.length) (hp : ∀ k < bs.length, bs[k]? = some (p (offset + k)))
    : ((vs.zip bs).filter Prod.snd).map Prod.fst
        =
      ((vs.zipIdx offset).filter fun x => p x.2).map Prod.fst := by
  induction vs generalizing bs offset with
  | nil => rfl
  | cons v vs ih =>
    cases bs with
    | nil => simp at hlen
    | cons b bs =>
      simp only [List.length_cons, Nat.add_right_cancel_iff] at hlen
      have hhead := hp 0 (by simp)
      have htail : ∀ k < bs.length, bs[k]? = some (p (offset + 1 + k)) := by
        intro k hk
        have := hp (k + 1) (by simpa using hk)
        rw [List.getElem?_cons_succ] at this
        rw [this]
        congr 2
        omega
      simp only [List.getElem?_cons_zero, Option.some.injEq, Nat.add_zero] at hhead
      simp only [List.zip_cons_cons, List.zipIdx_cons, List.filter_cons, ← hhead]
      split
      . rw [List.map_cons, List.map_cons, ih hlen htail]
      . exact ih hlen htail

theorem applyFilter_eq_some {col : Chunked α} {filter : Option (Chunked Bool)} (h : Aligned col filter)
    : ∃ out, applyFilter col filter = some out ∧
        out.flatten = (col.flatten.zipIdx.filter fun x => decide (Passes filter x.2)).map Prod.fst := by
  cases filter with
  | none =>
    refine ⟨col, rfl, ?_⟩
    have hall : (col.flatten.zipIdx.filter fun x => decide (Passes none x.2)) = col.flatten.zipIdx := by
      rw [List.filter_eq_self]
      intro x _
      exact decide_eq_true (passes_none x.2)
    rw [hall, List.zipIdx_map_fst]
  | some f =>
    have halign := h f rfl
    have hlen := length_flatten_of_aligned halign
    obtain ⟨out, hout, hflat⟩ := selectChunks_flatten halign
    refine ⟨out, hout, ?_⟩
    rw [selectBits_eq_some hlen, Option.some.injEq] at hflat
    rw [← hflat]
    refine filter_zip_eq_filter_zipIdx (p := fun row => decide (Passes (some f) row)) hlen ?_
    intro k hk
    rw [List.getElem?_eq_getElem hk, Nat.zero_add, Option.some.injEq]
    simp [Passes, List.getElem?_eq_getElem hk]

/-! Rows with their numbers. -/

theorem numbered_map_index (offset chunk : Nat) (vs : List α)
    : (numbered offset chunk vs).map (fun x => (x.2, x.1.index)) = vs.zipIdx offset := by
  induction vs generalizing offset with
  | nil => rfl
  | cons v vs ih => simp [numbered, ih]

theorem numberedFrom_map_index (offset chunk : Nat) (col : Chunked α)
    : (numberedFrom offset chunk col).flatten.map (fun x => (x.2, x.1.index)) = col.flatten.zipIdx offset := by
  induction col generalizing offset chunk with
  | nil => rfl
  | cons c cs ih =>
    simp only [numberedFrom, List.flatten_cons, List.map_append, numbered_map_index, ih, List.zipIdx_append]

theorem numberedFrom_aligned {col : Chunked α} {filter : Option (Chunked Bool)} (h : Aligned col filter)
    (offset chunk : Nat)
    : Aligned (numberedFrom offset chunk col) filter := by
  have hnumbered : ∀ (offset chunk : Nat) (vs : List α), (numbered offset chunk vs).length = vs.length := by
    intro offset chunk vs
    induction vs generalizing offset with
    | nil => rfl
    | cons v vs ih => simp [numbered, ih]
  have hlen : ∀ (offset chunk : Nat) (col : Chunked α),
      (numberedFrom offset chunk col).map List.length = col.map List.length := by
    intro offset chunk col
    induction col generalizing offset chunk with
    | nil => rfl
    | cons c cs ih => simp [numberedFrom, hnumbered, ih]
  intro f hf
  rw [h f hf, hlen]

theorem filter_zipIdx_numbered {rows : List (RecordID × α)} {offset : Nat} (p : Nat → Bool)
    (h : rows.map (fun x => x.1.index) = List.range' offset rows.length)
    : ((rows.zipIdx offset).filter fun x => p x.2).map Prod.fst = rows.filter fun x => p x.1.index := by
  induction rows generalizing offset with
  | nil => rfl
  | cons row rows ih =>
    simp only [List.map_cons, List.length_cons, List.range'_succ, List.cons.injEq] at h
    simp only [List.zipIdx_cons, List.filter_cons, h.1]
    split
    . rw [List.map_cons, ih h.2]
    . exact ih h.2

theorem numberedFrom_map_fst (offset chunk : Nat) (col : Chunked α)
    : (numberedFrom offset chunk col).flatten.map (fun x => x.1.index)
        =
      List.range' offset (numberedFrom offset chunk col).flatten.length := by
  have h := congrArg (List.map Prod.snd) (numberedFrom_map_index offset chunk col)
  have hlen := congrArg List.length (numberedFrom_map_index offset chunk col)
  rw [List.length_map, List.length_zipIdx] at hlen
  rw [List.map_map, List.zipIdx_map_snd] at h
  rw [hlen]
  exact h

theorem applyFilter_numberedFrom {col : Chunked α} {filter : Option (Chunked Bool)} (h : Aligned col filter)
    : ∃ out, applyFilter (numberedFrom 0 0 col) filter = some out ∧
        out.flatten = (numberedFrom 0 0 col).flatten.filter fun x => decide (Passes filter x.1.index) := by
  obtain ⟨out, hout, hflat⟩ := applyFilter_eq_some (numberedFrom_aligned h 0 0)
  refine ⟨out, hout, ?_⟩
  rw [hflat]
  exact filter_zipIdx_numbered (fun row => decide (Passes filter row)) (numberedFrom_map_fst 0 0 col)

/--
The numbers of the rows that pass the filter and have the value `key`.
-/
def matchingRows [DecidableEq α] (col : Chunked α) (filter : Option (Chunked Bool)) (key : α) : List Nat :=
  (col.flatten.zipIdx.filter fun x => x.1 = key ∧ Passes filter x.2).map Prod.snd

theorem mem_matchingRows [DecidableEq α] {col : Chunked α} {filter : Option (Chunked Bool)} {key : α}
    {row : Nat}
    : row ∈ matchingRows col filter key ↔ col.flatten[row]? = some key ∧ Passes filter row := by
  simp only [matchingRows, List.mem_map, List.mem_filter, decide_eq_true_eq, Prod.exists,
    exists_eq_right, List.mem_zipIdx_iff_getElem?]
  constructor
  . rintro ⟨v, hv, rfl, hpass⟩
    exact ⟨hv, hpass⟩
  . rintro ⟨hv, hpass⟩
    exact ⟨key, hv, rfl, hpass⟩

theorem matchingRows_nodup [DecidableEq α] (col : Chunked α) (filter : Option (Chunked Bool)) (key : α)
    : (matchingRows col filter key).Nodup := by
  have hsub : (matchingRows col filter key).Sublist (col.flatten.zipIdx.map Prod.snd) :=
    List.filter_sublist.map _
  apply hsub.nodup
  rw [List.zipIdx_map_snd]
  exact List.nodup_range'

/-! Hash tables. -/

abbrev HashTable := Map (BitVec 64) (List RecordID)

namespace HashTable

/--
What a row does to the hash table: it is added behind the rows with the same key.
-/
def push (t : HashTable) (row : RecordID × BitVec 64) : HashTable :=
  match t.lookup row.2 with
  | some ids => t.insert row.2 (ids ++ [row.1])
  | none => t.insert row.2 [row.1]

/--
`BuildHashTable` of `HashJoin`, `MultiwayJoin` and `SelectBuildHash`. The offset of the first chunk is
written even if there is none.
-/
def build (col : Chunked (BitVec 64)) (filter : Option (Chunked Bool)) : Option HashTable :=
  if col = [] then
    none
  else do
    let rows ← applyFilter (numberedFrom 0 0 col) filter
    return rows.flatten.foldl push ∅

def find (t : HashTable) (key : BitVec 64) : List RecordID :=
  (t.lookup key).getD []

theorem lookup_push (t : HashTable) (row : RecordID × BitVec 64) (key : BitVec 64)
    : (t.push row).lookup key = if key = row.2 then some (t.find key ++ [row.1]) else t.lookup key := by
  unfold push find
  split
  . next ids hids =>
    rw [Map.lookup_insert_eq]
    split
    . next heq => rw [heq, hids, Option.getD_some]
    . rfl
  . next hnone =>
    rw [Map.lookup_insert_eq]
    split
    . next heq => rw [heq, hnone, Option.getD_none, List.nil_append]
    . rfl

theorem lookup_foldl_push (t : HashTable) (rows : List (RecordID × BitVec 64)) (key : BitVec 64)
    : (rows.foldl push t).lookup key
        =
      if (rows.filter fun x => x.2 = key) = [] then
        t.lookup key
      else
        some (t.find key ++ (rows.filter fun x => x.2 = key).map Prod.fst) := by
  induction rows generalizing t with
  | nil => simp
  | cons row rows ih =>
    rw [List.foldl_cons, ih]
    have hfind : (t.push row).find key = if key = row.2 then t.find key ++ [row.1] else t.find key := by
      unfold find
      rw [lookup_push]
      split <;> rfl
    rw [lookup_push, hfind, List.filter_cons]
    by_cases heq : key = row.2
    . have heq' : row.2 = key := heq.symm
      simp only [heq, decide_true, if_true, reduceCtorEq, if_false, List.map_cons]
      split
      . next hnil => rw [hnil, List.map_nil]
      . simp
    . have heq' : ¬row.2 = key := fun h => heq h.symm
      simp only [heq, heq', decide_false, Bool.false_eq_true, if_false]

theorem find_build {col : Chunked (BitVec 64)} {filter : Option (Chunked Bool)} (hcol : col ≠ [])
    (h : Aligned col filter)
    : ∃ t, build col filter = some t ∧
        ∀ key, (t.find key).map RecordID.index = matchingRows col filter key ∧
          (t.lookup key = none ↔ matchingRows col filter key = []) := by
  obtain ⟨out, hout, hflat⟩ := applyFilter_numberedFrom h
  refine ⟨out.flatten.foldl push ∅, ?_, ?_⟩
  . simp [build, hcol, hout]
  . intro key
    have hrows : (out.flatten.filter fun x => x.2 = key).map (fun x => x.1.index)
        = matchingRows col filter key := by
      rw [hflat, List.filter_filter, matchingRows, ← numberedFrom_map_index 0 0 col, List.filter_map,
        List.map_map]
      simp only [Function.comp_def, Bool.decide_and]
    have hnil : (out.flatten.filter fun x => x.2 = key) = [] ↔ matchingRows col filter key = [] := by
      rw [← hrows, List.map_eq_nil_iff]
    have hempty : find ∅ key = [] := rfl
    have hlookup := lookup_foldl_push ∅ out.flatten key
    rw [hempty, List.nil_append] at hlookup
    constructor
    . rw [find, hlookup]
      split
      . next hnone => rw [hnil.mp hnone]; rfl
      . rw [Option.getD_some, List.map_map, ← hrows]
        rfl
    . rw [hlookup]
      split
      . next hnone => simp [hnil.mp hnone]
      . next hsome => simp [hnil.not.mp hsome]

end HashTable

end Hustle.Operators
