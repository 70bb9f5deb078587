import Hustle.Operators.LipResult

/-!
This module contains the joins of a fact table that has an array of indices, and when the filter that it still has
makes no difference.
-/

namespace Hustle.Operators

/-! Joining a fact table that has an array of indices. -/

namespace MultiwayJoin

variable {db : Tables} {size : Nat → Nat} {p : JoinPredicate} {tables : List Nat} {tuples : List (Nat → Nat)}

/--
The first join of a table that has been joined before.
-/
theorem hashJoin_gathered {result : OperatorResult} {left right : LazyTable}
    (hperm : (result.map LazyTable.table).Perm tables) (hnodup : tables.Nodup)
    (hfresh : ∀ t ∈ result, t.table ≠ p.leftTable → t.Fresh db ∧ t.hashTable = none) (hcols : db.HasColumns p)
    (hl : left ∈ result) (hgetl : result.getTable p.leftTable = some left) (hleft : left.Joined db tuples)
    (hr : right ∈ result) (hgetr : result.getTable p.rightTable = some right)
    (hne : p.leftTable ≠ p.rightTable)
    : ∃ s', hashJoin db size ⟨result, []⟩ p = some s' ∧
        Inv db tables [p.leftTable, p.rightTable]
          (Enumerates.extend p.rightTable (joinRows db p right) tuples) s' := by
  have hlt := OperatorResult.table_of_getTable hgetl
  have hrt := OperatorResult.table_of_getTable hgetr
  obtain ⟨hrfresh, hrhash⟩ := hfresh right hr (by rw [hrt]; exact hne.symm)
  obtain ⟨pairs, hpairs, hsnd, htake⟩ := joinPairs_joined hrfresh hrt hlt hcols (.inl hrhash) hleft size
  have hmem : ∀ {t}, t ∈ result → t.table ∈ tables := fun ht => hperm.mem_iff.mp (List.mem_map_of_mem ht)
  have hrows : ∀ ρ ∈ tuples, ρ p.leftTable < db.numRows p.leftTable := by
    intro ρ hρ
    rw [← hlt]
    exact hleft.rows_lt ρ hρ
  obtain ⟨result', hresult, hinv⟩ := @backPropogateResult_inv db
    ⟨result, [p.leftTable, p.rightTable]⟩ tables [p.leftTable, p.rightTable] tuples left right
    (pairs.map Prod.fst) (pairs.map Prod.snd)
    (Enumerates.extend p.rightTable (joinRows db p right) tuples)
    hperm hnodup (hmem hl) (hmem hr) (by rw [hlt, hrt]; exact hne)
    (by rw [updateIndices, hleft.indices, hlt]; exact htake _ hne) hleft.indexChunks
    (by rw [updateIndices, hrfresh.indices, hsnd, hrt]) (fun t => Iff.rfl) (by simp [hlt]) (by simp [hrt])
    (by
      intro t _ htl htr htj
      rw [hlt] at htl
      rw [hrt] at htr
      simp [htl, htr] at htj)
    (by
      intro t ht htj
      apply hfresh t ht
      rintro heq
      simp [heq] at htj)
    (by
      intro t ht
      rcases List.mem_cons.mp ht with rfl | ht
      . rw [← hlt]
        refine ⟨hleft.chunks, ?_⟩
        intro ρ' hρ'
        obtain ⟨ρ, hρ, hmem⟩ := List.mem_flatMap.mp hρ'
        obtain ⟨r, -, rfl⟩ := List.mem_map.mp hmem
        rw [hlt, Function.update_of_ne hne]
        exact hrows ρ hρ
      . rw [List.mem_singleton.mp ht]
        refine ⟨by rw [← hrt]; exact hrfresh.chunks, ?_⟩
        intro ρ' hρ'
        obtain ⟨ρ, hρ, hmem⟩ := List.mem_flatMap.mp hρ'
        obtain ⟨r, hmatch, rfl⟩ := List.mem_map.mp hmem
        rw [Function.update_self]
        exact ((mem_joinRows hcols (hrows ρ hρ)).mp hmatch).1)
  refine ⟨⟨result', [p.leftTable, p.rightTable]⟩, ?_, hinv⟩
  simp [hashJoin, hgetl, hgetr, hpairs, hresult]

theorem gathered_enumerates {indices : List Nat} (table : Nat) (hnodup : indices.Nodup)
    : Enumerates [table] (fun ρ => ρ table ∈ indices) (indices.map fun row _ => row) where
  nodup := by
    rw [List.map_map]
    apply hnodup.map
    intro row row' h
    simpa using h
  sound := by
    intro ρ hρ
    obtain ⟨row, hrow, rfl⟩ := List.mem_map.mp hρ
    exact hrow
  complete := by
    intro ρ hρ
    exact ⟨fun _ => ρ table, List.mem_map.mpr ⟨ρ table, hρ, rfl⟩, rfl⟩

/--
All joins, for a table that has an array of indices at first.
-/
theorem foldlM_gathered {result : OperatorResult} {left right : LazyTable} {rest : List JoinPredicate}
    {indices : List Nat} (htables : tables = p.leftTable :: p.rightTable :: rest.map JoinPredicate.rightTable)
    (hperm : (result.map LazyTable.table).Perm tables) (hdeep : LeftDeep [p.leftTable, p.rightTable] rest)
    (hfresh : ∀ t ∈ result, t.table ≠ p.leftTable → t.Fresh db ∧ t.hashTable = none)
    (hcols : ∀ p' ∈ p :: rest, db.HasColumns p')
    (hl : left ∈ result) (hgetl : result.getTable p.leftTable = some left)
    (hleft : left.Joined db (indices.map fun row _ => row)) (hindices : indices.Nodup)
    (hr : right ∈ result) (hgetr : result.getTable p.rightTable = some right)
    (hne : p.leftTable ≠ p.rightTable)
    : ∃ s tuples, (p :: rest).foldlM (hashJoin db size) ⟨result, []⟩ = some s ∧
        s.prevResult.Represents tables tuples ∧
        Enumerates tables (fun ρ => db.Satisfies tables (p :: rest) ρ ∧ ρ p.leftTable ∈ indices ∧
          Passes right.filter (ρ p.rightTable)) tuples := by
  have hlt := OperatorResult.table_of_getTable hgetl
  have hnodup : tables.Nodup := by
    rw [htables]
    exact LeftDeep.nodup hdeep (by simpa using hne)
  have hcol := hcols p (by simp)
  have hbounds : ∀ row ∈ indices, row < db.numRows p.leftTable := by
    intro row hrow
    have := hleft.rows_lt (fun _ => row) (List.mem_map_of_mem hrow)
    rwa [hlt] at this
  obtain ⟨s₁, hs₁, hinv₁⟩ := @hashJoin_gathered db size p tables (indices.map fun row _ => row) result left right
    hperm hnodup hfresh hcol hl hgetl hleft hr hgetr hne
  let first : (Nat → Nat) → Prop := fun ρ => ρ p.leftTable ∈ indices ∧ Passes right.filter (ρ p.rightTable)
  have henum₁ : Enumerates [p.leftTable, p.rightTable]
      (fun ρ => db.Satisfies [p.leftTable, p.rightTable] [p] ρ ∧ first ρ)
      (Enumerates.extend p.rightTable (joinRows db p right) (indices.map fun row _ => row)) := by
    have henum := enumerates_join (gathered_enumerates p.leftTable hindices) (by
        intro ρ ρ' heq h
        rw [← Enumerates.eq_of_map_eq heq (List.mem_singleton.mpr rfl)]
        exact h) (List.mem_singleton.mpr rfl) (by rw [List.mem_singleton]; exact hne.symm) hcol
      (fun ρ h => hbounds _ h) right
    apply henum.congr
    intro ρ
    constructor
    . rintro ⟨hmem, hrlt, hpass, hagrees⟩
      refine ⟨⟨?_, by simpa using hagrees⟩, hmem, hpass⟩
      intro t ht
      rcases List.mem_cons.mp ht with rfl | ht
      . exact hbounds _ hmem
      . rw [List.mem_singleton.mp ht]
        exact hrlt
    . rintro ⟨hsat, hmem, hpass⟩
      exact ⟨hmem, hsat.rows_lt _ (by simp), hpass, hsat.agrees _ (by simp)⟩
  have hdep : Enumerates.DependsOn [p.leftTable, p.rightTable] first := by
    intro ρ ρ' heq h
    simp only [first] at h ⊢
    rw [← Enumerates.eq_of_map_eq heq (show p.leftTable ∈ _ by simp),
      ← Enumerates.eq_of_map_eq heq (show p.rightTable ∈ _ by simp)]
    exact h
  obtain ⟨tuples, s, hs, hinv, henum⟩ := @foldlM_hashJoin db size s₁ tables
    [p.leftTable, p.rightTable] _ rest [p] first hinv₁ hnodup
    (by
      intro t ht
      rw [htables]
      exact ht)
    hdeep (fun p' hp' => hcols p' (by simp [hp']))
    (by
      intro p' hp'
      rw [List.mem_singleton.mp hp']
      simp)
    hdep henum₁
  refine ⟨s, tuples, ?_, ?_, ?_⟩
  . rw [List.foldlM_cons, hs₁]
    exact hs
  . have := hinv.represents (by
      intro t ht
      rw [htables]
      exact ht)
    rw [htables]
    exact this
  . rw [htables]
    exact henum

end MultiwayJoin

/-! The filter of the fact table. -/

/--
The chunks of the filter are long enough for the slices of any array of at most `n` indices.
-/
def CoversSlices (f : Chunked Bool) (n : Nat) : Prop :=
  ∀ i ≤ n / sliceLength, ∃ bits, f[i]? = some bits ∧ min sliceLength (n - i * sliceLength) ≤ bits.length

/--
The row is in the chunk.
-/
def InChunk (lengths : List Nat) (row chunk : Nat) : Prop :=
  (lengths.take chunk).sum ≤ row ∧ row < (lengths.take (chunk + 1)).sum

theorem selectBits_all {α : Type} {vs : List α} {bits : List Bool} (hlen : vs.length ≤ bits.length)
    (hall : ∀ b ∈ bits, b = true)
    : selectBits vs bits = some vs := by
  induction vs generalizing bits with
  | nil => rfl
  | cons v vs ih =>
    cases bits with
    | nil => simp at hlen
    | cons b bits =>
      have hb := hall b (by simp)
      rw [selectBits, ih (by simpa using hlen) (fun b hb => hall b (by simp [hb]))]
      simp [hb]

theorem selectChunks_all {α : Type} {col : Chunked α} {f : Chunked Bool}
    (h : ∀ (i : Nat) (chunk : List α), col[i]? = some chunk →
      ∃ bits : List Bool, f[i]? = some bits ∧ chunk.length ≤ bits.length)
    (hall : ∀ b ∈ f.flatten, b = true)
    : selectChunks col f = some col := by
  induction col generalizing f with
  | nil => rfl
  | cons chunk col ih =>
    cases f with
    | nil =>
      obtain ⟨bits, hbits, -⟩ := h 0 chunk rfl
      cases hbits
    | cons bits f =>
      obtain ⟨bits', hbits, hlen⟩ := h 0 chunk rfl
      cases hbits
      have hrest := @ih f (fun i chunk hi => h (i + 1) chunk hi) (fun b hb => hall b (by simp [hb]))
      rw [selectChunks, selectBits_all hlen (fun b hb => hall b (by simp [hb])), hrest]
      rfl

theorem numbered_length {α : Type} (offset chunk : Nat) (vs : List α) : (numbered offset chunk vs).length = vs.length := by
  induction vs generalizing offset with
  | nil => rfl
  | cons v vs ih => rw [numbered, List.length_cons, List.length_cons, ih]

theorem HashTable.probe_all (t : HashTable) {col : Chunked (BitVec 64)} {f : Chunked Bool} {size : Nat → Nat}
    (hcol : col ≠ [])
    (h : ∀ (i : Nat) (chunk : List (BitVec 64)), col[i]? = some chunk →
      ∃ bits : List Bool, f[i]? = some bits ∧ chunk.length ≤ bits.length)
    (hall : ∀ b ∈ f.flatten, b = true)
    : t.probe col (some f) size = t.probe col none size := by
  have hsel : selectChunks (numberedFrom 0 0 col) f = some (numberedFrom 0 0 col) := by
    apply selectChunks_all _ hall
    intro i rows hi
    have hlt : i < col.length := by
      rw [← length_numberedFrom 0 0 col]
      exact (List.getElem?_eq_some_iff.mp hi).1
    have hchunk := List.getElem?_eq_getElem hlt
    obtain ⟨bits, hbits, hlen⟩ := h i col[i] hchunk
    rw [getElem?_numberedFrom hchunk, Option.some.injEq] at hi
    refine ⟨bits, hbits, ?_⟩
    rw [← hi, numbered_length]
    exact hlen
  rw [@probe_eq t col (some f) size _ hcol hsel, @probe_eq t col none size _ hcol rfl]

theorem slices_covered {α : Type} {f : Chunked Bool} {n : Nat} (h : CoversSlices f n) {l : List α}
    (hlen : l.length ≤ n) {i : Nat} {slice : List α} (hi : (slices l)[i]? = some slice)
    : ∃ bits, f[i]? = some bits ∧ slice.length ≤ bits.length := by
  rw [slices, List.getElem?_map] at hi
  obtain ⟨j, hj, rfl⟩ := Option.map_eq_some_iff.mp hi
  obtain ⟨hlt, rfl⟩ := List.getElem?_eq_some_iff.mp hj
  rw [List.length_range] at hlt
  have hle : i ≤ n / sliceLength := by
    have := Nat.div_le_div_right (c := sliceLength) hlen
    omega
  obtain ⟨bits, hbits, hmin⟩ := h i hle
  refine ⟨bits, hbits, ?_⟩
  rw [List.getElem_range, List.length_take, List.length_drop]
  omega

theorem slice_of_position {α : Type} {l : List α} {k c : Nat}
    (hk : (((slices l).map List.length).take c).sum ≤ k ∧
      k < (((slices l).map List.length).take c).sum + ((slices l).map List.length).getD c 0)
    : k / sliceLength = c ∧ k < l.length := by
  have hc : c < l.length / sliceLength + 1 := by
    by_contra hge
    have hlen : ((slices l).map List.length).length ≤ c := by
      simp only [List.length_map, slices, List.length_range]
      omega
    rw [List.getD_eq_getElem?_getD, List.getElem?_eq_none hlen] at hk
    simp at hk
    omega
  have hmul := Nat.div_mul_le_self l.length sliceLength
  have hcs : c * sliceLength ≤ l.length :=
    (Nat.mul_le_mul_right sliceLength (Nat.lt_succ_iff.mp hc)).trans hmul
  have hoffset : (((slices l).map List.length).take c).sum = c * sliceLength := by
    have hall : ((slices l).map List.length).take c = List.replicate c sliceLength := by
      apply List.ext_getElem
      . simp only [slices, List.length_take, List.length_map, List.length_range, List.length_replicate]
        omega
      . intro i hi hi'
        have hic : (i + 1) * sliceLength ≤ c * sliceLength := by
          apply Nat.mul_le_mul_right
          simpa using hi'
        simp only [slices, List.getElem_take, List.getElem_map, List.getElem_range, List.length_take,
          List.length_drop, List.getElem_replicate]
        rw [Nat.add_mul, Nat.one_mul] at hic
        omega
    simp [hall]
  have hlen : ((slices l).map List.length).getD c 0 = min sliceLength (l.length - c * sliceLength) := by
    rw [List.getD_eq_getElem?_getD]
    simp [slices, List.getElem?_range hc]
  rw [hoffset, hlen] at hk
  refine ⟨?_, by omega⟩
  apply Nat.div_eq_of_lt_le
  . exact hk.1
  . rw [Nat.add_mul, Nat.one_mul]
    omega

end Hustle.Operators
