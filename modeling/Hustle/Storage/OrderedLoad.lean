import Hustle.Storage.LoadedTable

/-!
This module contains the order of the rows in a table that only loads have filled, and what a load that succeeds says of
the arrays that it was given: no sum of sizes has overflowed, and every column has a value for every row.
-/

namespace Hustle.Storage

namespace SizedTable

/-! The order of the rows. -/

section

variable {roundUp : Nat → Nat} {pick : List Int → Nat} {t t' : SizedTable} {schema : Schema} {blockCapacity : Int}

/--
The rows of the blocks of a table that only loads have filled.
-/
def HoldsBlocks (schema : Schema) (blockCapacity : Int) (t : SizedTable) (contents : List (List Row)) : Prop :=
  Inv schema blockCapacity t contents ∧ PoolIs t.table contents

theorem new_holdsBlocks (schema : Schema) (blockCapacity : Int) (metadataEnabled : Bool)
    : HoldsBlocks schema blockCapacity (new schema blockCapacity metadataEnabled) [] := by
  refine ⟨⟨new_ok schema blockCapacity metadataEnabled, rfl, rfl, rfl, by simp, by simp⟩, ?_⟩
  intro k
  apply iff_of_false
  . intro h
    cases h
  . rintro ⟨-, rows, hrows, -⟩
    cases hrows

theorem flatten_set_last {contents : List (List Row)} {i : Nat} {rows : List Row} (hrows : contents[i]? = some rows)
    (hi : i + 1 = contents.length) (first : List Row)
    : (contents.set i (rows ++ first)).flatten = contents.flatten ++ first := by
  induction contents generalizing i with
  | nil => cases hrows
  | cons rows' contents ih =>
    cases i with
    | zero =>
      cases hrows
      rw [List.length_cons, Nat.add_right_cancel_iff, eq_comm, List.length_eq_zero_iff] at hi
      subst hi
      simp
    | succ i =>
      rw [List.set_cons_succ, List.flatten_cons, ih hrows (by simpa using hi), List.flatten_cons, List.append_assoc]

theorem flatten_fillBlocks (width capacity : Int) (contents : List (List Row)) (input : List Row)
    : (fillBlocks width capacity contents input).flatten = contents.flatten ++ input := by
  have hne : (if LastHasRoom width capacity contents then contents else contents ++ [[]]) ≠ [] := by
    split
    . next hroom =>
      rintro rfl
      obtain ⟨rows, hrows, -⟩ := hroom
      cases hrows
    . simp
  have hflat : (if LastHasRoom width capacity contents then contents else contents ++ [[]]).flatten
      = contents.flatten := by
    split
    . rfl
    . rw [List.flatten_append, List.flatten_singleton, List.append_nil]
  unfold fillBlocks
  dsimp only
  generalize (if LastHasRoom width capacity contents then contents else contents ++ [[]]) = start at hne hflat ⊢
  have hlen := List.length_pos_iff.mpr hne
  have hlast : start[start.length - 1]? = some (start.getLastD []) := by
    rw [List.getLastD_eq_getLast?, ← List.getLast?_eq_getElem?, List.getLast?_eq_some_getLast hne]
    rfl
  rw [List.flatten_append, flatten_set_last hlast (by omega), hflat, List.append_assoc, Fill.pieces_flatten,
    List.nil_append]

theorem HoldsBlocks.insertRecords (hround : ∀ n, n ≤ roundUp n) (hroomy : Roomy schema blockCapacity)
    (hcapacity : blockCapacity ≤ maxInt) {columnData : List ArrayData} {input : List Row}
    {contents : List (List Row)} (hbatch : IsBatch schema columnData input)
    (h : HoldsBlocks schema blockCapacity t contents) (hfits : LoadFits roundUp pick t columnData)
    : ∃ t', t.insertRecords roundUp pick columnData = some t' ∧ HoldsBlocks schema blockCapacity t'
        (fillBlocks (computeFixedRecordWidth schema) blockCapacity contents input) := by
  obtain ⟨hinv, hpool⟩ := h
  obtain ⟨t', contents', k, i, hload, -, -, hinv', -, hpool'⟩ := hinv.insertRecords hround hroomy hcapacity hbatch hfits
  obtain ⟨hpool', rfl⟩ := hpool' hpool
  exact ⟨t', hload, hinv', hpool'⟩

/-! What a load that succeeds says of the sizes. -/

/--
Where the loop gets through, no sum overflows. The rows that wait to be inserted are the same as in `Lawful.loadFrom`.
-/
theorem bounded_of_loadFrom {start : DBTable} (hlawful : (loader roundUp).Lawful schema blockCapacity (Loading start)
      Small) (hcapacity : blockCapacity ≤ maxInt) {columnData : List ArrayData} {input : List Row}
    (hdata : ArrayData.HoldRows schema.fields columnData input)
    (htype : ∀ row ∈ input, Row.HasType schema.fields row) (hoffset : ∀ a ∈ columnData, a.offset = 0)
    {done todo : List Row} (hinput : input = done ++ todo) {s s' : Loader.State SizedTable} {i : Nat}
    {contents : List (List Row)} {rows : List Row} (hs : Loading start s.table s.block i contents)
    (hrows : contents[i]? = some rows) (hle : s.offset ≤ done.length)
    (hsize : s.dataSize = ((done.drop s.offset).map rowSize).sum) (hsmall : Small (rows ++ done.drop s.offset))
    (hcount : (rows.length + input.length : Int) ≤ maxInt)
    (hrun : (List.range' done.length todo.length).foldlM ((loader roundUp).loadRow columnData) s = some s')
    : Fill.Bounded rowSize blockCapacity maxInt (blockCapacity - (rows.map rowSize).sum) (done.drop s.offset) todo := by
  induction todo generalizing done s i contents rows with
  | nil => trivial
  | cons x todo ih =>
    have hx := Loader.recordSize_of_append hdata htype hoffset hinput
    have hbytes := hlawful.bytesLeft hs hrows
    have hinput' : input = (done ++ [x]) ++ todo := by
      rw [hinput, List.append_assoc, List.singleton_append]
    have hlen : (done ++ [x]).length = done.length + 1 := by simp
    have hnonneg := Block.rowSize_nonneg x
    have hwaiting : 0 ≤ ((done.drop s.offset).map rowSize).sum := by
      apply List.sum_nonneg
      intro size hsize
      obtain ⟨row, -, rfl⟩ := List.mem_map.mp hsize
      exact Block.rowSize_nonneg row
    have htotal := congrArg List.length hinput
    rw [List.length_append, List.length_cons] at htotal
    rw [List.length_cons, List.range'_succ, List.foldlM_cons] at hrun
    obtain ⟨s₁, hrow, hrun⟩ := Option.bind_eq_some_iff.mp hrun
    rw [← hlen] at hrun
    simp only [Loader.loadRow, hx, hbytes, Option.bind_eq_bind, Option.bind_some, hsize] at hrow
    rw [Fill.Bounded]
    split at hrow
    . cases hrow
    . next hlimit =>
      refine ⟨Int.not_lt.mp hlimit, ?_⟩
      split at hrow
      . next hcut =>
        rw [if_pos hcut]
        obtain ⟨t₁, ht₁, hrow⟩ := Option.bind_eq_some_iff.mp hrow
        obtain ⟨⟨block₂, t₂⟩, ht₂, hrow⟩ := Option.bind_eq_some_iff.mp hrow
        cases hrow
        -- the rows that wait are inserted, and row `x` is the first one of a new block
        obtain ⟨t₁', block₂', t₂', ht₁', ht₂', hholds₂, hlast⟩ := hlawful.cut hdata htype hoffset hinput hs hrows hle
          hsmall
        rw [ht₁, Option.some.injEq] at ht₁'
        subst ht₁'
        rw [ht₂, Option.some.injEq, Prod.mk.injEq] at ht₂'
        obtain ⟨rfl, rfl⟩ := ht₂'
        have hdrop : (done ++ [x]).drop done.length = [x] := List.drop_left
        have hih := ih hinput' (s := ⟨t₂, block₂, done.length, rowSize x⟩) hholds₂ hlast (by simp)
          (by simp only [hdrop, List.map_singleton, List.sum_singleton])
          (by
            rw [hdrop, List.nil_append]
            constructor
            . rw [List.length_singleton]
              decide
            . rw [List.map_singleton, List.sum_singleton]
              omega)
          (by rw [List.length_nil]; omega) hrun
        rw [hdrop, List.map_nil, List.sum_nil, Int.sub_zero] at hih
        exact hih
      . next hfits =>
        rw [if_neg hfits]
        cases hrow
        have hdrop : (done ++ [x]).drop s.offset = done.drop s.offset ++ [x] := List.drop_append_of_le_length hle
        have hih := ih hinput'
          (s := { s with dataSize := ((done.drop s.offset).map rowSize).sum + rowSize x }) hs hrows
          (by rw [hlen]; exact Nat.le_succ_of_le hle) (by simp only [hdrop, List.map_append, List.sum_append,
            List.map_singleton, List.sum_singleton])
          (by
            rw [hdrop]
            constructor
            . rw [List.length_append, List.length_append, List.length_drop, List.length_singleton]
              omega
            . rw [List.map_append, List.sum_append, List.map_append, List.sum_append, List.map_singleton,
                List.sum_singleton]
              omega)
          hcount hrun
        rw [hdrop] at hih
        exact hih

theorem Inv.loadFits (hround : ∀ n, n ≤ roundUp n) (hroomy : Roomy schema blockCapacity)
    (hcapacity : blockCapacity ≤ maxInt) {columnData : List ArrayData} {input : List Row} {contents : List (List Row)}
    (hbatch : IsBatch schema columnData input) (hinv : Inv schema blockCapacity t contents)
    (hcount : (contents.flatten.length + input.length : Int) ≤ maxInt)
    (hload : t.insertRecords roundUp pick columnData = some t')
    : LoadFits roundUp pick t columnData := by
  obtain ⟨⟨first, hfirst, hlength⟩, hslices⟩ := ArrayData.sliceRows_eq hbatch.holdRows hbatch.hasType
  intro input' hinput'
  rw [hslices] at hinput'
  cases hinput'
  refine ⟨by rw [hinv.numRows_eq]; exact hcount, ?_⟩
  rintro ⟨ptr, t₁⟩ hget s hs
  obtain ⟨rfl, rfl⟩ := And.intro hinv.schema_eq hinv.blockCapacity_eq
  obtain ⟨ptr', t₁', k, i, hget', hi, hok, hptr, hsame, -⟩ := hinv.ok.getBlockForInsert hround hroomy pick
  rw [hget', Option.mem_some_iff, Prod.mk.injEq] at hget
  obtain ⟨rfl, rfl⟩ := hget
  have hlt : i < (contents ++ List.replicate k []).length := by simpa using hi
  have hrows := List.getElem?_eq_getElem hlt
  have hloading : Loading t.table t₁' ptr' i (contents ++ List.replicate k []) := ⟨hok, hptr, hsame⟩
  obtain ⟨s', hs', hsok⟩ := hloading.block hrows
  rw [hs', Option.mem_some_iff] at hs
  subst hs
  rw [hsok.repr.getBytesLeft_eq]
  have hlens := (List.sublist_flatten_of_mem (List.mem_of_getElem? hrows)).length_le
  rw [List.flatten_append, List.flatten_replicate_nil, List.append_nil] at hlens
  simp only [SizedTable.insertRecords, hfirst, hget', Option.bind_eq_bind, Option.bind_some, hlength] at hload
  obtain ⟨⟨ptr₂, t₂⟩, hrun, -⟩ := Option.bind_eq_some_iff.mp hload
  obtain ⟨s₁, hloop, -⟩ := Option.bind_eq_some_iff.mp hrun
  rw [List.range_eq_range'] at hloop
  refine bounded_of_loadFrom (loader_lawful hround hroomy) hcapacity hbatch.holdRows hbatch.hasType hbatch.offset
    (show input = [] ++ input from rfl) (s := ⟨t₁', ptr', 0, 0⟩) hloading hrows (Nat.le_refl 0) rfl ?_ (by omega) hloop
  rw [List.drop_nil, List.append_nil]
  rcases List.mem_append.mp (List.mem_of_getElem? hrows) with hmem | hmem
  . exact hinv.small _ hmem
  . rw [List.eq_of_mem_replicate hmem]
    exact ⟨by decide, by decide⟩

/-! What a load that succeeds says of the lengths. -/

end

end SizedTable

/--
The number of elements in the buffers.
-/
def ArrayData.bufferLength (a : ArrayData) : Nat :=
  match a.buffers with
  | .int64 values => values.length
  | .string offsets _ => offsets.length - 1

theorem ArrayData.bufferLength_int64 {a : ArrayData} {values : List (BitVec 64)} (h : a.buffers = .int64 values)
    : a.bufferLength = values.length := by
  rw [bufferLength, h]

theorem ArrayData.bufferLength_string {a : ArrayData} {offsets : List Int} {data : List UInt8}
    (h : a.buffers = .string offsets data)
    : a.bufferLength = offsets.length - 1 := by
  rw [bufferLength, h]

namespace Column

theorem le_of_insertSlice {c : Column} {numRows offset n : Nat} {vals : ArrayData} {x : Column × Int}
    (h : c.insertSlice numRows offset vals n = some x)
    : offset + n ≤ vals.bufferLength := by
  unfold insertSlice at h
  split at h
  . unfold insertValues at h
    split at h
    . next inValues hvals =>
      rw [ArrayData.bufferLength_int64 hvals]
      obtain ⟨vs, hvs, -⟩ := Option.bind_eq_some_iff.mp h
      exact (Buffer.readAt_eq_some_iff.mp hvs).1
    . cases h
  . unfold insertStrings at h
    split at h
    . cases h
    . next inOffsets inData hvals =>
      rw [ArrayData.bufferLength_string hvals]
      obtain ⟨inStart, -, h⟩ := Option.bind_eq_some_iff.mp h
      obtain ⟨inStop, hstop, -⟩ := Option.bind_eq_some_iff.mp h
      have := (List.getElem?_eq_some_iff.mp hstop).1
      omega

theorem le_of_insertSlices {numRows offset n : Nat} {cs : List Column} {columnData : List ArrayData}
    {x : List Column × Int} (hlen : cs.length = columnData.length)
    (h : insertSlices numRows offset n cs columnData = some x)
    : x.1.length = cs.length ∧ ∀ a ∈ columnData, offset + n ≤ a.bufferLength := by
  induction cs generalizing columnData x with
  | nil =>
    cases h
    cases columnData with
    | nil => exact ⟨rfl, by simp⟩
    | cons a columnData => cases hlen
  | cons c cs ih =>
    cases columnData with
    | nil => cases hlen
    | cons a columnData =>
      obtain ⟨y, hy, h⟩ := Option.bind_eq_some_iff.mp h
      obtain ⟨ys, hys, h⟩ := Option.bind_eq_some_iff.mp h
      cases h
      obtain ⟨hlength, hle⟩ := ih (by simpa using hlen) hys
      refine ⟨by simp [hlength], ?_⟩
      intro a' ha'
      rcases List.mem_cons.mp ha' with rfl | ha'
      . exact le_of_insertSlice hy
      . exact hle a' ha'

end Column

theorem SizedBlock.le_of_insertRecords {roundUp : Nat → Nat} {s : SizedBlock} {columnData : List ArrayData}
    {first : ArrayData} {x : Int × SizedBlock} (hfirst : columnData.head? = some first)
    (hlen : s.block.columns.length = columnData.length) (h : s.insertRecords roundUp columnData = some x)
    : x.2.block.columns.length = s.block.columns.length ∧
        (first.length ≠ 0 → ∀ a ∈ columnData, first.offset + first.length ≤ a.bufferLength) := by
  simp only [SizedBlock.insertRecords, hfirst, Option.bind_eq_bind, Option.bind_some] at h
  split at h
  . next hzero =>
    cases h
    exact ⟨rfl, fun hne => absurd hzero hne⟩
  . next hne =>
    obtain ⟨⟨res, block⟩, hblock, h⟩ := Option.bind_eq_some_iff.mp h
    obtain ⟨valid, -, h⟩ := Option.bind_eq_some_iff.mp h
    obtain ⟨memory, -, h⟩ := Option.bind_eq_some_iff.mp h
    obtain ⟨s', hcheck, h⟩ := Option.bind_eq_some_iff.mp h
    cases h
    unfold SizedBlock.check at hcheck
    split at hcheck
    . cases hcheck
      simp only [Block.insertRecords, hfirst, Option.bind_eq_bind, Option.bind_some, if_neg hne] at hblock
      obtain ⟨y, hy, hblock⟩ := Option.bind_eq_some_iff.mp hblock
      cases hblock
      obtain ⟨bits, hbits, -⟩ := Block.setValidRange_eq (zeroPadding s.block
        (s.valid.resize roundUp (s.valid.size + first.length / 8 + 1))) first.length
      rw [hbits] at hy
      obtain ⟨hlength, hle⟩ := Column.le_of_insertSlices hlen hy
      exact ⟨hlength, fun _ => hle⟩
    . cases hcheck

namespace SizedTable

section

variable {roundUp : Nat → Nat} {pick : List Int → Nat} {t t' : SizedTable} {n : Nat}

structure ColumnsMatch (n : Nat) (t : SizedTable) : Prop where
  fields : t.table.schema.fields.length = n
  columns : ∀ b ∈ t.table.heap, b.columns.length = n

theorem ColumnsMatch.block (h : t.ColumnsMatch n) {ptr : BlockPtr} {s : SizedBlock} (hs : t.block ptr = some s)
    : s.block.columns.length = n := by
  obtain ⟨b, hb, hs⟩ := Option.bind_eq_some_iff.mp hs
  obtain ⟨m, -, hs⟩ := Option.bind_eq_some_iff.mp hs
  cases hs
  exact h.columns b (List.mem_of_getElem? hb)

theorem ColumnsMatch.setBlock (h : t.ColumnsMatch n) {ptr : BlockPtr} {s : SizedBlock}
    (hs : s.block.columns.length = n)
    : (t.setBlock ptr s).ColumnsMatch n := by
  refine ⟨h.fields, ?_⟩
  intro b hb
  rcases List.mem_or_eq_of_mem_set hb with hb | rfl
  . exact h.columns b hb
  . exact hs

theorem ColumnsMatch.createBlock (h : t.ColumnsMatch n) {ptr : BlockPtr}
    (hcreate : t.createBlock roundUp = some (ptr, t'))
    : t'.ColumnsMatch n := by
  obtain ⟨s, -, hcreate⟩ := Option.bind_eq_some_iff.mp hcreate
  cases hcreate
  refine ⟨h.fields, ?_⟩
  intro b hb
  rcases List.mem_append.mp hb with hb | hb
  . exact h.columns b hb
  . rw [List.mem_singleton.mp hb, Block.new, List.length_map]
    exact h.fields

theorem ColumnsMatch.getBlockForInsert (h : t.ColumnsMatch n) {ptr : BlockPtr}
    (hget : t.getBlockForInsert roundUp pick = some (ptr, t'))
    : t'.ColumnsMatch n := by
  unfold SizedTable.getBlockForInsert at hget
  dsimp only at hget
  split at hget
  . exact h.createBlock hget
  . cases hget
    exact ⟨h.fields, h.columns⟩

theorem ColumnsMatch.loaderInsert (h : t.ColumnsMatch n) {ptr : BlockPtr} {columnData : List ArrayData}
    {first : ArrayData} (hfirst : columnData.head? = some first) (hlen : columnData.length = n)
    (hinsert : (loader roundUp).insertRecords t ptr columnData = some t')
    : t'.ColumnsMatch n ∧ (first.length ≠ 0 → ∀ a ∈ columnData, first.offset + first.length ≤ a.bufferLength) := by
  obtain ⟨s, hs, hinsert⟩ := Option.bind_eq_some_iff.mp hinsert
  obtain ⟨x, hx, hinsert⟩ := Option.bind_eq_some_iff.mp hinsert
  cases hinsert
  have hcolumns := h.block hs
  obtain ⟨hlength, hle⟩ := SizedBlock.le_of_insertRecords hfirst (by rw [hcolumns, hlen]) hx
  exact ⟨h.setBlock (by rw [hlength, hcolumns]), hle⟩

theorem ColumnsMatch.loadRow (l : Nat) {columnData : List ArrayData} (hlen : columnData.length = n)
    (hne : columnData ≠ []) (s : Loader.State SizedTable) (row : Nat) (s' : Loader.State SizedTable)
    (h : s.table.ColumnsMatch n ∧ (s.offset = 0 ∨ s.offset < l)) (hrow : True ∧ row < l)
    (hload : (loader roundUp).loadRow columnData s row = some s')
    : s'.table.ColumnsMatch n ∧ (s'.offset = 0 ∨ s'.offset < l) := by
  obtain ⟨size, -, hload⟩ := Option.bind_eq_some_iff.mp hload
  obtain ⟨bytesLeft, -, hload⟩ := Option.bind_eq_some_iff.mp hload
  split at hload
  . cases hload
  . split at hload
    . obtain ⟨t₁, ht₁, hload⟩ := Option.bind_eq_some_iff.mp hload
      obtain ⟨⟨block, t₂⟩, ht₂, hload⟩ := Option.bind_eq_some_iff.mp hload
      cases hload
      have hslices : (sliceAll columnData s.offset (row - s.offset)).head?
          = (columnData.head?).map fun a => a.slice s.offset (row - s.offset) := List.head?_map
      rw [List.head?_eq_some_head hne] at hslices
      have h₁ := (h.1.loaderInsert hslices (by rw [sliceAll, List.length_map, hlen]) ht₁).1
      exact ⟨h₁.createBlock ht₂, .inr hrow.2⟩
    . cases hload
      exact h

theorem ColumnsMatch.insertRecords (h : t.ColumnsMatch n) {columnData : List ArrayData} {first : ArrayData}
    (hfirst : columnData.head? = some first) (hoffset : first.offset = 0) (hlen : columnData.length = n)
    (hload : t.insertRecords roundUp pick columnData = some t')
    : t'.ColumnsMatch n ∧ ∀ a ∈ columnData, first.length ≤ a.bufferLength := by
  have hne : columnData ≠ [] := by
    rintro rfl
    cases hfirst
  simp only [SizedTable.insertRecords, hfirst, Option.bind_eq_bind, Option.bind_some] at hload
  obtain ⟨⟨ptr, t₁⟩, hget, hload⟩ := Option.bind_eq_some_iff.mp hload
  obtain ⟨⟨ptr', t₂⟩, hrun, hload⟩ := Option.bind_eq_some_iff.mp hload
  obtain ⟨s, -, hload⟩ := Option.bind_eq_some_iff.mp hload
  cases hload
  obtain ⟨s₁, hloop, hrest⟩ := Option.bind_eq_some_iff.mp hrun
  obtain ⟨t₃, ht₃, hrest⟩ := Option.bind_eq_some_iff.mp hrest
  cases hrest
  have hrows : Run.Meets ((loader roundUp).loadRow columnData) (fun _ row => True ∧ row < first.length) ⟨t₁, ptr, 0, 0⟩
      (List.range first.length) :=
    (Run.meets_true _ _ _).and_forall fun row hrow => List.mem_range.mp hrow
  obtain ⟨hmatch, hoff⟩ := Run.Meets.invariant (ColumnsMatch.loadRow first.length hlen hne) hrows
    ⟨h.getBlockForInsert hget, .inl rfl⟩ hloop
  have hslices : (sliceAll columnData s₁.offset (first.length - s₁.offset)).head?
      = some (first.slice s₁.offset (first.length - s₁.offset)) := by
    rw [sliceAll, List.head?_map, hfirst]
    rfl
  obtain ⟨hmatch', hle⟩ := hmatch.loaderInsert hslices (by rw [sliceAll, List.length_map, hlen]) ht₃
  refine ⟨?_, ?_⟩
  . unfold DBTable.offerBlock
    split
    . exact ⟨hmatch'.fields, hmatch'.columns⟩
    . exact ⟨hmatch'.fields, hmatch'.columns⟩
  . intro a ha
    by_cases hzero : first.length = 0
    . rw [hzero]
      exact Nat.zero_le _
    . have hlt : s₁.offset < first.length := by omega
      have hslice := hle (by
        simp only [ArrayData.slice]
        omega) (a.slice s₁.offset (first.length - s₁.offset)) (List.mem_map_of_mem ha)
      simp only [ArrayData.slice, ArrayData.bufferLength, hoffset] at hslice ⊢
      omega

end

end SizedTable

end Hustle.Storage
