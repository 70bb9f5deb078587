import Hustle.Storage.SizedTable

/-!
This module contains tables that are filled by bulk loads: what one load does to the rows of the blocks, and what holds
after any number of them.
-/

namespace Hustle.Storage

namespace SizedTable

variable {roundUp : Nat → Nat} {pick : List Int → Nat} {t : SizedTable} {contents : List (List Row)}

/--
The numbers of rows and bytes of a block are `int`s.
-/
def Small (rows : List Row) : Prop :=
  (rows.length : Int) ≤ maxInt ∧ (rows.map rowSize).sum ≤ maxInt

/--
The table during a load that started with `start`.
-/
structure Loading (start : DBTable) (t : SizedTable) (ptr : BlockPtr) (i : Nat) (contents : List (List Row))
    : Prop where
  ok : t.Ok contents
  lookup : t.table.blocks.lookup (i : Int) = some ptr
  sameRows : DBTable.SameRows start t.table

theorem Loading.block {start : DBTable} {ptr : BlockPtr} {i : Nat} {rows : List Row}
    (h : Loading start t ptr i contents) (hrows : contents[i]? = some rows)
    : ∃ s, t.block ptr = some s ∧ s.Ok i start.schema start.blockCapacity rows := by
  obtain ⟨s, hs, hok⟩ := h.ok.block hrows h.lookup
  rw [h.sameRows.schema_eq, h.sameRows.blockCapacity_eq] at hok
  exact ⟨s, hs, hok⟩

theorem Loading.setBlock {start : DBTable} {ptr : BlockPtr} {i : Nat} {rows : List Row} {s : SizedBlock}
    (h : Loading start t ptr i contents) (hs : s.Ok i start.schema start.blockCapacity rows)
    : Loading start (t.setBlock ptr s) ptr i (contents.set i rows) := by
  have hsame := h.sameRows
  refine ⟨h.ok.setBlock h.lookup ?_, h.lookup, ⟨hsame.schema_eq, hsame.blockCapacity_eq, hsame.blockMap_eq,
    hsame.numRows_eq⟩⟩
  rw [h.sameRows.schema_eq, h.sameRows.blockCapacity_eq]
  exact hs

theorem loader_lawful (hround : ∀ n, n ≤ roundUp n) {start : DBTable}
    (hroomy : Roomy start.schema start.blockCapacity)
    : (loader roundUp).Lawful start.schema start.blockCapacity (Loading start) Small where
  bytesLeft := by
    intro t ptr i contents rows h hrows
    obtain ⟨s, hs, hok⟩ := h.block hrows
    simp [loader, hs, hok.repr.getBytesLeft_eq]
  insertRecords := by
    intro t ptr i contents rows columnData new h hrows hnew htype hoffset hsmall
    obtain ⟨s, hs, hok⟩ := h.block hrows
    have hcount : (s.block.numRows + new.length : Int) ≤ maxInt := by
      have := hsmall.1
      rw [List.length_append] at this
      rw [hok.repr.numRows_eq]
      omega
    have hbytes : s.block.numBytes + (new.map rowSize).sum ≤ maxInt := by
      have := hsmall.2
      rw [List.map_append, List.sum_append] at this
      rw [hok.repr.numBytes_eq, hok.repr.columns_eq, Column.totalSize_ofRows hok.repr.hasType]
      exact this
    simp only [loader, hs, Option.bind_eq_bind, Option.bind_some]
    rcases hok.insertRecords hround hnew htype hoffset hcount hbytes with ⟨hrun, rfl⟩ | ⟨res, s', -, hrun, hok'⟩
    . rw [List.append_nil, hrun]
      exact ⟨_, rfl, h.setBlock hok⟩
    . rw [hrun]
      exact ⟨_, rfl, h.setBlock hok'⟩
  createBlock := by
    intro t ptr i contents h
    rw [← h.sameRows.schema_eq, ← h.sameRows.blockCapacity_eq] at hroomy
    obtain ⟨ptr', t', hcreate, hok, hptr, hsame, -⟩ := h.ok.createBlock hround hroomy
    exact ⟨ptr', t', hcreate, hok, hptr, h.sameRows.trans hsame⟩

/--
The rows of `input` are appended to the block that the load starts with, and to new ones.
-/
structure Appended (capacity : Int) (contents : List (List Row)) (i : Nat) (input : List Row)
    (contents' : List (List Row)) : Prop where
  split : ∃ rows first rest, contents[i]? = some rows ∧ contents' = contents.set i (rows ++ first) ++ rest ∧
    first ++ rest.flatten = input ∧ (first = [] ∨ ((rows ++ first).map rowSize).sum ≤ capacity) ∧
    ∀ bin ∈ rest, (bin.map rowSize).sum ≤ capacity ∨ bin.length = 1
  small : ∀ rows ∈ contents', Small rows

theorem Appended.length_flatten {capacity : Int} {i : Nat} {input : List Row} {contents' : List (List Row)}
    (h : Appended capacity contents i input contents')
    : contents'.flatten.length = contents.flatten.length + input.length := by
  obtain ⟨rows, first, rest, hrows, rfl, rfl, -, -⟩ := h.split
  have hset := DBTable.length_flatten_set hrows (rows ++ first)
  simp only [List.flatten_append, List.length_append] at hset ⊢
  omega

theorem appended_of_pieces {capacity : Int} (hcapacity : capacity ≤ maxInt) {i : Nat}
    {rows input first : List Row} {rest : List (List Row)} (hrows : contents[i]? = some rows)
    (hpieces : Fill.pieces rowSize capacity (capacity - (rows.map rowSize).sum) [] input = (first, rest))
    (hbounded : Fill.Bounded rowSize capacity maxInt (capacity - (rows.map rowSize).sum) [] input)
    (hcount : (contents.flatten.length + input.length : Int) ≤ maxInt) (hsmall : ∀ rows ∈ contents, Small rows)
    : Appended capacity contents i input (contents.set i (rows ++ first) ++ rest) := by
  have hflatten := @Fill.pieces_flatten _ rowSize capacity (capacity - (rows.map rowSize).sum) [] input
  have hfst := @Fill.pieces_fst _ rowSize capacity (capacity - (rows.map rowSize).sum) [] input
  have hsnd := @Fill.pieces_snd _ rowSize capacity (capacity - (rows.map rowSize).sum) [] input
  have hlimit := Fill.sum_pieces_le Block.rowSize_nonneg (by decide) hbounded
  rw [hpieces] at hflatten hfst hsnd hlimit
  rw [List.nil_append] at hflatten
  have hinput : input.length = first.length + rest.flatten.length := by
    rw [← hflatten, List.length_append]
  have hmem := List.mem_of_getElem? hrows
  have hlens := (List.sublist_flatten_of_mem hmem).length_le
  have hfirst : first = [] ∨ ((rows ++ first).map rowSize).sum ≤ capacity := by
    rcases hfst with heq | hle
    . exact .inl heq
    . right
      rw [List.map_append, List.sum_append]
      dsimp only at hle
      omega
  constructor
  . refine ⟨rows, first, rest, hrows, rfl, hflatten, hfirst, ?_⟩
    intro bin hbin
    rcases (hsnd bin hbin).2 with hle | ⟨x, rfl⟩
    . exact .inl hle
    . exact .inr rfl
  . intro rows' hrows'
    rcases List.mem_append.mp hrows' with hrows' | hrows'
    . rcases List.mem_or_eq_of_mem_set hrows' with hrows' | rfl
      . exact hsmall rows' hrows'
      . constructor
        . rw [List.length_append]
          omega
        . rcases hfirst with rfl | hle
          . rw [List.append_nil]
            exact (hsmall rows hmem).2
          . omega
    . have hsub := (List.sublist_flatten_of_mem hrows').length_le
      exact ⟨by omega, hlimit.2 rows' hrows'⟩

/-! The insert pool. -/

/--
The last block has room for another record.
-/
def LastHasRoom (fixedRecordWidth blockCapacity : Int) (contents : List (List Row)) : Prop :=
  ∃ rows ∈ contents.getLast?, fixedRecordWidth < blockCapacity - (rows.map rowSize).sum

instance : Decidable (LastHasRoom fixedRecordWidth blockCapacity contents) :=
  inferInstanceAs (Decidable (∃ _ ∈ _, _))

/--
The blocks after a load of a table that only such loads have filled. It starts with the last block or with a new one.
-/
def fillBlocks (fixedRecordWidth blockCapacity : Int) (contents : List (List Row)) (input : List Row)
    : List (List Row) :=
  let contents := if LastHasRoom fixedRecordWidth blockCapacity contents then contents else contents ++ [[]]
  let rows := contents.getLastD []
  let pieces := Fill.pieces rowSize blockCapacity (blockCapacity - (rows.map rowSize).sum) [] input
  contents.set (contents.length - 1) (rows ++ pieces.1) ++ pieces.2

/--
The last block of the table is in the insert pool if it has room, and no other block is.
-/
def PoolIs (t : DBTable) (contents : List (List Row)) : Prop :=
  ∀ k, (t.insertPool.lookup k).isSome ↔
    k + 1 = contents.length ∧ LastHasRoom t.fixedRecordWidth t.blockCapacity contents

theorem PoolIs.getBlockForInsert (h : PoolIs t.table contents) {ptr : BlockPtr} {t' : SizedTable}
    (hget : t.getBlockForInsert roundUp pick = some (ptr, t')) (k : Int)
    : t'.table.insertPool.lookup k = none := by
  unfold SizedTable.getBlockForInsert at hget
  dsimp only at hget
  split at hget
  . next heq =>
    have hempty : t.table.insertPool.entries = [] := by
      rw [List.getElem?_eq_none_iff] at heq
      cases hentries : t.table.insertPool.entries with
      | nil => rfl
      | cons entry entries =>
        have hlen : t.table.insertPool.keys.length = entries.length + 1 := by
          simp [AList.keys, List.keys, hentries]
        have := Nat.mod_lt (pick t.table.insertPool.keys) (show 0 < t.table.insertPool.keys.length by omega)
        rw [hentries, List.length_cons] at heq
        omega
    obtain ⟨s, -, hcreate⟩ := Option.bind_eq_some_iff.mp hget
    cases hcreate
    rw [AList.lookup, hempty]
    rfl
  . next key poolPtr heq =>
    have hlookup : t.table.insertPool.lookup key = some poolPtr := by
      have := AList.mem_lookup_iff.mpr (List.mem_of_getElem? heq)
      simpa using this
    have hkey := ((h key).mp (by rw [hlookup]; rfl)).1
    cases hget
    dsimp only
    rw [Map.lookup_erase_eq]
    split
    . rfl
    . next hne =>
      rw [← Option.not_isSome_iff_eq_none]
      intro hsome
      have := ((h k).mp hsome).1
      omega

theorem PoolIs.fromPool (h : PoolIs t.table contents) {k i : Nat} (hpool : FromPool t.table contents.length k i)
    : contents ++ List.replicate k []
          = (if LastHasRoom t.table.fixedRecordWidth t.table.blockCapacity contents then contents else contents ++ [[]]) ∧
        i + 1 = (contents ++ List.replicate k []).length := by
  rw [List.length_append, List.length_replicate]
  rcases hpool with ⟨hsome, rfl⟩ | ⟨hempty, rfl, rfl⟩
  . obtain ⟨hlast, hroom⟩ := (h i).mp hsome
    rw [if_pos hroom, List.replicate_zero, List.append_nil]
    exact ⟨rfl, by omega⟩
  . refine ⟨?_, rfl⟩
    rw [if_neg, List.replicate_one]
    intro hroom
    have hsome := (h (contents.length - 1)).mpr ⟨by omega, hroom⟩
    rw [AList.lookup, hempty] at hsome
    cases hsome

theorem insertPool_load {columnData : List ArrayData} {l : Nat} {ptr ptr' : BlockPtr} {t' : SizedTable}
    (hload : (loader roundUp).load columnData l ptr t = some (ptr', t'))
    : t'.table.insertPool = t.table.insertPool := by
  have hinsert : ∀ {t t' : SizedTable} {ptr : BlockPtr} {columnData : List ArrayData},
      (loader roundUp).insertRecords t ptr columnData = some t' → t'.table.insertPool = t.table.insertPool := by
    intro t t' ptr columnData h
    obtain ⟨s, -, h⟩ := Option.bind_eq_some_iff.mp h
    obtain ⟨x, -, h⟩ := Option.bind_eq_some_iff.mp h
    cases h
    rfl
  have hcreate : ∀ {t t' : SizedTable} {ptr : BlockPtr}, (loader roundUp).createBlock t = some (ptr, t') →
      t'.table.insertPool = t.table.insertPool := by
    intro t t' ptr h
    obtain ⟨s, -, h⟩ := Option.bind_eq_some_iff.mp h
    cases h
    rfl
  have hrow : ∀ (s : Loader.State SizedTable) (row : Nat) (s' : Loader.State SizedTable),
      s.table.table.insertPool = t.table.insertPool → True → (loader roundUp).loadRow columnData s row = some s' →
      s'.table.table.insertPool = t.table.insertPool := by
    intro s row s' hs _ h
    obtain ⟨size, -, h⟩ := Option.bind_eq_some_iff.mp h
    obtain ⟨bytesLeft, -, h⟩ := Option.bind_eq_some_iff.mp h
    split at h
    . cases h
    . split at h
      . obtain ⟨t₁, ht₁, h⟩ := Option.bind_eq_some_iff.mp h
        obtain ⟨⟨block, t₂⟩, ht₂, h⟩ := Option.bind_eq_some_iff.mp h
        cases h
        rw [← hs, ← hinsert ht₁]
        exact hcreate ht₂
      . cases h
        exact hs
  obtain ⟨s, hrun, hrest⟩ := Option.bind_eq_some_iff.mp hload
  obtain ⟨t₁, ht₁, hrest⟩ := Option.bind_eq_some_iff.mp hrest
  cases hrest
  rw [hinsert ht₁]
  exact Run.Meets.invariant hrow (Run.meets_true _ _ _) rfl hrun

theorem poolIs_offerBlock {table : DBTable} (h : ∀ k, table.insertPool.lookup k = none) {ptr : BlockPtr} {b : Block}
    {contents : List (List Row)} {rows : List Row} (hlast : contents.getLast? = some rows)
    (hid : b.id + 1 = contents.length) (hbytes : b.getBytesLeft = table.blockCapacity - (rows.map rowSize).sum)
    : PoolIs (table.offerBlock ptr b) contents := by
  have hroom : LastHasRoom table.fixedRecordWidth table.blockCapacity contents ↔
      table.fixedRecordWidth < b.getBytesLeft := by
    rw [LastHasRoom, hlast, hbytes]
    simp
  intro k
  unfold DBTable.offerBlock
  split
  . next hoffer =>
    have hroom' : LastHasRoom table.fixedRecordWidth table.blockCapacity contents := hroom.mpr hoffer
    rw [Map.lookup_insert_eq]
    split
    . next heq => exact iff_of_true rfl ⟨by rw [heq]; exact hid, hroom'⟩
    . next hne =>
      rw [h k]
      apply iff_of_false (by simp)
      rintro ⟨hk, -⟩
      omega
  . next hoffer =>
    rw [h k]
    apply iff_of_false (by simp)
    rintro ⟨-, hroom'⟩
    exact hoffer (hroom.mp hroom')

/-!
The block that goes back to the pool after a load: the one that the load started with, or the last of the new ones.
-/

theorem exists_lastBlock {contents rest : List (List Row)} {i : Nat} (hi : i < contents.length) (rows : List Row)
    : ∃ rows', (contents.set i rows ++ rest)[if rest = [] then i else contents.length + rest.length - 1]?
        = some rows' := by
  refine ⟨_, List.getElem?_eq_getElem ?_⟩
  rw [List.length_append, List.length_set]
  split
  . omega
  . next hne =>
    have := List.length_pos_iff.mpr hne
    omega

theorem lastBlock_succ {contents rest : List (List Row)} {i : Nat} (hi : i + 1 = contents.length) (rows : List Row)
    : (if rest = [] then i else contents.length + rest.length - 1) + 1 = (contents.set i rows ++ rest).length := by
  rw [List.length_append, List.length_set]
  split
  . next hnil =>
    rw [hnil, List.length_nil]
    exact hi
  . next hne =>
    have := List.length_pos_iff.mpr hne
    omega

theorem Ok.insertRecords (hround : ∀ n, n ≤ roundUp n) (hroomy : Roomy t.table.schema t.table.blockCapacity)
    (hcapacity : t.table.blockCapacity ≤ maxInt) (h : t.Ok contents) (pick : List Int → Nat)
    {columnData : List ArrayData} {input : List Row}
    (hdata : ArrayData.HoldRows t.table.schema.fields columnData input)
    (htype : ∀ row ∈ input, Row.HasType t.table.schema.fields row) (hoffset : ∀ a ∈ columnData, a.offset = 0)
    (hbounded : ∀ ptr t' s, t.getBlockForInsert roundUp pick = some (ptr, t') → t'.block ptr = some s →
      Fill.Bounded rowSize t.table.blockCapacity maxInt s.block.getBytesLeft [] input)
    (hcount : (contents.flatten.length + input.length : Int) ≤ maxInt)
    (hsmall : ∀ rows ∈ contents, Small rows)
    : ∃ t' contents', ∃ (k i : Nat), t.insertRecords roundUp pick columnData = some t' ∧
        FromPool t.table contents.length k i ∧
        Appended t.table.blockCapacity (contents ++ List.replicate k []) i input contents' ∧ t'.Ok contents' ∧
        t'.table.schema = t.table.schema ∧ t'.table.blockCapacity = t.table.blockCapacity ∧
        t'.table.numRows = t.table.numRows + input.length ∧
        (PoolIs t.table contents → PoolIs t'.table contents' ∧
          contents' = fillBlocks t.table.fixedRecordWidth t.table.blockCapacity contents input) := by
  obtain ⟨ptr, t₁, k, i, hget, hi, hok₁, hptr, hsame, hpool⟩ := h.getBlockForInsert hround hroomy pick
  have hlt : i < (contents ++ List.replicate k []).length := by simpa using hi
  obtain ⟨rows, hrows⟩ : ∃ rows, (contents ++ List.replicate k [])[i]? = some rows :=
    ⟨_, List.getElem?_eq_getElem hlt⟩
  have hloading : Loading t.table t₁ ptr i (contents ++ List.replicate k []) := ⟨hok₁, hptr, hsame⟩
  obtain ⟨s, hs, hsok⟩ := hloading.block hrows
  have hbounded := hbounded ptr t₁ s hget hs
  rw [hsok.repr.getBytesLeft_eq] at hbounded
  obtain ⟨⟨first, rest⟩, hpieces⟩ : ∃ p, Fill.pieces rowSize t.table.blockCapacity
      (t.table.blockCapacity - (rows.map rowSize).sum) [] input = p := ⟨_, rfl⟩
  have happended := appended_of_pieces hcapacity hrows hpieces hbounded
    (by rw [List.flatten_append, List.flatten_replicate_nil, List.append_nil]; exact hcount)
    (by
      intro rows hrows
      rcases List.mem_append.mp hrows with hrows | hrows
      . exact hsmall rows hrows
      . rw [List.eq_of_mem_replicate hrows]
        exact ⟨by decide, by decide⟩)
  have hfirst : Small (rows ++ first) :=
    happended.small _ (List.mem_append_left _ (List.mem_set hlt (rows ++ first)))
  have hrest : ∀ bin ∈ rest, Small bin := fun bin hbin => happended.small _ (List.mem_append_right _ hbin)
  obtain ⟨ptr', t₂, hload, hloading'⟩ := (loader_lawful hround hroomy).load hdata htype hoffset hloading hrows
    hpieces hbounded hfirst hrest
  obtain ⟨⟨a, hhead, hlength⟩, -⟩ := ArrayData.sliceRows_eq hdata htype
  -- the last block of the load goes back to the pool
  obtain ⟨rows', hrows'⟩ := @exists_lastBlock _ rest _ hlt (rows ++ first)
  obtain ⟨s', hs', hsok'⟩ := hloading'.block hrows'
  have hoffer := hloading'.ok.repr.offerBlock hloading'.lookup hsok'.repr.id_eq
  have hsame' := DBTable.offerBlock_sameRows t₂.table ptr' s'.block
  have hcounted : DBTable.SameBlocks t₂.table { t₂.table.offerBlock ptr' s'.block with
      numRows := (t₂.table.offerBlock ptr' s'.block).numRows + input.length } :=
    ⟨hoffer.schema_eq, hoffer.blockCapacity_eq, hoffer.heap_eq, hoffer.blocks_eq, hoffer.blockCounter_eq,
      hoffer.pool⟩
  refine ⟨_, _, k, i, ?_, hpool, happended, hloading'.ok.of_sameBlocks hcounted, ?_, ?_, ?_, ?_⟩
  . simp only [SizedTable.insertRecords, hhead, hget, Option.bind_eq_bind, Option.bind_some, hlength, hload, hs']
    rfl
  . exact hsame'.schema_eq.trans hloading'.sameRows.schema_eq
  . exact hsame'.blockCapacity_eq.trans hloading'.sameRows.blockCapacity_eq
  . rw [hsame'.numRows_eq, hloading'.sameRows.numRows_eq]
  . intro hpoolIs
    obtain ⟨hstart, hlasti⟩ := hpoolIs.fromPool hpool
    have hend := @lastBlock_succ _ rest _ hlasti (rows ++ first)
    constructor
    . apply poolIs_offerBlock
      . intro j
        rw [insertPool_load hload]
        exact hpoolIs.getBlockForInsert hget j
      . rw [List.getLast?_eq_getElem?, ← hend, Nat.add_sub_cancel]
        exact hrows'
      . rw [hsok'.repr.id_eq, ← hend]
        rfl
      . rw [hloading'.sameRows.blockCapacity_eq]
        exact hsok'.repr.getBytesLeft_eq
    . have hgetLast : (contents ++ List.replicate k []).getLastD [] = rows := by
        rw [List.getLastD_eq_getLast?, List.getLast?_eq_getElem?, ← hlasti, Nat.add_sub_cancel, hrows]
        rfl
      simp only [fillBlocks, ← hstart, hgetLast, hpieces, ← hlasti, Nat.add_sub_cancel]

/-! Any number of loads. -/

/--
Column arrays that hold the rows `input`. They are not slices.
-/
structure IsBatch (schema : Schema) (columnData : List ArrayData) (input : List Row) : Prop where
  holdRows : ArrayData.HoldRows schema.fields columnData input
  hasType : ∀ row ∈ input, Row.HasType schema.fields row
  offset : ∀ a ∈ columnData, a.offset = 0

/--
The number of rows and the sums of sizes that the load computes are `int`s.
-/
def LoadFits (roundUp : Nat → Nat) (pick : List Int → Nat) (t : SizedTable) (columnData : List ArrayData) : Prop :=
  ∀ input ∈ sliceRows columnData, t.table.numRows + input.length ≤ maxInt ∧
    ∀ x ∈ t.getBlockForInsert roundUp pick, ∀ s ∈ x.2.block x.1,
      Fill.Bounded rowSize t.table.blockCapacity maxInt s.block.getBytesLeft [] input

instance : Decidable (LoadFits roundUp pick t columnData) :=
  inferInstanceAs (Decidable (∀ _ ∈ sliceRows columnData, _ ∧ ∀ _ ∈ _, ∀ _ ∈ _, _))

/--
The table counts the rows of its blocks, and no block has more bytes than its capacity unless it has one record only.
-/
def Loaded (t : SizedTable) : Prop :=
  ∃ contents, t.table.Repr contents ∧ t.table.numRows = (contents.map List.length).sum ∧
    ∀ i b, t.table.getBlock i = some b → b.numBytes ≤ t.table.blockCapacity ∨ b.numRows = 1

/--
The old rows of the block that the load starts with, its new rows and those of the new blocks, in the order of their
ids, are the old rows and the rows of the input.
-/
def Loads (t : SizedTable) (columnData : List ArrayData) (t' : SizedTable) : Prop :=
  ∃ contents input rows first rest, ∃ (k i : Nat), t.table.Repr contents ∧ sliceRows columnData = some input ∧
    FromPool t.table contents.length k i ∧ (contents ++ List.replicate k [])[i]? = some rows ∧
    t'.table.Repr ((contents ++ List.replicate k []).set i (rows ++ first) ++ rest) ∧
    rows ++ first ++ rest.flatten = rows ++ input ∧ t'.table.numRows = t.table.numRows + input.length

structure Inv (schema : Schema) (blockCapacity : Int) (t : SizedTable) (contents : List (List Row)) : Prop where
  ok : t.Ok contents
  schema_eq : t.table.schema = schema
  blockCapacity_eq : t.table.blockCapacity = blockCapacity
  numRows_eq : t.table.numRows = contents.flatten.length
  fits : ∀ rows ∈ contents, (rows.map rowSize).sum ≤ blockCapacity ∨ rows.length = 1
  small : ∀ rows ∈ contents, Small rows

def Stored (schema : Schema) (blockCapacity : Int) (t : SizedTable) : Prop :=
  ∃ contents, Inv schema blockCapacity t contents

theorem Inv.loaded {schema : Schema} {blockCapacity : Int} (h : Inv schema blockCapacity t contents) : t.Loaded := by
  refine ⟨contents, h.ok.repr, ?_, ?_⟩
  . rw [h.numRows_eq, List.length_flatten]
  . intro k b hb
    obtain ⟨i, rows, -, hrows, hrepr⟩ := h.ok.repr.of_getBlock hb
    rw [hrepr.numBytes_eq, hrepr.columns_eq, Column.totalSize_ofRows hrepr.hasType, hrepr.numRows_eq,
      h.blockCapacity_eq]
    exact h.fits rows (List.mem_of_getElem? hrows)

theorem Inv.insertRecords (hround : ∀ n, n ≤ roundUp n) {schema : Schema} {blockCapacity : Int}
    (hroomy : Roomy schema blockCapacity) (hcapacity : blockCapacity ≤ maxInt) {columnData : List ArrayData}
    {input : List Row} (hbatch : IsBatch schema columnData input) (h : Inv schema blockCapacity t contents)
    (hfits : LoadFits roundUp pick t columnData)
    : ∃ t' contents', ∃ (k i : Nat), t.insertRecords roundUp pick columnData = some t' ∧
        FromPool t.table contents.length k i ∧
        Appended blockCapacity (contents ++ List.replicate k []) i input contents' ∧
        Inv schema blockCapacity t' contents' ∧ t'.table.numRows = t.table.numRows + input.length ∧
        (PoolIs t.table contents → PoolIs t'.table contents' ∧
          contents' = fillBlocks (computeFixedRecordWidth schema) blockCapacity contents input) := by
  have hinput := (ArrayData.sliceRows_eq hbatch.holdRows hbatch.hasType).2
  obtain ⟨hcount, hbounded⟩ := hfits input hinput
  obtain ⟨rfl, rfl⟩ := And.intro h.schema_eq h.blockCapacity_eq
  obtain ⟨t', contents', k, i, hload, hpool, happended, hok, hschema, hcap, hnum, hpoolIs⟩ := h.ok.insertRecords hround
    hroomy hcapacity pick hbatch.holdRows hbatch.hasType hbatch.offset
    (fun ptr t' s hget hs => hbounded (ptr, t') hget s hs) (by rw [← h.numRows_eq]; exact hcount) h.small
  have hlen := happended.length_flatten
  rw [List.flatten_append, List.flatten_replicate_nil, List.append_nil] at hlen
  refine ⟨t', contents', k, i, hload, hpool, happended, ⟨hok, hschema, hcap, ?_, ?_, happended.small⟩, hnum, hpoolIs⟩
  . rw [hnum, h.numRows_eq, hlen]
    omega
  . obtain ⟨rows, first, rest, hrows, rfl, hflatten, hfirst, hrest⟩ := happended.split
    intro rows' hrows'
    rcases List.mem_append.mp hrows' with hrows' | hrows'
    . have hold : ∀ rows ∈ contents ++ List.replicate k [],
          (rows.map rowSize).sum ≤ t.table.blockCapacity ∨ rows.length = 1 := by
        intro rows hrows
        rcases List.mem_append.mp hrows with hrows | hrows
        . exact h.fits rows hrows
        . rw [List.eq_of_mem_replicate hrows]
          exact .inl hroomy.nonneg
      rcases List.mem_or_eq_of_mem_set hrows' with hrows' | rfl
      . exact hold rows' hrows'
      . rcases hfirst with rfl | hle
        . rw [List.append_nil]
          exact hold rows (List.mem_of_getElem? hrows)
        . exact .inl hle
    . exact hrest rows' hrows'

theorem Inv.step (hround : ∀ n, n ≤ roundUp n) {schema : Schema} {blockCapacity : Int}
    (hroomy : Roomy schema blockCapacity) (hcapacity : blockCapacity ≤ maxInt) {columnData : List ArrayData}
    {input : List Row} (hbatch : IsBatch schema columnData input) (h : Inv schema blockCapacity t contents)
    (hfits : LoadFits roundUp pick t columnData)
    : ∃ t', t.insertRecords roundUp pick columnData = some t' ∧ t.Loads columnData t' ∧
        Stored schema blockCapacity t' := by
  have hinput := (ArrayData.sliceRows_eq hbatch.holdRows hbatch.hasType).2
  obtain ⟨t', contents', k, i, hload, hpool, happended, hinv, hnum, -⟩ := h.insertRecords hround hroomy hcapacity
    hbatch hfits
  obtain ⟨rows, first, rest, hrows, rfl, hflatten, -⟩ := happended.split
  refine ⟨t', hload, ⟨contents, input, rows, first, rest, k, i, h.ok.repr, hinput, hpool, hrows, hinv.ok.repr, ?_,
    hnum⟩, _, hinv⟩
  rw [List.append_assoc, hflatten]

/--
For every sequence of loads into a new table whose blocks have room for a row, and whose sums are `int`s, no load fails,
every load appends its rows in their order, and the table counts them.
-/
theorem loads_append (roundUp : Nat → Nat) (hround : ∀ n, n ≤ roundUp n) (pick : List Int → Nat) (schema : Schema)
    (blockCapacity : Int) (metadataEnabled : Bool) (hcapacity : blockCapacity ≤ maxInt)
    (hroomy : Roomy schema blockCapacity) (loads : List (List ArrayData))
    (hloads : ∀ columnData ∈ loads, ∃ input, IsBatch schema columnData input)
    (hfits : Run.Meets (insertRecords roundUp pick) (LoadFits roundUp pick)
      (new schema blockCapacity metadataEnabled) loads)
    : Run.Always (insertRecords roundUp pick) Loaded Loads
        (new schema blockCapacity metadataEnabled) loads := by
  have hinit : Stored schema blockCapacity (new schema blockCapacity metadataEnabled) :=
    ⟨[], new_ok schema blockCapacity metadataEnabled, rfl, rfl, rfl, by simp, by simp⟩
  refine Run.always_of_meets ?_ ?_ hinit (hfits.and_forall hloads)
  . rintro t ⟨contents, h⟩
    exact h.loaded
  . rintro t columnData ⟨contents, h⟩ ⟨hfits, input, hbatch⟩
    exact h.step hround hroomy hcapacity hbatch hfits

def tagLoads : List (List ArrayData) :=
  [[⟨3, 0, .int64 [1, 2, 3]⟩, ⟨3, 0, .string [0, 1, 3, 3] [97, 98, 98]⟩],
    [⟨2, 0, .int64 [4, 5]⟩, ⟨2, 0, .string [0, 30, 31] (List.replicate 31 99)⟩]]

theorem tagLoads_isBatch : ∀ columnData ∈ tagLoads, ∃ input, IsBatch tagSchema columnData input := by
  simp only [tagLoads, List.forall_mem_cons, List.not_mem_nil, false_implies, implies_true, and_true]
  constructor
  . exact ⟨[[.int64 1, .string [97]], [.int64 2, .string [98, 98]], [.int64 3, .string []]],
      ⟨⟨rfl, by decide, rfl⟩, ⟨rfl, by decide, rfl, 0, rfl, rfl⟩, trivial⟩, by decide, by decide⟩
  . exact ⟨[[.int64 4, .string (List.replicate 30 99)], [.int64 5, .string [99]]],
      ⟨⟨rfl, by decide, rfl⟩, ⟨rfl, by decide, rfl, 0, rfl, rfl⟩, trivial⟩, by decide, by decide⟩

theorem le_roundUpToMultipleOf64 (n : Nat) : n ≤ roundUpToMultipleOf64 n := by
  simp only [roundUpToMultipleOf64]
  omega

theorem loads_append_tagLoads
    : Run.Always (insertRecords roundUpToMultipleOf64 fun _ => 0) Loaded Loads
        (new tagSchema 60 false) tagLoads :=
  loads_append roundUpToMultipleOf64 le_roundUpToMultipleOf64 (fun _ => 0) tagSchema 60 false (by decide)
    ⟨by decide, by decide⟩ tagLoads tagLoads_isBatch (by decide +kernel)

/--
A block of 20 bytes has no memory for the first offset of a string column.
-/
theorem not_loads_append_string
    : IsBatch ⟨[.string], by decide⟩ [⟨1, 0, .string [0, 1] [97]⟩] [[.string [97]]] ∧
        ¬ Run.Always (insertRecords roundUpToMultipleOf64 fun _ => 0) Loaded Loads
          (new ⟨[.string], by decide⟩ 20 false) [[⟨1, 0, .string [0, 1] [97]⟩]] := by
  constructor
  . exact ⟨⟨⟨rfl, by decide, rfl, 0, rfl, rfl⟩, trivial⟩, by decide, by decide⟩
  . rintro ⟨-, t, ht, -⟩
    have hnone : (new ⟨[.string], by decide⟩ 20 false).insertRecords roundUpToMultipleOf64 (fun _ => 0)
        [⟨1, 0, .string [0, 1] [97]⟩] = none := by decide
    rw [hnone] at ht
    cases ht

end SizedTable

end Hustle.Storage
