import Hustle.Storage.LoadedTable

/-!
This module contains tables that are filled by all three kinds of inserts. A record that fits a block is stored and
counted. One that does not is counted all the same.
-/

namespace Hustle.Storage

namespace SizedTable

variable {roundUp : Nat → Nat} {simpleAtoi : List UInt8 → Option (BitVec 64)} {pick : List Int → Nat}
  {t : SizedTable} {contents : List (List Row)}

theorem Ok.blockForRecord (hround : ∀ n, n ≤ roundUp n) (hroomy : Roomy t.table.schema t.table.blockCapacity)
    (h : t.Ok contents) (pick : List Int → Nat) (recordSize : Int)
    : ∃ ptr t' s rows, ∃ (k i : Nat),
        t.blockForRecord roundUp pick recordSize = some (ptr, t') ∧
        Loading t.table t' ptr i (contents ++ List.replicate k []) ∧
        t'.block ptr = some s ∧
        (contents ++ List.replicate k [])[i]? = some rows ∧
        s.Ok i t.table.schema t.table.blockCapacity rows ∧
        (recordSize ≤ s.block.getBytesLeft ∨ s.block.getBytesLeft = t.table.blockCapacity) ∧
        (PoolIs t.table contents →
          i + 1 = (contents ++ List.replicate k []).length ∧ ∀ key, t'.table.insertPool.lookup key = none) := by
  obtain ⟨ptr, t₁, k, i, hget, hi, hok₁, hptr, hsame, hpool⟩ := h.getBlockForInsert hround hroomy pick
  have hlt : i < (contents ++ List.replicate k []).length := by simpa using hi
  have hloading : Loading t.table t₁ ptr i (contents ++ List.replicate k []) := ⟨hok₁, hptr, hsame⟩
  obtain ⟨s, hs, hsok⟩ := hloading.block (List.getElem?_eq_getElem hlt)
  unfold SizedTable.blockForRecord
  simp only [hget, hs, Option.bind_eq_bind, Option.bind_some]
  by_cases hfull : s.block.getBytesLeft < recordSize
  . rw [← hsame.schema_eq, ← hsame.blockCapacity_eq] at hroomy
    obtain ⟨ptr₂, t₂, hcreate, hok₂, hptr₂, hsame₂, -⟩ := hok₁.createBlock hround hroomy
    have hlast : (contents ++ List.replicate (k + 1) [])[(contents ++ List.replicate k []).length]? = some [] := by
      rw [List.replicate_succ', ← List.append_assoc, List.getElem?_concat_length]
    rw [List.append_assoc, ← List.replicate_succ'] at hok₂
    have hloading₂ : Loading t.table t₂ ptr₂ (contents ++ List.replicate k []).length
        (contents ++ List.replicate (k + 1) []) := ⟨hok₂, hptr₂, hsame.trans hsame₂⟩
    obtain ⟨s₂, hs₂, hsok₂⟩ := hloading₂.block hlast
    rw [if_pos hfull]
    refine ⟨ptr₂, t₂, s₂, [], k + 1, _, hcreate, hloading₂, hs₂, hlast, hsok₂, .inr ?_, ?_⟩
    . rw [hsok₂.repr.getBytesLeft_eq]
      simp
    . intro hpoolIs
      refine ⟨by simp [Nat.add_assoc], ?_⟩
      obtain ⟨s', -, hcreate⟩ := Option.bind_eq_some_iff.mp hcreate
      cases hcreate
      exact fun key => hpoolIs.getBlockForInsert hget key
  . rw [if_neg hfull]
    refine ⟨ptr, t₁, s, _, k, i, rfl, hloading, hs, List.getElem?_eq_getElem hlt, hsok, .inl (by omega), ?_⟩
    exact fun hpoolIs => ⟨(hpoolIs.fromPool hpool).2, hpoolIs.getBlockForInsert hget⟩

/--
What inserting a record does, given that the block it goes to stores it.
-/
theorem Ok.insertWith (hround : ∀ n, n ≤ roundUp n) (hroomy : Roomy t.table.schema t.table.blockCapacity)
    (h : t.Ok contents) (pick : List Int → Nat) {recordSize limit : Int}
    {insert : SizedBlock → Option (Int × SizedBlock)}
    {row : Row}
    (hinsert : ∀ ptr t' s, ∀ (i : Nat) (rows : List Row), t.blockForRecord roundUp pick recordSize = some (ptr, t') →
      t'.block ptr = some s → s.Ok i t.table.schema t.table.blockCapacity rows →
      (recordSize ≤ s.block.getBytesLeft ∨ s.block.getBytesLeft = t.table.blockCapacity) →
      rows.length ≤ contents.flatten.length →
      s.block.numBytes + rowSize row ≤ limit ∧
      ∃ s', insert s = some ((rows.length : Int), s') ∧
        s'.Ok i t.table.schema t.table.blockCapacity (rows ++ [row]))
    : ∃ t' rows, ∃ (k i : Nat),
        t.insertWith roundUp pick recordSize insert = some (⟨i, rows.length⟩, t') ∧
        (contents ++ List.replicate k [])[i]? = some rows ∧
        ((rows ++ [row]).map rowSize).sum ≤ limit ∧
        t'.Ok ((contents ++ List.replicate k []).set i (rows ++ [row])) ∧
        t'.table.schema = t.table.schema ∧ t'.table.blockCapacity = t.table.blockCapacity ∧
        t'.table.numRows = t.table.numRows + 1 ∧
        (PoolIs t.table contents → i + 1 = (contents ++ List.replicate k []).length ∧
          PoolIs t'.table ((contents ++ List.replicate k []).set i (rows ++ [row]))) := by
  obtain ⟨ptr, t₁, s, rows, k, i, hblock, hloading, hs, hrows, hsok, hroom, hlastBlock⟩ :=
    h.blockForRecord hround hroomy pick recordSize
  have hlens := (List.sublist_flatten_of_mem (List.mem_of_getElem? hrows)).length_le
  rw [List.flatten_append, List.flatten_replicate_nil, List.append_nil] at hlens
  obtain ⟨hleft, s', hs', hsok'⟩ := hinsert ptr t₁ s i rows hblock hs hsok hroom hlens
  have hsum : ((rows ++ [row]).map rowSize).sum ≤ limit := by
    rw [hsok.repr.numBytes_eq, hsok.repr.columns_eq, Column.totalSize_ofRows hsok.repr.hasType] at hleft
    rw [List.map_append, List.sum_append, List.map_singleton, List.sum_singleton]
    omega
  have hset := hloading.setBlock hsok'
  have hcounted : DBTable.SameBlocks (t₁.setBlock ptr s').table
      { (t₁.setBlock ptr s').table with numRows := (t₁.setBlock ptr s').table.numRows + 1 } :=
    ⟨rfl, rfl, rfl, rfl, rfl, hset.ok.repr.pool⟩
  have hoffer := (hset.ok.repr.of_sameBlocks hcounted).offerBlock hset.lookup hsok'.repr.id_eq
  have hsame := DBTable.offerBlock_sameRows { (t₁.setBlock ptr s').table with
    numRows := (t₁.setBlock ptr s').table.numRows + 1 } ptr s'.block
  refine ⟨_, rows, k, i, ?_, hrows, hsum, hset.ok.of_sameBlocks ⟨hoffer.schema_eq, hoffer.blockCapacity_eq, hoffer.heap_eq,
    hoffer.blocks_eq, hoffer.blockCounter_eq, hoffer.pool⟩, ?_, ?_, ?_, ?_⟩
  . simp only [SizedTable.insertWith, hblock, hs, hs', Option.bind_eq_bind, Option.bind_some, hsok'.repr.id_eq]
    rfl
  . exact hsame.schema_eq.trans hset.sameRows.schema_eq
  . exact hsame.blockCapacity_eq.trans hset.sameRows.blockCapacity_eq
  . rw [hsame.numRows_eq]
    show (t₁.setBlock ptr s').table.numRows + 1 = _
    rw [hset.sameRows.numRows_eq]
  . intro hpoolIs
    obtain ⟨hlast, hempty⟩ := hlastBlock hpoolIs
    refine ⟨hlast, ?_⟩
    have hi : i < (contents ++ List.replicate k []).length := by omega
    apply @poolIs_offerBlock { (t₁.setBlock ptr s').table with
      numRows := (t₁.setBlock ptr s').table.numRows + 1 } hempty
    . rw [List.getLast?_eq_getElem?, List.length_set, ← hlast, Nat.add_sub_cancel, List.getElem?_set_self hi]
    . rw [hsok'.repr.id_eq, List.length_set, ← hlast]
      rfl
    . rw [hsok'.repr.getBytesLeft_eq]
      exact congrArg (· - _) hset.sameRows.blockCapacity_eq.symm

/-! Sequences of inserts. -/

/--
A call of one of the insert functions of a table.
-/
inductive Call where
  /-- `InsertRecord(uint8_t*, int32_t*)` -/
  | record (xs : List Field)
  /-- `InsertRecord(std::vector<std::string_view>, int32_t*)` -/
  | csv (line : List (List UInt8)) (byteWidths : List Int)
  /-- `InsertRecords` -/
  | load (columnData : List ArrayData)

/--
The place of a record that was inserted, and the table.
-/
def Call.run (roundUp : Nat → Nat) (simpleAtoi : List UInt8 → Option (BitVec 64)) (pick : List Int → Nat)
    (t : SizedTable) : Call → Option (Option BlockInfo × SizedTable)
  | .record xs => do
    let (info, t) ← t.insertRecord roundUp pick (recordBytes xs) (recordWidths xs)
    return (some info, t)
  | .csv line byteWidths => do
    let (info, t) ← t.insertCsvRecord roundUp simpleAtoi pick line byteWidths
    return (some info, t)
  | .load columnData => do
    let t ← t.insertRecords roundUp pick columnData
    return (none, t)

def step (roundUp : Nat → Nat) (simpleAtoi : List UInt8 → Option (BitVec 64)) (pick : List Int → Nat)
    (t : SizedTable) (call : Call) : Option SizedTable :=
  (call.run roundUp simpleAtoi pick t).map Prod.snd

def Call.rows (simpleAtoi : List UInt8 → Option (BitVec 64)) (fields : List FieldType) : Call → Option (List Row)
  | .record xs => some [storedRow fields xs]
  | .csv line _ => (Column.csvRow simpleAtoi fields line).map ([·])
  | .load columnData => sliceRows columnData

/--
There is a value and a width for every column. The values can be stored in their columns.
-/
def Call.WellFormed (simpleAtoi : List UInt8 → Option (BitVec 64)) (schema : Schema) : Call → Prop
  | .record xs => IsRecord schema.fields xs
  | .csv line byteWidths => byteWidths.length = schema.fields.length ∧
    (Column.csvRow simpleAtoi schema.fields line).isSome
  | .load columnData => ∃ input, IsBatch schema columnData input

/--
What is to be inserted fits an empty block, and the block that it goes to has at most `limit` bytes afterwards. The
buffers have room for the bytes of a record.
-/
def Call.Fits (roundUp : Nat → Nat) (simpleAtoi : List UInt8 → Option (BitVec 64)) (pick : List Int → Nat)
    (limit : Int) (t : SizedTable) : Call → Prop
  | .record xs => storedRowSize t.table.schema.fields xs ≤ t.table.blockCapacity ∧
    t.table.numRows + 1 ≤ maxInt ∧
    ∀ x ∈ t.blockForRecord roundUp pick (t.table.getRecordSize (recordWidths xs)), ∀ s ∈ x.2.block x.1,
      ColumnMemory.RoomAll roundUp s.block.numRows s.memory s.block.columns (recordWidths xs)
  | .csv line byteWidths => byteWidths.sum ≤ t.table.blockCapacity ∧ t.table.numRows + 1 ≤ maxInt ∧
    ∀ row ∈ Column.csvRow simpleAtoi t.table.schema.fields line,
      ∀ x ∈ t.blockForRecord roundUp pick byteWidths.sum, ∀ s ∈ x.2.block x.1,
        s.block.numBytes + rowSize row ≤ limit
  | .load columnData => LoadFits roundUp pick t columnData ∧
    ∀ input ∈ sliceRows columnData, ∀ row ∈ input, rowSize row ≤ limit

instance (call : Call) (limit : Int) : Decidable (call.Fits roundUp simpleAtoi pick limit t) :=
  match call with
  | .record _ => inferInstanceAs (Decidable (_ ∧ _ ∧ ∀ _ ∈ _, ∀ _ ∈ _, _))
  | .csv _ _ => inferInstanceAs (Decidable (_ ∧ _ ∧ ∀ _ ∈ _, ∀ _ ∈ _, ∀ _ ∈ _, _))
  | .load _ => inferInstanceAs (Decidable (_ ∧ ∀ _ ∈ _, ∀ _ ∈ _, _))

/--
The table counts the rows of its blocks, and no block has more bytes than its capacity.
-/
def Counted (t : SizedTable) : Prop :=
  ∃ contents, t.table.Repr contents ∧ t.table.numRows = (contents.map List.length).sum ∧
    ∀ i b, t.table.getBlock i = some b → b.numBytes ≤ t.table.blockCapacity

/--
A record is stored in the row that is returned, and counted, or neither the rows of the blocks nor their number change.
-/
def AllOrNothing (roundUp : Nat → Nat) (simpleAtoi : List UInt8 → Option (BitVec 64)) (pick : List Int → Nat)
    (t : SizedTable) (call : Call) (t' : SizedTable) : Prop :=
  ∀ info, call.run roundUp simpleAtoi pick t = some (some info, t') →
    ∃ contents, ∃ k : Nat, t.table.Repr contents ∧
      ((∃ row rows, ∃ i : Nat, call.rows simpleAtoi t.table.schema.fields = some [row] ∧
          (contents ++ List.replicate k [])[i]? = some rows ∧
          t'.table.Repr ((contents ++ List.replicate k []).set i (rows ++ [row])) ∧
          t'.table.row info = some row ∧ t'.table.numRows = t.table.numRows + 1) ∨
        t'.table.Repr (contents ++ List.replicate k []) ∧ t'.table.numRows = t.table.numRows)

structure Filled (schema : Schema) (blockCapacity limit : Int) (t : SizedTable) (contents : List (List Row)) : Prop where
  ok : t.Ok contents
  schema_eq : t.table.schema = schema
  blockCapacity_eq : t.table.blockCapacity = blockCapacity
  numRows_eq : t.table.numRows = contents.flatten.length
  numRows_le : t.table.numRows ≤ maxInt
  fits : ∀ rows ∈ contents, (rows.map rowSize).sum ≤ limit

def HasRoom (schema : Schema) (blockCapacity limit : Int) (t : SizedTable) : Prop :=
  ∃ contents, Filled schema blockCapacity limit t contents

variable {schema : Schema} {blockCapacity limit : Int}

theorem new_hasRoom (schema : Schema) (blockCapacity limit : Int) (metadataEnabled : Bool)
    : HasRoom schema blockCapacity limit (new schema blockCapacity metadataEnabled) :=
  ⟨[], new_ok schema blockCapacity metadataEnabled, rfl, rfl, rfl, by show (0 : Int) ≤ maxInt; decide, by simp⟩

theorem Filled.roomy {t : SizedTable} {contents : List (List Row)} (h : Filled schema blockCapacity limit t contents)
    (hroomy : Roomy schema blockCapacity)
    : Roomy t.table.schema t.table.blockCapacity := by
  rw [h.schema_eq, h.blockCapacity_eq]
  exact hroomy

theorem Filled.getRecordSize_eq {t : SizedTable} {contents : List (List Row)}
    (h : Filled schema blockCapacity limit t contents) {xs : List Field} (hrec : IsRecord schema.fields xs)
    : t.table.getRecordSize (recordWidths xs) = storedRowSize schema.fields xs := by
  rw [← h.schema_eq] at hrec ⊢
  exact DBTable.getRecordSize_eq hrec

theorem Filled.counted (h : Filled schema blockCapacity blockCapacity t contents) : t.Counted := by
  refine ⟨contents, h.ok.repr, ?_, ?_⟩
  . rw [h.numRows_eq, List.length_flatten]
  . intro k b hb
    obtain ⟨i, rows, -, hrows, hrepr⟩ := h.ok.repr.of_getBlock hb
    rw [hrepr.numBytes_eq, hrepr.columns_eq, Column.totalSize_ofRows hrepr.hasType, h.blockCapacity_eq]
    exact h.fits rows (List.mem_of_getElem? hrows)

theorem Filled.small (hlimit : limit ≤ maxInt) (h : Filled schema blockCapacity limit t contents)
    : ∀ rows ∈ contents, Small rows := by
  intro rows hrows
  have hlen := (List.sublist_flatten_of_mem hrows).length_le
  have hcount := h.numRows_eq
  have hle := h.numRows_le
  have := h.fits rows hrows
  exact ⟨by omega, by omega⟩

theorem Filled.fits_new (hlimit : 0 ≤ limit) (h : Filled schema blockCapacity limit t contents) (k : Nat)
    : ∀ rows ∈ contents ++ List.replicate k [], (rows.map rowSize).sum ≤ limit := by
  intro rows hrows
  rcases List.mem_append.mp hrows with hrows | hrows
  . exact h.fits rows hrows
  . rw [List.eq_of_mem_replicate hrows]
    exact hlimit

theorem Filled.insertWith (hround : ∀ n, n ≤ roundUp n) (hroomy : Roomy schema blockCapacity)
    (hcapacity : blockCapacity ≤ limit) (h : Filled schema blockCapacity limit t contents) {recordSize : Int}
    {insert : SizedBlock → Option (Int × SizedBlock)} {row : Row} (hcount : t.table.numRows + 1 ≤ maxInt)
    (hinsert : ∀ ptr t' s, ∀ (i : Nat) (rows : List Row), t.blockForRecord roundUp pick recordSize = some (ptr, t') →
      t'.block ptr = some s → s.Ok i schema blockCapacity rows →
      (recordSize ≤ s.block.getBytesLeft ∨ s.block.getBytesLeft = blockCapacity) →
      (s.block.numRows + 1 : Int) ≤ maxInt →
      s.block.numBytes + rowSize row ≤ limit ∧
      ∃ s', insert s = some ((rows.length : Int), s') ∧ s'.Ok i schema blockCapacity (rows ++ [row]))
    : ∃ t' rows, ∃ (k i : Nat), t.insertWith roundUp pick recordSize insert = some (⟨i, rows.length⟩, t') ∧
        (contents ++ List.replicate k [])[i]? = some rows ∧ t'.table.numRows = t.table.numRows + 1 ∧
        Filled schema blockCapacity limit t' ((contents ++ List.replicate k []).set i (rows ++ [row])) ∧
        (PoolIs t.table contents → i + 1 = (contents ++ List.replicate k []).length ∧
          PoolIs t'.table ((contents ++ List.replicate k []).set i (rows ++ [row]))) := by
  obtain ⟨rfl, rfl⟩ := And.intro h.schema_eq h.blockCapacity_eq
  have hstored : ∀ ptr t' s, ∀ (i : Nat) (rows : List Row), t.blockForRecord roundUp pick recordSize = some (ptr, t') →
      t'.block ptr = some s → s.Ok i t.table.schema t.table.blockCapacity rows →
      (recordSize ≤ s.block.getBytesLeft ∨ s.block.getBytesLeft = t.table.blockCapacity) →
      rows.length ≤ contents.flatten.length → s.block.numBytes + rowSize row ≤ limit ∧
      ∃ s', insert s = some ((rows.length : Int), s') ∧
        s'.Ok i t.table.schema t.table.blockCapacity (rows ++ [row]) := by
    intro ptr t' s i rows hblock hs hsok hroom hlens
    apply hinsert ptr t' s i rows hblock hs hsok hroom
    have := h.numRows_eq
    rw [hsok.repr.numRows_eq]
    omega
  obtain ⟨t', rows, k, i, hrun, hrows, hsum, hok, hschema, hcap, hnum, hpool⟩ :=
    h.ok.insertWith hround hroomy pick hstored
  have hlen := DBTable.length_flatten_set hrows (rows ++ [row])
  simp only [List.flatten_append, List.flatten_replicate_nil, List.length_append, List.length_nil,
    List.length_singleton] at hlen
  have hold := h.numRows_eq
  refine ⟨t', rows, k, i, hrun, hrows, hnum, ⟨hok, hschema, hcap, by omega, by omega, ?_⟩, hpool⟩
  intro rows' hrows'
  rcases List.mem_or_eq_of_mem_set hrows' with hrows' | rfl
  . exact h.fits_new (hroomy.nonneg.trans hcapacity) k rows' hrows'
  . exact hsum

theorem Filled.insertRecord (hround : ∀ n, n ≤ roundUp n) (hroomy : Roomy schema blockCapacity)
    (hcapacity : blockCapacity ≤ limit) (hlimit : limit ≤ maxInt) (h : Filled schema blockCapacity limit t contents)
    {xs : List Field}
    (hrec : IsRecord schema.fields xs) (hfits : (Call.record xs).Fits roundUp simpleAtoi pick limit t)
    : ∃ t' rows, ∃ (k i : Nat),
        t.insertRecord roundUp pick (recordBytes xs) (recordWidths xs) = some (⟨i, rows.length⟩, t') ∧
        (contents ++ List.replicate k [])[i]? = some rows ∧ t'.table.numRows = t.table.numRows + 1 ∧
        Filled schema blockCapacity limit t'
          ((contents ++ List.replicate k []).set i (rows ++ [storedRow schema.fields xs])) ∧
        (PoolIs t.table contents → i + 1 = (contents ++ List.replicate k []).length ∧
          PoolIs t'.table ((contents ++ List.replicate k []).set i (rows ++ [storedRow schema.fields xs]))) := by
  obtain ⟨hsize, hcount, hroom⟩ := hfits
  rw [h.schema_eq, h.blockCapacity_eq] at hsize
  apply h.insertWith hround hroomy hcapacity hcount
  intro ptr t' s i rows hblock hs hsok hleft hrows
  have hrecord := h.getRecordSize_eq hrec
  have hstored := storedRowSize_eq_rowSize hrec
  have hwidths := recordWidths_sum_le_storedRowSize hrec
  have hle := hsok.repr.getBytesLeft_le
  have hbytes : s.block.numBytes = blockCapacity - s.block.getBytesLeft := by
    rw [Block.getBytesLeft, hsok.repr.capacity_eq]
    omega
  refine ⟨by omega, ?_⟩
  exact hsok.insertRecord_stored hround hrec (by omega) (by omega) hrows (by omega) (hroom (ptr, t') hblock s hs)

theorem Filled.insertCsvRecord (hround : ∀ n, n ≤ roundUp n) (hroomy : Roomy schema blockCapacity)
    (hcapacity : blockCapacity ≤ limit) (hlimit : limit ≤ maxInt) (h : Filled schema blockCapacity limit t contents)
    {line : List (List UInt8)}
    {byteWidths : List Int} {row : Row} (hwidths : byteWidths.length = schema.fields.length)
    (hrow : Column.csvRow simpleAtoi schema.fields line = some row)
    (hfits : (Call.csv line byteWidths).Fits roundUp simpleAtoi pick limit t)
    : ∃ t' rows, ∃ (k i : Nat),
        t.insertCsvRecord roundUp simpleAtoi pick line byteWidths = some (⟨i, rows.length⟩, t') ∧
        (contents ++ List.replicate k [])[i]? = some rows ∧ t'.table.numRows = t.table.numRows + 1 ∧
        Filled schema blockCapacity limit t' ((contents ++ List.replicate k []).set i (rows ++ [row])) ∧
        (PoolIs t.table contents → i + 1 = (contents ++ List.replicate k []).length ∧
          PoolIs t'.table ((contents ++ List.replicate k []).set i (rows ++ [row]))) := by
  obtain ⟨hsize, hcount, hroom⟩ := hfits
  rw [h.blockCapacity_eq] at hsize
  rw [h.schema_eq] at hroom
  unfold SizedTable.insertCsvRecord
  rw [h.schema_eq, ← hwidths, List.take_length]
  apply h.insertWith hround hroomy hcapacity hcount
  intro ptr t' s i rows hblock hs hsok hleft hrows
  have hrowSize := hroom row hrow (ptr, t') hblock s hs
  have hbytes : s.block.numBytes = blockCapacity - s.block.getBytesLeft := by
    rw [Block.getBytesLeft, hsok.repr.capacity_eq]
    omega
  refine ⟨hrowSize, ?_⟩
  exact hsok.insertCsvRecord_stored hround hrow hwidths (by omega) (by omega) hrows (by omega)

theorem Filled.insertRecords (hround : ∀ n, n ≤ roundUp n) (hroomy : Roomy schema blockCapacity)
    (hcapacity : blockCapacity ≤ limit) (hlimit : limit ≤ maxInt) (h : Filled schema blockCapacity limit t contents)
    {columnData : List ArrayData}
    {input : List Row} (hbatch : IsBatch schema columnData input)
    (hfits : (Call.load columnData).Fits roundUp simpleAtoi pick limit t)
    : ∃ t' contents', t.insertRecords roundUp pick columnData = some t' ∧
        Filled schema blockCapacity limit t' contents' := by
  obtain ⟨hload, hsize⟩ := hfits
  have hinput := (ArrayData.sliceRows_eq hbatch.holdRows hbatch.hasType).2
  obtain ⟨hcount, hbounded⟩ := hload input hinput
  have hsmall := h.small hlimit
  obtain ⟨rfl, rfl⟩ := And.intro h.schema_eq h.blockCapacity_eq
  obtain ⟨t', contents', k, i, hrun, -, happended, hok, hschema, hcap, hnum, -⟩ := h.ok.insertRecords hround hroomy
    (hcapacity.trans hlimit) pick hbatch.holdRows hbatch.hasType hbatch.offset
    (fun ptr t' s hget hs => hbounded (ptr, t') hget s hs) (by rw [← h.numRows_eq]; exact hcount) hsmall
  have hlen := happended.length_flatten
  rw [List.flatten_append, List.flatten_replicate_nil, List.append_nil] at hlen
  have hold := h.numRows_eq
  refine ⟨t', contents', hrun, hok, hschema, hcap, by omega, by omega, ?_⟩
  obtain ⟨rows, first, rest, hrows, rfl, hflatten, hfirst, hrest⟩ := happended.split
  have hkept := h.fits_new (hroomy.nonneg.trans hcapacity) k
  intro rows' hrows'
  rcases List.mem_append.mp hrows' with hrows' | hrows'
  . rcases List.mem_or_eq_of_mem_set hrows' with hrows' | rfl
    . exact hkept rows' hrows'
    . rcases hfirst with rfl | hle
      . rw [List.append_nil]
        exact hkept rows (List.mem_of_getElem? hrows)
      . exact hle.trans hcapacity
  . rcases hrest rows' hrows' with hle | hone
    . exact hle.trans hcapacity
    . -- a single record, which fits a block
      obtain ⟨row, rfl⟩ := List.length_eq_one_iff.mp hone
      have hmem : row ∈ input := by
        rw [← hflatten]
        exact List.mem_append_right _ (List.mem_flatten_of_mem hrows' (by simp))
      simpa using hsize input hinput row hmem

theorem Filled.step (hround : ∀ n, n ≤ roundUp n) (hroomy : Roomy schema blockCapacity)
    (hcapacity : blockCapacity ≤ limit) (hlimit : limit ≤ maxInt) (h : Filled schema blockCapacity limit t contents)
    {call : Call}
    (hwell : call.WellFormed simpleAtoi schema) (hfits : call.Fits roundUp simpleAtoi pick limit t)
    : ∃ t', t.step roundUp simpleAtoi pick call = some t' ∧ t.AllOrNothing roundUp simpleAtoi pick call t' ∧
        HasRoom schema blockCapacity limit t' := by
  cases call with
  | record xs =>
    obtain ⟨t', rows, k, i, hrun, hrows, hnum, hfilled, -⟩ := h.insertRecord hround hroomy hcapacity hlimit hwell hfits
    refine ⟨t', by simp [SizedTable.step, Call.run, hrun], ?_, _, hfilled⟩
    intro info hinfo
    simp only [Call.run, hrun, Option.bind_eq_bind, Option.bind_some, Option.pure_def, Option.some.injEq,
      Prod.mk.injEq, and_true] at hinfo
    refine ⟨contents, k, h.ok.repr, .inl ⟨storedRow schema.fields xs, rows, i, ?_, hrows, hfilled.ok.repr, ?_, hnum⟩⟩
    . rw [Call.rows, h.schema_eq]
    . rw [← hinfo]
      exact DBTable.Repr.row_set hrows hfilled.ok.repr
  | csv line byteWidths =>
    obtain ⟨hwidths, hline⟩ := hwell
    obtain ⟨row, hrow⟩ := Option.isSome_iff_exists.mp hline
    obtain ⟨t', rows, k, i, hrun, hrows, hnum, hfilled, -⟩ :=
      h.insertCsvRecord hround hroomy hcapacity hlimit hwidths hrow hfits
    refine ⟨t', by simp [SizedTable.step, Call.run, hrun], ?_, _, hfilled⟩
    intro info hinfo
    simp only [Call.run, hrun, Option.bind_eq_bind, Option.bind_some, Option.pure_def, Option.some.injEq,
      Prod.mk.injEq, and_true] at hinfo
    refine ⟨contents, k, h.ok.repr, .inl ⟨row, rows, i, ?_, hrows, hfilled.ok.repr, ?_, hnum⟩⟩
    . rw [Call.rows, h.schema_eq, hrow]
      rfl
    . rw [← hinfo]
      exact DBTable.Repr.row_set hrows hfilled.ok.repr
  | load columnData =>
    obtain ⟨input, hbatch⟩ := hwell
    obtain ⟨t', contents', hrun, hfilled⟩ := h.insertRecords hround hroomy hcapacity hlimit hbatch hfits
    refine ⟨t', by simp [SizedTable.step, Call.run, hrun], ?_, _, hfilled⟩
    intro info hinfo
    simp [Call.run, hrun] at hinfo

/--
For every sequence of inserts into a new table in which every record fits, every record is stored and counted, the
table counts the rows of its blocks and no block has more bytes than its capacity.
-/
theorem calls_allOrNothing (roundUp : Nat → Nat) (hround : ∀ n, n ≤ roundUp n)
    (simpleAtoi : List UInt8 → Option (BitVec 64)) (pick : List Int → Nat) (schema : Schema) (blockCapacity : Int)
    (metadataEnabled : Bool) (hcapacity : blockCapacity ≤ maxInt) (hroomy : Roomy schema blockCapacity)
    (calls : List Call) (hcalls : ∀ call ∈ calls, call.WellFormed simpleAtoi schema)
    (hfits : Run.Meets (step roundUp simpleAtoi pick) (fun t call => call.Fits roundUp simpleAtoi pick blockCapacity t)
      (new schema blockCapacity metadataEnabled) calls)
    : Run.Always (step roundUp simpleAtoi pick) Counted (AllOrNothing roundUp simpleAtoi pick)
        (new schema blockCapacity metadataEnabled) calls := by
  refine Run.always_of_meets ?_ ?_ (new_hasRoom schema blockCapacity blockCapacity metadataEnabled) (hfits.and_forall hcalls)
  . rintro t ⟨contents, h⟩
    exact h.counted
  . rintro t call ⟨contents, h⟩ ⟨hfits, hwell⟩
    exact h.step hround hroomy le_rfl hcapacity hwell hfits

def tagCalls : List Call :=
  [.record [⟨1, [7]⟩, ⟨1, [97]⟩], .csv [[49, 50], [98, 98]] [2, 2],
    .load [⟨2, 0, .int64 [1, 2]⟩, ⟨2, 0, .string [0, 1, 3] [97, 98, 98]⟩], .record [⟨-9, []⟩, ⟨0, []⟩]]

theorem tagCalls_wellFormed : ∀ call ∈ tagCalls, call.WellFormed decimalAtoi tagSchema := by
  simp only [tagCalls, List.forall_mem_cons, List.not_mem_nil, false_implies, implies_true, and_true]
  refine ⟨?_, ⟨rfl, ?_⟩, ⟨[[.int64 1, .string [97]], [.int64 2, .string [98, 98]]],
    ⟨⟨rfl, by decide, rfl⟩, ⟨rfl, by decide, rfl, 0, rfl, rfl⟩, trivial⟩, by decide, by decide⟩, ?_⟩
  . exact .cons (by decide) (.cons (by decide) .nil)
  . decide +kernel
  . exact .cons (by decide) (.cons (by decide) .nil)

theorem calls_allOrNothing_tagCalls
    : Run.Always (step roundUpToMultipleOf64 decimalAtoi fun _ => 0) Counted
        (AllOrNothing roundUpToMultipleOf64 decimalAtoi fun _ => 0) (new tagSchema 60 false) tagCalls :=
  calls_allOrNothing roundUpToMultipleOf64 le_roundUpToMultipleOf64 decimalAtoi (fun _ => 0) tagSchema 60 false
    (by decide) ⟨by decide, by decide⟩ tagCalls tagCalls_wellFormed (by decide +kernel)

/--
A record that is larger than a block. It is not stored, but the table counts a row.
-/
theorem not_calls_allOrNothing_large
    : (Call.record [⟨1, [7]⟩, ⟨100, List.replicate 100 97⟩]).WellFormed decimalAtoi tagSchema ∧
        ¬ Run.Always (step roundUpToMultipleOf64 decimalAtoi fun _ => 0) Counted
          (AllOrNothing roundUpToMultipleOf64 decimalAtoi fun _ => 0) (new tagSchema 60 false)
          [.record [⟨1, [7]⟩, ⟨100, List.replicate 100 97⟩]] := by
  constructor
  . exact .cons (by decide) (.cons (by decide) .nil)
  . rintro ⟨-, t, ht, -, contents, hrepr, hcount, -⟩
    have hstate : (step roundUpToMultipleOf64 decimalAtoi (fun _ => 0) (new tagSchema 60 false)
        (.record [⟨1, [7]⟩, ⟨100, List.replicate 100 97⟩])).map (fun t => (t.table.numRows, t.table.blockCounter,
          (t.table.getBlock 0).map Block.numRows, (t.table.getBlock 1).map Block.numRows))
        = some (1, 2, some 0, some 0) := by decide +kernel
    rw [ht, Option.map_some, Option.some.injEq, Prod.mk.injEq, Prod.mk.injEq, Prod.mk.injEq] at hstate
    obtain ⟨hnum, hcounter, hfirst, hsecond⟩ := hstate
    have hlen := hrepr.counter_eq
    rw [hcounter] at hlen
    obtain ⟨rows, rows', rfl⟩ := List.length_eq_two.mp (show contents.length = 2 by omega)
    obtain ⟨b, hb, hbrepr⟩ := hrepr.getBlock_eq (i := 0) rfl
    obtain ⟨b', hb', hbrepr'⟩ := hrepr.getBlock_eq (i := 1) rfl
    rw [Nat.cast_zero] at hb
    rw [Nat.cast_one] at hb'
    rw [hb, Option.map_some, Option.some.injEq, hbrepr.numRows_eq] at hfirst
    rw [hb', Option.map_some, Option.some.injEq, hbrepr'.numRows_eq] at hsecond
    simp [hnum, hfirst, hsecond] at hcount

end SizedTable

end Hustle.Storage
