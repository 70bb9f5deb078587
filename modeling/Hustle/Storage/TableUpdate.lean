import Hustle.Storage.Replay
import Hustle.Storage.TableUpdateLemmas

/-!
This module compares the table after `UpdateRecordTable` with the record that was to be written. An
update of a string deletes the row and inserts the record again while the loop goes on patching the
block that was replaced, and the positions of the integers in the record are off as soon as it has
constants before them.
-/

namespace Hustle.Storage

namespace DBTable

/--
`t` is `t₀` with the row of `rowId`, which was stored at `place₀`, replaced by `row`. The row may have
moved to a place that was free. All other rows stay where they are, and row ids that refer to one of
them still do.
-/
structure UpdatedAt (t₀ t : DBTable) (rowId : UInt32) (place₀ place : BlockInfo) (row : Row) : Prop where
  lookup_eq : t.blockMap.lookup (rowKey rowId) = some place
  place_free : place = place₀ ∨ t₀.row place = none
  row_eq : ∀ info,
    t.row info = if info = place then some row else if info = place₀ then none else t₀.row info
  others : ∀ other info, other ≠ rowId → t₀.blockMap.lookup (rowKey other) = some info →
    info ≠ place₀ → t₀.row info ≠ none → t.blockMap.lookup (rowKey other) = some info
  numRows_eq : t.numRows = t₀.numRows

/--
Where the block that the loop patches is found: it holds the row, or it has been replaced.
-/
def Patches (t : DBTable) (ptr : BlockPtr) (r : Nat) (place : BlockInfo) : Bool → Prop
  | true => place.rowNum = r ∧ t.blocks.lookup place.blockId = some ptr
  | false =>
    (∀ k, t.blocks.lookup k ≠ some ptr) ∧
    ∃ b rows row,
      t.heap[ptr]? = some b ∧
      b.columns = Column.ofRows t.schema.fields rows ∧
      rows[r]? = some row ∧
      Row.HasType t.schema.fields row

/--
The state of the loop after some columns, where `ys` is what they have left of the record and `row`
what they have made of the row.
-/
structure UpdateInv (t₀ : DBTable) (rowId : UInt32) (place₀ : BlockInfo) (ptr : BlockPtr) (r : Nat)
    (live : Bool) (ys : List Field) (row : Row) (place : BlockInfo) (s : UpdateState) : Prop where
  repr : ∃ contents, s.table.Repr contents
  schema_eq : s.table.schema = t₀.schema
  blockCapacity_eq : s.table.blockCapacity = t₀.blockCapacity
  updated : UpdatedAt t₀ s.table rowId place₀ place row
  patches : s.table.Patches ptr r place live
  record_eq : s.record = recordBytes ys
  offset_eq : s.offset = ((recordWidths ys).take s.currOffsetCol).sum
  fields : List.Forall₂ Field.Short t₀.schema.fields ys

section

variable {t₀ : DBTable} {rowId : UInt32} {place₀ place : BlockInfo} {ptr : BlockPtr} {r : Nat}
  {live : Bool} {ys : List Field} {row : Row} {s : UpdateState}

theorem UpdateInv.row_eq (h : UpdateInv t₀ rowId place₀ ptr r live ys row place s)
    : s.table.row place = some row := by
  rw [h.updated.row_eq, if_pos rfl]

theorem sum_take_drop (widths : List Int) {i c : Nat} (h : i ≤ c)
    : (widths.take i).sum + ((widths.drop i).take (c - i)).sum = (widths.take c).sum := by
  obtain ⟨d, rfl⟩ := Nat.exists_eq_add_of_le h
  rw [Nat.add_sub_cancel_left, List.take_add, List.sum_append]

theorem sum_take_eq_length {fields : List FieldType} (hys : List.Forall₂ Field.Short fields ys) {c : Nat}
    (hnn : ∀ w ∈ (recordWidths ys).take c, 0 ≤ w)
    : ((recordWidths ys).take c).sum = (recordBytes (ys.take c)).length := by
  induction hys generalizing c with
  | nil => simp [recordWidths, recordBytes]
  | @cons type y fields ys hy _ ih =>
    cases c with
    | zero => simp
    | succ c =>
      simp only [recordWidths_cons, List.take_succ_cons, List.mem_cons, forall_eq_or_imp] at hnn
      have hlen : y.bytes.length = y.byteWidth.toNat := hy.1.1
      simp only [recordWidths_cons, List.take_succ_cons, List.sum_cons, ih hnn.2, recordBytes_cons,
        List.length_append]
      omega

theorem short_getElem? {fields : List FieldType} (hys : List.Forall₂ Field.Short fields ys) {c : Nat}
    {type : FieldType} {y : Field} (hc : fields[c]? = some type) (hy : ys[c]? = some y)
    : y.Short type := by
  obtain ⟨hc', rfl⟩ := List.getElem?_eq_some_iff.mp hc
  obtain ⟨hy', rfl⟩ := List.getElem?_eq_some_iff.mp hy
  exact hys.get hc' hy'

theorem recordWidths_set {c : Nat} {y : Field} (hy : ys[c]? = some y) (type : FieldType)
    : recordWidths (ys.set c (y.inserted type)) = recordWidths ys := by
  obtain ⟨hlt, rfl⟩ := List.getElem?_eq_some_iff.mp hy
  have hlt' : c < (ys.map Field.byteWidth).length := by simpa using hlt
  have hself : ys[c].byteWidth = (ys.map Field.byteWidth)[c] := by simp
  unfold recordWidths
  rw [List.map_set, Field.inserted_byteWidth, hself, List.set_getElem_self]

theorem short_set {fields : List FieldType} (hys : List.Forall₂ Field.Short fields ys) {c : Nat}
    {type : FieldType} {y : Field} (hc : fields[c]? = some type) (hy : y.Short type)
    : List.Forall₂ Field.Short fields (ys.set c y) := by
  induction hys generalizing c with
  | nil => exact .nil
  | cons hhead htail ih =>
    cases c with
    | zero =>
      simp only [List.getElem?_cons_zero, Option.some.injEq] at hc
      subst hc
      exact .cons hy htail
    | succ c => exact .cons hhead (ih hc)

theorem short_insertedRecord {fields : List FieldType} (hys : List.Forall₂ Field.Short fields ys)
    : List.Forall₂ Field.Short fields (insertedRecord fields ys) := by
  induction hys with
  | nil => exact .nil
  | cons hhead _ ih => exact .cons hhead.inserted ih

theorem isRecord_of_short {fields : List FieldType} (hys : List.Forall₂ Field.Short fields ys)
    : IsRecord fields ys :=
  hys.imp fun _ _ h => h.1

theorem UpdateInv.patch (h : UpdateInv t₀ rowId place₀ ptr r live ys row place s) {c : Nat} {y : Field}
    (hc : t₀.schema.fields[c]? = some .int64) (hy : ys[c]? = some y) {pos : Int}
    (hpos : 0 ≤ y.byteWidth → pos = (recordBytes (ys.take c)).length)
    : ∃ b b',
        s.table.block ptr = some b ∧
        b.updateColumnValue c r (recordBytes ys) pos y.byteWidth
          = some (b', recordBytes (ys.set c (y.inserted .int64))) ∧
        (∃ contents, (s.table.setBlock ptr b').Repr contents) ∧
        (s.table.setBlock ptr b').Patches ptr r place live ∧
        ∀ info, (s.table.setBlock ptr b').row info =
          if info = place then some (if live then row.set c (y.stored .int64) else row)
          else s.table.row info := by
  obtain ⟨contents, hrepr⟩ := h.repr
  have hshort := short_getElem? h.fields hc hy
  have hc' : s.table.schema.fields[c]? = some .int64 := by rw [h.schema_eq, hc]
  have hlen : ptr < s.table.heap.length → ∀ b, (s.table.heap.set ptr b)[ptr]? = some b := by
    intro hlt b
    rw [List.getElem?_set_self hlt]
  cases live with
  | true =>
    obtain ⟨hrowNum, hptr⟩ := h.patches
    obtain ⟨i, r', rows, hplace, hrows, hrow⟩ := hrepr.exists_of_row h.row_eq
    subst hplace
    have hr : r' = r := Int.natCast_inj.mp hrowNum
    subst hr
    obtain ⟨b, hb, hcols, hrepr', hrow'⟩ := hrepr.patch hrows hrow hptr hc' y.storedInt
    have htype : Row.HasType s.table.schema.fields row := by
      obtain ⟨_, _, _, _, hbrepr⟩ := hrepr.block i rows hrows
      exact hbrepr.hasType row (List.mem_of_getElem? hrow)
    refine ⟨b, _, hb, Block.updateColumnValue_eq hcols hc' hrow htype hy hshort.1 hshort.2.1 hpos,
      ⟨_, hrepr'⟩, ⟨rfl, hptr⟩, hrow'⟩
  | false =>
    obtain ⟨hstale, b, rows, old, hb, hcols, hrow, htype⟩ := h.patches
    have hrepr' := hrepr.setBlock_stale hstale
    refine ⟨b, _, hb, Block.updateColumnValue_eq hcols hc' hrow htype hy hshort.1 hshort.2.1 hpos,
      ⟨_, hrepr' _⟩, ⟨hstale, _, _, _, hlen (List.getElem?_eq_some_iff.mp hb).1 _, rfl,
        List.getElem?_set_self (List.getElem?_eq_some_iff.mp hrow).1, htype.set_int64 hc' _⟩, ?_⟩
    intro info
    rw [(hrepr' _).row_eq, ← hrepr.row_eq]
    split
    . next hinfo => rw [hinfo, h.row_eq]; rfl
    . rfl

theorem UpdateInv.updateColumn_int (h : UpdateInv t₀ rowId place₀ ptr r live ys row place s)
    (pick : List Int → Nat) {info : UpdateMetaInfo} {y : Field}
    (hcol : s.currOffsetCol ≤ info.colNum)
    (hc : t₀.schema.fields[info.colNum]? = some .int64) (hy : ys[info.colNum]? = some y)
    (hnn : 0 ≤ y.byteWidth → ∀ w ∈ (recordWidths ys).take info.colNum, 0 ≤ w)
    : ∃ s',
        updateColumn pick rowId ptr r (recordWidths ys) s info = some s' ∧
        UpdateInv t₀ rowId place₀ ptr r live (ys.set info.colNum (y.inserted .int64))
          (if live then row.set info.colNum (y.stored .int64) else row) place s' ∧
        s'.currOffsetCol = info.colNum ∧
        s'.table.blockMap = s.table.blockMap ∧
        ∀ info', info' ≠ place → s'.table.row info' = s.table.row info' := by
  have hwidth : (recordWidths ys)[info.colNum]? = some y.byteWidth := by
    rw [recordWidths, List.getElem?_map, hy, Option.map_some]
  have hpos : 0 ≤ y.byteWidth
      → ((recordWidths ys).take info.colNum).sum = (recordBytes (ys.take info.colNum)).length :=
    fun hwidth => sum_take_eq_length h.fields (hnn hwidth)
  have hshort := short_getElem? h.fields hc hy
  obtain ⟨b, b', hb, hvalue, hrepr, hpatches, hrow⟩ := h.patch hc hy hpos
  unfold updateColumn
  simp only [hwidth, h.schema_eq, hc, hb, h.record_eq, h.offset_eq, sum_take_drop _ hcol, hvalue,
    Option.bind_eq_bind, Option.bind_some, Option.pure_def, Nat.max_eq_right hcol]
  refine ⟨_, rfl, ?_, rfl, rfl, ?_⟩
  . constructor
    . exact hrepr
    . exact h.schema_eq
    . exact h.blockCapacity_eq
    . constructor
      . exact h.updated.lookup_eq
      . exact h.updated.place_free
      . intro info'
        dsimp only
        rw [hrow, h.updated.row_eq]
        split <;> rfl
      . exact h.updated.others
      . exact h.updated.numRows_eq
    . exact hpatches
    . rfl
    . rw [recordWidths_set hy]
    . exact short_set h.fields hc hshort.inserted
  . intro info' hne
    dsimp only
    rw [hrow, if_neg hne]

theorem Patches.replaced {t t₁ t₂ : DBTable} {contents contents₁ : List (List Row)}
    (h : t.Patches ptr r place live) (hrepr : t.Repr contents) (hrow : t.row place = some row)
    (hmap : t.blockMap.lookup (rowKey rowId) = some place)
    (hdelete : t.deleteRecordTable rowId = some t₁) (hrepr₁ : t₁.Repr contents₁)
    {pick : List Int → Nat} {record record' : List UInt8} {byteWidths : List Int}
    (hinsert : t₁.insertRecordTable pick rowId record byteWidths = some (t₂, record'))
    (hschema : t₂.schema = t.schema) (place' : BlockInfo)
    : t₂.Patches ptr r place' false := by
  obtain ⟨i, r', rows, rfl, hrows, hrow'⟩ := hrepr.exists_of_row hrow
  obtain ⟨ptr', b', hptr', -, hbrepr⟩ := hrepr.block i rows hrows
  obtain ⟨hkeep, ⟨b, hb, hcols⟩, hstale⟩ := hrepr.deleteRecordTable_heap hmap hrows hdelete hptr'
  have hkeep' := hrepr₁.insertRecordTable_keepsStale hinsert
  unfold Patches
  rw [hschema]
  cases live with
  | true =>
    obtain ⟨hrowNum, hptr⟩ := h
    have hr : r' = r := Int.natCast_inj.mp hrowNum
    dsimp only at hptr
    rw [hptr'] at hptr
    injection hptr with hptr
    subst hr hptr
    obtain ⟨hb', hstale'⟩ := hkeep' ptr' b hb hstale
    exact ⟨hstale', b, rows, row, hb', hcols, hrow', hbrepr.hasType row (List.mem_of_getElem? hrow')⟩
  | false =>
    obtain ⟨hold, b₀, rows₀, row₀, hb₀, hcols₀, hrow₀, htype₀⟩ := h
    obtain ⟨hb', hstale'⟩ := hkeep.trans hkeep' ptr b₀ hb₀ hold
    exact ⟨hstale', b₀, rows₀, row₀, hb', hcols₀, hrow₀, htype₀⟩

/--
Deleting the row and inserting another one for it.
-/
theorem UpdatedAt.replaced {t t₁ t₂ : DBTable} (h : UpdatedAt t₀ t rowId place₀ place row) {r₀ : Nat}
    (hr₀ : place.rowNum = r₀) (hmap₁ : t₁.blockMap = Block.renumber t.blockMap (List.range r₀))
    (hrow₁ : ∀ info, t₁.row info = if info = place then none else t.row info)
    (hnum₁ : t₁.numRows = t.numRows - 1) {place' : BlockInfo} {row' : Row}
    (hmap₂ : t₂.blockMap = t₁.blockMap.insert (rowKey rowId) place')
    (hrow₂ : ∀ info, t₂.row info = if info = place' then some row' else t₁.row info)
    (hnum₂ : t₂.numRows = t₁.numRows + 1) (hfree : t₁.row place' = none)
    (hzero : rowId = 0 ∨ (∀ info ∈ t₀.blockMap.lookup 0, info = place₀ ∨ t₀.row info = none) ∨
      place.rowNum = 0 ∨ (t.blockMap.lookup 0).map BlockInfo.rowNum = some (place.rowNum - 1))
    : UpdatedAt t₀ t₂ rowId place₀ place' row' where
  lookup_eq := by rw [hmap₂, AList.lookup_insert]
  place_free := by
    by_cases hplace : place' = place
    . rw [hplace]
      exact h.place_free
    . rw [hrow₁, if_neg hplace, h.row_eq, if_neg hplace] at hfree
      split at hfree
      . next hplace₀ => exact Or.inl hplace₀
      . exact Or.inr hfree
  row_eq := by
    intro info
    rw [hrow₂]
    split
    . rfl
    . rw [hrow₁, h.row_eq]
      split
      . next hinfo =>
        subst hinfo
        rcases h.place_free with hsame | hnone
        . rw [if_pos hsame]
        . rw [hnone, ite_self]
      . rfl
  others := by
    intro other info hne hinfo hplace hstored
    have hold := h.others other info hne hinfo hplace hstored
    have hkey : rowKey other ≠ rowKey rowId := fun heq => hne (rowKey_inj.mp heq)
    rw [hmap₂, Map.lookup_insert_eq, if_neg hkey, hmap₁, renumber_range_lookup, hold]
    by_cases hother : other = 0
    . subst hother
      have hkey₀ : rowKey 0 = 0 := rfl
      rcases hzero with hid | hnone | hfirst | hbefore
      . exact absurd hid.symm hne
      . rcases hnone info (by rw [← hkey₀, hinfo]; rfl) with hsame | hnone
        . exact absurd hsame hplace
        . exact absurd hnone hstored
      . left
        exact Int.natCast_inj.mp (by rw [← hr₀, hfirst]; rfl)
      . right
        right
        rw [hbefore, hr₀]
    . right
      left
      intro heq
      exact hother (rowKey_inj.mp heq)
  numRows_eq := by rw [hnum₂, hnum₁, h.numRows_eq]; omega

/--
Updating a string replaces the row by what is left of the record.
-/
theorem UpdateInv.updateColumn_string (h : UpdateInv t₀ rowId place₀ ptr r live ys row place s)
    (pick : List Int → Nat) {info : UpdateMetaInfo}
    (hcol : s.currOffsetCol ≤ info.colNum)
    (hc : IsString t₀.schema.fields info.colNum)
    (hlast : s.table.row ⟨place.blockId, place.rowNum + 1⟩ = none)
    (hfit : (recordWidths ys).sum ≤ t₀.blockCapacity)
    (hzero : rowId = 0 ∨ (∀ info ∈ t₀.blockMap.lookup 0, info = place₀ ∨ t₀.row info = none) ∨
      place.rowNum = 0 ∨
      (s.table.blockMap.lookup 0).map BlockInfo.rowNum = some (place.rowNum - 1))
    : ∃ s' place',
        updateColumn pick rowId ptr r (recordWidths ys) s info = some s' ∧
        UpdateInv t₀ rowId place₀ ptr r false (insertedRecord t₀.schema.fields ys)
          (storedRow t₀.schema.fields ys) place' s' ∧
        s'.currOffsetCol = info.colNum ∧
        s'.table.row ⟨place'.blockId, place'.rowNum + 1⟩ = none := by
  obtain ⟨contents, hrepr⟩ := h.repr
  have hrec := isRecord_of_short h.fields
  have hnum := (hrepr.numRows_of_last h.row_eq).mpr hlast
  obtain ⟨t₁, contents₁, r₀, hr₀, hdelete, hrepr₁, hschema₁, hcap₁, hmap₁, hnum₁, hrow₁⟩ :=
    hrepr.deleteRecordTable_last h.updated.lookup_eq h.row_eq hnum
  rw [h.schema_eq] at hschema₁
  rw [h.blockCapacity_eq] at hcap₁
  obtain ⟨t₂, contents₂, i, r', hinsert, hrepr₂, hschema₂, hcap₂, hmap₂, hnum₂, hfree, hrow₂⟩ :=
    hrepr₁.insertRecordTable pick rowId (by rw [hschema₁]; exact hrec) (by rw [hcap₁]; exact hfit)
  rw [hschema₁] at hinsert hschema₂ hrow₂
  rw [hcap₁] at hcap₂
  have hlt : info.colNum < ys.length := by
    have := (List.getElem?_eq_some_iff.mp hc).1
    have := hrec.length_eq
    omega
  have hwidth : (recordWidths ys)[info.colNum]? = some ys[info.colNum].byteWidth := by
    simp [recordWidths, hlt]
  unfold updateColumn
  simp only [hwidth, h.schema_eq, hdelete, hinsert, h.record_eq, h.offset_eq, sum_take_drop _ hcol,
    Option.bind_eq_bind, Option.bind_some, Option.pure_def, Nat.max_eq_right hcol, IsString] at hc ⊢
  rw [hc]
  simp only [Option.bind_some]
  refine ⟨_, ⟨i, r'⟩, rfl, ?_, rfl, ?_⟩
  . constructor
    . exact ⟨_, hrepr₂⟩
    . exact hschema₂
    . exact hcap₂
    . exact h.updated.replaced hr₀ hmap₁ hrow₁ hnum₁ hmap₂ hrow₂ hnum₂ hfree hzero
    . exact h.patches.replaced hrepr h.row_eq h.updated.lookup_eq hdelete hrepr₁ hinsert
        (by rw [hschema₂, h.schema_eq]) _
    . rfl
    . rw [recordWidths_insertedRecord hrec]
    . exact short_insertedRecord h.fields
  . dsimp only
    rw [hrow₂, if_neg (by simp), hrepr₁.row_succ_none hfree]

theorem UpdateInv.int_of_not_string (h : UpdateInv t₀ rowId place₀ ptr r live ys row place s) {c : Nat}
    (hlt : c < t₀.schema.fields.length) (hc : ¬IsString t₀.schema.fields c)
    : t₀.schema.fields[c]? = some .int64 ∧ ∃ y, ys[c]? = some y := by
  have hlen := h.fields.length_eq
  refine ⟨?_, _, List.getElem?_eq_getElem (by omega)⟩
  cases htype : t₀.schema.fields[c] with
  | int64 => rw [List.getElem?_eq_getElem hlt, htype]
  | string => exact absurd (by rw [IsString, List.getElem?_eq_getElem hlt, htype]) hc

structure Remaining (t₀ : DBTable) (rowId : UInt32) (place₀ : BlockInfo) (widths : List Int) (cols : List Nat)
    (place : BlockInfo) (s : UpdateState) : Prop where
  sorted : cols.Pairwise (· < ·)
  bounds : ∀ c ∈ cols, s.currOffsetCol ≤ c ∧ c < t₀.schema.fields.length
  positions : ∀ c ∈ cols, t₀.schema.fields[c]? = some .int64 →
    ∀ w ∈ widths[c]?, 0 ≤ w → ∀ w' ∈ widths.take c, 0 ≤ w'
  last : (∃ c ∈ cols, IsString t₀.schema.fields c) → s.table.row ⟨place.blockId, place.rowNum + 1⟩ = none
  fits : (∃ c ∈ cols, IsString t₀.schema.fields c) → widths.sum ≤ t₀.blockCapacity
  zero : cols.countP (IsString t₀.schema.fields ·) = 0 ∨ rowId = 0 ∨
    (∀ info ∈ t₀.blockMap.lookup 0, info = place₀ ∨ t₀.row info = none) ∨
    cols.countP (IsString t₀.schema.fields ·) = 1 ∧
      (place.rowNum = 0 ∨ (s.table.blockMap.lookup 0).map BlockInfo.rowNum = some (place.rowNum - 1))

namespace Remaining

variable {widths : List Int} {c : Nat} {cols : List Nat} {s' : UpdateState}

theorem currOffsetCol_le (h : Remaining t₀ rowId place₀ widths (c :: cols) place s) : s.currOffsetCol ≤ c :=
  (h.bounds c List.mem_cons_self).1

theorem after (h : Remaining t₀ rowId place₀ widths (c :: cols) place s) (hs' : s'.currOffsetCol = c)
    : ∀ c' ∈ cols, s'.currOffsetCol ≤ c' ∧ c' < t₀.schema.fields.length := by
  intro c' hc'
  have := List.rel_of_pairwise_cons h.sorted hc'
  have := (h.bounds c' (List.mem_cons_of_mem _ hc')).2
  omega

theorem later (h : Remaining t₀ rowId place₀ widths (c :: cols) place s)
    (hs : ∃ c ∈ cols, IsString t₀.schema.fields c)
    : s.table.row ⟨place.blockId, place.rowNum + 1⟩ = none ∧ widths.sum ≤ t₀.blockCapacity := by
  obtain ⟨c', hc', hstring⟩ := hs
  exact ⟨h.last ⟨c', List.mem_cons_of_mem _ hc', hstring⟩, h.fits ⟨c', List.mem_cons_of_mem _ hc', hstring⟩⟩

theorem zero_string (h : Remaining t₀ rowId place₀ widths (c :: cols) place s) (hc : IsString t₀.schema.fields c)
    : rowId = 0 ∨ (∀ info ∈ t₀.blockMap.lookup 0, info = place₀ ∨ t₀.row info = none) ∨
        place.rowNum = 0 ∨ (s.table.blockMap.lookup 0).map BlockInfo.rowNum = some (place.rowNum - 1) := by
  rcases h.zero with hzero | hzero | hzero | hzero
  . rw [List.countP_cons_of_pos (by simpa using hc)] at hzero
    omega
  . exact .inl hzero
  . exact .inr (.inl hzero)
  . exact .inr (.inr hzero.2)

theorem tail_string (h : Remaining t₀ rowId place₀ widths (c :: cols) place s) (hc : IsString t₀.schema.fields c)
    (hs' : s'.currOffsetCol = c) {place' : BlockInfo}
    (hlast : s'.table.row ⟨place'.blockId, place'.rowNum + 1⟩ = none)
    : Remaining t₀ rowId place₀ widths cols place' s' := by
  refine ⟨h.sorted.of_cons, h.after hs', fun c' hc' => h.positions c' (List.mem_cons_of_mem _ hc'), fun _ => hlast,
    fun hs => (h.later hs).2, ?_⟩
  rcases h.zero with hzero | hzero | hzero | hzero
  . rw [List.countP_cons_of_pos (by simpa using hc)] at hzero
    omega
  . exact .inr (.inl hzero)
  . exact .inr (.inr (.inl hzero))
  . left
    have := hzero.1
    rw [List.countP_cons_of_pos (by simpa using hc)] at this
    omega

theorem tail_int (h : Remaining t₀ rowId place₀ widths (c :: cols) place s) (hc : ¬IsString t₀.schema.fields c)
    (hs' : s'.currOffsetCol = c) (hmap : s'.table.blockMap = s.table.blockMap)
    (hrow : ∀ info, info ≠ place → s'.table.row info = s.table.row info)
    : Remaining t₀ rowId place₀ widths cols place s' := by
  have hsucc : (⟨place.blockId, place.rowNum + 1⟩ : BlockInfo) ≠ place := by
    intro heq
    have := congrArg BlockInfo.rowNum heq
    dsimp only at this
    omega
  refine ⟨h.sorted.of_cons, h.after hs', fun c' hc' => h.positions c' (List.mem_cons_of_mem _ hc'), ?_,
    fun hs => (h.later hs).2, ?_⟩
  . intro hs
    rw [hrow _ hsucc]
    exact (h.later hs).1
  . have hzero := h.zero
    rw [List.countP_cons_of_neg (by simpa using hc)] at hzero
    rw [hmap]
    exact hzero

end Remaining

/--
The loop keeps its invariant, and does to the table what `replay` does to the row.
-/
theorem UpdateInv.run_inv (pick : List Int → Nat) {widths : List Int} (infos : List UpdateMetaInfo)
    (h : UpdateInv t₀ rowId place₀ ptr r live ys row place s) (hwidths : recordWidths ys = widths)
    (hremaining : Remaining t₀ rowId place₀ widths (infos.map UpdateMetaInfo.colNum) place s)
    : ∃ s' live' ys' place',
        infos.foldlM (updateColumn pick rowId ptr r widths) s = some s' ∧
        UpdateInv t₀ rowId place₀ ptr r live' ys'
          (replay t₀.schema.fields live (infos.map UpdateMetaInfo.colNum) ys row) place' s' := by
  induction infos generalizing live ys row place s with
  | nil => exact ⟨s, live, ys, place, rfl, h⟩
  | cons info infos ih =>
    rw [List.map_cons] at hremaining ⊢
    subst hwidths
    unfold replay
    by_cases hc : IsString t₀.schema.fields info.colNum
    . have hstring : ∃ c ∈ info.colNum :: infos.map UpdateMetaInfo.colNum, IsString t₀.schema.fields c :=
        ⟨_, List.mem_cons_self, hc⟩
      obtain ⟨s', place', heq, h', hcol', hlast'⟩ := h.updateColumn_string pick hremaining.currOffsetCol_le hc
        (hremaining.last hstring) (hremaining.fits hstring) (hremaining.zero_string hc)
      rw [List.foldlM_cons, heq, if_pos hc]
      exact ih h' (recordWidths_insertedRecord (isRecord_of_short h.fields))
        (hremaining.tail_string hc hcol' hlast')
    . obtain ⟨hint, y, hy⟩ := h.int_of_not_string (hremaining.bounds _ List.mem_cons_self).2 hc
      obtain ⟨s', heq, h', hcol', hmap', hrow'⟩ := h.updateColumn_int pick hremaining.currOffsetCol_le hint hy
        (hremaining.positions _ List.mem_cons_self hint _ (by simp [recordWidths, hy]))
      rw [List.foldlM_cons, heq, if_neg hc, hy]
      exact ih h' (recordWidths_set hy _) (hremaining.tail_int hc hcol' hmap' hrow')

end

/--
The updates that go well, for a row that is stored at `place`.
-/
structure UpdateSafe (t : DBTable) (rowId : UInt32) (place : BlockInfo) (cols : List Nat)
    (xs : List Field) : Prop where
  /-- No integer that is updated has a constant before it, unless it is a constant itself. -/
  positions : ∀ c ∈ cols, t.schema.fields[c]? = some .int64 →
    ∀ w ∈ (recordWidths xs)[c]?, 0 ≤ w → ∀ w' ∈ (recordWidths xs).take c, 0 ≤ w'
  /-- The integers are in their original order when the record is inserted for the last time. -/
  order : ∀ c < t.schema.fields.length, ∀ x ∈ xs[c]?, t.schema.fields[c]? = some .int64 →
    reversals t.schema.fields c cols % 2 = 1 → x.bytes = x.bytes.reverse
  /-- A row whose strings are updated is the last one of its block. -/
  last : (∃ c ∈ cols, IsString t.schema.fields c) → t.row ⟨place.blockId, place.rowNum + 1⟩ = none
  fits : (∃ c ∈ cols, IsString t.schema.fields c) → (recordWidths xs).sum ≤ t.blockCapacity
  /-- Rebuilding the block of the row does not move row id 0. -/
  zero : cols.countP (IsString t.schema.fields ·) = 0 ∨ rowId = 0 ∨
    (∀ info ∈ t.blockMap.lookup 0, info = place ∨ t.row info = none) ∨
    cols.countP (IsString t.schema.fields ·) = 1 ∧
      (place.rowNum = 0 ∨ (t.blockMap.lookup 0).map BlockInfo.rowNum = some (place.rowNum - 1))

theorem UpdateSafe.remaining {t : DBTable} {rowId : UInt32} {place : BlockInfo} {cols : List Nat} {xs : List Field}
    (h : UpdateSafe t rowId place cols xs) (hsorted : cols.Pairwise (· < ·))
    (hcols : ∀ c ∈ cols, c < t.schema.fields.length) (record : List UInt8)
    : Remaining t rowId place (recordWidths xs) cols place ⟨t, record, 0, 0⟩ :=
  ⟨hsorted, fun c hc => ⟨Nat.zero_le c, hcols c hc⟩, h.positions, h.last, h.fits, h.zero⟩

end DBTable

end Hustle.Storage
