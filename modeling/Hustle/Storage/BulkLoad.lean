import Hustle.Storage.BlockSession
import Hustle.Storage.Table
import Hustle.Util.Fill

/-!
This module contains the loop of `DBTable::InsertRecords`. It adds up the sizes of the rows, and where a row does not
fit the block any more it inserts the rows in front of it and goes on with a new block. The loop is the same for tables
with and without the memory of their blocks.
-/

namespace Hustle.Storage

structure Loader (σ : Type) where
  bytesLeft : σ → BlockPtr → Option Int
  insertRecords : σ → BlockPtr → List ArrayData → Option σ
  createBlock : σ → Option (BlockPtr × σ)

/--
The size of row `row` in a column. The offsets are those of the buffer, whatever the offset of the slice.
-/
def ArrayData.valueSize (a : ArrayData) (row : Nat) : Option Int :=
  match a.buffers with
  | .int64 _ => some fieldSize
  | .string offsets _ => do
    let start ← offsets[row]?
    let stop ← offsets[row + 1]?
    return stop - start

def recordSize (columnData : List ArrayData) (row : Nat) : Option Int := do
  let sizes ← columnData.mapM fun a => a.valueSize row
  return sizes.sum

def sliceAll (columnData : List ArrayData) (offset length : Nat) : List ArrayData :=
  columnData.map fun a => a.slice offset length

namespace Loader

variable {σ : Type} (loader : Loader σ)

structure State (σ : Type) where
  table : σ
  block : BlockPtr
  offset : Nat
  dataSize : Int

/--
One iteration of the loop, none if the sum of the sizes overflows.
-/
def loadRow (columnData : List ArrayData) (s : State σ) (row : Nat) : Option (State σ) := do
  let recordSize ← recordSize columnData row
  let bytesLeft ← loader.bytesLeft s.table s.block
  if maxInt < s.dataSize + recordSize then
    none
  else if bytesLeft < s.dataSize + recordSize then
    let table ← loader.insertRecords s.table s.block (sliceAll columnData s.offset (row - s.offset))
    let (block, table) ← loader.createBlock table
    return ⟨table, block, row, recordSize⟩
  else
    return { s with dataSize := s.dataSize + recordSize }

def loadRest (columnData : List ArrayData) (l : Nat) (s : State σ) : Option (BlockPtr × σ) := do
  let table ← loader.insertRecords s.table s.block (sliceAll columnData s.offset (l - s.offset))
  return (s.block, table)

def load (columnData : List ArrayData) (l : Nat) (block : BlockPtr) (table : σ) : Option (BlockPtr × σ) := do
  let s ← (List.range l).foldlM (loader.loadRow columnData) ⟨table, block, 0, 0⟩
  loader.loadRest columnData l s

end Loader

/-! Slices of slices. -/

namespace ArrayData

theorem Holds.slice {a : ArrayData} {type : FieldType} {cells : List Cell} (h : a.Holds type cells)
    {off : Nat} (hoff : off ≤ cells.length) (n : Nat)
    : (a.slice off n).Holds type ((cells.drop off).take n) := by
  obtain ⟨hlen, htype, h⟩ := h
  have hlength : (a.slice off n).length = ((cells.drop off).take n).length := by
    simp [ArrayData.slice, hlen]
  refine ⟨hlength, ?_, ?_⟩
  . intro c hc
    exact htype c (List.mem_of_mem_drop (List.mem_of_mem_take hc))
  . rw [hlength, List.length_take, List.length_drop]
    cases type with
    | int64 =>
      cases hbuf : a.buffers with
      | string offsets data =>
        rw [hbuf] at h
        exact h.elim
      | int64 values =>
        rw [hbuf] at h
        simp only [ArrayData.slice, hbuf]
        apply readAt_window h
        rw [Buffer.readAt_eq_some_iff, List.length_map]
        refine ⟨by omega, ?_⟩
        rw [← List.map_drop, ← List.map_take, List.take_eq_take_iff.mpr]
        simp
    | string =>
      cases hbuf : a.buffers with
      | int64 values =>
        rw [hbuf] at h
        exact h.elim
      | string offsets data =>
        rw [hbuf] at h
        obtain ⟨hhead, start, hwindow, hdata⟩ := h
        have hmap : ((cells.drop off).take n).map Cell.toBytes = ((cells.map Cell.toBytes).drop off).take n := by
          rw [List.map_take, List.map_drop]
        simp only [ArrayData.slice, hbuf]
        refine ⟨hhead, start + ((cells.map Cell.toBytes).take off).flatten.length, ?_, ?_⟩
        . apply readAt_window hwindow
          rw [Buffer.readAt_eq_some_iff, Column.length_offsetsFrom, List.length_map]
          refine ⟨by omega, ?_⟩
          rw [Column.drop_offsetsFrom _ _ _ (by simpa using hoff), Column.take_offsetsFrom _ _ _ (by simp),
            hmap, Nat.cast_add]
          congr 1
          rw [List.take_eq_take_iff]
          simp
        . rw [hmap]
          exact readAt_window hdata (Column.readAt_flatten (cells.map Cell.toBytes) off n)

theorem HoldRows.slice {fields : List FieldType} {columnData : List ArrayData} {rows : List Row}
    (h : HoldRows fields columnData rows) {off : Nat} (hoff : off ≤ rows.length) (n : Nat)
    : HoldRows fields (sliceAll columnData off n) ((rows.drop off).take n) := by
  induction fields generalizing columnData rows with
  | nil =>
    cases columnData with
    | nil => trivial
    | cons a as => exact h.elim
  | cons type fields ih =>
    obtain ⟨a, as, rfl, ha, has⟩ := h.cons
    constructor
    . rw [List.map_take, List.map_drop]
      exact ha.slice (by simpa using hoff) n
    . rw [List.map_take, List.map_drop]
      exact ih has (by simpa using hoff)

theorem Holds.valueSize_eq {a : ArrayData} {type : FieldType} {cells : List Cell} (h : a.Holds type cells)
    (hoffset : a.offset = 0) {r : Nat} {cell : Cell} (hcell : cells[r]? = some cell)
    : a.valueSize r = some (rowSize [cell]) := by
  obtain ⟨hlen, htype, h⟩ := h
  have hr := (List.getElem?_eq_some_iff.mp hcell).1
  have hct := htype cell (List.mem_of_getElem? hcell)
  unfold valueSize
  cases hbuf : a.buffers with
  | int64 values =>
    rw [hbuf] at h
    cases cell with
    | int64 v => rfl
    | string bytes =>
      cases hct
      exact h.elim
  | string offsets data =>
    rw [hbuf] at h
    cases cell with
    | int64 v =>
      cases hct
      exact h.elim
    | string bytes =>
      cases hct
      obtain ⟨-, start, hwindow, -⟩ := h
      rw [hoffset] at hwindow
      have hstart := Column.getElem?_of_readAt (k := r) hwindow (by omega)
      have hstop := Column.getElem?_of_readAt (k := r + 1) hwindow (by omega)
      rw [Nat.zero_add, Column.offsetsFrom_getElem? _ _ _ (by simp; omega)] at hstart hstop
      have hone : ((cells.map Cell.toBytes).drop r).take 1 = [bytes] := by
        rw [List.take_one_drop_eq_of_lt_length (by simpa using hr)]
        rw [List.getElem?_eq_getElem hr] at hcell
        simp [Option.some.inj hcell, Cell.toBytes]
      have hsize := Column.flatten_take_add (cells.map Cell.toBytes) r 1
      rw [hone, List.flatten_singleton] at hsize
      simp only [hstart, hstop, Option.bind_eq_bind, Option.bind_some, Option.pure_def, hsize]
      simp [rowSize]

theorem HoldRows.recordSize_eq {fields : List FieldType} {columnData : List ArrayData} {rows : List Row}
    (h : HoldRows fields columnData rows) (htype : ∀ row ∈ rows, Row.HasType fields row)
    (hoffset : ∀ a ∈ columnData, a.offset = 0) {r : Nat} {row : Row} (hrow : rows[r]? = some row)
    : recordSize columnData r = some (rowSize row) := by
  unfold recordSize
  induction fields generalizing columnData rows row with
  | nil =>
    have hnil := htype row (List.mem_of_getElem? hrow)
    simp only [Row.HasType, List.map_eq_nil_iff] at hnil
    cases columnData with
    | nil =>
      rw [hnil]
      rfl
    | cons a as => exact h.elim
  | cons type fields ih =>
    obtain ⟨a, as, rfl, ha, has⟩ := h.cons
    have htails : ∀ row ∈ rows.map List.tail, Row.HasType fields row := by
      intro row hmem
      obtain ⟨row', hmem', rfl⟩ := List.mem_map.mp hmem
      obtain ⟨c, row', rfl, -, hrow'⟩ := (htype row' hmem').cons
      exact hrow'
    obtain ⟨cell, row', rfl, -, -⟩ := (htype row (List.mem_of_getElem? hrow)).cons
    have hcell : (rows.map fun row => row.headD default)[r]? = some cell := by
      rw [List.getElem?_map, hrow]
      rfl
    have htail : (rows.map List.tail)[r]? = some row' := by
      rw [List.getElem?_map, hrow]
      rfl
    have hfirst := ha.valueSize_eq (hoffset a (by simp)) hcell
    have hrest := ih has htails (fun a ha => hoffset a (by simp [ha])) htail
    obtain ⟨sizes, hsizes, hsum⟩ := Option.bind_eq_some_iff.mp hrest
    have hsum := Option.some.inj hsum
    rw [List.mapM_cons, hfirst]
    simp only [hsizes, Option.bind_eq_bind, Option.bind_some, Option.pure_def, List.sum_cons, hsum]
    simp [rowSize]

end ArrayData

namespace Loader

/--
The table holds `contents`, and the pointer is the one of its block `i`. What the functions that the loop uses do to
the contents, as long as no block becomes too large.
-/
structure Lawful {σ : Type} (loader : Loader σ) (schema : Schema) (capacity : Int)
    (Holds : σ → BlockPtr → Nat → List (List Row) → Prop) (Small : List Row → Prop) : Prop where
  bytesLeft : ∀ {t block i contents rows}, Holds t block i contents → contents[i]? = some rows →
    loader.bytesLeft t block = some (capacity - (rows.map rowSize).sum)
  insertRecords : ∀ {t block i contents rows columnData new}, Holds t block i contents →
    contents[i]? = some rows → ArrayData.HoldRows schema.fields columnData new →
    (∀ row ∈ new, Row.HasType schema.fields row) →
    (∀ a ∈ columnData, ∀ a' ∈ columnData, a.offset = a'.offset) → Small (rows ++ new) →
    ∃ t', loader.insertRecords t block columnData = some t' ∧ Holds t' block i (contents.set i (rows ++ new))
  createBlock : ∀ {t block i contents}, Holds t block i contents →
    ∃ block' t', loader.createBlock t = some (block', t') ∧ Holds t' block' contents.length (contents ++ [[]])

variable {σ : Type} {loader : Loader σ} {schema : Schema} {capacity : Int}
  {Holds : σ → BlockPtr → Nat → List (List Row) → Prop} {Small : List Row → Prop}
  {columnData : List ArrayData} {input : List Row}

theorem Lawful.insertWaiting (hlawful : loader.Lawful schema capacity Holds Small)
    (hdata : ArrayData.HoldRows schema.fields columnData input)
    (htype : ∀ row ∈ input, Row.HasType schema.fields row) (hoffset : ∀ a ∈ columnData, a.offset = 0)
    {done todo : List Row} (hinput : input = done ++ todo) {t : σ} {block : BlockPtr} {i : Nat}
    {contents : List (List Row)} {rows : List Row} (hs : Holds t block i contents) (hrows : contents[i]? = some rows)
    {off : Nat} (hle : off ≤ done.length) (hsmall : Small (rows ++ done.drop off))
    : ∃ t', loader.insertRecords t block (sliceAll columnData off (done.length - off)) = some t' ∧
        Holds t' block i (contents.set i (rows ++ done.drop off)) := by
  apply hlawful.insertRecords hs hrows _ _ _ hsmall
  . have h := hdata.slice (show off ≤ input.length by rw [hinput, List.length_append]; omega) (done.length - off)
    rw [hinput, List.drop_append_of_le_length hle, List.take_append_of_le_length (by simp),
      List.take_of_length_le (by simp)] at h
    exact h
  . intro row hrow
    apply htype
    rw [hinput]
    exact List.mem_append_left _ (List.mem_of_mem_drop hrow)
  . intro a ha a' ha'
    obtain ⟨b, hb, rfl⟩ := List.mem_map.mp ha
    obtain ⟨b', hb', rfl⟩ := List.mem_map.mp ha'
    simp only [ArrayData.slice, hoffset b hb, hoffset b' hb']

theorem Lawful.cut (hlawful : loader.Lawful schema capacity Holds Small)
    (hdata : ArrayData.HoldRows schema.fields columnData input)
    (htype : ∀ row ∈ input, Row.HasType schema.fields row) (hoffset : ∀ a ∈ columnData, a.offset = 0)
    {done todo : List Row} (hinput : input = done ++ todo) {t : σ} {block : BlockPtr} {i : Nat}
    {contents : List (List Row)} {rows : List Row} (hs : Holds t block i contents) (hrows : contents[i]? = some rows)
    {off : Nat} (hle : off ≤ done.length) (hsmall : Small (rows ++ done.drop off))
    : ∃ t₁ block₂ t₂, loader.insertRecords t block (sliceAll columnData off (done.length - off)) = some t₁ ∧
        loader.createBlock t₁ = some (block₂, t₂) ∧
        Holds t₂ block₂ contents.length (contents.set i (rows ++ done.drop off) ++ [[]]) ∧
        (contents.set i (rows ++ done.drop off) ++ [[]])[contents.length]? = some [] := by
  obtain ⟨t₁, ht₁, hholds₁⟩ := hlawful.insertWaiting hdata htype hoffset hinput hs hrows hle hsmall
  obtain ⟨block₂, t₂, ht₂, hholds₂⟩ := hlawful.createBlock hholds₁
  rw [List.length_set] at hholds₂
  refine ⟨t₁, block₂, t₂, ht₁, ht₂, hholds₂, ?_⟩
  rw [List.getElem?_append_right (by simp)]
  simp

theorem recordSize_of_append (hdata : ArrayData.HoldRows schema.fields columnData input)
    (htype : ∀ row ∈ input, Row.HasType schema.fields row) (hoffset : ∀ a ∈ columnData, a.offset = 0)
    {done todo : List Row} {x : Row} (hinput : input = done ++ x :: todo)
    : recordSize columnData done.length = some (rowSize x) := by
  apply hdata.recordSize_eq htype hoffset
  rw [hinput]
  simp

/--
The rows from `s.offset` to the current row are those that wait to be inserted.
-/
theorem Lawful.loadFrom (hlawful : loader.Lawful schema capacity Holds Small)
    (hdata : ArrayData.HoldRows schema.fields columnData input)
    (htype : ∀ row ∈ input, Row.HasType schema.fields row) (hoffset : ∀ a ∈ columnData, a.offset = 0)
    {done todo : List Row} (hinput : input = done ++ todo) {s : State σ} {i : Nat} {contents : List (List Row)}
    {rows : List Row} (hs : Holds s.table s.block i contents) (hrows : contents[i]? = some rows)
    (hle : s.offset ≤ done.length) (hsize : s.dataSize = ((done.drop s.offset).map rowSize).sum)
    {first : List Row} {rest : List (List Row)}
    (hpieces : Fill.pieces rowSize capacity (capacity - (rows.map rowSize).sum) (done.drop s.offset) todo
      = (first, rest))
    (hbounded : Fill.Bounded rowSize capacity maxInt (capacity - (rows.map rowSize).sum) (done.drop s.offset) todo)
    (hfirst : Small (rows ++ first)) (hrest : ∀ bin ∈ rest, Small bin)
    : ∃ s' table, (List.range' done.length todo.length).foldlM (loader.loadRow columnData) s = some s' ∧
        loader.loadRest columnData input.length s' = some (s'.block, table) ∧
        Holds table s'.block (if rest = [] then i else contents.length + rest.length - 1)
          (contents.set i (rows ++ first) ++ rest) := by
  induction todo generalizing done s i contents rows first rest with
  | nil =>
    rw [Fill.pieces] at hpieces
    obtain ⟨rfl, rfl⟩ := Prod.mk.inj hpieces
    obtain ⟨table, htable, hholds⟩ := hlawful.insertWaiting hdata htype hoffset hinput hs hrows hle hfirst
    rw [List.append_nil] at hinput
    subst hinput
    refine ⟨s, table, rfl, ?_, ?_⟩
    . rw [loadRest, htable]
      rfl
    . rw [List.append_nil]
      exact hholds
  | cons x todo ih =>
    have hx := recordSize_of_append hdata htype hoffset hinput
    have hbytes := hlawful.bytesLeft hs hrows
    have hinput' : input = (done ++ [x]) ++ todo := by
      rw [hinput, List.append_assoc, List.singleton_append]
    have hlen : (done ++ [x]).length = done.length + 1 := by simp
    rw [List.length_cons, List.range'_succ, List.foldlM_cons]
    rw [Fill.pieces] at hpieces
    rw [Fill.Bounded] at hbounded
    obtain ⟨hlimit, hbounded⟩ := hbounded
    simp only [loadRow, hx, hbytes, Option.bind_eq_bind, Option.bind_some, hsize]
    rw [if_neg (Int.not_lt.mpr hlimit)]
    split at hpieces
    . next hcut =>
      rw [if_pos hcut] at hbounded
      -- the rows that wait are inserted, and row `x` is the first one of a new block
      obtain ⟨rfl, hnext⟩ := Prod.mk.inj hpieces
      obtain ⟨t₁, block₂, t₂, ht₁, ht₂, hholds₂, hlast⟩ := hlawful.cut hdata htype hoffset hinput hs hrows hle hfirst
      rw [if_pos hcut, ht₁, Option.bind_some, ht₂, Option.bind_some]
      have hdrop : (done ++ [x]).drop done.length = [x] := List.drop_left
      subst hnext
      have hnext : Fill.pieces rowSize capacity (capacity - (([] : List Row).map rowSize).sum)
          ((done ++ [x]).drop done.length) todo
            = ((Fill.pieces rowSize capacity capacity [x] todo).1, (Fill.pieces rowSize capacity capacity [x] todo).2) := by
        simp only [hdrop, List.map_nil, List.sum_nil, Int.sub_zero]
      have hih := ih hinput' (s := ⟨t₂, block₂, done.length, rowSize x⟩) hholds₂ hlast (by simp)
        (by simp only [hdrop, List.map_singleton, List.sum_singleton]) hnext
        (by simpa only [hdrop, List.map_nil, List.sum_nil, Int.sub_zero] using hbounded) (hrest _ (by simp))
        (fun bin hbin => hrest bin (by simp [hbin]))
      rw [hlen] at hih
      obtain ⟨s', table, hs', hload, hholds⟩ := hih
      refine ⟨s', table, hs', hload, ?_⟩
      rw [if_neg (by simp)]
      rw [List.nil_append, List.set_append_right _ _ (by simp)] at hholds
      simp only [List.length_set, Nat.sub_self, List.set_cons_zero, List.length_append, List.length_singleton] at hholds
      rw [List.append_assoc, List.singleton_append] at hholds
      split at hholds
      . next hnil =>
        rw [hnil] at hholds ⊢
        simpa using hholds
      . rw [List.length_cons]
        have : contents.length + ((Fill.pieces rowSize capacity capacity [x] todo).2.length + 1) - 1
            = contents.length + 1 + (Fill.pieces rowSize capacity capacity [x] todo).2.length - 1 := by omega
        rw [this]
        exact hholds
    . next hfits =>
      rw [if_neg hfits] at hbounded
      rw [if_neg hfits, Option.pure_def, Option.bind_some]
      have hdrop : (done ++ [x]).drop s.offset = done.drop s.offset ++ [x] := List.drop_append_of_le_length hle
      have hih := ih hinput'
        (s := { s with dataSize := ((done.drop s.offset).map rowSize).sum + rowSize x }) hs hrows
        (by rw [hlen]; exact Nat.le_succ_of_le hle) (by simp only [hdrop, List.map_append, List.sum_append,
          List.map_singleton, List.sum_singleton])
        (by rw [hdrop]; exact hpieces) (by rw [hdrop]; exact hbounded) hfirst hrest
      rw [hlen] at hih
      exact hih

theorem Lawful.load (hlawful : loader.Lawful schema capacity Holds Small)
    (hdata : ArrayData.HoldRows schema.fields columnData input)
    (htype : ∀ row ∈ input, Row.HasType schema.fields row) (hoffset : ∀ a ∈ columnData, a.offset = 0)
    {t : σ} {block : BlockPtr} {i : Nat} {contents : List (List Row)} {rows : List Row}
    (ht : Holds t block i contents) (hrows : contents[i]? = some rows) {first : List Row} {rest : List (List Row)}
    (hpieces : Fill.pieces rowSize capacity (capacity - (rows.map rowSize).sum) [] input = (first, rest))
    (hbounded : Fill.Bounded rowSize capacity maxInt (capacity - (rows.map rowSize).sum) [] input)
    (hfirst : Small (rows ++ first)) (hrest : ∀ bin ∈ rest, Small bin)
    : ∃ block' t', loader.load columnData input.length block t = some (block', t') ∧
        Holds t' block' (if rest = [] then i else contents.length + rest.length - 1)
          (contents.set i (rows ++ first) ++ rest) := by
  obtain ⟨s, table, hs, hload, hholds⟩ := hlawful.loadFrom hdata htype hoffset (show input = [] ++ input from rfl)
    (s := ⟨t, block, 0, 0⟩) ht hrows (Nat.le_refl 0) rfl hpieces hbounded hfirst hrest
  refine ⟨s.block, table, ?_, hholds⟩
  rw [List.length_nil] at hs
  rw [Loader.load, List.range_eq_range', hs]
  exact hload

end Loader

end Hustle.Storage
