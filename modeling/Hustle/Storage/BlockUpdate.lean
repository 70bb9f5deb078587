import Hustle.Storage.BlockRepr

/-!
This module contains what patching an integer in place does in terms of the rows that a block holds.
-/

namespace Hustle.Storage

theorem recordBytes_append (xs ys : List Field)
    : recordBytes (xs ++ ys) = recordBytes xs ++ recordBytes ys := by
  simp [recordBytes]

theorem recordBytes_split {ys : List Field} {c : Nat} {y : Field} (hy : ys[c]? = some y)
    : recordBytes ys = recordBytes (ys.take c) ++ y.bytes ++ recordBytes (ys.drop (c + 1)) := by
  obtain ⟨hlt, rfl⟩ := List.getElem?_eq_some_iff.mp hy
  rw [List.append_assoc, ← recordBytes_cons, List.getElem_cons_drop, ← recordBytes_append,
    List.take_append_drop]

theorem recordBytes_set {ys : List Field} {c : Nat} {y : Field} (hc : c < ys.length)
    : recordBytes (ys.set c y)
        =
      recordBytes (ys.take c) ++ y.bytes ++ recordBytes (ys.drop (c + 1)) := by
  rw [List.set_eq_take_append_cons_drop, if_pos hc, recordBytes_append, recordBytes_cons,
    List.append_assoc]

namespace Column

theorem ofRows_getElem? {type : FieldType} (hc : fields[c]? = some type) (rows : List Row)
    : (ofRows fields rows)[c]? = some (ofCells type (rows.map fun row => row.getD c default)) := by
  induction fields generalizing c rows with
  | nil => simp at hc
  | cons type fields ih =>
    cases c with
    | zero =>
      simp only [List.getElem?_cons_zero, Option.some.injEq] at hc
      subst hc
      simp [ofRows, List.headD_eq_head?_getD, List.getD_eq_getElem?_getD, List.head?_eq_getElem?]
    | succ c =>
      have := ih hc (rows.map List.tail)
      simpa [ofRows, Function.comp_def, List.getD_eq_getElem?_getD] using this

theorem getElem?_ofRows (hc : fields[c]? = some .int64) (rows : List Row)
    : (ofRows fields rows)[c]?
        =
      some (ofInts (rows.map fun row => (row.getD c default).toInt64)) := by
  rw [ofRows_getElem? hc, ofCells, List.map_map]
  rfl

theorem set_ofRows (hc : fields[c]? = some .int64) (rows : List Row) {r : Nat} {row : Row}
    (hrow : rows[r]? = some row) (htype : Row.HasType fields row) (v : BitVec 64)
    : (ofRows fields rows).set c
          (ofInts ((rows.map fun row => (row.getD c default).toInt64).set r v))
        =
      ofRows fields (rows.set r (row.set c (.int64 v))) := by
  induction fields generalizing c rows row with
  | nil => simp at hc
  | cons type fields ih =>
    cases row with
    | nil => simp [Row.HasType] at htype
    | cons cell cells =>
      have hsame : ∀ {β : Type} (g : Row → β), (rows.map g).set r (g (cell :: cells)) = rows.map g := by
        intro β g
        obtain ⟨hlt, heq⟩ := List.getElem?_eq_some_iff.mp hrow
        rw [← heq, ← List.getElem_map g (h := by simpa using hlt), List.set_getElem_self]
      cases c with
      | zero =>
        simp only [List.getElem?_cons_zero, Option.some.injEq] at hc
        subst hc
        have htail := hsame List.tail
        simp only [List.tail_cons] at htail
        have hint : (Cell.int64 v).toInt64 = v := rfl
        simp [ofRows, ofCells, List.map_set, List.set_cons_zero, hint, htail, Function.comp_def,
          List.headD_eq_head?_getD, List.getD_eq_getElem?_getD, List.head?_eq_getElem?]
      | succ c =>
        have hcells : Row.HasType fields cells := by
          simp only [Row.HasType, List.map_cons, List.cons.injEq] at htype
          exact htype.2
        have hrow' : (rows.map List.tail)[r]? = some cells := by simp [hrow]
        have hrest := ih hc (rows.map List.tail) hrow' hcells
        have hhead := hsame fun row => row.headD default
        simp only [List.headD_cons] at hhead
        simp only [ofRows, List.map_set, List.set_cons_succ, List.headD_cons, List.tail_cons, hhead,
          ← hrest]
        simp [Function.comp_def, List.getD_eq_getElem?_getD]

end Column

theorem Row.HasType.set_int64 (h : Row.HasType fields row) (hc : fields[c]? = some .int64)
    (v : BitVec 64)
    : Row.HasType fields (row.set c (.int64 v)) := by
  unfold Row.HasType at h ⊢
  obtain ⟨hlt, heq⟩ := List.getElem?_eq_some_iff.mp hc
  rw [List.map_set, h]
  have hself : (Cell.int64 v).fieldType = fields[c] := heq.symm
  rw [hself, List.set_getElem_self]

theorem rowSize_set_int64 (h : Row.HasType fields row) (hc : fields[c]? = some .int64) (v : BitVec 64)
    : rowSize (row.set c (.int64 v)) = rowSize row := by
  unfold Row.HasType at h
  unfold rowSize
  rw [List.map_set]
  congr 1
  apply List.ext_getElem?
  intro k
  rw [List.getElem?_set]
  split
  . next hk =>
    subst hk
    rw [← h, List.getElem?_map, Option.map_eq_some_iff] at hc
    obtain ⟨cell, hcell, htype⟩ := hc
    obtain ⟨hlt, -⟩ := List.getElem?_eq_some_iff.mp hcell
    rw [List.length_map, if_pos hlt, List.getElem?_map, hcell]
    cases cell with
    | int64 w => rfl
    | string bytes => simp [Cell.fieldType] at htype
  . rfl

namespace Block

theorem Repr.patch {b : Block} {id capacity : Int} {schema : Schema} {rows : List Row}
    (h : b.Repr id schema capacity rows) {r : Nat} {row : Row} (hrow : rows[r]? = some row)
    (hc : schema.fields[c]? = some .int64) (v : BitVec 64)
    : Repr
        { b with columns := Column.ofRows schema.fields (rows.set r (row.set c (.int64 v))) }
        id schema capacity (rows.set r (row.set c (.int64 v))) := by
  have htype : Row.HasType schema.fields row := h.hasType row (List.mem_of_getElem? hrow)
  have hrows : ∀ row' ∈ rows.set r (row.set c (.int64 v)), Row.HasType schema.fields row' := by
    intro row' hmem
    rcases List.mem_or_eq_of_mem_set hmem with hold | hnew
    . exact h.hasType row' hold
    . rw [hnew]
      exact htype.set_int64 hc v
  have hsize : (rows.set r (row.set c (.int64 v))).map rowSize = rows.map rowSize := by
    obtain ⟨hlt, heq⟩ := List.getElem?_eq_some_iff.mp hrow
    have hlt' : r < (rows.map rowSize).length := by simpa using hlt
    have hr : rowSize (row.set c (.int64 v)) = (rows.map rowSize)[r] := by
      rw [rowSize_set_int64 htype hc, List.getElem_map, heq]
    rw [List.map_set, hr, List.set_getElem_self]
  constructor
  . exact h.id_eq
  . exact h.schema_eq
  . exact h.capacity_eq
  . simpa using h.numRows_eq
  . rfl
  . dsimp only
    rw [h.numBytes_eq, h.columns_eq, Column.totalSize_ofRows hrows, hsize,
      Column.totalSize_ofRows h.hasType]
  . simpa using h.valid_eq
  . exact h.rowIdMap_eq
  . exact hrows

variable {ys : List Field} {y : Field}

/--
Patching an integer of less than eight bytes, whose bytes are found at `pos`.
-/
theorem updateColumnValue_eq {b : Block} {rows : List Row}
    (hcols : b.columns = Column.ofRows fields rows) (hc : fields[c]? = some .int64)
    {r : Nat} {row : Row} (hrow : rows[r]? = some row) (htype : Row.HasType fields row)
    (hy : ys[c]? = some y) (hwf : y.WellFormed .int64) (hshort : y.byteWidth < fieldSize) {pos : Int}
    (hpos : 0 ≤ y.byteWidth → pos = (recordBytes (ys.take c)).length)
    : b.updateColumnValue c r (recordBytes ys) pos y.byteWidth
        =
      some (
        { b with columns := Column.ofRows fields (rows.set r (row.set c (y.stored .int64))) },
        recordBytes (ys.set c (y.inserted .int64))
      ) := by
  have hlen : y.bytes.length = y.byteWidth.toNat := hwf.1
  have hcol := Column.getElem?_ofRows hc rows
  have hset := Column.set_ofRows hc rows hrow htype
  obtain ⟨hr, -⟩ := List.getElem?_eq_some_iff.mp hrow
  obtain ⟨hlt, -⟩ := List.getElem?_eq_some_iff.mp hy
  have h8 : ¬y.byteWidth = fieldSize := by omega
  have hwrite : ∀ v : BitVec 64, Buffer.writeAt (rows.map fun row => (row.getD c default).toInt64) r [v]
      = (rows.map fun row => (row.getD c default).toInt64).set r v := by
    intro v
    exact Buffer.writeAt_singleton_lt _ _ _ (by simpa using hr)
  have hofInts : ∀ v : BitVec 64, Column.mk ⟨rows.length, 0, .int64 ((rows.map fun row =>
      (row.getD c default).toInt64).set r v)⟩ (fieldSize * rows.length)
      = Column.ofInts ((rows.map fun row => (row.getD c default).toInt64).set r v) := by
    intro v
    simp [Column.ofInts]
  unfold Block.updateColumnValue
  rw [hcols, hcol]
  simp only [Column.ofInts, Option.bind_eq_bind, Option.bind_some, List.length_map]
  by_cases hneg : y.byteWidth < 0
  . have hnil : y.bytes = [] := by
      apply List.eq_nil_of_length_eq_zero
      omega
    rw [if_pos hneg, Column.zeroExtend_eq _ (by simp [fieldSize]), recordBytes_set hlt,
      recordBytes_split hy]
    simp only [Option.bind_some, Column.int64OfMemory_append_zeros, hwrite, hofInts, hset,
      Option.pure_def, Field.stored, Field.storedInt, h8, hneg, ↓reduceIte, Field.inserted, hnil,
      Field.constant]
    simp
  . have hn : y.byteWidth.toNat = y.bytes.length := hlen.symm
    have hrev : y.byteWidth.toNat = y.bytes.reverse.length := by simpa using hn
    have hpos' := hpos (by omega)
    have hposNat : pos.toNat = (recordBytes (ys.take c)).length := by omega
    rw [if_neg hneg, if_neg (by omega), recordBytes_set hlt, recordBytes_split hy,
      Column.reverseBytes_append _ _ _ _ _ hposNat hn, Buffer.readAt_append _ _ _ _ _ hposNat hrev]
    simp only [Option.bind_some]
    rw [Column.zeroExtend_eq _ (by simp; omega)]
    simp only [Option.bind_some, Column.int64OfMemory_append_zeros, hwrite, hofInts, hset,
      Option.pure_def, Field.stored, Field.storedInt, h8, hneg, ↓reduceIte, Field.inserted,
      Bytes.beNat]

end Block

end Hustle.Storage
