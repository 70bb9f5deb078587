import Hustle.Storage.BlockUpdate
import Hustle.Storage.TableRepr

/-!
This module contains what the steps of an update do in terms of the rows in the blocks: patching an
integer of a row, patching an integer of a block that has been replaced, and replacing a row.
-/

namespace Hustle.Storage

namespace DBTable

/--
Blocks that the table does not refer to any more stay as they are.
-/
def KeepsStale (t t' : DBTable) : Prop :=
  ∀ ptr b, t.heap[ptr]? = some b → (∀ k, t.blocks.lookup k ≠ some ptr) →
    t'.heap[ptr]? = some b ∧ ∀ k, t'.blocks.lookup k ≠ some ptr

theorem KeepsStale.refl (t : DBTable) : KeepsStale t t := fun _ _ hb hk => ⟨hb, hk⟩

theorem KeepsStale.trans {t t' t'' : DBTable} (h : KeepsStale t t') (h' : KeepsStale t' t'')
    : KeepsStale t t'' := by
  intro ptr b hb hk
  obtain ⟨hb', hk'⟩ := h ptr b hb hk
  exact h' ptr b hb' hk'

variable {t : DBTable} {contents : List (List Row)}

theorem createBlock_keepsStale (t : DBTable) : KeepsStale t t.createBlock.2 := by
  intro ptr b hb hk
  have hlt : ptr < t.heap.length := (List.getElem?_eq_some_iff.mp hb).1
  refine ⟨?_, ?_⟩
  . simp only [createBlock]
    rw [List.getElem?_append_left hlt, hb]
  . intro k
    simp only [createBlock, Map.emplace]
    split
    . exact hk k
    . rw [Map.lookup_insert_eq]
      split
      . intro heq
        injection heq with heq
        rw [heq] at hlt
        exact absurd hlt (Nat.lt_irrefl _)
      . exact hk k

theorem getBlockForInsert_keepsStale (t : DBTable) (pick : List Int → Nat)
    : KeepsStale t (t.getBlockForInsert pick).2 := by
  unfold getBlockForInsert
  dsimp only
  split
  . exact createBlock_keepsStale t
  . exact fun _ _ hb hk => ⟨hb, hk⟩

theorem blockForRecord_keepsStale {pick : List Int → Nat} {byteWidths : List Int} {ptr : BlockPtr}
    {t' : DBTable} (h : t.blockForRecord pick byteWidths = some (ptr, t'))
    : KeepsStale t t' := by
  have hget := getBlockForInsert_keepsStale t pick
  unfold blockForRecord at h
  generalize t.getBlockForInsert pick = res at h hget
  obtain ⟨ptr₁, t₁⟩ := res
  dsimp only at h hget
  rw [Option.bind_eq_bind, Option.bind_eq_some_iff] at h
  obtain ⟨b, -, h⟩ := h
  simp only [Option.pure_def, Option.some.injEq] at h
  split at h
  . have := hget.trans (createBlock_keepsStale t₁)
    rw [h] at this
    exact this
  . rw [Prod.mk.injEq] at h
    rw [← h.2]
    exact hget

theorem Repr.insertRecordTable_keepsStale (h : t.Repr contents) {pick : List Int → Nat}
    {rowId : UInt32} {record record' : List UInt8} {byteWidths : List Int} {t' : DBTable}
    (heq : t.insertRecordTable pick rowId record byteWidths = some (t', record'))
    : KeepsStale t t' := by
  obtain ⟨ptr, t₁, b, rows, k, i, hblock, -, -, hptr, hb, -⟩ := h.blockForRecord pick byteWidths
  have hkeep := blockForRecord_keepsStale hblock
  unfold DBTable.insertRecordTable DBTable.insertRecord at heq
  simp only [hblock, hb, Option.bind_eq_bind, Option.bind_some] at heq
  cases hinsert : b.insertRecord record byteWidths with
  | none => simp [hinsert] at heq
  | some res =>
    simp only [hinsert, Option.bind_some, Option.pure_def, Option.some.injEq, Prod.mk.injEq] at heq
    refine hkeep.trans ?_
    intro p b' hb' hk
    have hne : ptr ≠ p := by
      intro hp
      exact hk i (hp ▸ hptr)
    rw [← heq.1]
    dsimp only
    split
    . exact ⟨by simp [DBTable.setBlock, hne, hb'], hk⟩
    . exact ⟨by simp [DBTable.setBlock, hne, hb'], hk⟩

/--
Deleting a row replaces its block, the old one stays behind with all of its rows.
-/
theorem Repr.deleteRecordTable_heap (h : t.Repr contents) {rowId : UInt32} {i r : Nat}
    {rows : List Row} (hmap : t.blockMap.lookup (rowKey rowId) = some ⟨i, r⟩)
    (hrows : contents[i]? = some rows) {t' : DBTable} (heq : t.deleteRecordTable rowId = some t')
    {ptr : BlockPtr} (hptr : t.blocks.lookup (i : Int) = some ptr)
    : KeepsStale t t' ∧
      (∃ b, t'.heap[ptr]? = some b ∧ b.columns = Column.ofRows t.schema.fields rows) ∧
      ∀ k, t'.blocks.lookup k ≠ some ptr := by
  obtain ⟨ptr', b, hptr', hb, hbrepr⟩ := h.block i rows hrows
  rw [hptr] at hptr'
  injection hptr' with hptr'
  subst hptr'
  have hlt : ptr < t.heap.length := h.ptr_lt hptr
  unfold DBTable.deleteRecordTable at heq
  have hneg : ¬((r : Int) < 0) := by omega
  simp only [hmap, hptr, DBTable.block, hb, Option.bind_eq_bind, Option.bind_some, hneg, ↓reduceIte]
    at heq
  rw [Option.bind_eq_some_iff] at heq
  obtain ⟨s, -, heq⟩ := heq
  simp only [Option.pure_def, Option.some.injEq] at heq
  have hlookup : ∀ k, t'.blocks.lookup k = if k = i then some t.heap.length else t.blocks.lookup k := by
    intro k
    rw [← heq]
    dsimp only
    rw [Map.lookup_insert_eq]
  have hold : ∀ p, p < t.heap.length → (∀ k : Int, k ≠ i → t.blocks.lookup k ≠ some p)
      → ∀ k, t'.blocks.lookup k ≠ some p := by
    intro p hp hk k
    rw [hlookup]
    split
    . intro hsome
      injection hsome with hsome
      rw [hsome] at hp
      exact absurd hp (Nat.lt_irrefl _)
    . next hki => exact hk k hki
  refine ⟨?_, ?_, ?_⟩
  . intro p b' hb' hk
    have hp : p < t.heap.length := (List.getElem?_eq_some_iff.mp hb').1
    have hne : ptr ≠ p := by
      intro heq'
      exact hk i (heq' ▸ hptr)
    refine ⟨?_, hold p hp fun k _ => hk k⟩
    rw [← heq]
    dsimp only
    rw [List.getElem?_append_left (by simpa using hp), List.getElem?_set_ne hne, hb']
  . rw [← heq]
    dsimp only
    rw [List.getElem?_append_left (by simpa using hlt), List.getElem?_set_self hlt]
    exact ⟨_, rfl, hbrepr.columns_eq⟩
  . apply hold ptr hlt
    intro k hki hk
    exact hki (h.inj k i ptr hk hptr)

theorem Repr.setBlock_stale (h : t.Repr contents) {ptr : BlockPtr}
    (hstale : ∀ k, t.blocks.lookup k ≠ some ptr) (b : Block)
    : (t.setBlock ptr b).Repr contents where
  counter_eq := h.counter_eq
  block := by
    intro i rows hi
    obtain ⟨ptr', b', hptr', hb', hrepr'⟩ := h.block i rows hi
    refine ⟨ptr', b', hptr', ?_, hrepr'⟩
    have hne : ptr ≠ ptr' := by
      intro heq
      exact hstale i (heq ▸ hptr')
    simp [DBTable.setBlock, hne, hb']
  keys := h.keys
  inj := h.inj
  pool := h.pool

theorem Repr.patch (h : t.Repr contents) {i r : Nat} {rows : List Row} {row : Row}
    (hrows : contents[i]? = some rows) (hrow : rows[r]? = some row) {ptr : BlockPtr}
    (hptr : t.blocks.lookup (i : Int) = some ptr) (hc : t.schema.fields[c]? = some .int64)
    (v : BitVec 64)
    : ∃ b,
        t.heap[ptr]? = some b ∧
        b.columns = Column.ofRows t.schema.fields rows ∧
        let patched := rows.set r (row.set c (.int64 v))
        let t' := t.setBlock ptr { b with columns := Column.ofRows t.schema.fields patched }
        t'.Repr (contents.set i patched) ∧
        ∀ info, t'.row info = if info = ⟨i, r⟩ then some (row.set c (.int64 v)) else t.row info := by
  obtain ⟨ptr', b, hptr', hb, hbrepr⟩ := h.block i rows hrows
  rw [hptr] at hptr'
  injection hptr' with hptr'
  subst hptr'
  have hrepr := h.setBlock hptr (hbrepr.patch hrow hc v)
  refine ⟨b, hb, hbrepr.columns_eq, hrepr, ?_⟩
  have hi : i < contents.length := (List.getElem?_eq_some_iff.mp hrows).1
  have hr : r < rows.length := (List.getElem?_eq_some_iff.mp hrow).1
  intro info
  by_cases hinfo : info = ⟨i, r⟩
  . rw [if_pos hinfo, hinfo, hrepr.row_nat]
    simp [hi, hr]
  . rw [if_neg hinfo, hrepr.row_eq, h.row_eq]
    split
    . next hnn =>
      rw [List.getElem?_set]
      split
      . next hij =>
        have hne : r ≠ info.rowNum.toNat := by
          intro hrowNum
          apply hinfo
          cases info
          simp_all
        rw [← hij, hrows]
        simp [hne]
      . rfl
    . rfl

theorem Repr.row_succ_none (h : t.Repr contents) {i r : Nat} (hrow : t.row ⟨i, r⟩ = none)
    : t.row ⟨i, (r : Int) + 1⟩ = none := by
  have hcast : (r : Int) + 1 = ((r + 1 : Nat) : Int) := by omega
  rw [hcast, h.row_nat]
  rw [h.row_nat] at hrow
  cases hi : contents[i]? with
  | none => rfl
  | some rows =>
    rw [hi] at hrow
    simp only [Option.bind_some, List.getElem?_eq_none_iff] at hrow ⊢
    omega

theorem Repr.numRows_of_last (h : t.Repr contents) {info : BlockInfo} {row : Row}
    (hrow : t.row info = some row)
    : (t.getBlock info.blockId).map (fun b => (b.numRows : Int)) = some (info.rowNum + 1)
        ↔
      t.row ⟨info.blockId, info.rowNum + 1⟩ = none := by
  obtain ⟨i, r, rows, rfl, hrows, hr⟩ := h.exists_of_row hrow
  have hcast : (r : Int) + 1 = ((r + 1 : Nat) : Int) := by omega
  obtain ⟨b, hb, hbrepr⟩ := h.getBlock_eq hrows
  have hlt : r < rows.length := (List.getElem?_eq_some_iff.mp hr).1
  dsimp only
  rw [hcast, h.row_nat, hrows, hb, Option.map_some, hbrepr.numRows_eq]
  simp only [Option.bind_some, List.getElem?_eq_none_iff, Option.some.injEq, Int.natCast_inj]
  omega

end DBTable

end Hustle.Storage
