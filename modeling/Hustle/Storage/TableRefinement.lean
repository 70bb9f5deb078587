import Mathlib.Data.Finmap
import Hustle.Storage.TableRepr

/-!
This module compares a table under inserts and deletes with a finite map from row ids to rows.
Deleting a record leaves its entry in `block_map` behind, does not move the entries of the rows after
it and overwrites the entry of row id 0, so the comparison succeeds for deletes in a certain order only.
-/

namespace Hustle.Storage

/--
What a table is for: the live row ids and their rows.
-/
abbrev RowStore := Finmap fun _ : UInt32 => Row

inductive TableOp where
  | insert (rowId : UInt32) (row : Row)
  | delete (rowId : UInt32)
  deriving DecidableEq

namespace DBTable

structure Tracked where
  table : DBTable
  live : RowStore

namespace Tracked

def init (schema : Schema) (blockCapacity : Int) (metadataEnabled : Bool) : Tracked :=
  ⟨DBTable.new schema blockCapacity metadataEnabled, ∅⟩

def step (pick : List Int → Nat) (s : Tracked) : TableOp → Option Tracked
  | .insert rowId row => do
    let xs := recordOfRow row
    let (table, _) ← s.table.insertRecordTable pick rowId (recordBytes xs) (recordWidths xs)
    return ⟨table, s.live.insert rowId row⟩
  | .delete rowId => do
    let table ← s.table.deleteRecordTable rowId
    return ⟨table, s.live.erase rowId⟩

/--
The inserts that are asked for: a row id that is not live and a row that fits an empty block.
-/
def Admissible (s : Tracked) : TableOp → Prop
  | .insert rowId row =>
    rowId ∉ s.live ∧
    Row.HasType s.table.schema.fields row ∧
    rowSize row ≤ s.table.blockCapacity
  | .delete _ => True

/--
The deletes that go well. Either `block_map` has no entry for the row id, or the row id is live, its
row is the last one of its block and rebuilding the block does not move row id 0.
-/
def DeleteSafe (s : Tracked) : TableOp → Prop
  | .insert _ _ => True
  | .delete rowId =>
    ∀ info ∈ s.table.blockMap.lookup (rowKey rowId),
      rowId ∈ s.live ∧
      (s.table.getBlock info.blockId).map (fun b => (b.numRows : Int)) = some (info.rowNum + 1) ∧
      (info.rowNum = 0 ∨ rowId = 0 ∨ 0 ∉ s.live ∨
        (s.table.blockMap.lookup 0).map BlockInfo.rowNum = some (info.rowNum - 1))

/--
The table holds exactly the live rows, each in the place that `block_map` says.
-/
structure Refines (s : Tracked) : Prop where
  holds : ∀ rowId row, s.live.lookup rowId = some row →
    ∃ info, s.table.blockMap.lookup (rowKey rowId) = some info ∧ s.table.row info = some row
  distinct : ∀ rowId rowId' info, rowId ∈ s.live → rowId' ∈ s.live →
    s.table.blockMap.lookup (rowKey rowId) = some info →
    s.table.blockMap.lookup (rowKey rowId') = some info → rowId = rowId'
  noOther : ∀ info row, s.table.row info = some row →
    ∃ rowId, rowId ∈ s.live ∧ s.table.blockMap.lookup (rowKey rowId) = some info
  numRows_eq : s.table.numRows = s.live.keys.card

def DeadDeleteKeeps (s : Tracked) (op : TableOp) (s' : Tracked) : Prop :=
  ∀ rowId, op = .delete rowId → rowId ∉ s.live → s'.table = s.table

instance (s : Tracked) (op : TableOp) : Decidable (s.Admissible op) :=
  match op with
  | .insert _ _ => inferInstanceAs (Decidable (_ ∧ _ ∧ _))
  | .delete _ => inferInstanceAs (Decidable True)

instance (s : Tracked) (op : TableOp) : Decidable (s.DeleteSafe op) :=
  match op with
  | .insert _ _ => inferInstanceAs (Decidable True)
  | .delete _ => inferInstanceAs (Decidable (∀ _ ∈ _, _))

def Inv (s : Tracked) : Prop :=
  s.Refines ∧ ∃ contents, s.table.Repr contents

theorem init_inv (schema : Schema) (blockCapacity : Int) (metadataEnabled : Bool)
    : (init schema blockCapacity metadataEnabled).Inv := by
  constructor
  . constructor
    . simp [init]
    . intro rowId rowId' info hlive
      exact absurd hlive Finmap.notMem_empty
    . intro info row hrow
      rw [init, (new_repr schema blockCapacity metadataEnabled).row_eq] at hrow
      simp at hrow
    . rfl
  . exact ⟨[], new_repr _ _ _⟩

variable {s : Tracked}

/--
A table with a new row in a place that was free refines the map with that row.
-/
theorem Inv.inserted (hinv : s.Inv) {rowId : UInt32} {row : Row} (hdead : rowId ∉ s.live) {t' : DBTable}
    {place : BlockInfo} (hmap : t'.blockMap = s.table.blockMap.insert (rowKey rowId) place)
    (hnum : t'.numRows = s.table.numRows + 1) (hnone : s.table.row place = none)
    (hrow : ∀ info, t'.row info = if info = place then some row else s.table.row info)
    (hrepr : ∃ contents, t'.Repr contents)
    : Inv ⟨t', s.live.insert rowId row⟩ := by
  obtain ⟨href, -⟩ := hinv
  have hother : ∀ rowId', rowId' ∈ s.live → rowId' ≠ rowId := by
    intro rowId' hlive heq
    exact hdead (heq ▸ hlive)
  have hlookup : ∀ rowId', t'.blockMap.lookup (rowKey rowId')
      = if rowId' = rowId then some place else s.table.blockMap.lookup (rowKey rowId') := by
    intro rowId'
    rw [hmap, Map.lookup_insert_eq]
    simp only [rowKey_inj]
  -- The place of the new row was free, so no live row id refers to it.
  have hfresh : ∀ rowId' info, rowId' ∈ s.live
      → s.table.blockMap.lookup (rowKey rowId') = some info → info ≠ place := by
    intro rowId' info hlive hinfo heq
    obtain ⟨row', hrow'⟩ := Finmap.mem_iff.mp hlive
    obtain ⟨info', hinfo', hstored⟩ := href.holds rowId' row' hrow'
    rw [hinfo] at hinfo'
    injection hinfo' with hinfo'
    rw [← hinfo', heq, hnone] at hstored
    simp at hstored
  refine ⟨?_, hrepr⟩
  constructor
  . intro rowId' row' hlive
    dsimp only at hlive ⊢
    rw [hlookup]
    by_cases hid : rowId' = rowId
    . subst hid
      rw [Finmap.lookup_insert] at hlive
      refine ⟨place, by simp, ?_⟩
      rw [hrow, if_pos rfl]
      exact hlive
    . rw [Finmap.lookup_insert_of_ne _ hid] at hlive
      obtain ⟨info, hinfo, hstored⟩ := href.holds rowId' row' hlive
      refine ⟨info, by rw [if_neg hid, hinfo], ?_⟩
      rw [hrow, if_neg (hfresh rowId' info (Finmap.mem_iff.mpr ⟨row', hlive⟩) hinfo)]
      exact hstored
  . intro a b info ha hb hainfo hbinfo
    dsimp only at ha hb hainfo hbinfo
    rw [Finmap.mem_insert] at ha hb
    rw [hlookup] at hainfo hbinfo
    by_cases hid : a = rowId
    . by_cases hid' : b = rowId
      . rw [hid, hid']
      . rw [if_pos hid] at hainfo
        rw [if_neg hid'] at hbinfo
        injection hainfo with hainfo
        exact absurd hainfo.symm (hfresh b info (hb.resolve_left hid') hbinfo)
    . by_cases hid' : b = rowId
      . rw [if_neg hid] at hainfo
        rw [if_pos hid'] at hbinfo
        injection hbinfo with hbinfo
        exact absurd hbinfo.symm (hfresh a info (ha.resolve_left hid) hainfo)
      . rw [if_neg hid] at hainfo
        rw [if_neg hid'] at hbinfo
        exact href.distinct a b info (ha.resolve_left hid) (hb.resolve_left hid') hainfo hbinfo
  . intro info row' hstored
    dsimp only at hstored ⊢
    rw [hrow] at hstored
    split at hstored
    . next hinfo =>
      refine ⟨rowId, ?_, ?_⟩
      . simp
      . rw [hlookup, if_pos rfl, hinfo]
    . obtain ⟨rowId', hlive, hinfo⟩ := href.noOther info row' hstored
      refine ⟨rowId', ?_, ?_⟩
      . rw [Finmap.mem_insert]
        exact Or.inr hlive
      . rw [hlookup, if_neg (hother rowId' hlive), hinfo]
  . have hkeys : (s.live.insert rowId row).keys = Insert.insert rowId s.live.keys := by
      ext rowId'
      rw [Finset.mem_insert, Finmap.mem_keys, Finmap.mem_keys, Finmap.mem_insert]
    dsimp only
    rw [hnum, href.numRows_eq, hkeys, Finset.card_insert_of_notMem (by rw [Finmap.mem_keys]; exact hdead)]
    simp

theorem step_insert (hinv : s.Inv) (pick : List Int → Nat) {rowId : UInt32} {row : Row}
    (hop : s.Admissible (.insert rowId row))
    : ∃ s', s.step pick (.insert rowId row) = some s' ∧ s'.Inv := by
  obtain ⟨-, contents, hrepr⟩ := id hinv
  obtain ⟨hdead, htype, hfit⟩ := hop
  obtain ⟨t', contents', i, r, heq, hrepr', -, -, hmap, hnum, hnone, hrow⟩ :=
    hrepr.insertRecordTable pick rowId (recordOfRow_isRecord htype)
      (by rw [recordWidths_recordOfRow_sum]; exact hfit)
  rw [storedRow_recordOfRow htype] at hrow
  unfold step
  simp only [heq, Option.bind_eq_bind, Option.bind_some]
  exact ⟨_, rfl, hinv.inserted hdead hmap hnum hnone hrow ⟨contents', hrepr'⟩⟩

theorem step_delete (hinv : s.Inv) (pick : List Int → Nat) {rowId : UInt32}
    (hop : s.DeleteSafe (.delete rowId))
    : ∃ s', s.step pick (.delete rowId) = some s' ∧ DeadDeleteKeeps s (.delete rowId) s' ∧ s'.Inv := by
  obtain ⟨href, contents, hrepr⟩ := hinv
  cases hentry : s.table.blockMap.lookup (rowKey rowId) with
  | none =>
    have hdead : rowId ∉ s.live := by
      intro hlive
      obtain ⟨row, hrow⟩ := Finmap.mem_iff.mp hlive
      obtain ⟨info, hinfo, -⟩ := href.holds rowId row hrow
      rw [hentry] at hinfo
      simp at hinfo
    have herase : s.live.erase rowId = s.live := by
      apply Finmap.ext_lookup
      intro rowId'
      by_cases hid : rowId' = rowId
      . rw [hid, Finmap.lookup_erase, Finmap.lookup_eq_none.mpr hdead]
      . rw [Finmap.lookup_erase_ne hid]
    simp only [step, deleteRecordTable, hentry, Option.bind_eq_bind, Option.bind_some]
    refine ⟨_, rfl, ?_, ?_, contents, hrepr⟩
    . intro _ _ _
      rfl
    . rw [herase]
      exact href
  | some info =>
    obtain ⟨hlive, hlast, hzero⟩ := hop info (by rw [hentry]; rfl)
    obtain ⟨row, hrow⟩ := Finmap.mem_iff.mp hlive
    obtain ⟨info', hinfo', hstored⟩ := href.holds rowId row hrow
    rw [hentry] at hinfo'
    injection hinfo' with hinfo'
    subst hinfo'
    obtain ⟨t', contents', r, hr, heq, hrepr', -, -, hmap, hnum, hrows⟩ :=
      hrepr.deleteRecordTable_last hentry hstored hlast
    have hkeep : ∀ rowId', rowId' ∈ s.live → rowId' ≠ rowId
        → t'.blockMap.lookup (rowKey rowId') = s.table.blockMap.lookup (rowKey rowId') := by
      intro rowId' hlive' hne
      rw [hmap]
      apply renumber_range_lookup
      by_cases hid : rowId' = 0
      . subst hid
        rw [hr] at hzero
        have hne' : ¬rowId = 0 := fun h => hne h.symm
        have hkey : rowKey 0 = 0 := rfl
        simpa [hne', hlive', hkey] using hzero
      . right
        left
        intro hkey
        exact hid (rowKey_inj.mp hkey)
    have hfree : ∀ rowId' info', rowId' ∈ s.live → rowId' ≠ rowId
        → s.table.blockMap.lookup (rowKey rowId') = some info' → info' ≠ info := by
      intro rowId' info' hlive' hne hinfo' hsame
      rw [hsame] at hinfo'
      exact hne (href.distinct rowId' rowId info hlive' hlive hinfo' hentry)
    simp only [step, heq, Option.bind_eq_bind, Option.bind_some]
    refine ⟨_, rfl, ?_, ?_, contents', hrepr'⟩
    . intro rowId' hop hdead
      injection hop with hop
      exact absurd (hop ▸ hlive) hdead
    . constructor
      . intro rowId' row' hlive'
        dsimp only at hlive' ⊢
        have hmem := Finmap.mem_erase.mp (Finmap.mem_of_lookup_eq_some hlive')
        rw [Finmap.lookup_erase_ne hmem.1] at hlive'
        obtain ⟨info', hinfo', hstored'⟩ := href.holds rowId' row' hlive'
        refine ⟨info', ?_, ?_⟩
        . rw [hkeep rowId' hmem.2 hmem.1, hinfo']
        . rw [hrows, if_neg (hfree rowId' info' hmem.2 hmem.1 hinfo'), hstored']
      . intro a b info' ha hb hainfo hbinfo
        dsimp only at ha hb hainfo hbinfo
        rw [Finmap.mem_erase] at ha hb
        rw [hkeep a ha.2 ha.1] at hainfo
        rw [hkeep b hb.2 hb.1] at hbinfo
        exact href.distinct a b info' ha.2 hb.2 hainfo hbinfo
      . intro info' row' hstored'
        dsimp only at hstored' ⊢
        rw [hrows] at hstored'
        split at hstored'
        . simp at hstored'
        . next hne =>
          obtain ⟨rowId', hlive', hinfo'⟩ := href.noOther info' row' hstored'
          have hid : rowId' ≠ rowId := by
            intro hid
            rw [hid, hentry] at hinfo'
            injection hinfo' with hinfo'
            exact hne hinfo'.symm
          refine ⟨rowId', ?_, ?_⟩
          . exact Finmap.mem_erase.mpr ⟨hid, hlive'⟩
          . rw [hkeep rowId' hlive' hid, hinfo']
      . have hmem : rowId ∈ s.live.keys := Finmap.mem_keys.mpr hlive
        have hpos := Finset.card_pos.mpr ⟨rowId, hmem⟩
        dsimp only
        rw [hnum, href.numRows_eq, Finmap.keys_erase, Finset.card_erase_of_mem hmem]
        omega

end Tracked

end DBTable

end Hustle.Storage
