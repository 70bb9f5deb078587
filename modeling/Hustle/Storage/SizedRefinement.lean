import Hustle.Storage.SizedDelete
import Hustle.Storage.TableRefinement

/-!
This module compares a table and the memory of its blocks with a finite map from row ids to rows, in runs of inserts and
deletes.
-/

namespace Hustle.Storage

namespace SizedTable

structure Tracked where
  table : SizedTable
  live : RowStore

namespace Tracked

def init (schema : Schema) (blockCapacity : Int) (metadataEnabled : Bool) : Tracked :=
  ⟨SizedTable.new schema blockCapacity metadataEnabled, ∅⟩

/--
What is compared: the table without the memory of its blocks.
-/
def bare (s : Tracked) : DBTable.Tracked :=
  ⟨s.table.table, s.live⟩

def step (roundUp : Nat → Nat) (pick : List Int → Nat) (s : Tracked) : TableOp → Option Tracked
  | .insert rowId row => do
    let xs := recordOfRow row
    let (table, _) ← s.table.insertRecordTable roundUp pick rowId (recordBytes xs) (recordWidths xs)
    return ⟨table, s.live.insert rowId row⟩
  | .delete rowId => do
    let table ← s.table.deleteRecordTable roundUp rowId
    return ⟨table, s.live.erase rowId⟩

/--
The inserts that go well.
-/
def InsertSafe (roundUp : Nat → Nat) (pick : List Int → Nat) (s : Tracked) : TableOp → Prop
  | .insert _ row => s.table.FindsRoom roundUp pick (recordOfRow row)
  | .delete _ => True

instance (s : Tracked) (op : TableOp) : Decidable (s.InsertSafe roundUp pick op) :=
  match op with
  | .insert _ _ => inferInstanceAs (Decidable (FindsRoom _ _ _ _))
  | .delete _ => inferInstanceAs (Decidable True)

def DeadDeleteKeeps (s : Tracked) (op : TableOp) (s' : Tracked) : Prop :=
  ∀ rowId, op = .delete rowId → rowId ∉ s.live → s'.table = s.table

def Inv (schema : Schema) (blockCapacity : Int) (s : Tracked) : Prop :=
  s.bare.Inv ∧ HasRoom schema blockCapacity maxInt s.table

theorem init_inv (schema : Schema) (blockCapacity : Int) (metadataEnabled : Bool)
    : (init schema blockCapacity metadataEnabled).Inv schema blockCapacity :=
  ⟨DBTable.Tracked.init_inv schema blockCapacity metadataEnabled,
    new_hasRoom schema blockCapacity maxInt metadataEnabled⟩

variable {roundUp : Nat → Nat} {pick : List Int → Nat} {schema : Schema} {blockCapacity : Int} {s : Tracked}

theorem step_insert (hround : ∀ n, n ≤ roundUp n) (hroomy : Roomy schema blockCapacity)
    (hcapacity : blockCapacity ≤ maxInt) (hinv : s.Inv schema blockCapacity) {rowId : UInt32} {row : Row}
    (hop : s.bare.Admissible (.insert rowId row)) (hroom : s.InsertSafe roundUp pick (.insert rowId row))
    : ∃ s', s.step roundUp pick (.insert rowId row) = some s' ∧ s'.Inv schema blockCapacity := by
  obtain ⟨hbare, contents, hfilled⟩ := hinv
  obtain ⟨-, htype, hsize⟩ := id hop
  change Row.HasType s.table.table.schema.fields row at htype
  change rowSize row ≤ s.table.table.blockCapacity at hsize
  rw [hfilled.schema_eq] at htype
  rw [hfilled.blockCapacity_eq] at hsize
  have hrec := recordOfRow_isRecord htype
  obtain ⟨t', reversed, contents', hinsert, hfilled'⟩ := hfilled.insertRecordTable hround hroomy hcapacity hrec
    (by rw [recordWidths_recordOfRow_sum]; exact hsize) hroom rowId
  obtain ⟨s', hs', hinv'⟩ := DBTable.Tracked.step_insert hbare pick hop
  unfold DBTable.Tracked.step at hs'
  simp only [bare, insertRecordTable_table hinsert, Option.bind_eq_bind, Option.bind_some, Option.pure_def,
    Option.some.injEq] at hs'
  subst hs'
  refine ⟨⟨t', s.live.insert rowId row⟩, ?_, hinv', contents', hfilled'⟩
  simp only [step, hinsert, Option.bind_eq_bind, Option.bind_some, Option.pure_def]

theorem step_delete (hround : ∀ n, n ≤ roundUp n) (hroomy : Roomy schema blockCapacity)
    (hinv : s.Inv schema blockCapacity) {rowId : UInt32}
    (hop : s.bare.DeleteSafe (.delete rowId))
    : ∃ s', s.step roundUp pick (.delete rowId) = some s' ∧ DeadDeleteKeeps s (.delete rowId) s' ∧
        s'.Inv schema blockCapacity := by
  obtain ⟨hbare, contents, hfilled⟩ := hinv
  -- the delete with the memory of the blocks, and that it does nothing without an entry in `block_map`
  have hdelete : ∃ t' contents', s.table.deleteRecordTable roundUp rowId = some t' ∧
      Filled schema blockCapacity maxInt t' contents' ∧ (rowId ∉ s.live → t' = s.table) := by
    cases hentry : s.table.table.blockMap.lookup (rowKey rowId) with
    | none =>
      refine ⟨s.table, contents, ?_, hfilled, fun _ => rfl⟩
      unfold SizedTable.deleteRecordTable
      rw [hentry]
    | some info =>
      obtain ⟨hlive, -, -⟩ := hop info (by show info ∈ s.table.table.blockMap.lookup _; rw [hentry]; rfl)
      obtain ⟨row, hrow⟩ := Finmap.mem_iff.mp hlive
      obtain ⟨info', hinfo', hstored⟩ := hbare.1.holds rowId row hrow
      change s.table.table.blockMap.lookup (rowKey rowId) = some info' at hinfo'
      rw [hentry] at hinfo'
      cases hinfo'
      obtain ⟨t', contents', ht', hfilled'⟩ := hfilled.deleteRecordTable hround hroomy hentry hstored
      exact ⟨t', contents', ht', hfilled', fun hdead => absurd hlive hdead⟩
  obtain ⟨t', contents', ht', hfilled', hkeeps⟩ := hdelete
  obtain ⟨s', hs', -, hinv'⟩ := DBTable.Tracked.step_delete hbare pick hop
  unfold DBTable.Tracked.step at hs'
  simp only [bare, deleteRecordTable_table ht', Option.bind_eq_bind, Option.bind_some, Option.pure_def,
    Option.some.injEq] at hs'
  subst hs'
  refine ⟨⟨t', s.live.erase rowId⟩, ?_, ?_, hinv', contents', hfilled'⟩
  . simp only [step, ht', Option.bind_eq_bind, Option.bind_some, Option.pure_def]
  . intro rowId' hop' hdead
    cases hop'
    exact hkeeps hdead

theorem step_inv (hround : ∀ n, n ≤ roundUp n) (hroomy : Roomy schema blockCapacity)
    (hcapacity : blockCapacity ≤ maxInt) (s : Tracked) (op : TableOp) (hinv : s.Inv schema blockCapacity)
    (hop : s.bare.Admissible op ∧ s.bare.DeleteSafe op ∧ s.InsertSafe roundUp pick op)
    : ∃ s', s.step roundUp pick op = some s' ∧ DeadDeleteKeeps s op s' ∧ s'.Inv schema blockCapacity := by
  cases op with
  | insert rowId row =>
    obtain ⟨s', heq, hinv'⟩ := step_insert hround hroomy hcapacity hinv hop.1 hop.2.2
    refine ⟨s', heq, ?_, hinv'⟩
    intro rowId' hop'
    cases hop'
  | delete rowId => exact step_delete hround hroomy hinv hop.2.1

/--
A table refines the finite map in every run of inserts and deletes that all go well.
-/
theorem always_refines (roundUp : Nat → Nat) (hround : ∀ n, n ≤ roundUp n) (pick : List Int → Nat) (schema : Schema)
    (blockCapacity : Int) (metadataEnabled : Bool) (hcapacity : blockCapacity ≤ maxInt)
    (hroomy : Roomy schema blockCapacity) (ops : List TableOp)
    (hops : Run.Meets (step roundUp pick)
      (fun s op => s.bare.Admissible op ∧ s.bare.DeleteSafe op ∧ s.InsertSafe roundUp pick op)
      (init schema blockCapacity metadataEnabled) ops)
    : Run.Always (step roundUp pick) (fun s => s.bare.Refines) DeadDeleteKeeps
        (init schema blockCapacity metadataEnabled) ops :=
  Run.always_of_meets (fun _ hinv => hinv.1.1) (step_inv hround hroomy hcapacity) (init_inv _ _ _) hops

def exampleSchema : Schema := ⟨[.int64, .string], by simp⟩

def exampleRow (n : Nat) : Row :=
  [.int64 n, .string [n.toUInt8]]

theorem always_refines_last_in_first_out
    : Run.Always (step roundUpToMultipleOf64 fun _ => 0) (fun s => s.bare.Refines) DeadDeleteKeeps
        (init exampleSchema 40 false)
        [.insert 1 (exampleRow 1), .insert 2 (exampleRow 2), .insert 3 (exampleRow 3), .delete 3,
          .delete 4, .insert 3 (exampleRow 4), .delete 3, .delete 2] :=
  always_refines roundUpToMultipleOf64 le_roundUpToMultipleOf64 _ _ _ _ (by decide) ⟨by decide, by decide⟩ _
    (by decide +kernel)

/--
Deleting the first of two rows leaves the entry of the second one pointing behind the end of the block.
-/
theorem not_always_refines
    : ¬∀ (roundUp : Nat → Nat) (pick : List Int → Nat) (schema : Schema) (blockCapacity : Int) (metadataEnabled : Bool)
          (ops : List TableOp),
        (∀ n, n ≤ roundUp n) → blockCapacity ≤ maxInt → Roomy schema blockCapacity →
        Run.Meets (step roundUp pick) (fun s op => s.bare.Admissible op) (init schema blockCapacity metadataEnabled) ops →
        Run.Always (step roundUp pick) (fun s => s.bare.Refines) DeadDeleteKeeps
          (init schema blockCapacity metadataEnabled) ops := by
  intro h
  have hrun := h roundUpToMultipleOf64 (fun _ => 0) exampleSchema 100 false
    [.insert 1 (exampleRow 1), .insert 2 (exampleRow 2), .delete 1] le_roundUpToMultipleOf64 (by decide)
    ⟨by decide, by decide⟩ (by decide +kernel)
  obtain ⟨s, heq, href⟩ := hrun.foldlM
  have hlost : ([TableOp.insert 1 (exampleRow 1), .insert 2 (exampleRow 2), .delete 1].foldlM
      (step roundUpToMultipleOf64 fun _ => 0) (init exampleSchema 100 false)).map (fun s' =>
        (s'.live.lookup 2, (s'.table.table.blockMap.lookup (rowKey 2)).bind s'.table.table.row))
      = some (some (exampleRow 2), none) := by
    decide +kernel
  rw [heq, Option.map_some, Option.some.injEq, Prod.mk.injEq] at hlost
  obtain ⟨hlive, hnone⟩ := hlost
  obtain ⟨info, hinfo, hrow⟩ := href.holds 2 _ hlive
  change s.table.table.blockMap.lookup (rowKey 2) = some info at hinfo
  change s.table.table.row info = some _ at hrow
  rw [hinfo, Option.bind_some, hrow] at hnone
  cases hnone

end Tracked

end SizedTable

end Hustle.Storage
