import Hustle.Memlog.LogRepr
import Hustle.Util.Run

/-!
This module compares a memlog with a list of pending records for every root page, over whole runs of
inserts, commits, rollbacks and changes of the schema. A commit skips the root pages without a table
instead of emptying them, so the comparison succeeds for the runs in which no such page has records.
-/

namespace Hustle.Memlog

inductive LogOp where
  | insertRecord (record : DBRecord) (tableId : Nat)
  | updateDb
  | clear
  | addTableMapping (dbId rootPageId : Int) (name : String)
  | removeTableMapping (dbId : Int) (name : String)
  | addTable (name : String) (table : Option TablePtr)
  deriving DecidableEq

structure LogState (σ : Type) where
  log : HustleMemLog
  tableMap : TableMap
  catalog : Catalog
  tables : σ
  pending : Nat → List DBRecord

namespace LogState

open HustleMemLog

variable {σ : Type} (apply : σ → TablePtr → DBRecord → σ)

def init (log : HustleMemLog) (tableMap : TableMap) (catalog : Catalog) (tables : σ) : LogState σ :=
  ⟨log, tableMap, catalog, tables, fun _ => []⟩

def step (s : LogState σ) : LogOp → Option (LogState σ)
  | .insertRecord record tableId => do
    let log ← s.log.insertRecord record tableId
    let pending := Function.update s.pending tableId (s.pending tableId ++ [record])
    return { s with log := log, pending := pending }
  | .updateDb => do
    let (log, tables) ← s.log.updateDb apply s.tableMap s.catalog true s.tables
    return { s with log := log, tables := tables, pending := fun _ => [] }
  | .clear => do
    let log ← s.log.clear
    return { s with log := log, pending := fun _ => [] }
  | .addTableMapping dbId rootPageId name =>
    some { s with tableMap := addTableMapping s.tableMap dbId rootPageId name }
  | .removeTableMapping dbId name =>
    let (tableMap, catalog) := removeTableMapping s.tableMap s.catalog dbId name
    some { s with tableMap := tableMap, catalog := catalog }
  | .addTable name table => some { s with catalog := s.catalog.addTable name table }

/--
The commits that go well: every root page with records has a table.
-/
def CommitSafe (s : LogState σ) (op : LogOp) : Prop :=
  op = .updateDb →
    ∀ i, i < s.log.recordList.length → (s.log.recordList[i]?.bind SList.Header.head).isSome →
      (resolve s.tableMap s.catalog i).isSome

instance (s : LogState σ) (op : LogOp) : Decidable (s.CommitSafe op) :=
  inferInstanceAs (Decidable (_ → ∀ _, _ → _ → _))

/--
Every list is well formed and holds the pending records of its root page.
-/
def Refines (s : LogState σ) : Prop :=
  s.log.Holds s.pending

/--
A commit applies the pending records of all root pages that have a table, once and in order. Nothing
else changes the tables.
-/
def AppliesDue (s : LogState σ) (op : LogOp) (s' : LogState σ) : Prop :=
  match op with
  | .updateDb =>
    ∃ n, (∀ i, n ≤ i → s.pending i = []) ∧
      s'.tables = applyAll apply s.tables (due s.tableMap s.catalog s.pending n)
  | _ => s'.tables = s.tables

/--
What the lists hold after an operation: a commit keeps the records of the root pages without a table.
-/
def remaining (s : LogState σ) (pending : Nat → List DBRecord) : LogOp → Nat → List DBRecord
  | .insertRecord record tableId => Function.update pending tableId (pending tableId ++ [record])
  | .updateDb => fun i => if (resolve s.tableMap s.catalog i).isSome then [] else pending i
  | .clear => fun _ => []
  | _ => pending

theorem step_holds (s : LogState σ) (op : LogOp) {pending : Nat → List DBRecord}
    (h : s.log.Holds pending)
    : ∃ s', s.step apply op = some s' ∧
        s'.log.Holds (s.remaining pending op) ∧
        (op ≠ .updateDb → s'.pending = s.remaining s.pending op ∧ s'.tables = s.tables) ∧
        (op = .updateDb → s'.pending = (fun _ => []) ∧
          (∀ i, s.log.recordList.length ≤ i → pending i = []) ∧
          s'.tables =
            applyAll apply s.tables (due s.tableMap s.catalog pending s.log.recordList.length)) := by
  unfold step
  cases op with
  | insertRecord record tableId =>
    obtain ⟨log', heq, hholds⟩ := h.insertRecord record tableId
    simp only [heq, Option.bind_eq_bind, Option.bind_some]
    exact ⟨_, rfl, hholds, fun _ => ⟨rfl, rfl⟩, by simp⟩
  | updateDb =>
    obtain ⟨log', heq, hholds, hbound⟩ := h.updateDb apply s.tableMap s.catalog true s.tables
    simp only [heq, Option.bind_eq_bind, Option.bind_some]
    exact ⟨_, rfl, hholds, by simp, fun _ => ⟨rfl, hbound, rfl⟩⟩
  | clear =>
    obtain ⟨log', heq, hholds⟩ := h.clear
    simp only [heq, Option.bind_eq_bind, Option.bind_some]
    exact ⟨_, rfl, hholds, fun _ => ⟨rfl, rfl⟩, by simp⟩
  | addTableMapping dbId rootPageId name => exact ⟨_, rfl, h, fun _ => ⟨rfl, rfl⟩, by simp⟩
  | removeTableMapping dbId name => exact ⟨_, rfl, h, fun _ => ⟨rfl, rfl⟩, by simp⟩
  | addTable name table => exact ⟨_, rfl, h, fun _ => ⟨rfl, rfl⟩, by simp⟩

theorem remaining_updateDb {s : LogState σ} (h : s.Refines) (hop : s.CommitSafe .updateDb)
    (hbound : ∀ i, s.log.recordList.length ≤ i → s.pending i = [])
    : s.remaining s.pending .updateDb = fun _ => [] := by
  funext i
  dsimp only [remaining]
  split
  . rfl
  . next hres =>
    by_contra hne
    have hhead := (h.head_isSome_iff i).mpr hne
    have hlt : i < s.log.recordList.length := by
      by_contra hge
      exact hne (hbound i (by omega))
    exact hres (hop rfl i hlt hhead)

theorem step_refines (s : LogState σ) (op : LogOp) (h : s.Refines) (hop : s.CommitSafe op)
    : ∃ s', s.step apply op = some s' ∧ AppliesDue apply s op s' ∧ s'.Refines := by
  obtain ⟨s', heq, hholds, hother, hcommit⟩ := step_holds apply s op h
  refine ⟨s', heq, ?_⟩
  by_cases hdb : op = .updateDb
  . subst hdb
    obtain ⟨hpending, hbound, htables⟩ := hcommit rfl
    rw [remaining_updateDb h hop hbound] at hholds
    refine ⟨⟨_, hbound, htables⟩, ?_⟩
    unfold Refines
    rw [hpending]
    exact hholds
  . obtain ⟨hpending, htables⟩ := hother hdb
    refine ⟨?_, ?_⟩
    . cases op <;> first | exact absurd rfl hdb | exact htables
    . unfold Refines
      rw [hpending]
      exact hholds

/--
In every run whose commits all go well the lists hold exactly what has been inserted since the last
commit or rollback, and commits apply it.
-/
theorem always_appliesDue {initialSize : Nat} {log : HustleMemLog}
    (hlog : HustleMemLog.new initialSize = some log) (tableMap : TableMap) (catalog : Catalog)
    (tables : σ) (ops : List LogOp)
    (hops : Run.Meets (step apply) CommitSafe (init log tableMap catalog tables) ops)
    : Run.Always (step apply) Refines (AppliesDue apply) (init log tableMap catalog tables) ops :=
  Run.always_of_meets (fun _ h => h) (step_refines apply) (new_holds hlog) hops

def exampleRecord (rowId : UInt32) : DBRecord := ⟨.insert, rowId, [2, 1, 5], []⟩

def exampleTables : Option (Map TablePtr Storage.DBTable) :=
  some (AList.insert 7 (.new ⟨[.int64], by simp⟩ 100 false) ∅)

/--
A run that maps a page, commits two records, rolls one back and drops the table.
-/
theorem always_appliesDue_example
    : Run.Always (step (applyTables fun _ => 0)) Refines (AppliesDue (applyTables fun _ => 0))
        (init ⟨∅, 0, [SList.Header.empty]⟩ ∅ ∅ exampleTables)
        [.addTable "t" (some 7), .addTableMapping 0 3 "t", .insertRecord (exampleRecord 1) 3,
          .insertRecord (exampleRecord 2) 3, .updateDb, .insertRecord (exampleRecord 3) 3, .clear,
          .removeTableMapping 0 "t", .updateDb] :=
  always_appliesDue _ (show HustleMemLog.new 1 = some _ from rfl) _ _ _ _ (by decide)

/--
The records of a root page without a table survive a commit.
-/
theorem not_always_appliesDue
    : ¬∀ (σ : Type) (apply : σ → TablePtr → DBRecord → σ) (initialSize : Nat) (log : HustleMemLog)
          (tableMap : TableMap) (catalog : Catalog) (tables : σ) (ops : List LogOp),
        HustleMemLog.new initialSize = some log
        → Run.Always (step apply) Refines (AppliesDue apply) (init log tableMap catalog tables) ops := by
  intro h
  have hrun := h Unit (fun _ _ _ => ()) 10 _ ∅ ∅ () [.insertRecord (exampleRecord 1) 5, .updateDb] rfl
  obtain ⟨s, heq, href⟩ := hrun.foldlM
  have hs := Option.some.inj heq
  have hpending : s.pending 5 = [] := by
    rw [← hs]
  have hhead : (s.log.recordList[5]?.bind SList.Header.head).isSome := by
    rw [← hs]
    rfl
  exact (href.head_isSome_iff 5).mp hhead hpending

end LogState

end Hustle.Memlog
