import Hustle.Catalog.Basic
import Hustle.Util.Run
import Mathlib.Data.Finset.Basic

/-!
This module contains the catalog next to the database of SQLite, which has its tables as well. Every statement may fail,
and a table that SQLite drops is dropped from the catalog.
-/

namespace Hustle.Catalogs

structure SqliteDatabase where
  hustle : Database
  tables : Finset String
  deriving DecidableEq

namespace SqliteDatabase

def new (catalogPath sqlitePath : String) : SqliteDatabase :=
  ⟨.new catalogPath sqlitePath, ∅⟩

/--
`CREATE TABLE`. It fails if there is a table of the name, and may fail if there is none.
-/
def executeCreate (s : SqliteDatabase) (name : String) (accepted : Bool) : Bool × SqliteDatabase :=
  if accepted ∧ name ∉ s.tables then
    (true, { s with tables := insert name s.tables })
  else
    (false, s)

/--
`DROP TABLE`, with the call of `DropMemTable` if it succeeds.
-/
def executeDrop (s : SqliteDatabase) (name : String) (accepted : Bool) : Bool × SqliteDatabase :=
  if accepted ∧ name ∈ s.tables then
    (true, ⟨s.hustle.dropMemTable name, s.tables.erase name⟩)
  else
    (false, s)

/--
`Catalog::AddTable`. If SQLite does not create the table, that is only printed.
-/
def addTable (s : SqliteDatabase) (t : TableSchema) (accepted : Bool) : Bool × SqliteDatabase :=
  match s.hustle.catalog.tables.lookup t.name with
  | some _ => (false, s)
  | none =>
    let s := { s with hustle := s.hustle.addTable t }
    (true, (s.executeCreate t.name accepted).2)

def dropTable (s : SqliteDatabase) (name : String) (accepted : Bool) : Bool × SqliteDatabase :=
  let (ok, s) := s.executeDrop name accepted
  if ok then (true, s) else (false, s)

def dropMemTable (s : SqliteDatabase) (name : String) : Bool × SqliteDatabase :=
  ((s.hustle.catalog.tables.lookup name).isSome, { s with hustle := s.hustle.dropMemTable name })

end SqliteDatabase

/--
The calls, and whether SQLite accepts the statement of a call.
-/
inductive TableCall where
  | addTable (t : TableSchema) (accepted : Bool)
  | dropTable (name : String) (accepted : Bool)
  | dropMemTable (name : String)
  deriving DecidableEq

def TableCall.apply (s : SqliteDatabase) : TableCall → Bool × SqliteDatabase
  | .addTable t accepted => s.addTable t accepted
  | .dropTable name accepted => s.dropTable name accepted
  | .dropMemTable name => s.dropMemTable name

/--
No call fails as a step, it returns whether it has done what it should.
-/
def TableCall.step (s : SqliteDatabase) (call : TableCall) : Option SqliteDatabase :=
  some (call.apply s).2

namespace SqliteDatabase

def InCatalog (s : SqliteDatabase) (name : String) : Prop :=
  (s.hustle.catalog.tables.lookup name).isSome

instance (s : SqliteDatabase) (name : String) : Decidable (s.InCatalog name) :=
  inferInstanceAs (Decidable ((s.hustle.catalog.tables.lookup name).isSome = true))

/--
The catalog and SQLite have the same tables.
-/
def InStep (s : SqliteDatabase) : Prop :=
  ∀ name, s.InCatalog name ↔ name ∈ s.tables

/--
What `AddTable` returns: true if the table has been added to the catalog and to SQLite, otherwise false, and then
nothing has changed.
-/
def Reports (s : SqliteDatabase) : TableCall → Prop
  | .addTable t accepted =>
    ((s.addTable t accepted).1 = true ↔
      ¬s.InCatalog t.name ∧ (s.addTable t accepted).2.InCatalog t.name ∧ t.name ∈ (s.addTable t accepted).2.tables) ∧
    ((s.addTable t accepted).1 = false → (s.addTable t accepted).2 = s)
  | .dropTable _ _ | .dropMemTable _ => True

/--
SQLite accepts the table unless the catalog has refused it already, and no table is dropped from the catalog alone.
-/
def Accepts (s : SqliteDatabase) : TableCall → Prop
  | .addTable t accepted => s.InCatalog t.name ∨ accepted = true
  | .dropTable _ _ => True
  | .dropMemTable name => ¬s.InCatalog name

instance (s : SqliteDatabase) (call : TableCall) : Decidable (s.Accepts call) :=
  match call with
  | .addTable t accepted => inferInstanceAs (Decidable (s.InCatalog t.name ∨ accepted = true))
  | .dropTable _ _ => inferInstanceAs (Decidable True)
  | .dropMemTable name => inferInstanceAs (Decidable ¬s.InCatalog name)

variable {s : SqliteDatabase}

theorem new_inStep (catalogPath sqlitePath : String) : (new catalogPath sqlitePath).InStep := by
  intro name
  simp [InCatalog, new, Database.new, Catalog.new]

theorem inCatalog_dropMemTable (db : Database) (name name' : String)
    : ((db.dropMemTable name).catalog.tables.lookup name').isSome ↔
        name' ≠ name ∧ (db.catalog.tables.lookup name').isSome := by
  rw [Database.dropMemTable]
  split
  . next hnone =>
    constructor
    . intro hsome
      refine ⟨?_, hsome⟩
      intro heq
      rw [heq, hnone] at hsome
      cases hsome
    . exact fun h => h.2
  . simp only [Database.saveToFile, Map.lookup_erase_eq]
    split
    . next heq => simp [heq]
    . next hne => simp [hne]

theorem inCatalog_addTable {db : Database} {t : TableSchema} (h : db.catalog.tables.lookup t.name = none)
    (name : String)
    : ((db.addTable t).catalog.tables.lookup name).isSome ↔
        name = t.name ∨ (db.catalog.tables.lookup name).isSome := by
  simp only [Database.addTable, h, Database.saveToFile, Map.lookup_insert_eq]
  split
  . next heq => simp [heq]
  . next hne => simp [hne]

/-! What the calls do to a catalog that is in step. -/

theorem addTable_of_inCatalog {t : TableSchema} (h : s.InCatalog t.name) (accepted : Bool)
    : s.addTable t accepted = (false, s) := by
  obtain ⟨_, ht⟩ := Option.isSome_iff_exists.mp h
  rw [addTable, ht]

theorem addTable_of_not_inCatalog {t : TableSchema} (h : ¬s.InCatalog t.name) (hname : t.name ∉ s.tables)
    (accepted : Bool)
    : s.addTable t accepted
        =
      (true, ⟨s.hustle.addTable t, if accepted then insert t.name s.tables else s.tables⟩) := by
  rw [InCatalog, Option.not_isSome_iff_eq_none] at h
  rw [addTable, h]
  cases accepted <;> simp [executeCreate, hname]

theorem accepts_addTable_iff (hs : s.InStep) (t : TableSchema) (accepted : Bool)
    : s.Accepts (.addTable t accepted) ↔
        s.Reports (.addTable t accepted) ∧ (s.addTable t accepted).2.InStep := by
  by_cases hin : s.InCatalog t.name
  . rw [Reports, addTable_of_inCatalog hin]
    refine iff_of_true (.inl hin) ⟨⟨?_, fun _ => rfl⟩, hs⟩
    exact iff_of_false Bool.false_ne_true fun h => h.1 hin
  . have hname : t.name ∉ s.tables := fun hmem => hin ((hs t.name).mpr hmem)
    have hadd := inCatalog_addTable (Option.not_isSome_iff_eq_none.mp hin)
    rw [Reports, addTable_of_not_inCatalog hin hname]
    constructor
    . rintro (hin' | rfl)
      . exact absurd hin' hin
      . refine ⟨⟨iff_of_true rfl ⟨hin, ?_, Finset.mem_insert_self _ _⟩, ?_⟩, ?_⟩
        . exact (hadd t.name).mpr (.inl rfl)
        . intro hfalse
          cases hfalse
        . intro name
          rw [InCatalog, hadd, if_pos rfl, Finset.mem_insert, ← hs name, InCatalog]
    . rintro ⟨⟨hreports, -⟩, -⟩
      obtain ⟨-, -, hmem⟩ := hreports.mp rfl
      right
      by_contra hfalse
      rw [if_neg hfalse] at hmem
      exact hname hmem

theorem dropTable_snd (s : SqliteDatabase) (name : String) (accepted : Bool)
    : (s.dropTable name accepted).2 = (s.executeDrop name accepted).2 := by
  rw [dropTable]
  generalize s.executeDrop name accepted = result
  obtain ⟨ok, s'⟩ := result
  cases ok <;> rfl

theorem dropTable_inStep (hs : s.InStep) (name : String) (accepted : Bool) : (s.dropTable name accepted).2.InStep := by
  rw [dropTable_snd, executeDrop]
  split
  . intro name'
    rw [InCatalog, inCatalog_dropMemTable, Finset.mem_erase, ← hs name', InCatalog]
  . exact hs

theorem not_inCatalog_iff (hs : s.InStep) (name : String)
    : ¬s.InCatalog name ↔ (s.dropMemTable name).2.InStep := by
  constructor
  . intro hin name'
    rw [dropMemTable, InCatalog, inCatalog_dropMemTable, ← hs name']
    refine ⟨fun h => h.2, fun h => ⟨?_, h⟩⟩
    intro heq
    exact hin (heq ▸ h)
  . intro hs' hin
    have hmem : name ∈ (s.dropMemTable name).2.tables := (hs name).mp hin
    have hdropped := (hs' name).mpr hmem
    rw [dropMemTable, InCatalog, inCatalog_dropMemTable] at hdropped
    exact hdropped.1 rfl

theorem accepts_iff (hs : s.InStep) (call : TableCall)
    : s.Accepts call ↔ s.Reports call ∧ ∀ s', call.step s = some s' → s'.InStep := by
  have hstep : (∀ s', call.step s = some s' → s'.InStep) ↔ (call.apply s).2.InStep := by
    simp [TableCall.step]
  rw [hstep]
  cases call with
  | addTable t accepted => exact accepts_addTable_iff hs t accepted
  | dropTable name accepted => exact iff_of_true trivial ⟨trivial, dropTable_inStep hs name accepted⟩
  | dropMemTable name => exact (not_inCatalog_iff hs name).trans ⟨fun h => ⟨trivial, h⟩, fun h => h.2⟩

/--
The calls of a run report what they do and keep the catalog in step with SQLite exactly if SQLite accepts all tables that
the catalog does not have, and no table is dropped from the catalog alone.
-/
theorem inStep_iff (hs : s.InStep) (calls : List TableCall)
    : Run.Throughout TableCall.step InStep Reports s calls ↔ Run.Meets TableCall.step Accepts s calls :=
  Run.throughout_iff_meets (fun _ call hs => accepts_iff hs call) hs

def accountTable : TableSchema := .new "account"

theorem inStep_iff_account
    : Run.Throughout TableCall.step InStep Reports (new "catalog.json" "catalog.db")
        [.addTable accountTable true, .addTable accountTable true, .dropTable "account" false,
          .dropTable "account" true, .dropMemTable "account", .addTable accountTable true] :=
  (inStep_iff (new_inStep _ _) _).mpr (by decide)

/--
SQLite does not create the table.
-/
theorem not_inStep_account
    : ¬Run.Throughout TableCall.step InStep Reports (new "catalog.json" "catalog.db")
        [.addTable accountTable false] := by
  rw [Run.throughout_iff_meets (fun _ call hs => accepts_iff hs call) (new_inStep _ _)]
  decide

end SqliteDatabase

end Hustle.Catalogs
