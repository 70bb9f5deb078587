import Hustle.Memlog.Record
import Hustle.Util.SList

/-!
This module contains the memlog: one list of records for every root page, which are applied to the
tables of the database when a transaction commits and thrown away when it is rolled back. Which table a
root page belongs to is kept in `table_map`, which all memlogs of the process share.
-/

namespace Hustle.Memlog

abbrev TablePtr := Nat

/--
The tables of a catalog. A table that was added without a `DBTable` has a null pointer.
-/
abbrev Catalog := Map String (Option TablePtr)

namespace Catalog

def getTable (catalog : Catalog) (name : String) : Option TablePtr :=
  (catalog.lookup name).join

def addTable (catalog : Catalog) (name : String) (table : Option TablePtr) : Catalog :=
  catalog.emplace name table

def dropMemTable (catalog : Catalog) (name : String) : Catalog :=
  catalog.erase name

end Catalog

/--
`table_map`: for every database index the names of the tables by root page. Reading the pages of a
missing index gives no pages, the entry that C++ adds then cannot be told from a missing one.
-/
abbrev TableMap := Map Int (Map Int String)

def defaultDbId : Int := 0

namespace TableMap

def pages (m : TableMap) (dbId : Int) : Map Int String :=
  (m.lookup dbId).getD ∅

/--
The first root page with the given name, in the ascending order of a `std::map`.
-/
def findName (pages : Map Int String) (name : String) : Option Int :=
  ((pages.entries.filter fun entry => entry.2 = name).map Sigma.fst).min?

end TableMap

def addTableMapping (tableMap : TableMap) (dbId rootPageId : Int) (name : String) : TableMap :=
  tableMap.insert dbId ((tableMap.pages dbId).insert rootPageId name)

def removeTableMapping (tableMap : TableMap) (catalog : Catalog) (dbId : Int) (name : String)
    : TableMap × Catalog :=
  match TableMap.findName (tableMap.pages dbId) name with
  | some rootPageId =>
    (tableMap.insert dbId ((tableMap.pages dbId).erase rootPageId), catalog.dropMemTable name)
  | none => (tableMap, catalog)

/--
The table that `hustle_memlog_update_db` applies the records of a root page to.
-/
def resolve (tableMap : TableMap) (catalog : Catalog) (tableIndex : Nat) : Option TablePtr := do
  let name ← (tableMap.pages defaultDbId).lookup (tableIndex : Int)
  catalog.getTable name

/--
`recordList` is an array of `total_size` lists. `nextPtr` is where the next record is allocated.
-/
structure HustleMemLog where
  heap : SList.Heap DBRecord
  nextPtr : SList.Ptr
  recordList : List SList.Header
  deriving DecidableEq

namespace HustleMemLog

/--
`hustle_memlog_initialize`, which fails for an initial size of 0.
-/
def new (initialSize : Nat) : Option HustleMemLog :=
  if initialSize = 0 then
    none
  else
    some ⟨∅, 0, List.replicate initialSize SList.Header.empty⟩

/--
Make room for `tableId`. Root pages are numbered below 2^30, so the size does not overflow an `int`.
-/
def grow (log : HustleMemLog) (tableId : Nat) : HustleMemLog :=
  if log.recordList.length ≤ tableId then
    let added := 2 * tableId - log.recordList.length
    { log with recordList := log.recordList ++ List.replicate added SList.Header.empty }
  else
    log

def insertRecord (log : HustleMemLog) (record : DBRecord) (tableId : Nat) : Option HustleMemLog := do
  let log := log.grow tableId
  let heap := log.heap.insert log.nextPtr ⟨record, none⟩
  let l ← log.recordList[tableId]?
  let (heap, l) ← SList.push heap l log.nextPtr
  return {
    heap := heap
    nextPtr := log.nextPtr + 1
    recordList := log.recordList.set tableId l
  }

section

variable {σ : Type}

def drainTable (log : HustleMemLog) (tableIndex : Nat) (f : σ → DBRecord → σ) (isFree : Bool) (s : σ)
    : Option (HustleMemLog × σ) := do
  let l ← log.recordList[tableIndex]?
  let (heap, s) ← SList.drain f isFree log.heap.keys.length log.heap l.head s
  return (
    { log with heap := heap, recordList := log.recordList.set tableIndex SList.Header.empty },
    s
  )

-- What applying a record to a table does to the tables.
variable (apply : σ → TablePtr → DBRecord → σ) (tableMap : TableMap) (catalog : Catalog) (isFree : Bool)

/--
One iteration of the outer loop in `hustle_memlog_update_db`. Note that a root page without a table is
skipped and keeps its records.
-/
def updateTable (s : HustleMemLog × σ) (tableIndex : Nat) : Option (HustleMemLog × σ) :=
  match resolve tableMap catalog tableIndex with
  | none => some s
  | some table => s.1.drainTable tableIndex (fun tables record => apply tables table record) isFree s.2

def updateDb (log : HustleMemLog) (tables : σ) : Option (HustleMemLog × σ) :=
  (List.range log.recordList.length).foldlM (updateTable apply tableMap catalog isFree) (log, tables)

end

def clear (log : HustleMemLog) : Option HustleMemLog :=
  (List.range log.recordList.length).foldlM (fun log tableIndex => do
    let (log, _) ← log.drainTable tableIndex (fun (s : Unit) _ => s) true ()
    return log) log

end HustleMemLog

/--
The effect of a record on the tables of the program, none after it has left a buffer.
-/
def applyTables (pick : List Int → Nat) (tables : Option (Map TablePtr Storage.DBTable))
    (table : TablePtr) (record : DBRecord) : Option (Map TablePtr Storage.DBTable) := do
  let tables ← tables
  let t ← tables.lookup table
  let t ← applyRecord pick t record
  return tables.insert table t

end Hustle.Memlog
