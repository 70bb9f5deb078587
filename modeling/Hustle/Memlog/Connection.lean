import Hustle.Memlog.LogRepr
import Hustle.Util.SortedMap

/-!
This module contains a connection to a database: the B-trees of SQLite with transactions and savepoints, and the memlog
that every row which is inserted into a B-tree or deleted from it is written to. The memlog reaches the tables when
`sqlite3VdbeHalt` commits. It has no savepoints, and it is emptied only by what ends in autocommit mode.
-/

namespace Hustle.Memlog

open Storage

abbrev BTree (R : Type) := SortedMap Int R

abbrev Pages (R : Type) := Nat → BTree R

/--
The row id of a key, which is made an `int` for the memlog and a `uint32_t` for the table.
-/
def rowIdOf (key : Int) : UInt32 :=
  UInt32.ofNat (key % 2 ^ 32).toNat

/--
A row that `OP_Insert` or `OP_Delete` changes. An insert that is part of an UPDATE has the flag `OPFLAG_ISUPDATE`.
-/
inductive RowChange (R : Type) where
  | insert (key : Int) (record : R)
  | update (key : Int) (record : R) (updateMetaInfo : List UpdateMetaInfo)
  | delete (key : Int)
  deriving DecidableEq

/--
The instructions of a program that write to a B-tree. `OP_Clear` is what a DELETE without WHERE clause becomes.
-/
inductive Opcode (R : Type) where
  | change (rootPage : Nat) (change : RowChange R)
  | clear (rootPage : Nat)
  deriving DecidableEq

/--
How a program ends. The last three are the special errors, where `nomem` stands for `SQLITE_FULL` as well.
-/
inductive Outcome where
  | done
  | fail
  | abort
  | rollback
  | nomem
  | ioerr
  | interrupt
  deriving DecidableEq

namespace Outcome

def IsSpecialError (outcome : Outcome) : Prop :=
  outcome = nomem ∨ outcome = ioerr ∨ outcome = interrupt

instance (outcome : Outcome) : Decidable outcome.IsSpecialError :=
  inferInstanceAs (Decidable (_ ∨ _ ∨ _))

/--
The program has done what it was asked for, or hit an OR FAIL constraint.
-/
def Commits (outcome : Outcome) : Prop :=
  outcome = done ∨ outcome = fail

instance (outcome : Outcome) : Decidable outcome.Commits :=
  inferInstanceAs (Decidable (_ ∨ _))

end Outcome

/--
What `vdbeCommit` returns.
-/
inductive CommitResult where
  | ok
  | busy
  | error
  deriving DecidableEq

/--
What `sqlite3VdbeHalt` looks at. `statement` is what the B-trees were when the statement transaction was opened, if there
is one.
-/
structure Vdbe (R : Type) where
  readOnly : Bool
  usesStmtJournal : Bool
  outcome : Outcome
  commit : CommitResult
  statement : Option (Pages R)

def Vdbe.command (R : Type) (outcome : Outcome) (commit : CommitResult) : Vdbe R :=
  ⟨true, false, outcome, commit, none⟩

structure Statement (R : Type) where
  ops : List (Opcode R)
  readOnly : Bool
  usesStmtJournal : Bool
  outcome : Outcome
  commit : CommitResult
  readOnly_ops : readOnly = true → ops = []
  deriving DecidableEq

inductive Action (R : Type) where
  | statement (p : Statement R)
  | begin
  | commit (result : CommitResult)
  | rollback
  | savepoint (name : List UInt8)
  | release (name : List UInt8) (result : CommitResult)
  | rollbackTo (name : List UInt8)
  | load (rootPage : Nat)
  deriving DecidableEq

/--
The table `sqlite3UpperToLower`, which has the letters of ASCII only.
-/
def upperToLower (c : UInt8) : UInt8 :=
  if 65 ≤ c ∧ c ≤ 90 then c + 32 else c

structure Savepoint (R : Type) where
  name : List UInt8
  pages : Pages R

/--
What does not change while a connection is in use: how records are encoded, the tables of the root pages, the choice
among the blocks with room, and the size of a row up to which it is on one page.
-/
structure Database (R : Type) where
  bytes : R → List UInt8
  tableMap : TableMap
  catalog : Catalog
  pick : List Int → Nat
  maxLeaf : Nat

def Database.resolve {R : Type} (db : Database R) (rootPage : Nat) : Option TablePtr :=
  Memlog.resolve db.tableMap db.catalog rootPage

/--
`committed` are the B-trees in the file and `pages` those that the connection sees. The innermost savepoint comes first.
`logged` is what is supposed to be in the memlog.
-/
structure Connection (R : Type) where
  autoCommit : Bool
  isTransactionSavepoint : Bool
  savepoints : List (Savepoint R)
  committed : Pages R
  pages : Pages R
  memlog : HustleMemLog
  tables : Option (Map TablePtr DBTable)
  logged : Nat → List (RowChange R)

namespace RowChange

variable {R : Type}

def record (bytes : R → List UInt8) : RowChange R → DBRecord
  | insert key r => ⟨.insert, rowIdOf key, bytes r, []⟩
  | update key r updateMetaInfo => ⟨.update, rowIdOf key, bytes r, updateMetaInfo⟩
  | delete key => ⟨.delete, rowIdOf key, [], []⟩

def apply (tree : BTree R) : RowChange R → BTree R
  | insert key r => tree.insert key r
  | update key r _ => tree.insert key r
  | delete key => tree.erase key

end RowChange

namespace Connection

variable {R : Type} (db : Database R)

def setPage (s : Connection R) (rootPage : Nat) (tree : BTree R) : Connection R :=
  { s with pages := Function.update s.pages rootPage tree }

/--
`hustle_memlog_insert_record` as the virtual machine calls it.
-/
def logRow (s : Connection R) (rootPage : Nat) (change : RowChange R) : Option (Connection R) := do
  let memlog ← s.memlog.insertRecord (change.record db.bytes) rootPage
  let logged := Function.update s.logged rootPage (s.logged rootPage ++ [change])
  return { s with memlog := memlog, logged := logged }

def updateDb (s : Connection R) : Option (Connection R) := do
  let (memlog, tables) ← s.memlog.updateDb (applyTables db.pick) db.tableMap db.catalog true s.tables
  let logged := fun rootPage => if (db.resolve rootPage).isSome then [] else s.logged rootPage
  return { s with memlog := memlog, tables := tables, logged := logged }

def clear (s : Connection R) : Option (Connection R) := do
  let memlog ← s.memlog.clear
  return { s with memlog := memlog, logged := fun _ => [] }

/--
One instruction. Note that `OP_Clear` leaves the memlog alone.
-/
def exec (s : Connection R) : Opcode R → Option (Connection R)
  | .change rootPage change => (s.setPage rootPage (change.apply (s.pages rootPage))).logRow db rootPage change
  | .clear rootPage => some (s.setPage rootPage ∅)

/--
`sqlite3RollbackAll`. Savepoints that are still there when the next transaction starts are opened again with it.
-/
def rollbackAll (s : Connection R) : Connection R :=
  { s with
    pages := s.committed
    savepoints := s.savepoints.map fun savepoint => { savepoint with pages := s.committed } }

def closeSavepoints (s : Connection R) : Connection R :=
  { s with savepoints := [], isTransactionSavepoint := false }

def abortTransaction (s : Connection R) : Connection R :=
  { s.rollbackAll.closeSavepoints with autoCommit := true }

/--
`sqlite3VdbeCloseStatement` with `SAVEPOINT_ROLLBACK`.
-/
def rollbackStatement (s : Connection R) (p : Vdbe R) : Connection R :=
  match p.statement with
  | some pages => { s with pages := pages }
  | none => s

/--
The first part of `sqlite3VdbeHalt`. The flag says whether the statement is to be rolled back.
-/
def handleSpecialError (s : Connection R) (p : Vdbe R) : Connection R × Bool :=
  if p.outcome.IsSpecialError ∧ ¬(p.readOnly ∧ p.outcome = .interrupt) then
    if p.outcome = .nomem ∧ p.usesStmtJournal then
      (s, true)
    else
      (s.abortTransaction, false)
  else
    (s, false)

/--
The part of `sqlite3VdbeHalt` for autocommit mode. The flag says whether it returns `SQLITE_BUSY`.
-/
def haltAutoCommit (s : Connection R) (p : Vdbe R) : Option (Connection R × Bool) := do
  if p.outcome.Commits ∧ p.commit = .busy ∧ p.readOnly then
    return (s, true)
  else if p.outcome.Commits ∧ p.commit = .ok then
    let s ← updateDb db { s with committed := s.pages }
    let s ← s.clear
    return (s, false)
  else
    let s ← s.rollbackAll.clear
    return (s, false)

/--
`sqlite3VdbeHalt`. The rest of a statement that fails with a special error is aborted.
-/
def halt (s : Connection R) (p : Vdbe R) : Option (Connection R × Bool) :=
  let (s, rollsBack) := s.handleSpecialError p
  if s.autoCommit then
    s.haltAutoCommit db p
  else if rollsBack then
    some (s.rollbackStatement p, false)
  else
    match p.outcome with
    | .done | .fail => some (s, false)
    | .rollback => some (s.abortTransaction, false)
    | .abort | .nomem | .ioerr | .interrupt => some (s.rollbackStatement p, false)

/--
A command that fails, and one after which nothing is left to do.
-/
def failCommand (s : Connection R) : Option (Connection R) := do
  let (s, _) ← s.halt db (.command R .abort .ok)
  return s

def endCommand (s : Connection R) : Option (Connection R) := do
  let (s, _) ← s.halt db (.command R .done .ok)
  return s

def vdbe (s : Connection R) (p : Statement R) : Vdbe R where
  readOnly := p.readOnly
  usesStmtJournal := p.usesStmtJournal
  outcome := p.outcome
  commit := p.commit
  statement := if p.usesStmtJournal ∧ ¬p.readOnly ∧ ¬s.autoCommit then some s.pages else none

def runStatement (s : Connection R) (p : Statement R) : Option (Connection R) := do
  let halted ← p.ops.foldlM (exec db) s
  let (s, _) ← halted.halt db (s.vdbe p)
  return s

/--
`OP_AutoCommit` for BEGIN, COMMIT and ROLLBACK. Note that a ROLLBACK halts as a success.
-/
def beginTransaction (s : Connection R) : Option (Connection R) := do
  if s.autoCommit then
    let (s, _) ← halt db { s with autoCommit := false } (.command R .done .ok)
    return s.closeSavepoints
  else
    s.failCommand db

def commitTransaction (s : Connection R) (result : CommitResult) : Option (Connection R) := do
  if s.autoCommit then
    s.failCommand db
  else
    let (s, busy) ← halt db { s with autoCommit := true } (.command R .done result)
    if busy then
      return { s with autoCommit := false }
    else
      return s.closeSavepoints

def rollbackTransaction (s : Connection R) : Option (Connection R) := do
  if s.autoCommit then
    s.failCommand db
  else
    let (s, _) ← halt db { s.rollbackAll with autoCommit := true } (.command R .done .ok)
    return s.closeSavepoints

/--
Where a savepoint is found. Names are compared by `sqlite3StrICmp`.
-/
def findSavepoint (s : Connection R) (name : List UInt8) : Option Nat :=
  s.savepoints.findIdx? fun savepoint => savepoint.name.map upperToLower = name.map upperToLower

/--
`OP_Savepoint` for SAVEPOINT, RELEASE and ROLLBACK TO. A savepoint that starts a transaction ends it when it is released.
-/
def openSavepoint (s : Connection R) (name : List UInt8) : Option (Connection R) :=
  let isTransaction := s.isTransactionSavepoint || s.autoCommit
  let savepoints := ⟨name, s.pages⟩ :: s.savepoints
  endCommand db { s with
    autoCommit := false
    isTransactionSavepoint := isTransaction
    savepoints := savepoints }

def releaseSavepoint (s : Connection R) (name : List UInt8) (result : CommitResult) : Option (Connection R) := do
  match s.findSavepoint name with
  | none => s.failCommand db
  | some i =>
    if i + 1 = s.savepoints.length ∧ s.isTransactionSavepoint then
      let (s, busy) ← halt db { s with autoCommit := true } (.command R .done result)
      if busy ∨ result ≠ .ok then
        return { s with autoCommit := false }
      else
        return { s with savepoints := [], isTransactionSavepoint := false }
    else
      endCommand db { s with savepoints := s.savepoints.drop (i + 1) }

def rollbackToSavepoint (s : Connection R) (name : List UInt8) : Option (Connection R) := do
  match s.findSavepoint name with
  | none => s.failCommand db
  | some i =>
    let savepoint ← s.savepoints[i]?
    endCommand db { s with pages := savepoint.pages, savepoints := s.savepoints.drop i }

/--
`sqlite3_load_hustle`: all rows of a B-tree are logged as inserts by `OP_TableRead`, which then updates the tables
itself. It does not expect an empty B-tree and reads rows as if they were on one page.
-/
def loadTable (s : Connection R) (rootPage : Nat) : Option (Connection R) := do
  let rows := (s.pages rootPage).entries
  if rows = [] ∨ ∃ row ∈ rows, db.maxLeaf < (db.bytes row.2).length then
    none
  else
    let s ← rows.foldlM (fun s row => logRow db s rootPage (.insert row.1 row.2)) s
    let s ← s.updateDb db
    s.endCommand db

def step (s : Connection R) : Action R → Option (Connection R)
  | .statement p => s.runStatement db p
  | .begin => s.beginTransaction db
  | .commit result => s.commitTransaction db result
  | .rollback => s.rollbackTransaction db
  | .savepoint name => s.openSavepoint db name
  | .release name result => s.releaseSavepoint db name result
  | .rollbackTo name => s.rollbackToSavepoint db name
  | .load rootPage => s.loadTable db rootPage

def opened (memlog : HustleMemLog) (pages : Pages R) (tables : Map TablePtr DBTable) : Connection R where
  autoCommit := true
  isTransactionSavepoint := false
  savepoints := []
  committed := pages
  pages := pages
  memlog := memlog
  tables := some tables
  logged := fun _ => []

end Connection

end Hustle.Memlog
