import Hustle.Memlog.ConnectionLemmas
import Hustle.Memlog.TreeMirror
import Hustle.Util.Replicas

/-!
This module compares the tables with the committed B-trees in whole runs of a connection. The memlog is not rolled back
with the B-trees, so the comparison succeeds for the runs in which nothing is rolled back that has been logged, except by
what ends in autocommit mode.
-/

namespace Hustle.Memlog

open Storage

theorem applyAll_applyTables (pick : List Int → Nat) (tables : Map TablePtr DBTable)
    (records : List (TablePtr × DBRecord))
    : HustleMemLog.applyAll (applyTables pick) (some tables) records
        =
      records.foldlM (Replicas.applyAt (applyRecord pick)) tables := by
  have hnone : ∀ records : List (TablePtr × DBRecord),
      HustleMemLog.applyAll (applyTables pick) none records = none := by
    intro records
    induction records with
    | nil => rfl
    | cons record records ih => exact ih
  induction records generalizing tables with
  | nil => rfl
  | cons record records ih =>
    have hstep : applyTables pick (some tables) record.1 record.2
        = Replicas.applyAt (applyRecord pick) tables record := rfl
    have hcons : HustleMemLog.applyAll (applyTables pick) (some tables) (record :: records)
        = HustleMemLog.applyAll (applyTables pick) (applyTables pick (some tables) record.1 record.2) records := rfl
    rw [hcons, hstep, List.foldlM_cons]
    cases Replicas.applyAt (applyRecord pick) tables record with
    | none => exact hnone records
    | some tables' => exact ih tables'

section

variable {tableMap : TableMap} {catalog : Catalog} {pending : Nat → List DBRecord}

theorem eventsAt_due {rootPage : Nat} {table : TablePtr} (hres : resolve tableMap catalog rootPage = some table)
    (hinj : ∀ root, resolve tableMap catalog root = some table → root = rootPage) (n : Nat)
    : Replicas.eventsAt table (HustleMemLog.due tableMap catalog pending n)
        =
      if rootPage < n then pending rootPage else [] := by
  induction n with
  | zero => rfl
  | succ n ih =>
    unfold HustleMemLog.due at ih ⊢
    rw [List.range_succ, List.flatMap_append, Replicas.eventsAt_append, ih]
    simp only [List.flatMap_cons, List.flatMap_nil, List.append_nil]
    by_cases hn : n = rootPage
    . subst hn
      simp [hres, Replicas.eventsAt_map]
    . have hlt : rootPage < n + 1 ↔ rootPage < n := by omega
      simp only [hlt]
      cases hres' : resolve tableMap catalog n with
      | none => simp [Replicas.eventsAt]
      | some table' =>
        have hne : table' ≠ table := by
          rintro rfl
          exact hn (hinj n hres')
        simp [Replicas.eventsAt_map, hne]

theorem exists_root_of_mem_due {n : Nat} {table : TablePtr}
    (h : table ∈ (HustleMemLog.due tableMap catalog pending n).map Prod.fst)
    : ∃ root, resolve tableMap catalog root = some table := by
  obtain ⟨⟨table', record⟩, hmem, rfl⟩ := List.mem_map.mp h
  obtain ⟨root, -, hroot⟩ := List.mem_flatMap.mp hmem
  refine ⟨root, ?_⟩
  cases hres : resolve tableMap catalog root with
  | none => simp [hres] at hroot
  | some table'' =>
    rw [hres] at hroot
    obtain ⟨_, -, heq⟩ := List.mem_map.mp hroot
    cases heq
    rfl

end

namespace Database

variable {R : Type}

/--
No two root pages have the same table.
-/
def Injective (db : Database R) : Prop :=
  ∀ root root' table, db.resolve root = some table → db.resolve root' = some table → root = root'

/--
The root pages that a table may be found for.
-/
def roots (db : Database R) : List Nat :=
  (db.tableMap.pages defaultDbId).keys.map Int.toNat

theorem mem_roots {db : Database R} {root : Nat} {table : TablePtr} (h : db.resolve root = some table)
    : root ∈ db.roots := by
  unfold resolve Memlog.resolve at h
  obtain ⟨name, hname, -⟩ := Option.bind_eq_some_iff.mp h
  refine List.mem_map.mpr ⟨(root : Int), ?_, by simp⟩
  rw [← AList.mem_keys]
  exact AList.lookup_isSome.mp (by rw [hname]; rfl)

end Database

namespace Connection

variable (db : Database SerialRecord)

/--
The tables hold the rows of the given B-trees.
-/
def TablesHold (tables : Map TablePtr DBTable) (trees : Pages SerialRecord) : Prop :=
  ∀ root table, db.resolve root = some table →
    ∃ t, tables.lookup table = some t ∧ Mirror.Holds ⟨t, trees root⟩

/--
The tables hold the rows that have been committed.
-/
def InStep (s : Connection SerialRecord) : Prop :=
  ∃ tables, s.tables = some tables ∧ TablesHold db tables s.committed

/--
The tables can do the changes that have been logged.
-/
def CanApply (s : Connection SerialRecord) : Prop :=
  ∀ root ∈ db.roots, ∀ table ∈ db.resolve root, ∀ tables ∈ s.tables, ∀ t ∈ tables.lookup table,
    Run.Meets (Mirror.step db.pick) Mirror.Applicable ⟨t, s.committed root⟩ (s.logged root)

/--
The B-trees of the tables are the same in both versions of the pages.
-/
def SameRows (pages pages' : Pages SerialRecord) : Prop :=
  ∀ root ∈ db.roots, (db.resolve root).isSome → pages root = pages' root

/--
The programs whose end the tables can follow. A rollback in the middle of a transaction does not change anything.
-/
def HaltSafe (s : Connection SerialRecord) (p : Vdbe SerialRecord) : Prop :=
  (s.autoCommit → p.outcome.Commits → p.commit = .ok → s.CanApply db) ∧
  (¬s.autoCommit → p.outcome = .rollback → SameRows db s.committed s.pages) ∧
  (¬s.autoCommit → p.outcome = .abort ∨ p.outcome = .nomem ∨ p.readOnly →
    ∀ pages ∈ p.statement, SameRows db pages s.pages)

/--
The actions that the tables can follow. A ROLLBACK applies what has been logged.
-/
def Followed (s : Connection SerialRecord) : Action SerialRecord → Prop
  | .statement p =>
    (∀ root ∈ db.roots, (db.resolve root).isSome → .clear root ∉ p.ops) ∧
    ∀ halted ∈ p.ops.foldlM (exec db) s, halted.HaltSafe db (s.vdbe p)
  | .commit result => ¬s.autoCommit → result = .ok → s.CanApply db
  | .rollback => ¬s.autoCommit → SameRows db s.committed s.pages ∧ s.CanApply db
  | .release name result =>
    ∀ i ∈ s.findSavepoint name, i + 1 = s.savepoints.length ∧ s.isTransactionSavepoint → result = .ok →
      s.CanApply db
  | .rollbackTo name =>
    ∀ i ∈ s.findSavepoint name, ∀ savepoint ∈ s.savepoints[i]?, SameRows db savepoint.pages s.pages
  | .begin | .savepoint _ => True
  | .load _ => False

/--
The B-trees are the committed ones with the logged changes, and the tables hold the committed ones.
-/
structure Inv (s : Connection SerialRecord) : Prop where
  log : s.memlog.Holds (logRecords db s.logged)
  redo : ∀ root, (db.resolve root).isSome → s.pages root = (s.logged root).foldl RowChange.apply (s.committed root)
  inStep : s.InStep db

variable {db}

theorem SameRows.page_eq {pages pages' : Pages SerialRecord} (h : SameRows db pages pages') {root : Nat}
    (hroot : (db.resolve root).isSome)
    : pages root = pages' root := by
  obtain ⟨table, htable⟩ := Option.isSome_iff_exists.mp hroot
  exact h root (Database.mem_roots htable) hroot

/--
Updating the tables brings them from the B-trees that they hold to the ones with the logged changes.
-/
theorem updateDb_eq (hinj : db.Injective) {s : Connection SerialRecord}
    (hlog : s.memlog.Holds (logRecords db s.logged)) (hbytes : db.bytes = SerialRecord.data)
    {tables : Map TablePtr DBTable} (htables : s.tables = some tables) {trees : Pages SerialRecord}
    (hhold : TablesHold db tables trees)
    (hops : ∀ root table t, db.resolve root = some table → tables.lookup table = some t →
      Run.Meets (Mirror.step db.pick) Mirror.Applicable ⟨t, trees root⟩ (s.logged root))
    : ∃ memlog tables',
        s.updateDb db
          = some { s with
              memlog := memlog
              tables := some tables'
              logged := fun root => if (db.resolve root).isSome then [] else s.logged root } ∧
        memlog.Holds (logRecords db fun root => if (db.resolve root).isSome then [] else s.logged root) ∧
        (TablesHold db tables' fun root => (s.logged root).foldl RowChange.apply (trees root)) ∧
        ∀ root table, db.resolve root = some table → s.logged root = [] →
          tables'.lookup table = tables.lookup table := by
  obtain ⟨memlog, heq, hholds, hbound⟩ := hlog.updateDb (applyTables db.pick) db.tableMap db.catalog true s.tables
  generalize s.memlog.recordList.length = n at heq hbound
  have hevents : ∀ root table, db.resolve root = some table →
      Replicas.eventsAt table (HustleMemLog.due db.tableMap db.catalog (logRecords db s.logged) n)
        = (s.logged root).map (RowChange.record SerialRecord.data) := by
    intro root table hres
    rw [eventsAt_due hres (fun root' hres' => hinj root' root table hres' hres), ← hbytes]
    split
    . rfl
    . next hge => exact (hbound root (by omega)).symm
  have hrun : ∀ root table t, db.resolve root = some table → tables.lookup table = some t →
      ∃ t', (Replicas.eventsAt table (HustleMemLog.due db.tableMap db.catalog (logRecords db s.logged) n)).foldlM
          (applyRecord db.pick) t = some t' ∧
        Mirror.Holds ⟨t', (s.logged root).foldl RowChange.apply (trees root)⟩ := by
    intro root table t hres ht
    obtain ⟨t₀, ht₀, hmirror⟩ := hhold root table hres
    rw [ht₀] at ht
    cases ht
    rw [hevents root table hres]
    exact Mirror.run_holds hmirror (hops root table t hres ht₀)
  obtain ⟨tables', hfold, hfinal⟩ := @Replicas.foldlM_applyAt _ _ _ _ (applyRecord db.pick) tables
    (HustleMemLog.due db.tableMap db.catalog (logRecords db s.logged) n) <| by
      intro table hmem
      obtain ⟨root, hres⟩ := exists_root_of_mem_due hmem
      obtain ⟨t, ht, -⟩ := hhold root table hres
      obtain ⟨t', ht', -⟩ := hrun root table t hres ht
      exact ⟨t, t', ht, ht'⟩
  rw [htables, applyAll_applyTables, hfold] at heq
  have hrest : logRecords db (fun root => if (db.resolve root).isSome then [] else s.logged root)
      = fun root => if (db.resolve root).isSome then [] else logRecords db s.logged root := by
    funext root
    by_cases hroot : (db.resolve root).isSome <;> simp [logRecords, hroot]
  refine ⟨memlog, tables', by simp [updateDb, htables, heq], ?_, ?_, ?_⟩
  . rw [hrest]
    exact hholds
  . intro root table hres
    obtain ⟨t, ht, -⟩ := hhold root table hres
    obtain ⟨t', ht', hmirror⟩ := hrun root table t hres ht
    obtain ⟨t'', ht'', hrun''⟩ := hfinal table t ht
    rw [ht'] at hrun''
    cases hrun''
    exact ⟨t', ht'', hmirror⟩
  . intro root table hres hnil
    obtain ⟨t, ht, -⟩ := hhold root table hres
    obtain ⟨t', ht', hrun'⟩ := hfinal table t ht
    rw [hevents root table hres, hnil] at hrun'
    cases hrun'
    rw [ht', ht]

theorem Inv.clear {s : Connection SerialRecord} {pending : Nat → List DBRecord} (hlog : s.memlog.Holds pending)
    (hpages : ∀ root, (db.resolve root).isSome → s.pages root = s.committed root) (hstep : s.InStep db)
    : ∃ s', s.clear = some s' ∧ s'.Inv db ∧ s'.autoCommit = s.autoCommit ∧ s'.savepoints = s.savepoints := by
  obtain ⟨memlog, heq, hholds⟩ := clear_eq db hlog
  exact ⟨_, heq, ⟨hholds, hpages, hstep⟩, rfl, rfl⟩

theorem Inv.congr {s s' : Connection SerialRecord} (h : s.Inv db) (hmemlog : s'.memlog = s.memlog)
    (hlogged : s'.logged = s.logged) (htables : s'.tables = s.tables) (hcommitted : s'.committed = s.committed)
    (hpages : SameRows db s'.pages s.pages)
    : s'.Inv db where
  log := by rw [hmemlog, hlogged]; exact h.log
  redo := by
    intro root hroot
    rw [hpages.page_eq hroot, hlogged, hcommitted]
    exact h.redo root hroot
  inStep := by
    unfold InStep
    rw [htables, hcommitted]
    exact h.inStep

theorem SameRows.refl (pages : Pages SerialRecord) : SameRows db pages pages :=
  fun _ _ _ => rfl

theorem haltAutoCommit_inv (hinj : db.Injective) (hbytes : db.bytes = SerialRecord.data)
    {s : Connection SerialRecord} {p : Vdbe SerialRecord} (hlog : s.memlog.Holds (logRecords db s.logged))
    (hstep : s.InStep db) (hredo : p.outcome.Commits → s.Inv db)
    (happly : p.outcome.Commits → p.commit = .ok → s.CanApply db)
    : ∃ s' busy, s.haltAutoCommit db p = some (s', busy) ∧ s'.Inv db := by
  unfold haltAutoCommit
  by_cases hbusy : p.outcome.Commits ∧ p.commit = .busy ∧ p.readOnly
  . rw [if_pos hbusy]
    exact ⟨s, true, rfl, hredo hbusy.1⟩
  . rw [if_neg hbusy]
    by_cases hok : p.outcome.Commits ∧ p.commit = .ok
    . rw [if_pos hok]
      have hinv := hredo hok.1
      have hcan := happly hok.1 hok.2
      obtain ⟨tables, htables, hhold⟩ := hstep
      obtain ⟨memlog, tables', heq, hpending, hhold', -⟩ :=
        @updateDb_eq db hinj { s with committed := s.pages } hlog hbytes tables htables s.committed hhold <| by
          intro root table t hres ht
          exact hcan root (Database.mem_roots hres) table hres tables htables t ht
      -- What has been committed is what the changes made of the old B-trees.
      have hnew : TablesHold db tables' s.pages := by
        intro root table hres
        rw [hinv.redo root (by rw [hres]; rfl)]
        exact hhold' root table hres
      obtain ⟨s', hs', hinv', -, -⟩ := @Inv.clear db { s with
          committed := s.pages
          memlog := memlog
          tables := some tables'
          logged := fun root => if (db.resolve root).isSome then [] else s.logged root }
        _ hpending (fun _ _ => rfl) ⟨tables', rfl, hnew⟩
      exact ⟨s', false, by simp [heq, hs'], hinv'⟩
    . rw [if_neg hok]
      obtain ⟨s', hs', hinv', -, -⟩ := @Inv.clear db s.rollbackAll _ hlog (fun _ _ => rfl) hstep
      exact ⟨s', false, by simp [hs'], hinv'⟩

/--
The end of a program keeps the tables in step.
-/
theorem halt_inv (hinj : db.Injective) (hbytes : db.bytes = SerialRecord.data) {s : Connection SerialRecord}
    {p : Vdbe SerialRecord} (hinv : s.Inv db) (hsafe : s.HaltSafe db p)
    : ∃ s' busy, s.halt db p = some (s', busy) ∧ s'.Inv db := by
  obtain ⟨happly, hrollback, hundo⟩ := hsafe
  have hstatement : ¬s.autoCommit → p.outcome = .abort ∨ p.outcome = .nomem ∨ p.readOnly →
      (s.rollbackStatement p).Inv db := by
    intro hauto hp
    unfold rollbackStatement
    cases hpages : p.statement with
    | none => exact hinv
    | some pages => exact hinv.congr rfl rfl rfl rfl (hundo hauto hp pages hpages)
  -- A special error never commits, and what has been logged is thrown away.
  have hspecial : ¬p.outcome.Commits →
      ∃ s' busy, s.abortTransaction.haltAutoCommit db p = some (s', busy) ∧ s'.Inv db := by
    intro hfailed
    exact haltAutoCommit_inv hinj hbytes hinv.log hinv.inStep (fun h => absurd h hfailed)
      (fun h => absurd h hfailed)
  have hauto : s.autoCommit → ∃ s' busy, s.haltAutoCommit db p = some (s', busy) ∧ s'.Inv db := by
    intro hauto
    exact haltAutoCommit_inv hinj hbytes hinv.log hinv.inStep (fun _ => hinv) (happly hauto)
  unfold halt handleSpecialError
  split
  . next h =>
    split at h
    . next herror =>
      have hfailed : ¬p.outcome.Commits := by
        unfold Outcome.Commits
        rcases herror.1 with he | he | he <;> simp [he]
      split at h
      . next hnomem =>
        cases h
        split
        . next ha => exact hauto ha
        . next ha =>
          rw [if_pos rfl]
          exact ⟨_, _, rfl, hstatement ha (.inr (.inl hnomem.1))⟩
      . cases h
        have ha : s.abortTransaction.autoCommit = true := rfl
        rw [if_pos ha]
        exact hspecial hfailed
    . next herror =>
      cases h
      split
      . next ha => exact hauto ha
      . next ha =>
        rw [if_neg Bool.false_ne_true]
        split
        . exact ⟨_, _, rfl, hinv⟩
        . exact ⟨_, _, rfl, hinv⟩
        . next hp => exact ⟨_, _, rfl, hinv.congr rfl rfl rfl rfl (hrollback ha hp)⟩
        . next hp => exact ⟨_, _, rfl, hstatement ha (.inl hp)⟩
        . next hp => exact ⟨_, _, rfl, hstatement ha (.inr (.inl hp))⟩
        . next hp => simp [hp, Outcome.IsSpecialError] at herror
        . next hp =>
          have hread : p.readOnly = true := by
            simpa [hp, Outcome.IsSpecialError] using herror
          exact ⟨_, _, rfl, hstatement ha (.inr (.inr hread))⟩

theorem haltSafe_command {s : Connection SerialRecord} {outcome : Outcome} {result : CommitResult}
    (happly : s.autoCommit → outcome.Commits → result = .ok → s.CanApply db) (hrollback : outcome ≠ .rollback)
    : s.HaltSafe db (.command SerialRecord outcome result) :=
  ⟨happly, fun _ h => absurd h hrollback, fun _ _ pages h => by simp [Vdbe.command] at h⟩

section

variable (hinj : db.Injective) (hbytes : db.bytes = SerialRecord.data) {s : Connection SerialRecord}

include hinj hbytes

theorem failCommand_inv (hinv : s.Inv db) : ∃ s', s.failCommand db = some s' ∧ s'.Inv db := by
  obtain ⟨s', busy, heq, hinv'⟩ := @halt_inv db hinj hbytes s (.command SerialRecord .abort .ok) hinv <|
    haltSafe_command (fun _ h => by simp [Outcome.Commits] at h) (by simp)
  exact ⟨s', by simp [failCommand, heq], hinv'⟩

theorem endCommand_inv (hinv : s.Inv db) (hauto : s.autoCommit = false)
    : ∃ s', s.endCommand db = some s' ∧ s'.Inv db := by
  obtain ⟨s', busy, heq, hinv'⟩ := @halt_inv db hinj hbytes s (.command SerialRecord .done .ok) hinv <|
    haltSafe_command (fun h => by simp [hauto] at h) (by simp)
  exact ⟨s', by simp [endCommand, heq], hinv'⟩

theorem runStatement_inv (hinv : s.Inv db) {p : Statement SerialRecord} (hop : s.Followed db (.statement p))
    : ∃ s', s.runStatement db p = some s' ∧ s'.Inv db := by
  obtain ⟨hclear, hsafe⟩ := hop
  obtain ⟨pages, memlog, hexec, hlog, hpages⟩ := foldlM_exec db hinv.log p.ops
  have hinv₁ : Inv db { s with
      pages := pages
      memlog := memlog
      logged := fun root => s.logged root ++ changesAt root p.ops } := by
    refine ⟨hlog, ?_, hinv.inStep⟩
    intro root hroot
    obtain ⟨table, htable⟩ := Option.isSome_iff_exists.mp hroot
    dsimp only
    rw [hpages root (hclear root (Database.mem_roots htable) hroot), hinv.redo root hroot, List.foldl_append]
  obtain ⟨s', busy, heq, hinv'⟩ := halt_inv hinj hbytes hinv₁ (hsafe _ hexec)
  exact ⟨s', by simp [runStatement, hexec, heq], hinv'⟩

theorem commitTransaction_inv (hinv : s.Inv db) {result : CommitResult} (hop : s.Followed db (.commit result))
    : ∃ s', s.commitTransaction db result = some s' ∧ s'.Inv db := by
  unfold commitTransaction
  split
  . exact failCommand_inv hinj hbytes hinv
  . next hauto =>
    obtain ⟨s', busy, heq, hinv'⟩ := @halt_inv db hinj hbytes { s with autoCommit := true }
      (.command SerialRecord .done result) (hinv.congr rfl rfl rfl rfl (.refl _))
      (haltSafe_command (fun _ _ hresult => hop hauto hresult) (by simp))
    simp only [heq, Option.bind_eq_bind, Option.bind_some, Option.pure_def]
    split
    . exact ⟨_, rfl, hinv'.congr rfl rfl rfl rfl (.refl _)⟩
    . exact ⟨_, rfl, hinv'.congr rfl rfl rfl rfl (.refl _)⟩

theorem rollbackTransaction_inv (hinv : s.Inv db) (hop : s.Followed db .rollback)
    : ∃ s', s.rollbackTransaction db = some s' ∧ s'.Inv db := by
  unfold rollbackTransaction
  split
  . exact failCommand_inv hinj hbytes hinv
  . next hauto =>
    obtain ⟨hsame, happly⟩ := hop hauto
    obtain ⟨s', busy, heq, hinv'⟩ := @halt_inv db hinj hbytes { s.rollbackAll with autoCommit := true }
      (.command SerialRecord .done .ok) (hinv.congr rfl rfl rfl rfl hsame)
      (haltSafe_command (fun _ _ _ => happly) (by simp))
    simp only [heq, Option.bind_eq_bind, Option.bind_some, Option.pure_def]
    exact ⟨_, rfl, hinv'.congr rfl rfl rfl rfl (.refl _)⟩

theorem releaseSavepoint_inv (hinv : s.Inv db) (hbalanced : s.Balanced) {name : List UInt8} {result : CommitResult}
    (hop : s.Followed db (.release name result))
    : ∃ s', s.releaseSavepoint db name result = some s' ∧ s'.Inv db := by
  unfold releaseSavepoint
  cases hfind : s.findSavepoint name with
  | none => exact failCommand_inv hinj hbytes hinv
  | some i =>
    have hne : s.savepoints ≠ [] := by
      intro hnil
      simp [findSavepoint, hnil] at hfind
    dsimp only
    split
    . next hlast =>
      obtain ⟨s', busy, heq, hinv'⟩ := @halt_inv db hinj hbytes { s with autoCommit := true }
        (.command SerialRecord .done result) (hinv.congr rfl rfl rfl rfl (.refl _))
        (haltSafe_command (fun _ _ hresult => hop i hfind hlast hresult) (by simp))
      simp only [heq, Option.bind_eq_bind, Option.bind_some, Option.pure_def]
      split
      . exact ⟨_, rfl, hinv'.congr rfl rfl rfl rfl (.refl _)⟩
      . exact ⟨_, rfl, hinv'.congr rfl rfl rfl rfl (.refl _)⟩
    . exact @endCommand_inv db hinj hbytes { s with savepoints := s.savepoints.drop (i + 1) }
        (hinv.congr rfl rfl rfl rfl (.refl _)) (hbalanced hne)

theorem rollbackToSavepoint_inv (hinv : s.Inv db) (hbalanced : s.Balanced) {name : List UInt8}
    (hop : s.Followed db (.rollbackTo name))
    : ∃ s', s.rollbackToSavepoint db name = some s' ∧ s'.Inv db := by
  unfold rollbackToSavepoint
  cases hfind : s.findSavepoint name with
  | none => exact failCommand_inv hinj hbytes hinv
  | some i =>
    obtain ⟨hi, -⟩ := List.findIdx?_eq_some_iff_getElem.mp hfind
    have hsavepoint : s.savepoints[i]? = some s.savepoints[i] := List.getElem?_eq_getElem hi
    have hne : s.savepoints ≠ [] := List.ne_nil_of_length_pos (by omega)
    simp only [hsavepoint, Option.bind_eq_bind, Option.bind_some]
    exact @endCommand_inv db hinj hbytes
      { s with pages := s.savepoints[i].pages, savepoints := s.savepoints.drop i }
      (hinv.congr rfl rfl rfl rfl (hop i hfind _ hsavepoint)) (hbalanced hne)

theorem step_inv (a : Action SerialRecord) (hinv : s.Inv db ∧ s.Balanced) (hop : s.Followed db a)
    : ∃ s', s.step db a = some s' ∧ s'.Inv db ∧ s'.Balanced := by
  have hload : ∀ rootPage, a ≠ .load rootPage := by
    rintro rootPage rfl
    exact hop
  obtain ⟨hinv, hbalanced⟩ := hinv
  have hrun : ∃ s', s.step db a = some s' ∧ s'.Inv db := by
    cases a with
    | statement p => exact runStatement_inv hinj hbytes hinv hop
    | begin =>
      unfold step beginTransaction
      dsimp only
      split
      . obtain ⟨s', busy, heq, hinv'⟩ := @halt_inv db hinj hbytes { s with autoCommit := false }
          (.command SerialRecord .done .ok) (hinv.congr rfl rfl rfl rfl (.refl _))
          (haltSafe_command (fun h => by simp at h) (by simp))
        simp only [heq, Option.bind_eq_bind, Option.bind_some, Option.pure_def]
        exact ⟨_, rfl, hinv'.congr rfl rfl rfl rfl (.refl _)⟩
      . exact failCommand_inv hinj hbytes hinv
    | commit result => exact commitTransaction_inv hinj hbytes hinv hop
    | rollback => exact rollbackTransaction_inv hinj hbytes hinv hop
    | savepoint name =>
      exact endCommand_inv hinj hbytes (hinv.congr rfl rfl rfl rfl (.refl _)) rfl
    | release name result => exact releaseSavepoint_inv hinj hbytes hinv hbalanced hop
    | rollbackTo name => exact rollbackToSavepoint_inv hinj hbytes hinv hbalanced hop
    | load rootPage => exact absurd rfl (hload rootPage)
  obtain ⟨s', heq, hinv'⟩ := hrun
  exact ⟨s', heq, hinv', step_balanced hbalanced heq hload⟩

end

theorem always_inStep_of_inv (hinj : db.Injective) (hbytes : db.bytes = SerialRecord.data)
    {s : Connection SerialRecord} (hinv : s.Inv db ∧ s.Balanced) {actions : List (Action SerialRecord)}
    (hops : Run.Meets (step db) (Followed db) s actions)
    : Run.Always (step db) (InStep db) (fun _ _ _ => True) s actions := by
  have hp : ∀ s : Connection SerialRecord, s.Inv db ∧ s.Balanced → s.InStep db := fun _ hinv => hinv.1.inStep
  refine Run.always_of_meets hp ?_ hinv hops
  intro s a hinv hop
  obtain ⟨s', heq, hinv'⟩ := step_inv hinj hbytes a hinv hop
  exact ⟨s', heq, trivial, hinv'⟩

theorem opened_inv {initialSize : Nat} {memlog : HustleMemLog} (hmemlog : HustleMemLog.new initialSize = some memlog)
    {pages : Pages SerialRecord} {tables : Map TablePtr DBTable} (hhold : TablesHold db tables pages)
    : (opened memlog pages tables).Inv db ∧ (opened memlog pages tables).Balanced :=
  ⟨⟨HustleMemLog.new_holds hmemlog, fun _ _ => rfl, tables, rfl, hhold⟩, fun h => absurd rfl h⟩

/--
In every run of statements, transactions and savepoints in which nothing is rolled back in the middle of a transaction
that has been logged, and whose committed changes the tables can do, the tables always hold exactly the committed rows.
-/
theorem always_inStep (hinj : db.Injective) (hbytes : db.bytes = SerialRecord.data) {initialSize : Nat}
    {memlog : HustleMemLog} (hmemlog : HustleMemLog.new initialSize = some memlog) {pages : Pages SerialRecord}
    {tables : Map TablePtr DBTable} (hhold : TablesHold db tables pages) (actions : List (Action SerialRecord))
    (hops : Run.Meets (step db) (Followed db) (opened memlog pages tables) actions)
    : Run.Always (step db) (InStep db) (fun _ _ _ => True) (opened memlog pages tables) actions := by
  exact always_inStep_of_inv hinj hbytes (opened_inv hmemlog hhold) hops

def itemDatabase : Database SerialRecord where
  bytes := SerialRecord.data
  tableMap := AList.insert 0 (AList.insert 2 "item" ∅) ∅
  catalog := AList.insert "item" (some 7) ∅
  pick := fun _ => 0
  maxLeaf := 4061

theorem itemDatabase_resolve {root : Nat} {table : TablePtr} (h : itemDatabase.resolve root = some table)
    : root = 2 ∧ table = 7 := by
  have hroot : root ∈ itemDatabase.roots := Database.mem_roots h
  have heq : root = 2 := List.mem_singleton.mp hroot
  subst heq
  exact ⟨rfl, (Option.some.inj h).symm⟩

theorem itemFields_ne_nil : [FieldType.int64, .string] ≠ [] := by
  decide

def itemSchema : Schema := ⟨[.int64, .string], itemFields_ne_nil⟩

def itemTables : Map TablePtr DBTable :=
  AList.insert 7 (.new itemSchema 40 false) ∅

theorem itemTables_hold : TablesHold itemDatabase itemTables fun _ => ∅ := by
  intro root table h
  obtain ⟨rfl, rfl⟩ := itemDatabase_resolve h
  exact ⟨_, rfl, ∅, Mirrors.empty, DBTable.Tracked.init_inv _ _ _⟩

theorem encodes_one : Varint.Encodes [1] (1 : UInt32).toNat := by
  decide

theorem supported_one : Supported 1 := by
  decide

def itemRecord (n : UInt8) : SerialRecord where
  lengthBytes := [3]
  columns := [
    ⟨[1], 1, [n], encodes_one, supported_one, rfl⟩,
    ⟨[17], 17, [97, 98], by decide, by decide, rfl⟩
  ]
  encodes := show Varint.Encodes [3] 3 by decide
  size_lt := show 3 + 3 < 2 ^ 31 by decide

def itemStatement (ops : List (Opcode SerialRecord)) (outcome : Outcome) : Action SerialRecord :=
  .statement ⟨ops, false, true, outcome, .ok, by simp⟩

def itemActions : List (Action SerialRecord) := [
  itemStatement [.change 2 (.insert 1 (itemRecord 5)), .change 2 (.insert 2 (itemRecord 6))] .done,
  .begin,
  itemStatement [.change 2 (.update 1 (itemRecord 9) [⟨2, 0⟩])] .done,
  .savepoint [97],
  itemStatement [.change 2 (.insert 3 (itemRecord 7))] .done,
  .release [65] .ok,
  .commit .busy,
  .commit .ok,
  itemStatement [.change 2 (.delete 1), .change 2 (.insert 4 (itemRecord 8))] .abort,
  itemStatement [.change 2 (.delete 3)] .done,
  .begin,
  .rollback
]

instance (db : Database SerialRecord) (s : Connection SerialRecord) : Decidable (s.CanApply db) :=
  inferInstanceAs (Decidable (∀ _ ∈ _, ∀ _ ∈ _, ∀ _ ∈ _, ∀ _ ∈ _, _))

instance (db : Database SerialRecord) (pages pages' : Pages SerialRecord) : Decidable (SameRows db pages pages') :=
  inferInstanceAs (Decidable (∀ _ ∈ _, _ → _))

instance (db : Database SerialRecord) (s : Connection SerialRecord) (p : Vdbe SerialRecord)
    : Decidable (s.HaltSafe db p) :=
  inferInstanceAs (Decidable ((_ → _) ∧ (_ → _) ∧ (_ → _ → ∀ _ ∈ _, _)))

instance (db : Database SerialRecord) (s : Connection SerialRecord) (a : Action SerialRecord)
    : Decidable (s.Followed db a) :=
  match a with
  | .statement _ => inferInstanceAs (Decidable ((∀ _ ∈ _, _ → _) ∧ ∀ _ ∈ _, _))
  | .commit _ => inferInstanceAs (Decidable (_ → _ → _))
  | .rollback => inferInstanceAs (Decidable (_ → _))
  | .release _ _ => inferInstanceAs (Decidable (∀ _ ∈ _, _))
  | .rollbackTo _ => inferInstanceAs (Decidable (∀ _ ∈ _, ∀ _ ∈ _, _))
  | .begin | .savepoint _ => .isTrue trivial
  | .load _ => .isFalse id

theorem always_inStep_items
    : Run.Always (step itemDatabase) (InStep itemDatabase) (fun _ _ _ => True)
        (opened ⟨∅, 0, List.replicate 4 SList.Header.empty⟩ (fun _ => ∅) itemTables) itemActions := by
  apply always_inStep _ rfl (show HustleMemLog.new 4 = some _ from rfl) itemTables_hold
  . decide
  . intro root root' table h h'
    rw [(itemDatabase_resolve h).1, (itemDatabase_resolve h').1]

end Connection

end Hustle.Memlog
