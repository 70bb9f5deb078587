import Hustle.Memlog.ConnectionLemmas
import Hustle.Util.Run

/-!
This module compares runs of a connection that differ in what is rolled back. The memlog goes on as if nothing had been
rolled back inside a transaction, so a ROLLBACK brings the tables where a COMMIT would have brought them.
-/

namespace Hustle.Memlog

open Storage

/--
The programs that stay in the transaction they are in.
-/
def Outcome.Stays (outcome : Outcome) (usesStmtJournal : Bool) : Prop :=
  outcome = .done ∨ outcome = .fail ∨ outcome = .abort ∨ outcome = .nomem ∧ usesStmtJournal

instance (outcome : Outcome) (usesStmtJournal : Bool) : Decidable (outcome.Stays usesStmtJournal) :=
  inferInstanceAs (Decidable (_ ∨ _ ∨ _ ∨ _ ∧ _))

namespace Connection

section

variable {R : Type} {db : Database R}

/--
Two connections that agree on everything but the B-trees.
-/
structure Alike (s s' : Connection R) : Prop where
  autoCommit : s.autoCommit = s'.autoCommit
  isTransactionSavepoint : s.isTransactionSavepoint = s'.isTransactionSavepoint
  names : s.savepoints.map Savepoint.name = s'.savepoints.map Savepoint.name
  memlog : s.memlog = s'.memlog
  tables : s.tables = s'.tables
  logged : s.logged = s'.logged

/--
The same for the results of programs, of which both return `SQLITE_BUSY` or none.
-/
def AlikeResults (r r' : Connection R × Bool) : Prop :=
  Alike r.1 r'.1 ∧ r.2 = r'.2

theorem rel_bind {α β γ δ : Type} {r : α → β → Prop} {q : γ → δ → Prop} {x : Option α} {y : Option β}
    {f : α → Option γ} {g : β → Option δ} (h : Option.Rel r x y) (hf : ∀ a b, x = some a → r a b → Option.Rel q (f a) (g b))
    : Option.Rel q (x.bind f) (y.bind g) := by
  cases h with
  | none => exact .none
  | some h => exact hf _ _ rfl h

theorem rel_eq {α : Type} (x : Option α) : Option.Rel Eq x x := by
  cases x with
  | none => exact .none
  | some a => exact .some rfl

theorem names_rollbackAll (s : Connection R)
    : s.rollbackAll.savepoints.map Savepoint.name = s.savepoints.map Savepoint.name := by
  simp [rollbackAll, Function.comp_def]

namespace Alike

variable {s s' s'' : Connection R}

theorem refl (s : Connection R) : Alike s s :=
  ⟨rfl, rfl, rfl, rfl, rfl, rfl⟩

theorem symm (h : Alike s s') : Alike s' s :=
  ⟨h.autoCommit.symm, h.isTransactionSavepoint.symm, h.names.symm, h.memlog.symm, h.tables.symm, h.logged.symm⟩

theorem trans (h : Alike s s') (h' : Alike s' s'') : Alike s s'' :=
  ⟨h.autoCommit.trans h'.autoCommit, h.isTransactionSavepoint.trans h'.isTransactionSavepoint,
    h.names.trans h'.names, h.memlog.trans h'.memlog, h.tables.trans h'.tables, h.logged.trans h'.logged⟩

theorem length_savepoints (h : Alike s s') : s.savepoints.length = s'.savepoints.length := by
  simpa using congrArg List.length h.names

theorem findSavepoint (h : Alike s s') (name : List UInt8) : s.findSavepoint name = s'.findSavepoint name := by
  have hfind : ∀ savepoints : List (Savepoint R),
      savepoints.findIdx? (fun savepoint => savepoint.name.map upperToLower = name.map upperToLower)
        = (savepoints.map Savepoint.name).findIdx? fun n => n.map upperToLower = name.map upperToLower := by
    intro savepoints
    rw [List.findIdx?_map]
    rfl
  unfold Connection.findSavepoint
  rw [hfind, hfind, h.names]

theorem exec (h : Alike s s') (op : Opcode R) : Option.Rel Alike (s.exec db op) (s'.exec db op) := by
  cases op with
  | clear rootPage => exact .some ⟨h.autoCommit, h.isTransactionSavepoint, h.names, h.memlog, h.tables, h.logged⟩
  | change rootPage change =>
    have hinsert : Option.Rel Eq (s.memlog.insertRecord (change.record db.bytes) rootPage)
        (s'.memlog.insertRecord (change.record db.bytes) rootPage) := by
      rw [h.memlog]
      exact rel_eq _
    refine rel_bind hinsert ?_
    rintro memlog _ - rfl
    refine .some ⟨h.autoCommit, h.isTransactionSavepoint, h.names, rfl, h.tables, ?_⟩
    simp [setPage, h.logged]

theorem foldlM_exec (h : Alike s s') (ops : List (Opcode R))
    : Option.Rel Alike (ops.foldlM (Connection.exec db) s) (ops.foldlM (Connection.exec db) s') := by
  induction ops generalizing s s' with
  | nil => exact .some h
  | cons op ops ih =>
    rw [List.foldlM_cons, List.foldlM_cons]
    exact rel_bind (h.exec op) fun _ _ _ h' => ih h'

theorem updateDb (h : Alike s s') : Option.Rel Alike (s.updateDb db) (s'.updateDb db) := by
  unfold Connection.updateDb
  rw [← h.memlog, ← h.tables]
  cases s.memlog.updateDb (applyTables db.pick) db.tableMap db.catalog true s.tables with
  | none => exact .none
  | some result =>
    refine .some ⟨h.autoCommit, h.isTransactionSavepoint, h.names, rfl, rfl, ?_⟩
    dsimp only
    rw [h.logged]

theorem clear (h : Alike s s') : Option.Rel Alike s.clear s'.clear := by
  unfold Connection.clear
  rw [← h.memlog]
  cases s.memlog.clear with
  | none => exact .none
  | some memlog => exact .some ⟨h.autoCommit, h.isTransactionSavepoint, h.names, rfl, h.tables, rfl⟩

theorem rollbackAll (h : Alike s s') : Alike s.rollbackAll s'.rollbackAll := by
  refine ⟨h.autoCommit, h.isTransactionSavepoint, ?_, h.memlog, h.tables, h.logged⟩
  rw [names_rollbackAll, names_rollbackAll, h.names]

theorem rollbackAll_self (s : Connection R) : Alike s.rollbackAll s :=
  ⟨rfl, rfl, names_rollbackAll s, rfl, rfl, rfl⟩

theorem closeSavepoints (h : Alike s s') : Alike s.closeSavepoints s'.closeSavepoints :=
  ⟨h.autoCommit, rfl, rfl, h.memlog, h.tables, h.logged⟩

theorem setAutoCommit (h : Alike s s') (autoCommit : Bool)
    : Alike { s with autoCommit := autoCommit } { s' with autoCommit := autoCommit } :=
  ⟨rfl, h.isTransactionSavepoint, h.names, h.memlog, h.tables, h.logged⟩

theorem abortTransaction (h : Alike s s') : Alike s.abortTransaction s'.abortTransaction :=
  h.rollbackAll.closeSavepoints.setAutoCommit true

theorem rollbackStatement_self (s : Connection R) (p : Vdbe R) : Alike (s.rollbackStatement p) s := by
  unfold rollbackStatement
  split <;> exact ⟨rfl, rfl, rfl, rfl, rfl, rfl⟩

end Alike

structure EndAlike (p p' : Vdbe R) : Prop where
  readOnly : p.readOnly = p'.readOnly
  usesStmtJournal : p.usesStmtJournal = p'.usesStmtJournal
  outcome : p.outcome = p'.outcome
  commit : p.commit = p'.commit

variable {s s' : Connection R} {p p' : Vdbe R}

theorem Alike.haltAutoCommit (h : Alike s s') (hp : EndAlike p p')
    : Option.Rel AlikeResults (s.haltAutoCommit db p) (s'.haltAutoCommit db p') := by
  unfold Connection.haltAutoCommit
  rw [← hp.readOnly, ← hp.outcome, ← hp.commit]
  have hcommitted : Alike { s with committed := s.pages } { s' with committed := s'.pages } :=
    ⟨h.autoCommit, h.isTransactionSavepoint, h.names, h.memlog, h.tables, h.logged⟩
  split
  . exact .some ⟨h, rfl⟩
  . split
    . exact rel_bind hcommitted.updateDb fun _ _ _ h₁ => rel_bind h₁.clear fun _ _ _ h₂ => .some ⟨h₂, rfl⟩
    . exact rel_bind h.rollbackAll.clear fun _ _ _ h₁ => .some ⟨h₁, rfl⟩

theorem Alike.halt (h : Alike s s') (hp : EndAlike p p')
    : Option.Rel AlikeResults (s.halt db p) (s'.halt db p') := by
  have hstatement : Alike (s.rollbackStatement p) (s'.rollbackStatement p') :=
    (rollbackStatement_self s p).trans (h.trans (rollbackStatement_self s' p').symm)
  unfold Connection.halt handleSpecialError
  rw [← hp.readOnly, ← hp.outcome, ← hp.usesStmtJournal]
  by_cases herror : p.outcome.IsSpecialError ∧ ¬(p.readOnly ∧ p.outcome = .interrupt)
  . rw [if_pos herror, if_pos herror]
    by_cases hnomem : p.outcome = .nomem ∧ p.usesStmtJournal
    . rw [if_pos hnomem, if_pos hnomem]
      dsimp only
      rw [← h.autoCommit]
      split
      . exact h.haltAutoCommit hp
      . exact .some ⟨hstatement, rfl⟩
    . rw [if_neg hnomem, if_neg hnomem]
      exact h.abortTransaction.haltAutoCommit hp
  . rw [if_neg herror, if_neg herror]
    dsimp only
    rw [← h.autoCommit]
    split
    . exact h.haltAutoCommit hp
    . rw [if_neg Bool.false_ne_true, if_neg Bool.false_ne_true]
      cases p.outcome with
      | done => exact .some ⟨h, rfl⟩
      | fail => exact .some ⟨h, rfl⟩
      | rollback => exact .some ⟨h.abortTransaction, rfl⟩
      | abort => exact .some ⟨hstatement, rfl⟩
      | nomem => exact .some ⟨hstatement, rfl⟩
      | ioerr => exact .some ⟨hstatement, rfl⟩
      | interrupt => exact .some ⟨hstatement, rfl⟩

theorem halt_stays (hauto : s.autoCommit = false) (hp : p.outcome.Stays p.usesStmtJournal)
    : ∃ s', s.halt db p = some (s', false) ∧ Alike s s' := by
  have hstatement : Alike s (s.rollbackStatement p) := (Alike.rollbackStatement_self s p).symm
  unfold halt handleSpecialError
  rcases hp with hp | hp | hp | ⟨hp, hjournal⟩
  . simp [hp, hauto, Outcome.IsSpecialError, Alike.refl]
  . simp [hp, hauto, Outcome.IsSpecialError, Alike.refl]
  . simp [hp, hauto, Outcome.IsSpecialError, hstatement]
  . simp [hp, hauto, hjournal, Outcome.IsSpecialError, hstatement]

/--
What two actions may differ in: a ROLLBACK for a COMMIT, and whether a statement in a transaction fails.
-/
def Indistinct (s : Connection R) (a a' : Action R) : Prop :=
  match a with
  | .rollback => a' = .rollback ∨ a' = .commit .ok
  | .statement p =>
    match a' with
    | .statement p' =>
      p = p' ∨
      s.autoCommit = false ∧ p.ops = p'.ops ∧ p.outcome.Stays p.usesStmtJournal ∧
        p'.outcome.Stays p'.usesStmtJournal
    | _ => False
  | .load _ => False
  | _ => a' = a

theorem Alike.command (h : Alike s s') (outcome : Outcome) (result : CommitResult)
    : Option.Rel AlikeResults (s.halt db (.command R outcome result)) (s'.halt db (.command R outcome result)) :=
  h.halt ⟨rfl, rfl, rfl, rfl⟩

theorem Alike.failCommand (h : Alike s s') : Option.Rel Alike (s.failCommand db) (s'.failCommand db) :=
  rel_bind (h.command .abort .ok) fun _ _ _ h₁ => .some h₁.1

theorem Alike.endCommand (h : Alike s s') : Option.Rel Alike (s.endCommand db) (s'.endCommand db) :=
  rel_bind (h.command .done .ok) fun _ _ _ h₁ => .some h₁.1

theorem Alike.runStatement (h : Alike s s') (p : Statement R)
    : Option.Rel Alike (s.runStatement db p) (s'.runStatement db p) :=
  rel_bind (h.foldlM_exec p.ops) fun _ _ _ h₁ =>
    rel_bind (h₁.halt ⟨rfl, rfl, rfl, rfl⟩) fun _ _ _ h₂ => .some h₂.1

theorem Alike.runStatement_stays (h : Alike s s') (hauto : s.autoCommit = false) {p p' : Statement R}
    (hops : p.ops = p'.ops) (hp : p.outcome.Stays p.usesStmtJournal) (hp' : p'.outcome.Stays p'.usesStmtJournal)
    : Option.Rel Alike (s.runStatement db p) (s'.runStatement db p') := by
  unfold Connection.runStatement
  rw [← hops]
  refine rel_bind (h.foldlM_exec p.ops) ?_
  intro t t' hexec ht
  have ht₀ : t.autoCommit = false := by rw [(foldlM_exec_frame hexec).1, hauto]
  obtain ⟨u, hu, hlike⟩ := @halt_stays _ db t (s.vdbe p) ht₀ hp
  obtain ⟨u', hu', hlike'⟩ := @halt_stays _ db t' (s'.vdbe p') (ht.autoCommit ▸ ht₀) hp'
  rw [hu, hu']
  exact .some (hlike.symm.trans (ht.trans hlike'))

theorem halt_commit_ok {busy : Bool} (hauto : s.autoCommit = true)
    (h : s.halt db (.command R .done .ok) = some (s', busy))
    : busy = false := by
  have hdone : ¬Outcome.done.IsSpecialError := by decide
  have hcommits : Outcome.done.Commits := by decide
  simp only [halt, handleSpecialError, Vdbe.command, hdone, false_and, if_false, hauto, if_true, haltAutoCommit,
    hcommits, true_and, reduceCtorEq, and_true] at h
  obtain ⟨s₁, -, h⟩ := Option.bind_eq_some_iff.mp h
  obtain ⟨s₂, -, h⟩ := Option.bind_eq_some_iff.mp h
  cases h
  rfl

theorem Alike.rollback_commit (h : Alike s s')
    : Option.Rel Alike (s.rollbackTransaction db) (s'.commitTransaction db .ok) := by
  unfold rollbackTransaction commitTransaction
  rw [← h.autoCommit]
  split
  . exact h.failCommand
  . have hopen : Alike { s.rollbackAll with autoCommit := true } { s' with autoCommit := true } :=
      ((rollbackAll_self s).trans h).setAutoCommit true
    refine rel_bind (hopen.command .done .ok) ?_
    rintro ⟨t, busy⟩ ⟨t', busy'⟩ hhalt ⟨ht, hbusy⟩
    dsimp only at ht hbusy ⊢
    subst hbusy
    have hdone : busy = false := by
      have hauto : ({ s.rollbackAll with autoCommit := true } : Connection R).autoCommit = true := rfl
      exact halt_commit_ok hauto hhalt
    rw [hdone, if_neg Bool.false_ne_true]
    exact .some ht.closeSavepoints

theorem Alike.commitTransaction (h : Alike s s') (result : CommitResult)
    : Option.Rel Alike (s.commitTransaction db result) (s'.commitTransaction db result) := by
  unfold Connection.commitTransaction
  rw [← h.autoCommit]
  split
  . exact h.failCommand
  . refine rel_bind ((h.setAutoCommit true).command .done result) ?_
    rintro ⟨t, busy⟩ ⟨t', busy'⟩ - ⟨ht, hbusy⟩
    dsimp only at ht hbusy ⊢
    subst hbusy
    split
    . exact .some (ht.setAutoCommit false)
    . exact .some ht.closeSavepoints

theorem Alike.beginTransaction (h : Alike s s')
    : Option.Rel Alike (s.beginTransaction db) (s'.beginTransaction db) := by
  unfold Connection.beginTransaction
  rw [← h.autoCommit]
  split
  . exact rel_bind ((h.setAutoCommit false).command .done .ok) fun _ _ _ h₁ => .some h₁.1.closeSavepoints
  . exact h.failCommand

theorem Alike.rollbackTransaction (h : Alike s s')
    : Option.Rel Alike (s.rollbackTransaction db) (s'.rollbackTransaction db) := by
  unfold Connection.rollbackTransaction
  rw [← h.autoCommit]
  split
  . exact h.failCommand
  . exact rel_bind ((h.rollbackAll.setAutoCommit true).command .done .ok) fun _ _ _ h₁ =>
      .some h₁.1.closeSavepoints

theorem Alike.drop (h : Alike s s') (n : Nat) (pages pages' : Pages R)
    : Alike { s with pages := pages, savepoints := s.savepoints.drop n }
        { s' with pages := pages', savepoints := s'.savepoints.drop n } := by
  refine ⟨h.autoCommit, h.isTransactionSavepoint, ?_, h.memlog, h.tables, h.logged⟩
  dsimp only
  rw [List.map_drop, List.map_drop, h.names]

theorem Alike.releaseSavepoint (h : Alike s s') (name : List UInt8) (result : CommitResult)
    : Option.Rel Alike (s.releaseSavepoint db name result) (s'.releaseSavepoint db name result) := by
  unfold Connection.releaseSavepoint
  rw [← h.findSavepoint]
  cases s.findSavepoint name with
  | none => exact h.failCommand
  | some i =>
    have hiff : i + 1 = s.savepoints.length ∧ s.isTransactionSavepoint = true
        ↔ i + 1 = s'.savepoints.length ∧ s'.isTransactionSavepoint = true := by
      rw [h.length_savepoints, h.isTransactionSavepoint]
    dsimp only
    by_cases hlast : i + 1 = s.savepoints.length ∧ s.isTransactionSavepoint = true
    . rw [if_pos hlast, if_pos (hiff.mp hlast)]
      refine rel_bind ((h.setAutoCommit true).command .done result) ?_
      rintro ⟨t, busy⟩ ⟨t', busy'⟩ - ⟨ht, hbusy⟩
      dsimp only at ht hbusy ⊢
      subst hbusy
      split
      . exact .some (ht.setAutoCommit false)
      . exact .some ⟨ht.autoCommit, rfl, rfl, ht.memlog, ht.tables, ht.logged⟩
    . rw [if_neg hlast, if_neg (mt hiff.mpr hlast)]
      exact (h.drop (i + 1) s.pages s'.pages).endCommand

theorem Alike.rollbackToSavepoint (h : Alike s s') (name : List UInt8)
    : Option.Rel Alike (s.rollbackToSavepoint db name) (s'.rollbackToSavepoint db name) := by
  unfold Connection.rollbackToSavepoint
  rw [← h.findSavepoint]
  cases hfind : s.findSavepoint name with
  | none => exact h.failCommand
  | some i =>
    obtain ⟨hi, -⟩ := List.findIdx?_eq_some_iff_getElem.mp hfind
    have hi' : i < s'.savepoints.length := by rw [← h.length_savepoints]; exact hi
    simp only [List.getElem?_eq_getElem hi, List.getElem?_eq_getElem hi', Option.bind_eq_bind, Option.bind_some]
    exact (h.drop i _ _).endCommand

theorem Alike.openSavepoint (h : Alike s s') (name : List UInt8)
    : Option.Rel Alike (s.openSavepoint db name) (s'.openSavepoint db name) := by
  apply Alike.endCommand
  refine ⟨rfl, ?_, ?_, h.memlog, h.tables, h.logged⟩
  . dsimp only
    rw [h.autoCommit, h.isTransactionSavepoint]
  . dsimp only
    rw [List.map_cons, List.map_cons, h.names]

theorem Alike.step_indistinct (h : Alike s s') {a a' : Action R} (ha : s.Indistinct a a')
    : Option.Rel Alike (s.step db a) (s'.step db a') := by
  cases a with
  | statement p =>
    cases a' with
    | statement p' =>
      rcases ha with rfl | ⟨hauto, hops, hp, hp'⟩
      . exact h.runStatement p
      . exact h.runStatement_stays hauto hops hp hp'
    | begin => exact ha.elim
    | commit result => exact ha.elim
    | rollback => exact ha.elim
    | savepoint name => exact ha.elim
    | release name result => exact ha.elim
    | rollbackTo name => exact ha.elim
    | load rootPage => exact ha.elim
  | begin =>
    cases ha
    exact h.beginTransaction
  | commit result =>
    cases ha
    exact h.commitTransaction result
  | rollback =>
    rcases ha with rfl | rfl
    . exact h.rollbackTransaction
    . exact h.rollback_commit
  | savepoint name =>
    cases ha
    exact h.openSavepoint name
  | release name result =>
    cases ha
    exact h.releaseSavepoint name result
  | rollbackTo name =>
    cases ha
    exact h.rollbackToSavepoint name
  | load rootPage => exact ha.elim

def visible (s : Connection R) : HustleMemLog × Option (Map TablePtr DBTable) :=
  (s.memlog, s.tables)

variable (db)

/--
Two runs of a connection that differ in whether transactions are committed or rolled back and in which statements of
transactions fail leave the same memlog and the same tables behind.
-/
theorem visible_eq_of_indistinct (s : Connection R) (actions : List (Action R × Action R))
    (hactions : Run.Meets (fun s a => step db s a.1) (fun s a => s.Indistinct a.1 a.2) s actions)
    : ((actions.map Prod.fst).foldlM (step db) s).map visible
        =
      ((actions.map Prod.snd).foldlM (step db) s).map visible := by
  have hrun : ∀ t t' : Connection R, Alike t t' →
      Run.Meets (fun s a => step db s a.1) (fun s a => s.Indistinct a.1 a.2) t actions →
      Option.Rel Alike ((actions.map Prod.fst).foldlM (step db) t) ((actions.map Prod.snd).foldlM (step db) t') := by
    clear hactions
    induction actions with
    | nil => exact fun t t' h _ => .some h
    | cons a actions ih =>
      intro t t' h hactions
      rw [List.map_cons, List.map_cons, List.foldlM_cons, List.foldlM_cons]
      exact rel_bind (h.step_indistinct hactions.1) fun u u' hu h' => ih u u' h' (hactions.2 u hu)
  have hrel := hrun s s (.refl s) hactions
  generalize (actions.map Prod.fst).foldlM (step db) s = x at hrel ⊢
  generalize (actions.map Prod.snd).foldlM (step db) s = y at hrel ⊢
  cases hrel with
  | none => rfl
  | some h => rw [Option.map_some, Option.map_some, visible, visible, h.memlog, h.tables]

end

instance {R : Type} [DecidableEq R] (s : Connection R) (a a' : Action R) : Decidable (s.Indistinct a a') :=
  match a, a' with
  | .rollback, _ => inferInstanceAs (Decidable (_ ∨ _))
  | .statement _, .statement _ => inferInstanceAs (Decidable (_ ∨ _ ∧ _ ∧ _ ∧ _))
  | .statement _, .begin | .statement _, .commit _ | .statement _, .rollback | .statement _, .savepoint _
  | .statement _, .release _ _ | .statement _, .rollbackTo _ | .statement _, .load _ =>
    inferInstanceAs (Decidable False)
  | .load _, _ => inferInstanceAs (Decidable False)
  | .begin, _ | .commit _, _ | .savepoint _, _ | .release _ _, _ | .rollbackTo _, _ =>
    inferInstanceAs (Decidable (_ = _))

def countDatabase : Database (List UInt8) where
  bytes := id
  tableMap := AList.insert 0 (AList.insert 2 "counts" ∅) ∅
  catalog := AList.insert "counts" (some 7) ∅
  pick := fun _ => 0
  maxLeaf := 4061

theorem countFields_ne_nil : [FieldType.int64] ≠ [] := by
  simp

def countConnection : Connection (List UInt8) :=
  opened ⟨∅, 0, List.replicate 4 SList.Header.empty⟩ (fun _ => ∅)
    (AList.insert 7 (.new ⟨[.int64], countFields_ne_nil⟩ 100 false) ∅)

def insertCount (outcome : Outcome) : Action (List UInt8) :=
  .statement ⟨[.change 2 (.insert 1 [2, 1, 5])], false, true, outcome, .ok, by simp⟩

theorem visible_eq_of_indistinct_counts
    : ([.begin, insertCount .abort, .rollback].foldlM (step countDatabase) countConnection).map visible
        =
      ([.begin, insertCount .done, .commit .ok].foldlM (step countDatabase) countConnection).map visible :=
  visible_eq_of_indistinct countDatabase countConnection
    [(.begin, .begin), (insertCount .abort, insertCount .done), (.rollback, .commit .ok)] (by decide)

/--
The row that has been rolled back twice is in the table.
-/
example
    : ([.begin, insertCount .abort, .rollback].foldlM (step countDatabase) countConnection).bind (fun s =>
        s.tables.bind fun tables => (tables.lookup 7).map DBTable.numRows) = some 1 := by
  decide

end Connection

end Hustle.Memlog
