import Hustle.Memlog.Connection

/-!
This module contains what the programs of a connection do to the memlog and to the savepoints.
-/

namespace Hustle.Memlog

open Storage

def logRecords {R : Type} (db : Database R) (logged : Nat → List (RowChange R)) (root : Nat) : List DBRecord :=
  (logged root).map (RowChange.record db.bytes)

def changesAt {R : Type} (root : Nat) (ops : List (Opcode R)) : List (RowChange R) :=
  ops.filterMap fun
    | .change rootPage change => if rootPage = root then some change else none
    | .clear _ => none

namespace Connection

section

variable {R : Type} (db : Database R)

theorem logRow_eq {s : Connection R} (hlog : s.memlog.Holds (logRecords db s.logged)) (root : Nat)
    (change : RowChange R)
    : ∃ memlog,
        s.logRow db root change
          = some { s with
              memlog := memlog
              logged := Function.update s.logged root (s.logged root ++ [change]) } ∧
        memlog.Holds (logRecords db (Function.update s.logged root (s.logged root ++ [change]))) := by
  obtain ⟨memlog, hmemlog, hholds⟩ := hlog.insertRecord (change.record db.bytes) root
  refine ⟨memlog, by simp [logRow, hmemlog], ?_⟩
  have hrecords : logRecords db (Function.update s.logged root (s.logged root ++ [change]))
      = Function.update (logRecords db s.logged) root (logRecords db s.logged root ++ [change.record db.bytes]) := by
    funext other
    by_cases hother : other = root
    . subst hother
      simp [logRecords]
    . simp [logRecords, hother]
  rw [hrecords]
  exact hholds

/--
A change is written to the B-tree and to the memlog.
-/
theorem foldlM_exec {s : Connection R} (hlog : s.memlog.Holds (logRecords db s.logged)) (ops : List (Opcode R))
    : ∃ pages memlog,
        ops.foldlM (exec db) s
          = some { s with
              pages := pages
              memlog := memlog
              logged := fun root => s.logged root ++ changesAt root ops } ∧
        memlog.Holds (logRecords db fun root => s.logged root ++ changesAt root ops) ∧
        ∀ root, .clear root ∉ ops → pages root = (changesAt root ops).foldl RowChange.apply (s.pages root) := by
  induction ops generalizing s with
  | nil => exact ⟨s.pages, s.memlog, by simp [changesAt], by simpa [changesAt] using hlog, fun root _ => rfl⟩
  | cons op ops ih =>
    cases op with
    | clear rootPage =>
      obtain ⟨pages, memlog, heq, hholds, hpages⟩ := @ih (s.setPage rootPage ∅) hlog
      refine ⟨pages, memlog, heq, hholds, ?_⟩
      intro root hroot
      rw [List.mem_cons, not_or] at hroot
      have hne : root ≠ rootPage := by
        rintro rfl
        exact hroot.1 rfl
      have hold : (s.setPage rootPage ∅).pages root = s.pages root := Function.update_of_ne hne _ _
      rw [hpages root hroot.2, hold]
      rfl
    | change rootPage change =>
      have hlog₀ : (s.setPage rootPage (change.apply (s.pages rootPage))).memlog.Holds (logRecords db s.logged) := hlog
      obtain ⟨memlog₁, hexec, hlog₁⟩ := logRow_eq db hlog₀ rootPage change
      obtain ⟨pages, memlog, heq, hholds, hpages⟩ := @ih { s.setPage rootPage (change.apply (s.pages rootPage)) with
        memlog := memlog₁
        logged := Function.update s.logged rootPage (s.logged rootPage ++ [change]) } hlog₁
      have hlogged : (fun root => Function.update s.logged rootPage (s.logged rootPage ++ [change]) root ++
            changesAt root ops)
          = fun root => s.logged root ++ changesAt root (.change rootPage change :: ops) := by
        funext root
        by_cases hroot : root = rootPage
        . subst hroot
          simp [changesAt]
        . simp [changesAt, hroot, Ne.symm hroot]
      refine ⟨pages, memlog, ?_, ?_, ?_⟩
      . rw [List.foldlM_cons, exec, hexec, ← hlogged]
        exact heq
      . rw [← hlogged]
        exact hholds
      . intro root hroot
        rw [List.mem_cons, not_or] at hroot
        rw [hpages root hroot.2]
        by_cases hne : root = rootPage
        . subst hne
          simp [setPage, changesAt]
        . simp [setPage, changesAt, hne, Ne.symm hne]

theorem clear_eq {s : Connection R} {pending : Nat → List DBRecord} (hlog : s.memlog.Holds pending)
    : ∃ memlog, s.clear = some { s with memlog := memlog, logged := fun _ => [] } ∧
        memlog.Holds (logRecords db fun _ => []) := by
  obtain ⟨memlog, heq, hholds⟩ := hlog.clear
  exact ⟨memlog, by simp [clear, heq], hholds⟩

/--
The assertion of `OP_Savepoint`: there are no savepoints without a transaction.
-/
def Balanced (s : Connection R) : Prop :=
  s.savepoints ≠ [] → s.autoCommit = false

variable {db} {s s' : Connection R}

theorem updateDb_frame (h : s.updateDb db = some s')
    : s'.autoCommit = s.autoCommit ∧ s'.savepoints = s.savepoints := by
  unfold updateDb at h
  obtain ⟨⟨memlog, tables⟩, -, h⟩ := Option.bind_eq_some_iff.mp h
  cases h
  exact ⟨rfl, rfl⟩

theorem clear_frame (h : s.clear = some s') : s'.autoCommit = s.autoCommit ∧ s'.savepoints = s.savepoints := by
  unfold clear at h
  obtain ⟨memlog, -, h⟩ := Option.bind_eq_some_iff.mp h
  cases h
  exact ⟨rfl, rfl⟩

theorem foldlM_exec_frame {ops : List (Opcode R)} (h : ops.foldlM (exec db) s = some s')
    : s'.autoCommit = s.autoCommit ∧ s'.savepoints = s.savepoints := by
  induction ops generalizing s with
  | nil =>
    cases h
    exact ⟨rfl, rfl⟩
  | cons op ops ih =>
    rw [List.foldlM_cons] at h
    obtain ⟨s₁, hs₁, h⟩ := Option.bind_eq_some_iff.mp h
    have hfirst : s₁.autoCommit = s.autoCommit ∧ s₁.savepoints = s.savepoints := by
      cases op with
      | clear rootPage =>
        cases hs₁
        exact ⟨rfl, rfl⟩
      | change rootPage change =>
        unfold exec logRow at hs₁
        obtain ⟨memlog, -, hs₁⟩ := Option.bind_eq_some_iff.mp hs₁
        cases hs₁
        exact ⟨rfl, rfl⟩
    rw [← hfirst.1, ← hfirst.2]
    exact ih h

theorem haltAutoCommit_frame {p : Vdbe R} {busy : Bool} (h : s.haltAutoCommit db p = some (s', busy))
    : s'.autoCommit = s.autoCommit ∧ (s.savepoints = [] → s'.savepoints = []) := by
  unfold haltAutoCommit at h
  split at h
  . cases h
    exact ⟨rfl, id⟩
  . split at h
    . obtain ⟨s₁, hs₁, h⟩ := Option.bind_eq_some_iff.mp h
      obtain ⟨s₂, hs₂, h⟩ := Option.bind_eq_some_iff.mp h
      cases h
      obtain ⟨hauto₁, hsave₁⟩ := updateDb_frame hs₁
      obtain ⟨hauto₂, hsave₂⟩ := clear_frame hs₂
      rw [hauto₂, hsave₂, hauto₁, hsave₁]
      exact ⟨rfl, id⟩
    . obtain ⟨s₁, hs₁, h⟩ := Option.bind_eq_some_iff.mp h
      cases h
      obtain ⟨hauto₁, hsave₁⟩ := clear_frame hs₁
      rw [hauto₁, hsave₁]
      exact ⟨rfl, fun hnil => by simp [rollbackAll, hnil]⟩

theorem halt_balanced {p : Vdbe R} {busy : Bool} (hs : s.Balanced) (h : s.halt db p = some (s', busy))
    : s'.Balanced := by
  have haborted : s.abortTransaction.savepoints = [] := rfl
  have hstatement : (s.rollbackStatement p).Balanced := by
    unfold rollbackStatement
    split <;> exact hs
  -- In autocommit mode there are no savepoints before the program ends and none afterwards.
  have hcommit : ∀ s₁ : Connection R, s₁.savepoints = [] → s₁.haltAutoCommit db p = some (s', busy) →
      s'.Balanced := by
    intro s₁ hnil hhalt hne
    exact absurd ((haltAutoCommit_frame hhalt).2 hnil) hne
  have hnil : s.autoCommit = true → s.savepoints = [] := by
    intro hauto
    by_contra hne
    have := hs hne
    simp [hauto] at this
  unfold halt handleSpecialError at h
  split at h
  next s₁ rollsBack hs₁ =>
    split at hs₁
    . split at hs₁
      . cases hs₁
        split at h
        . next ha => exact hcommit s (hnil ha) h
        . rw [if_pos rfl] at h
          cases h
          exact hstatement
      . cases hs₁
        have ha : s.abortTransaction.autoCommit = true := rfl
        rw [if_pos ha] at h
        exact hcommit _ haborted h
    . cases hs₁
      split at h
      . next ha => exact hcommit s (hnil ha) h
      . rw [if_neg Bool.false_ne_true] at h
        split at h
        all_goals cases h
        . exact hs
        . exact hs
        . exact fun hne => absurd haborted hne
        . exact hstatement
        . exact hstatement
        . exact hstatement
        . exact hstatement

/--
There are no savepoints without a transaction in any run.
-/
theorem step_balanced {a : Action R} (hs : s.Balanced) (h : s.step db a = some s')
    (hload : ∀ rootPage, a ≠ .load rootPage)
    : s'.Balanced := by
  have hfail : s.failCommand db = some s' → s'.Balanced := by
    intro h
    obtain ⟨⟨s₁, busy⟩, hhalt, h⟩ := Option.bind_eq_some_iff.mp h
    cases h
    exact halt_balanced hs hhalt
  have hend : ∀ s₁ : Connection R, s₁.Balanced → s₁.endCommand db = some s' → s'.Balanced := by
    intro s₁ hs₁ h
    obtain ⟨⟨s₂, busy⟩, hhalt, h⟩ := Option.bind_eq_some_iff.mp h
    cases h
    exact halt_balanced hs₁ hhalt
  have hclosed : ∀ s₁ : Connection R, s₁.closeSavepoints.Balanced := fun s₁ hne => absurd rfl hne
  cases a with
  | statement p =>
    obtain ⟨s₁, hexec, h⟩ := Option.bind_eq_some_iff.mp h
    obtain ⟨⟨s₂, busy⟩, hhalt, h⟩ := Option.bind_eq_some_iff.mp h
    cases h
    obtain ⟨hauto, hsave⟩ := foldlM_exec_frame hexec
    apply halt_balanced _ hhalt
    unfold Balanced
    rw [hauto, hsave]
    exact hs
  | begin =>
    unfold step beginTransaction at h
    dsimp only at h
    split at h
    . obtain ⟨⟨s₁, busy⟩, -, h⟩ := Option.bind_eq_some_iff.mp h
      cases h
      exact hclosed s₁
    . exact hfail h
  | commit result =>
    unfold step commitTransaction at h
    dsimp only at h
    split at h
    . exact hfail h
    . obtain ⟨⟨s₁, busy⟩, -, h⟩ := Option.bind_eq_some_iff.mp h
      dsimp only at h
      split at h
      . cases h
        exact fun _ => rfl
      . cases h
        exact hclosed s₁
  | rollback =>
    unfold step rollbackTransaction at h
    dsimp only at h
    split at h
    . exact hfail h
    . obtain ⟨⟨s₁, busy⟩, -, h⟩ := Option.bind_eq_some_iff.mp h
      cases h
      exact hclosed s₁
  | savepoint name => exact hend _ (fun _ => rfl) h
  | release name result =>
    unfold step releaseSavepoint at h
    dsimp only at h
    split at h
    . exact hfail h
    . next i hfind =>
      have hne : s.savepoints ≠ [] := by
        intro hnil
        simp [findSavepoint, hnil] at hfind
      split at h
      . obtain ⟨⟨s₁, busy⟩, -, h⟩ := Option.bind_eq_some_iff.mp h
        dsimp only at h
        split at h
        . cases h
          exact fun _ => rfl
        . cases h
          exact fun hne => absurd rfl hne
      . exact hend { s with savepoints := s.savepoints.drop (i + 1) } (fun _ => hs hne) h
  | rollbackTo name =>
    unfold step rollbackToSavepoint at h
    dsimp only at h
    split at h
    . exact hfail h
    . next i hfind =>
      obtain ⟨savepoint, hsavepoint, h⟩ := Option.bind_eq_some_iff.mp h
      have hne : s.savepoints ≠ [] := by
        intro hnil
        simp [hnil] at hsavepoint
      exact hend { s with pages := savepoint.pages, savepoints := s.savepoints.drop i } (fun _ => hs hne) h
  | load rootPage => exact absurd rfl (hload rootPage)

end

end Connection

end Hustle.Memlog
