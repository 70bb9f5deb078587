import Hustle.Scheduler.Plans

/-!
This module contains the tasks that block a worker until tasks they spawned have run. The scheduler comes
to no stop as long as such a task is never handed to the last worker that has none.
-/

namespace Hustle.Scheduler

namespace State

/--
The worker has a task that may wait in `apply_indices`, or is about to receive one.
-/
def Occupied (s : State) (w : Nat) : Prop :=
  (∃ task ∈ s.inbox w, task.task = .lambda true) ∨
  ∃ ctx code, s.running w = some (ctx, code) ∧ ctx.task = .lambda true

/--
Every worker waits for a lock in `apply_indices`. The tasks that would release the locks get no worker.
-/
def Stuck (s : State) : Prop :=
  ∀ w < s.numWorkers, ∃ ctx lock, s.running w = some (ctx, .wait lock) ∧ s.released lock = false

end State

open State

/--
When the scheduler hands a task that may wait to a worker, another worker has no such task.
-/
def Spares (s : State) : Action → Prop
  | .schedule => ∀ w workers task tasks, s.loop = .processTaskQueue →
    s.availableWorkers = w :: workers → s.taskQueue = task :: tasks → task.task = .lambda true →
    ∃ v < s.numWorkers, v ≠ w ∧ ¬ s.Occupied v
  | _ => True

/--
Only a task that may wait does.
-/
def State.OnlyWaiting (s : State) : Prop :=
  ∀ w ctx lock, s.running w = some (ctx, .wait lock) → ctx.task = .lambda true

/--
No worker has got a task that may wait, except those of which `except` is true.
-/
structure Calm (except : Nat → Prop) (s s' : State) : Prop where
  numWorkers_eq : s'.numWorkers = s.numWorkers
  occupied : ∀ v, ¬except v → s'.Occupied v → s.Occupied v
  wait : s.OnlyWaiting → s'.OnlyWaiting

variable {s s' : State}

namespace Calm

variable {except : Nat → Prop}

theorem of_same (hnum : s'.numWorkers = s.numWorkers) (hinbox : s'.inbox = s.inbox) (hrunning : s'.running = s.running)
    : Calm except s s' where
  numWorkers_eq := hnum
  occupied v _ h := by rwa [Occupied, hinbox, hrunning] at h
  wait h := by
    unfold OnlyWaiting
    rw [hrunning]
    exact h

theorem of_code {w : Nat} {ctx : ScheduledTask} {code code' : Code} (hw : s.running w = some (ctx, code))
    (hnum : s'.numWorkers = s.numWorkers) (hinbox : s'.inbox = s.inbox)
    (hrunning : s'.running = Function.update s.running w (some (ctx, code')))
    (hcode : ∀ lock, code' = .wait lock → ctx.task = .lambda true)
    : Calm except s s' where
  numWorkers_eq := hnum
  occupied v _ h := by
    rw [Occupied, hinbox, hrunning] at h
    obtain hin | ⟨ctx', code'', hr, htask⟩ := h
    . exact .inl hin
    . rw [Function.update_apply] at hr
      split at hr
      . next heq =>
        subst heq
        cases hr
        exact .inr ⟨ctx, code, hw, htask⟩
      . exact .inr ⟨ctx', code'', hr, htask⟩
  wait h v ctx' lock hr := by
    rw [hrunning, Function.update_apply] at hr
    split at hr
    . cases hr
      exact hcode lock rfl
    . exact h v ctx' lock hr

theorem dispatch {w : Nat} {workers : List Nat} {task : ScheduledTask} {tasks : List ScheduledTask}
    : Calm (fun v => v = w ∧ task.task = .lambda true) s ({ s with
        availableWorkers := workers
        taskQueue := tasks
        inbox := Function.update s.inbox w (s.inbox w ++ [task]) }.setPlace task.id (.sent w)) where
  numWorkers_eq := rfl
  occupied v hv h := by
    simp only [Occupied, setPlace, Function.update_apply] at h ⊢
    grind
  wait h := h

theorem start {w : Nat} {task : ScheduledTask} {tasks : List ScheduledTask} (hinbox : s.inbox w = task :: tasks)
    : Calm except s (({ s with
        inbox := Function.update s.inbox w tasks
        running := Function.update s.running w (some (task, .start task))
        named := task.continuation :: s.named }.setPlace task.id (.running w)).recordStarted task) where
  numWorkers_eq := rfl
  occupied v _ h := by
    simp only [Occupied, setPlace, recordStarted, Function.update_apply] at h ⊢
    grind
  wait h v ctx lock hr := by
    simp only [setPlace, recordStarted, Function.update_apply] at hr
    split at hr
    . simp only [Option.some.injEq, Prod.mk.injEq] at hr
      have := hr.2
      cases htask : task.task <;> simp [Code.start, htask] at this
    . exact h v ctx lock hr

theorem finish {w : Nat} {task : ScheduledTask}
    : Calm except s (({ s with
        running := Function.update s.running w none
        messages := s.messages ++ [Message.taskCompletion w task.id] }.setPlace
          task.id (.completed w)).recordFinished task.id) where
  numWorkers_eq := rfl
  occupied v _ h := by
    simp only [Occupied, setPlace, recordFinished, Function.update_apply] at h ⊢
    grind
  wait h v ctx lock hr := by
    simp only [setPlace, recordFinished, Function.update_apply] at hr
    split at hr
    . cases hr
    . exact h v ctx lock hr

theorem recordReturn (h : Calm except s s') (thread : Thread) (id : Nat) : Calm except s (s'.recordReturn thread id) := by
  cases thread with
  | worker w => exact h
  | client k =>
    simp only [State.recordReturn]
    split
    . exact h
    . exact ⟨h.numWorkers_eq, h.occupied, h.wait⟩

theorem quiet (hstep : Quiet s s') : Calm except s s' := by
  cases hstep with
  | callNotify =>
    apply recordReturn
    exact of_same rfl rfl rfl
  | _ => exact of_same rfl rfl rfl

theorem code {w : Nat} {ctx : ScheduledTask} {code : Code} (hrunning : s.running w = some (ctx, code))
    (hstep : CodeStep s w ctx code s')
    : Calm except s s' := by
  cases hstep with
  | planLinkExit =>
    obtain ⟨graph, links, heq⟩ := addLinkUnsafe_eq s _ _
    rw [heq]
    exact of_code hrunning rfl rfl rfl (by simp)
  | planLinks =>
    obtain ⟨graph, links, heq⟩ := addLinkUnsafe_eq s _ _
    rw [heq]
    exact of_code hrunning rfl rfl rfl (by simp)
  | planFire =>
    obtain ⟨graph, lock, fired, fault, heq⟩ := processDependents_eq (s.setCode w ctx .firing) (.worker w) _
    rw [heq]
    exact of_code hrunning rfl rfl rfl (by simp)
  | _ => exact of_code hrunning rfl rfl rfl (by simp)

theorem call {w : Nat} {ctx : ScheduledTask} {code : Code} {a : Action} (hrunning : s.running w = some (ctx, code))
    (hstep : CallStep s w ctx code a s')
    : Calm except s s' := by
  cases hstep with
  | addTask => exact of_same rfl rfl rfl
  | spawnTask => exact of_same rfl rfl rfl
  | addTaskAfter => exact of_same rfl rfl rfl
  | applyIndices htask => exact of_code hrunning rfl rfl rfl (fun _ _ => htask)
  | _ => exact of_code hrunning rfl rfl rfl (by simp)

end Calm

/--
The scheduler hands a task that may wait to the worker.
-/
def Hands (s : State) (a : Action) (w : Nat) : Prop :=
  a = .schedule ∧ s.loop = .processTaskQueue ∧ ∃ workers task tasks, s.availableWorkers = w :: workers ∧
    s.taskQueue = task :: tasks ∧ task.task = .lambda true

theorem step_calm {a : Action} (hstep : step s a = some s') : Calm (Hands s a) s s' := by
  cases step_cases hstep with
  | quiet hquiet => exact .quiet hquiet
  | @dispatch w workers task tasks hloop hworkers hqueue =>
    refine ⟨rfl, fun v hv => Calm.dispatch.occupied v ?_, fun h => h⟩
    rintro ⟨rfl, htask⟩
    exact hv ⟨rfl, hloop, workers, task, tasks, hworkers, hqueue, htask⟩
  | @complete id w =>
    obtain ⟨graph, lock, fired, fault, heq⟩ :=
      processDependents_eq { s with loop := .processDependents id w } .scheduler (.task id)
    rw [heq]
    exact .of_same rfl rfl rfl
  | @visit _ m rest frames dependent =>
    obtain ⟨graph, fired, fault, heq⟩ | ⟨graph, id, task, -, -, heq⟩ :=
      visitDependent_eq s m rest frames dependent
    . rw [heq]
      exact .of_same rfl rfl rfl
    . rw [heq]
      exact .of_same rfl rfl rfl
  | unlockWorker _ _ _ hrunning => exact .of_code hrunning rfl rfl rfl (by simp)
  | @callLink _ task dependency =>
    obtain ⟨graph, links, heq⟩ := linkTask_eq s task dependency
    rw [heq]
    exact .of_same rfl rfl rfl
  | callStore =>
    apply Calm.recordReturn
    exact .of_same rfl rfl rfl
  | start _ hinbox => exact .start hinbox
  | finish => exact .finish
  | code hrunning _ hcode => exact .code hrunning hcode
  | call hrunning _ hcode => exact .call hrunning hcode
  | _ => exact .of_same rfl rfl rfl

structure Spared (s : State) : Prop where
  free : ∃ v < s.numWorkers, ¬ s.Occupied v
  wait : s.OnlyWaiting

namespace Spared

theorem init {n : Nat} (hn : 0 < n) : Spared (State.init n) where
  free := ⟨0, hn, by simp [Occupied, State.init]⟩
  wait := by simp [OnlyWaiting, State.init]

theorem not_stuck (h : Spared s) : ¬ s.Stuck := by
  intro hstuck
  obtain ⟨v, hv, hfree⟩ := h.free
  obtain ⟨ctx, lock, hr, -⟩ := hstuck v hv
  exact hfree (.inr ⟨ctx, _, hr, h.wait v ctx lock hr⟩)

theorem step {a : Action} (h : Spared s) (hspares : Spares s a) (hstep : Hustle.Scheduler.step s a = some s')
    : Spared s' := by
  have hcalm := step_calm hstep
  refine ⟨?_, hcalm.wait h.wait⟩
  rw [hcalm.numWorkers_eq]
  obtain ⟨v, hv, hands, hfree⟩ : ∃ v < s.numWorkers, ¬Hands s a v ∧ ¬ s.Occupied v := by
    by_cases hw : ∃ w, Hands s a w
    . obtain ⟨w, rfl, hloop, workers, task, tasks, hworkers, hqueue, htask⟩ := hw
      obtain ⟨v, hv, hne, hfree⟩ := hspares w workers task tasks hloop hworkers hqueue htask
      refine ⟨v, hv, ?_, hfree⟩
      rintro ⟨-, -, workers', _, _, hworkers', -⟩
      cases hworkers.symm.trans hworkers'
      exact hne rfl
    . obtain ⟨v, hv, hfree⟩ := h.free
      exact ⟨v, hv, fun hands => hw ⟨v, hands⟩, hfree⟩
  exact ⟨v, hv, fun hoccupied => hfree (hcalm.occupied v hands hoccupied)⟩

theorem run {n : Nat} {actions : List Action} (hn : 0 < n)
    (hspares : Run.Meets Hustle.Scheduler.step Spares (State.init n) actions)
    (hrun : actions.foldlM Hustle.Scheduler.step (State.init n) = some s)
    : Spared s :=
  hspares.invariant (fun _ _ _ h hok hstep => h.step hok hstep) (init hn) hrun

end Spared

/-! Few tasks that may wait. -/

def Task.materializes : Task → Bool
  | .lambda materializes => materializes
  | .release _ | .chain _ | .plan _ _ => false

/--
The step hands a task that may wait to a worker.
-/
def State.handsWaiting (s : State) : Action → Bool
  | .schedule =>
    match s.loop, s.availableWorkers, s.taskQueue with
    | .processTaskQueue, _ :: _, task :: _ => task.task.materializes
    | _, _, _ => false
  | _ => false

def numHanded (s : State) : List Action → Nat
  | [] => 0
  | a :: actions =>
    match step s a with
    | some s' => (s.handsWaiting a).toNat + numHanded s' actions
    | none => (s.handsWaiting a).toNat

theorem Hands.handsWaiting {a : Action} {w : Nat} (h : Hands s a w) : s.handsWaiting a = true := by
  obtain ⟨rfl, hloop, workers, task, tasks, hworkers, hqueue, htask⟩ := h
  rw [State.handsWaiting, hloop, hworkers, hqueue]
  simp only [htask, Task.materializes]

theorem Hands.unique {a : Action} {w w' : Nat} (h : Hands s a w) (h' : Hands s a w') : w = w' := by
  obtain ⟨-, -, workers, _, _, hworkers, -⟩ := h
  obtain ⟨-, -, workers', _, _, hworkers', -⟩ := h'
  cases hworkers.symm.trans hworkers'
  rfl

/--
As long as there are more workers than tasks that may wait, there is one left for every such task. `occupied` are the
workers that may have such a task.
-/
theorem meets_spares_of_numHanded {actions : List Action} {occupied : Finset Nat}
    (hoccupied : ∀ v, s.Occupied v → v ∈ occupied) (hfew : occupied.card + numHanded s actions < s.numWorkers)
    : Run.Meets step Spares s actions := by
  induction actions generalizing s occupied with
  | nil => trivial
  | cons a actions ih =>
    have hcount : (s.handsWaiting a).toNat ≤ numHanded s (a :: actions) := by
      rw [numHanded]
      split <;> omega
    constructor
    . cases a with
      | schedule =>
        intro w workers task tasks hloop hworkers hqueue htask
        have hands : Hands s .schedule w := ⟨rfl, hloop, workers, task, tasks, hworkers, hqueue, htask⟩
        rw [hands.handsWaiting, Bool.toNat_true] at hcount
        have hcard : (insert w occupied).card < (Finset.range s.numWorkers).card := by
          have := Finset.card_insert_le w occupied
          rw [Finset.card_range]
          omega
        obtain ⟨v, hv, hnot⟩ := Finset.exists_mem_notMem_of_card_lt_card hcard
        rw [Finset.mem_insert, not_or] at hnot
        exact ⟨v, Finset.mem_range.mp hv, hnot.1, fun h => hnot.2 (hoccupied v h)⟩
      | _ => trivial
    . intro s' hs'
      have hcalm := step_calm hs'
      rw [numHanded, hs'] at hfew
      dsimp only at hfew
      by_cases hw : ∃ w, Hands s a w
      . obtain ⟨w, hands⟩ := hw
        rw [hands.handsWaiting, Bool.toNat_true] at hfew
        have hcard := Finset.card_insert_le w occupied
        apply @ih s' (insert w occupied)
        . intro v hv
          by_cases hne : v = w
          . exact hne ▸ Finset.mem_insert_self w occupied
          . exact Finset.mem_insert_of_mem (hoccupied v (hcalm.occupied v (fun h => hne (h.unique hands)) hv))
        . rw [hcalm.numWorkers_eq]
          omega
      . apply @ih s' occupied
        . exact fun v hv => hoccupied v (hcalm.occupied v (fun h => hw ⟨v, h⟩) hv)
        . rw [hcalm.numWorkers_eq]
          omega

theorem not_stuck_of_few {n : Nat} {actions : List Action} (hfew : numHanded (State.init n) actions < n)
    (hrun : actions.foldlM step (State.init n) = some s)
    : ¬ s.Stuck := by
  have hspares : Run.Meets step Spares (State.init n) actions :=
    @meets_spares_of_numHanded _ _ ∅ (by simp [Occupied, State.init]) (by simpa [State.init] using hfew)
  exact (Spared.run (Nat.lt_of_le_of_lt (Nat.zero_le _) hfew) hspares hrun).not_stuck

/--
In every run in which a task that may wait is never handed to the last worker that has none, the workers
do not come to a stop.
-/
theorem not_stuck_of_spares {n : Nat} {actions : List Action} (hn : 0 < n)
    (hspares : Run.Meets step Spares (State.init n) actions)
    (hrun : actions.foldlM step (State.init n) = some s)
    : ¬ s.Stuck :=
  (Spared.run hn hspares hrun).not_stuck

def sparedRun : List Action :=
  [.request 0 (.addTask (.lambda true)), .call (.client 0), .call (.client 0), .call (.client 0),
    .schedule, .start 1, .functor 1 .applyIndices, .call (.worker 1), .call (.worker 1),
    .call (.worker 1)]

theorem meets_sparedRun : Run.Meets step Spares (State.init 2) sparedRun := by
  iterate 10
    refine ⟨?_, fun s hs => ?_⟩
    rotate_left
    obtain rfl := Option.some.inj hs
    clear hs
  . trivial
  all_goals first | trivial | skip
  intro w workers task tasks _ hworkers _ _
  cases hworkers
  refine ⟨0, by decide, by decide, ?_⟩
  rintro (⟨task, htask, -⟩ | ⟨ctx, code, hr, -⟩)
  . cases htask
  . cases hr

theorem not_stuck_sparedRun
    : ∃ s, sparedRun.foldlM step (State.init 2) = some s ∧ (s.running 1).isSome ∧ ¬ s.Stuck := by
  have hrun : (sparedRun.foldlM step (State.init 2)).map (fun s => (s.running 1).isSome) = some true := by
    decide +kernel
  obtain ⟨s, hs, hrunning⟩ := Option.map_eq_some_iff.mp hrun
  exact ⟨s, hs, hrunning, not_stuck_of_spares (by decide) meets_sparedRun hs⟩

def stuckRun : List Action :=
  [.request 0 (.addTask (ExecutionPlan.empty.addOperator true).task), .call (.client 0),
    .call (.client 0), .call (.client 0), .schedule, .start 0, .code 0, .code 0, .call (.worker 0),
    .call (.worker 0), .code 0, .code 0, .code 0, .call (.worker 0), .call (.worker 0), .code 0,
    .cascade (.task 2), .cascade kInvalidNodeID, .cascade kInvalidNodeID, .cascade kInvalidNodeID,
    .unlock, .finish 0, .schedule, .schedule, .schedule, .schedule, .schedule, .schedule,
    .schedule, .schedule, .schedule, .schedule, .unlock, .schedule, .start 0,
    .functor 0 .applyIndices, .call (.worker 0), .call (.worker 0), .call (.worker 0)]

def Code.lock? : Code → Option Nat
  | .wait lock => some lock
  | _ => none

theorem stuck_stuckRun
    : ∃ s, stuckRun.foldlM step (State.init 1) = some s ∧ s.taskQueue.map (·.id) = [4] ∧ s.Stuck := by
  have hrun : (stuckRun.foldlM step (State.init 1)).map (fun s =>
      (s.numWorkers, (s.running 0).bind (·.2.lock?), s.released 0, s.taskQueue.map (·.id)))
      = some (1, some 0, false, [4]) := by decide +kernel
  obtain ⟨s, hs, hsummary⟩ := Option.map_eq_some_iff.mp hrun
  simp only [Prod.mk.injEq] at hsummary
  obtain ⟨hnum, hlock, hreleased, hqueue⟩ := hsummary
  refine ⟨s, hs, hqueue, ?_⟩
  intro w hw
  have : w = 0 := by omega
  subst this
  obtain ⟨⟨ctx, code⟩, hr, hcode⟩ := Option.bind_eq_some_iff.mp hlock
  cases code with
  | wait lock =>
    cases hcode
    exact ⟨ctx, 0, hr, hreleased⟩
  | _ => cases hcode

end Hustle.Scheduler
