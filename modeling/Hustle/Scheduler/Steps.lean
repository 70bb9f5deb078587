import Hustle.Scheduler.Basic

/-!
This module lists what a step of the scheduler can do. The proofs about runs use this list instead of the
functions of the model.
-/

namespace Hustle.Scheduler

open State

/--
The steps that only move the thread of the scheduler, a flag or a message that carries no task.
-/
inductive Quiet (s : State) : State → Prop where
  | join
    : Quiet s { s with messages := s.messages ++ [.join], history := { s.history with joined := true } }
  | check (hloop : s.loop = .processTaskQueue)
    : Quiet s { s with loop := .check }
  | exit (hloop : s.loop = .check) (hhalt : s.halt = true)
      (havailable : s.availableWorkers.length = s.numWorkers) (hqueue : s.taskQueue = [])
    : Quiet s { s with loop := .exited }
  | popOne (hloop : s.loop = .check)
    : Quiet s { s with loop := .popOne }
  | popJoin {messages} (hloop : s.loop = .popOne) (hmessages : s.messages = .join :: messages)
    : Quiet s { s with messages := messages, halt := true, loop := .processTaskQueue }
  | popNewTask {messages} (hloop : s.loop = .popOne) (hmessages : s.messages = .newTask :: messages)
    : Quiet s { s with messages := messages, loop := .processTaskQueue }
  | emitNotify (hemit : s.emit = some .notify) (hlock : s.lock ≠ none)
    : Quiet s { s with messages := s.messages ++ [.newTask], emit := none }
  | callNotify {thread id} (hcall : s.calls thread = some (.notify id))
    : Quiet s ({ s with
        messages := s.messages ++ [Message.newTask]
        calls := Function.update s.calls thread none }.recordReturn thread id)
  | allocateContinuation
    : Quiet s { s.allocateContinuation none with named := s.nextContinuation :: s.named }

/--
The steps of the code of a running task that do not call `addTask`.
-/
inductive CodeStep (s : State) (w : Nat) (ctx : ScheduledTask) : Code → State → Prop where
  | wait {lock} (hreleased : s.released lock = true)
    : CodeStep s w ctx (.wait lock) (s.setCode w ctx .lambda)
  | release {lock}
    : CodeStep s w ctx (.release lock)
        ({ s with released := Function.update s.released lock true }.setCode w ctx .finished)
  | plan {operators dependents}
    : CodeStep s w ctx (.plan operators dependents)
        (((s.allocateContinuation (some ctx.id)).allocateContinuation (some ctx.id)).setCode w ctx
          (.planOperators {
            dependents := dependents
            cEnter := s.nextContinuation
            cExit := (s.allocateContinuation (some ctx.id)).nextContinuation
            position := 0
            taskIds := fun _ => kInvalidNodeID
            cOperators := fun _ => kInvalidNodeID } operators))
  | planOperators {locals}
    : CodeStep s w ctx (.planOperators locals [])
        (s.setCode w ctx (.planLinks locals locals.dependents))
  | planLinkExit {locals rest opCont} (hlock : s.lock = none)
    : CodeStep s w ctx (.planLinkExit locals rest opCont)
        ((s.addLinkUnsafe opCont locals.cExit).setCode w ctx (.planOperators locals rest))
  | planLinks {locals producer consumer rest} (hlock : s.lock = none)
    : CodeStep s w ctx (.planLinks locals ((producer, consumer) :: rest))
        ((s.addLinkUnsafe (locals.cOperators producer) (locals.taskIds consumer)).setCode
          w ctx (.planLinks locals rest))
  | planFire {cEnter} (hlock : s.lock = none)
    : CodeStep s w ctx (.planFire cEnter)
        ((s.setCode w ctx .firing).processDependents (.worker w) cEnter)

/--
The calls of `addTask` that a running task makes.
-/
inductive CallStep (s : State) (w : Nat) (ctx : ScheduledTask) : Code → Action → State → Prop where
  | addTask {task}
    : CallStep s w ctx .lambda (.functor w (.addTask task))
        (s.addTask (.worker w) task kInvalidNodeID kInvalidNodeID (.running ctx.id))
  | spawnTask {task}
    : CallStep s w ctx .lambda (.functor w (.spawnTask task))
        (s.addTask (.worker w) task kInvalidNodeID ctx.continuation (.spawned ctx.id))
  | addTaskAfter {task dependency dependent} (hzero : dependency ≠ 0)
      (hdependency : dependency < s.taskCounter) (hnamed : dependent ∈ s.named)
    : CallStep s w ctx .lambda (.functor w (.addTaskAfter task dependency dependent))
        (s.addTask (.worker w) task (.task dependency) dependent (.after dependency (some ctx.id)))
  | applyIndices (htask : ctx.task = .lambda true)
    : CallStep s w ctx .lambda (.functor w .applyIndices)
        (({ s with lockCounter := s.lockCounter + 1 }.addTask (.worker w)
          (.chain [.lambda false, .release s.lockCounter]) kInvalidNodeID ctx.continuation
            (.spawned ctx.id)).setCode w ctx (.wait s.lockCounter))
  | chainLast {task cDependent next}
    : CallStep s w ctx (.chain [task] cDependent next) (.code w)
        ((s.addTask (.worker w) task kInvalidNodeID cDependent (.chained ctx.id next)).setCode
          w ctx (.chain [] kInvalidNodeID (some s.taskCounter)))
  | chain {task rest cDependent next} (hrest : rest ≠ [])
    : CallStep s w ctx (.chain (task :: rest) cDependent next) (.code w)
        (((s.allocateContinuation (some ctx.id)).addTask
          (.worker w) task s.nextContinuation cDependent (.chained ctx.id next)).setCode
            w ctx (.chain rest s.nextContinuation (some s.taskCounter)))
  | planOperator {locals opIndex materializes rest}
    : CallStep s w ctx (.planOperators locals ((opIndex, materializes) :: rest)) (.code w)
        (((s.allocateContinuation (some ctx.id)).addTask
          (.worker w) (.lambda materializes) locals.cEnter s.nextContinuation
            (.operator ctx.id locals.position)).setCode
              w ctx (.planLinkExit { locals with
                position := locals.position + 1
                taskIds := Function.update locals.taskIds opIndex (.task s.taskCounter)
                cOperators := Function.update locals.cOperators opIndex s.nextContinuation }
                  rest s.nextContinuation))
  | planExit {locals}
    : CallStep s w ctx (.planLinks locals []) (.code w)
        ((s.addTask (.worker w) (.lambda false) locals.cExit ctx.continuation (.exit ctx.id)).setCode
          w ctx (.planFire locals.cEnter))

def Code.Returns : Code → Prop
  | .lambda | .chain [] _ _ | .finished => True
  | _ => False

/--
Everything that a step can do.
-/
inductive Step (s : State) : Action → State → Prop where
  | quiet {a s'} (h : Quiet s s')
    : Step s a s'
  | dispatch {w workers task tasks} (hloop : s.loop = .processTaskQueue)
      (hworkers : s.availableWorkers = w :: workers) (hqueue : s.taskQueue = task :: tasks)
    : Step s .schedule ({ s with
        availableWorkers := workers
        taskQueue := tasks
        inbox := Function.update s.inbox w (s.inbox w ++ [task]) }.setPlace task.id (.sent w))
  | popCompletion {a w id messages} (hloop : s.loop = .popOne)
      (hmessages : s.messages = .taskCompletion w id :: messages)
    : Step s a { s with messages := messages, loop := .complete id w }
  | complete {id w} (hloop : s.loop = .complete id w) (hlock : s.lock = none)
    : Step s .schedule (({ s with loop := .processDependents id w }.processDependents
        .scheduler (.task id)).setPlace id (.processing w))
  | emitEnqueue {a task} (hemit : s.emit = some (.enqueue task)) (hlock : s.lock ≠ none)
    : Step s a ({ s with
        taskQueue := s.taskQueue ++ [task], emit := some .notify }.setPlace task.id .queued)
  | popFrame {a m frames} (hemit : s.emit = none) (hframes : s.graph.frames = (m, ∅) :: frames)
      (hlock : s.lock ≠ none)
    : Step s a { s with graph := s.graph.pop m frames }
  | visit {a m rest frames dependent} (hemit : s.emit = none)
      (hframes : s.graph.frames = (m, rest) :: frames) (hmem : dependent ∈ rest)
      (hlock : s.lock ≠ none)
    : Step s a (s.visitDependent m rest frames dependent)
  | unlockScheduler {a id w} (hframes : s.graph.frames = []) (hemit : s.emit = none)
      (hlock : s.lock = some .scheduler) (hloop : s.loop = .processDependents id w)
    : Step s a ({ s with
        lock := none
        loop := .processTaskQueue
        availableWorkers := w :: s.availableWorkers }.setPlace id .done)
  | unlockWorker {a w task} (hframes : s.graph.frames = []) (hemit : s.emit = none)
      (hlock : s.lock = some (.worker w)) (hrunning : s.running w = some (task, .firing))
    : Step s a { s with
        lock := none, running := Function.update s.running w (some (task, .finished)) }
  | clientAdd {k task} (hcall : s.calls (.client k) = none)
    : Step s (.request k (.addTask task)) (s.addTask (.client k) task kInvalidNodeID kInvalidNodeID .client)
  | clientAddAfter {k task dependency dependent} (hcall : s.calls (.client k) = none)
      (hzero : dependency ≠ 0) (hdependency : dependency < s.taskCounter)
      (hnamed : dependent ∈ s.named)
    : Step s (.request k (.addTaskAfter task dependency dependent))
        (s.addTask (.client k) task (.task dependency) dependent (.after dependency none))
  | callLink {thread task dependency origin} (hlock : s.lock = none)
      (hcall : s.calls thread = some (.link task dependency origin))
    : Step s (.call thread) (({ (s.linkTask task dependency).recordAdded ⟨task, dependency, origin⟩ with
        calls := Function.update s.calls thread (some (
          if dependency = kInvalidNodeID then .enqueue task else .store task dependency)) }).setPlace
            task.id (if dependency = kInvalidNodeID then .ready (some thread) else .storing thread))
  | callEnqueue {a thread task} (hcall : s.calls thread = some (.enqueue task))
    : Step s a ({ s with
        taskQueue := s.taskQueue ++ [task]
        calls := Function.update s.calls thread (some (.notify task.id)) }.setPlace task.id .queued)
  | callStore {a thread task dependency} (hcall : s.calls thread = some (.store task dependency))
    : Step s a (({ s with
        tasks := Function.update s.tasks task.id (some task)
        calls := Function.update s.calls thread none }.setPlace
          task.id .stored).recordReturn thread task.id)
  | start {a w task tasks} (hrunning : s.running w = none) (hinbox : s.inbox w = task :: tasks)
    : Step s a (({ s with
        inbox := Function.update s.inbox w tasks
        running := Function.update s.running w (some (task, .start task))
        named := task.continuation :: s.named }.setPlace task.id (.running w)).recordStarted task)
  | finish {a w task code} (hrunning : s.running w = some (task, code)) (hcode : code.Returns)
      (hcall : s.calls (.worker w) = none)
    : Step s a (({ s with
        running := Function.update s.running w none
        messages := s.messages ++ [Message.taskCompletion w task.id] }.setPlace
          task.id (.completed w)).recordFinished task.id)
  | code {a w ctx code s'} (hrunning : s.running w = some (ctx, code))
      (hcall : s.calls (.worker w) = none) (h : CodeStep s w ctx code s')
    : Step s a s'
  | call {a w ctx code s'} (hrunning : s.running w = some (ctx, code))
      (hcall : s.calls (.worker w) = none) (h : CallStep s w ctx code a s')
    : Step s a s'

variable {s s' : State}

/-! What the functions on nodes leave alone. -/

theorem addLinkUnsafe_eq (s : State) (m n : NodeID)
    : ∃ graph links,
        s.addLinkUnsafe m n
          =
        { s with graph := graph, history := { s.history with links := links } } := by
  rw [addLinkUnsafe]
  split
  . exact ⟨s.graph, s.history.links, rfl⟩
  . exact ⟨_, _, rfl⟩

theorem linkTask_eq (s : State) (task : ScheduledTask) (dependency : NodeID)
    : ∃ graph links,
        s.linkTask task dependency
          =
        { s with graph := graph, history := { s.history with links := links } } := by
  rw [linkTask]
  dsimp only
  split
  . split
    . exact ⟨s.graph, s.history.links, rfl⟩
    . exact ⟨_, _, rfl⟩
  . split
    . apply addLinkUnsafe_eq
    . obtain ⟨graph, links, heq⟩ :=
        addLinkUnsafe_eq (s.link (.task task.id) task.continuation) dependency (.task task.id)
      exact ⟨graph, links, heq⟩

theorem processDependents_eq (s : State) (holder : Holder) (n : NodeID)
    : ∃ graph lock fired fault,
        s.processDependents holder n
          =
        { s with
          graph := graph
          lock := lock
          fault := fault
          history := { s.history with fired := fired } } := by
  rw [processDependents]
  split
  . exact ⟨_, _, _, _, rfl⟩
  . split
    . exact ⟨_, _, _, _, rfl⟩
    . exact ⟨_, _, s.history.fired, _, rfl⟩

/--
Counting down a dependent either leaves all tasks where they are, or takes one out of `tasks_`.
-/
theorem visitDependent_eq (s : State) (m : NodeID) (rest : Finset NodeID)
    (frames : List (NodeID × Finset NodeID)) (dependent : NodeID)
    : (∃ graph fired fault,
        s.visitDependent m rest frames dependent
          =
        { s with graph := graph, fault := fault, history := { s.history with fired := fired } }) ∨
      (∃ graph id task,
        dependent = .task id ∧ s.tasks id = some task ∧
        s.visitDependent m rest frames dependent
          =
        { s with
          graph := graph
          tasks := Function.update s.tasks id none
          emit := some (.enqueue task) }.setPlace id (.ready none)) := by
  rw [visitDependent]
  split
  . exact .inl ⟨s.graph, s.history.fired, _, rfl⟩
  . split
    . exact .inl ⟨s.graph, s.history.fired, _, rfl⟩
    . dsimp only
      split
      . split
        . next id _ =>
          rw [releaseTaskByID]
          split
          . exact .inl ⟨_, s.history.fired, _, rfl⟩
          . next task htask => exact .inr ⟨_, id, task, rfl, htask, rfl⟩
        . exact .inl ⟨_, _, _, rfl⟩
      . exact .inl ⟨_, s.history.fired, s.fault, rfl⟩

theorem schedule_step (h : s.schedule = some s') : Step s .schedule s' := by
  rw [schedule] at h
  split at h
  . next hloop =>
    split at h
    . next hworkers hqueue =>
      cases h
      exact .dispatch hloop hworkers hqueue
    . cases h
      exact .quiet (.check hloop)
  . next hloop =>
    split at h
    . next hexit =>
      cases h
      obtain ⟨hhalt, havailable, hqueue⟩ := hexit
      exact .quiet (.exit hloop hhalt havailable (List.isEmpty_iff.mp hqueue))
    . cases h
      exact .quiet (.popOne hloop)
  . next hloop =>
    split at h
    . cases h
    . next hmessages =>
      cases h
      exact .quiet (.popJoin hloop hmessages)
    . next hmessages =>
      cases h
      exact .quiet (.popNewTask hloop hmessages)
    . next hmessages =>
      cases h
      exact .popCompletion hloop hmessages
  . next hloop =>
    split at h
    . next hlock =>
      cases h
      exact .complete hloop (Option.isNone_iff_eq_none.mp hlock)
    . cases h
  . cases h
  . cases h

theorem cascade_step {dependent : NodeID} (hlock : s.lock.isSome) (h : s.cascade dependent = some s')
    : Step s (.cascade dependent) s' := by
  have hlock : s.lock ≠ none := Option.isSome_iff_ne_none.mp hlock
  rw [cascade] at h
  split at h
  . next hemit =>
    cases h
    exact .emitEnqueue hemit hlock
  . next hemit =>
    cases h
    exact .quiet (.emitNotify hemit hlock)
  . next hemit =>
    split at h
    . cases h
    . next m rest frames hframes =>
      split at h
      . next hrest =>
        subst hrest
        cases h
        exact .popFrame hemit hframes hlock
      . split at h
        . next hmem =>
          cases h
          exact .visit hemit hframes hmem hlock
        . cases h

theorem unlock_step (h : s.unlock = some s') : Step s .unlock s' := by
  rw [unlock] at h
  split at h
  . next hdone =>
    obtain ⟨hframes, hemit⟩ := hdone
    have hemit := Option.isNone_iff_eq_none.mp hemit
    split at h
    . next hlock hloop =>
      cases h
      exact .unlockScheduler hframes hemit hlock hloop
    . next hlock =>
      split at h
      . next hrunning =>
        cases h
        exact .unlockWorker hframes hemit hlock hrunning
      . cases h
    . cases h
  . cases h

theorem request_step {k : Nat} {request : Request} (h : s.request k request = some s')
    : Step s (.request k request) s' := by
  unfold State.request at h
  split at h
  . next hcall =>
    cases h
    exact .clientAdd hcall
  . next hcall =>
    split at h
    . next hafter =>
      cases h
      exact .clientAddAfter hcall hafter.1 hafter.2.1 hafter.2.2
    . cases h
  . cases h
    exact .quiet .allocateContinuation
  . cases h

theorem stepCall_step {thread : Thread} (h : s.stepCall thread = some s')
    : Step s (.call thread) s' := by
  rw [stepCall] at h
  split at h
  . cases h
  . next task dependency origin hcall =>
    split at h
    . next hlock =>
      have hstep := Step.callLink (Option.isNone_iff_eq_none.mp hlock) hcall
      have hcalls : (s.linkTask task dependency).calls = s.calls := by
        obtain ⟨graph, links, heq⟩ := linkTask_eq s task dependency
        rw [heq]
      by_cases hdep : dependency = kInvalidNodeID
      . simp only [hdep, if_true] at h hstep hcalls
        cases h
        simp only [recordAdded, hcalls] at hstep ⊢
        exact hstep
      . simp only [hdep, if_false] at h hstep hcalls
        cases h
        simp only [recordAdded, hcalls] at hstep ⊢
        exact hstep
    . cases h
  . next hcall =>
    cases h
    exact .callEnqueue hcall
  . next hcall =>
    cases h
    exact .quiet (.callNotify hcall)
  . next hcall =>
    cases h
    exact .callStore hcall

theorem start_step {w : Nat} (h : s.start w = some s') : Step s (.start w) s' := by
  rw [State.start] at h
  split at h
  . next hrunning hinbox =>
    cases h
    exact .start hrunning hinbox
  . cases h

theorem finish_step {w : Nat} (h : s.finish w = some s') : Step s (.finish w) s' := by
  rw [State.finish] at h
  split at h
  . next hrunning hcall =>
    cases h
    exact .finish hrunning trivial hcall
  . next hrunning hcall =>
    cases h
    exact .finish hrunning trivial hcall
  . next hrunning hcall =>
    cases h
    exact .finish hrunning trivial hcall
  . cases h

theorem functor_step {w : Nat} {request : Request} (h : s.functor w request = some s')
    : Step s (.functor w request) s' := by
  rw [functor] at h
  split at h
  . next hrunning hcall =>
    split at h
    . cases h
      exact .call hrunning hcall .addTask
    . cases h
      exact .call hrunning hcall .spawnTask
    . split at h
      . next hafter =>
        cases h
        exact .call hrunning hcall (.addTaskAfter hafter.1 hafter.2.1 hafter.2.2)
      . cases h
    . cases h
      exact .quiet .allocateContinuation
    . split at h
      . next htask =>
        cases h
        exact .call hrunning hcall (.applyIndices htask)
      . cases h
  . cases h

theorem stepCode_step {w : Nat} (h : s.stepCode w = some s') : Step s (.code w) s' := by
  rw [stepCode] at h
  split at h
  . next ctx code hrunning hcall =>
    split at h
    . cases h
    . cases h
    . cases h
    . cases h
    . split at h
      . next hreleased =>
        cases h
        exact .code hrunning hcall (.wait hreleased)
      . cases h
    . cases h
      exact .code hrunning hcall .release
    . cases h
      exact .call hrunning hcall .chainLast
    . next task rest _ _ hrest =>
      cases h
      exact .call hrunning hcall (.chain hrest)
    . cases h
      exact .code hrunning hcall .plan
    . cases h
      exact .call hrunning hcall .planOperator
    . cases h
      exact .code hrunning hcall .planOperators
    . split at h
      . next hlock =>
        cases h
        exact .code hrunning hcall (.planLinkExit (Option.isNone_iff_eq_none.mp hlock))
      . cases h
    . split at h
      . next hlock =>
        cases h
        exact .code hrunning hcall (.planLinks (Option.isNone_iff_eq_none.mp hlock))
      . cases h
    . cases h
      exact .call hrunning hcall .planExit
    . split at h
      . next hlock =>
        cases h
        exact .code hrunning hcall (.planFire (Option.isNone_iff_eq_none.mp hlock))
      . cases h
  . cases h

theorem step_fault {a : Action} (h : step s a = some s') : s.fault = none := by
  unfold step at h
  split at h
  . cases h
  . next hfault => simpa using hfault

theorem step_cases {a : Action} (h : step s a = some s') : Step s a s' := by
  have hfault : s.fault.isSome = false := by simp [step_fault h]
  unfold step at h
  rw [hfault] at h
  cases a with
  | join =>
    cases h
    exact .quiet .join
  | schedule => exact schedule_step h
  | cascade dependent =>
    simp only [Bool.false_eq_true, if_false] at h
    split at h
    . next hlock => exact cascade_step hlock h
    . cases h
  | unlock => exact unlock_step h
  | request k request => exact request_step h
  | call thread => exact stepCall_step h
  | start w => exact start_step h
  | functor w request => exact functor_step h
  | code w => exact stepCode_step h
  | finish w => exact finish_step h

end Hustle.Scheduler
