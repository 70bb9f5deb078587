import Hustle.Util.Countdown
import Hustle.Util.Run

/-!
This module contains the state of the scheduler: the data that its threads share, what each thread is
doing between two accesses to that data, and the history of the run.
-/

namespace Hustle.Scheduler

/--
The ids with the highest bit set are continuations.
-/
inductive NodeID where
  | task (n : Nat)
  | continuation (n : Nat)
  deriving DecidableEq

abbrev kInvalidNodeID : NodeID := .task 0

/--
What the `execute()` of a task does.
-/
inductive Task where
  /-- A functor, which may call the scheduler in any way. Only one that `materializes` calls `apply_indices`. -/
  | lambda (materializes : Bool)
  /-- The functor that releases the lock of an `apply_indices`. -/
  | release (lock : Nat)
  | chain (tasks : List Task)
  /-- The operators with their `operator_index()`, and the pairs of `dependents_`. -/
  | plan (operators : List (Nat × Bool)) (dependents : List (Nat × Nat))

/--
A task after `Task::setup`.
-/
structure ScheduledTask where
  id : Nat
  continuation : NodeID
  task : Task

inductive Thread where
  | client (k : Nat)
  | worker (w : Nat)
  deriving DecidableEq

/--
Who called `addTask`, and for what.
-/
inductive Origin where
  | client
  | running (parent : Nat)
  | spawned (parent : Nat)
  /-- An element of the chain that `parent` runs, and the element that comes after it. -/
  | chained (parent : Nat) (next : Option Nat)
  /-- The operator at a position of the plan `parent`. -/
  | operator (parent : Nat) (position : Nat)
  | exit (parent : Nat)
  /-- A task that was made to wait for the task `dependency`. -/
  | after (dependency : Nat) (parent : Option Nat)
  deriving DecidableEq

/--
The task that ran when this one was added to the continuation of it or to a part of its chain or plan.
-/
def Origin.spawner : Origin → Option Nat
  | .spawned parent | .chained parent _ | .operator parent _ | .exit parent => some parent
  | .client | .running _ | .after _ _ => none

/--
A call of `addTask` after `allocateTaskID`, before its next access to shared data.
-/
inductive Call where
  | link (task : ScheduledTask) (dependency : NodeID) (origin : Origin)
  | enqueue (task : ScheduledTask)
  | notify (id : Nat)
  | store (task : ScheduledTask) (dependency : NodeID)

/--
The local variables of `ExecutionPlan::execute`.
-/
structure PlanLocals where
  dependents : List (Nat × Nat)
  cEnter : NodeID
  cExit : NodeID
  position : Nat
  taskIds : Nat → NodeID
  cOperators : Nat → NodeID

/--
What is left of the `execute()` of a running task, between two of its calls.
-/
inductive Code where
  | lambda
  | wait (lock : Nat)
  | release (lock : Nat)
  /-- The tasks of the chain that are still to be added, the last one first. -/
  | chain (rest : List Task) (cDependent : NodeID) (next : Option Nat)
  | plan (operators : List (Nat × Bool)) (dependents : List (Nat × Nat))
  | planOperators (locals : PlanLocals) (rest : List (Nat × Bool))
  | planLinkExit (locals : PlanLocals) (rest : List (Nat × Bool)) (opCont : NodeID)
  | planLinks (locals : PlanLocals) (rest : List (Nat × Nat))
  | planFire (cEnter : NodeID)
  | firing
  | finished

def Code.start (task : ScheduledTask) : Code :=
  match task.task with
  | .lambda _ => .lambda
  | .release lock => .release lock
  | .chain tasks => .chain tasks.reverse task.continuation none
  | .plan operators dependents => .plan operators dependents

inductive Message where
  | join
  | newTask
  | taskCompletion (worker : Nat) (id : Nat)
  deriving DecidableEq

/--
Where the thread of `Scheduler::execute` is.
-/
inductive Loop where
  | processTaskQueue
  | check
  | popOne
  | complete (id : Nat) (worker : Nat)
  | processDependents (id : Nat) (worker : Nat)
  | exited
  deriving DecidableEq

/--
The thread that holds `nodes_mutex_` to process dependents.
-/
inductive Holder where
  | scheduler
  | worker (w : Nat)
  deriving DecidableEq

/--
`addTaskIntoQueue`, when it is called while dependents are processed.
-/
inductive Emit where
  | enqueue (task : ScheduledTask)
  | notify

inductive Fault where
  | countNotZero
  | countBelowZero
  | missingNode
  | missingTask
  deriving DecidableEq

inductive Place where
  | unallocated
  | linking (thread : Thread)
  | storing (thread : Thread)
  | stored
  | ready (thread : Option Thread)
  | queued
  | sent (w : Nat)
  | running (w : Nat)
  | completed (w : Nat)
  | processing (w : Nat)
  | done
  deriving DecidableEq

structure Added where
  task : ScheduledTask
  dependency : NodeID
  origin : Origin

/--
What happened so far. No step depends on it.
-/
structure History where
  links : List (NodeID × NodeID)
  fired : List NodeID
  added : List Added
  started : List ScheduledTask
  finished : List Nat
  beforeJoin : List Nat
  joined : Bool
  /-- The task that allocated a continuation for its chain or plan. -/
  owner : Nat → Option Nat
  place : Nat → Place

structure State where
  numWorkers : Nat
  taskCounter : Nat
  continuationCounter : Nat
  graph : Countdown.Graph NodeID
  lock : Option Holder
  emit : Option Emit
  tasks : Nat → Option ScheduledTask
  taskQueue : List ScheduledTask
  messages : List Message
  availableWorkers : List Nat
  halt : Bool
  loop : Loop
  calls : Thread → Option Call
  inbox : Nat → List ScheduledTask
  running : Nat → Option (ScheduledTask × Code)
  lockCounter : Nat
  released : Nat → Bool
  /-- The continuations that tasks can name: their own ones, and the ones they allocated. -/
  named : List NodeID
  fault : Option Fault
  history : History

/--
The state after the constructor and `start()`.
-/
def State.init (numWorkers : Nat) : State where
  numWorkers := numWorkers
  taskCounter := 1
  continuationCounter := 1
  graph := Countdown.empty
  lock := none
  emit := none
  tasks := fun _ => none
  taskQueue := []
  messages := []
  availableWorkers := (List.range numWorkers).reverse
  halt := false
  loop := .processTaskQueue
  calls := fun _ => none
  inbox := fun _ => []
  running := fun _ => none
  lockCounter := 0
  released := fun _ => false
  named := [kInvalidNodeID]
  fault := none
  history := {
    links := []
    fired := []
    added := []
    started := []
    finished := []
    beforeJoin := []
    joined := false
    owner := fun _ => none
    place := fun _ => .unallocated
  }

namespace State

/-! History. -/

def setPlace (s : State) (id : Nat) (place : Place) : State :=
  { s with history := { s.history with place := Function.update s.history.place id place } }

def recordLink (s : State) (m n : NodeID) : State :=
  { s with history := { s.history with links := (m, n) :: s.history.links } }

def recordFired (s : State) (n : NodeID) : State :=
  { s with history := { s.history with fired := n :: s.history.fired } }

def recordAdded (s : State) (added : Added) : State :=
  { s with history := { s.history with added := added :: s.history.added } }

def recordStarted (s : State) (task : ScheduledTask) : State :=
  { s with history := { s.history with started := task :: s.history.started } }

def recordFinished (s : State) (id : Nat) : State :=
  { s with history := { s.history with finished := id :: s.history.finished } }

/--
A call of `addTask` from outside returned.
-/
def recordReturn (s : State) (thread : Thread) (id : Nat) : State :=
  match thread with
  | .worker _ => s
  | .client _ =>
    if s.history.joined then
      s
    else
      { s with history := { s.history with beforeJoin := id :: s.history.beforeJoin } }

/-! The functions of the scheduler that work on nodes, all of them under `nodes_mutex_`. -/

/--
`nodes_[m].addDependent(n)` and `nodes_[n].incDependency()`.
-/
def link (s : State) (m n : NodeID) : State :=
  { s with graph := s.graph.link m n }.recordLink m n

def addLinkUnsafe (s : State) (dependency dependent : NodeID) : State :=
  if s.graph.hasDependent dependency dependent then
    s
  else
    s.link dependency dependent

/--
The critical section of `addTask`.
-/
def linkTask (s : State) (task : ScheduledTask) (dependency : NodeID) : State :=
  let s := if task.continuation = kInvalidNodeID then s else s.link (.task task.id) task.continuation
  if dependency = kInvalidNodeID then s else s.addLinkUnsafe dependency (.task task.id)

/--
`processDependents`, up to the loop over the dependents.
-/
def processDependents (s : State) (holder : Holder) (n : NodeID) : State :=
  match s.graph.nodes n with
  | none => { s with lock := some holder }.recordFired n
  | some node =>
    if node.dependencyCount = 0 then
      { s with lock := some holder, graph := s.graph.push n node }.recordFired n
    else
      { s with fault := some .countNotZero }

/--
`releaseTaskByID`, and `addTaskIntoQueue` up to its first lock.
-/
def releaseTaskByID (s : State) (id : Nat) : State :=
  match s.tasks id with
  | none => { s with fault := some .missingTask }
  | some task =>
    { s with tasks := Function.update s.tasks id none, emit := some (.enqueue task) }.setPlace
      id (.ready none)

/--
The loop of `processDependentsUnsafe`: count down `dependent`, and process it when its count is zero.
-/
def visitDependent (s : State) (m : NodeID) (rest : Finset NodeID)
    (frames : List (NodeID × Finset NodeID)) (dependent : NodeID) : State :=
  match s.graph.nodes dependent with
  | none => { s with fault := some .missingNode }
  | some node =>
    if node.dependencyCount = 0 then
      { s with fault := some .countBelowZero }
    else
      let graph := s.graph.visit m dependent rest frames node
      if node.dependencyCount = 1 then
        match dependent with
        | .task id => { s with graph := graph }.releaseTaskByID id
        | .continuation _ => { s with graph := graph.push dependent node }.recordFired dependent
      else
        { s with graph := graph }

/--
The next step of `processDependentsUnsafe`. The order in which it visits dependents is unspecified.
-/
def cascade (s : State) (dependent : NodeID) : Option State :=
  match s.emit with
  | some (.enqueue task) =>
    some ({ s with taskQueue := s.taskQueue ++ [task], emit := some .notify }.setPlace task.id .queued)
  | some .notify => some { s with messages := s.messages ++ [Message.newTask], emit := none }
  | none =>
    match s.graph.frames with
    | [] => none
    | (m, rest) :: frames =>
      if rest = ∅ then
        some { s with graph := s.graph.pop m frames }
      else if dependent ∈ rest then
        some (s.visitDependent m rest frames dependent)
      else
        none

/--
The end of `processDependents`, and what its caller does next without another access to shared data.
-/
def unlock (s : State) : Option State :=
  if s.graph.frames = [] ∧ s.emit.isNone then
    match s.lock, s.loop with
    | some .scheduler, .processDependents id w =>
      some ({ s with
        lock := none
        loop := .processTaskQueue
        availableWorkers := w :: s.availableWorkers }.setPlace id .done)
    | some (.worker w), _ =>
      match s.running w with
      | some (task, .firing) =>
        some { s with lock := none, running := Function.update s.running w (some (task, .finished)) }
      | _ => none
    | _, _ => none
  else
    none

/-! The thread of the scheduler. -/

/--
The next step of `Scheduler::execute`.
-/
def schedule (s : State) : Option State :=
  match s.loop with
  | .processTaskQueue =>
    match s.availableWorkers, s.taskQueue with
    | w :: workers, task :: tasks =>
      some ({ s with
        availableWorkers := workers
        taskQueue := tasks
        inbox := Function.update s.inbox w (s.inbox w ++ [task]) }.setPlace task.id (.sent w))
    | _, _ => some { s with loop := .check }
  | .check =>
    if s.halt ∧ s.availableWorkers.length = s.numWorkers ∧ s.taskQueue.isEmpty then
      some { s with loop := .exited }
    else
      some { s with loop := .popOne }
  | .popOne =>
    match s.messages with
    | [] => none
    | .join :: messages => some { s with messages := messages, halt := true, loop := .processTaskQueue }
    | .newTask :: messages => some { s with messages := messages, loop := .processTaskQueue }
    | .taskCompletion w id :: messages =>
      some { s with messages := messages, loop := .complete id w }
  | .complete id w =>
    if s.lock.isNone then
      some (({ s with loop := .processDependents id w }.processDependents .scheduler (.task id)).setPlace
        id (.processing w))
    else
      none
  | .processDependents _ _ => none
  | .exited => none

/-! Calls of the scheduler. -/

/--
`allocateContinuation`, called by `owner` for its chain or plan.
-/
def allocateContinuation (s : State) (owner : Option Nat) : State :=
  { s with
    continuationCounter := s.continuationCounter + 1
    history := { s.history with owner := Function.update s.history.owner s.continuationCounter owner } }

def nextContinuation (s : State) : NodeID :=
  .continuation s.continuationCounter

/--
`addTask`, up to its first lock.
-/
def addTask (s : State) (thread : Thread) (task : Task) (dependency dependent : NodeID)
    (origin : Origin) : State :=
  let task := { id := s.taskCounter, continuation := dependent, task := task }
  { s with
    taskCounter := s.taskCounter + 1
    calls := Function.update s.calls thread (some (.link task dependency origin)) }.setPlace
      task.id (.linking thread)

def stepCall (s : State) (thread : Thread) : Option State :=
  match s.calls thread with
  | none => none
  | some (.link task dependency origin) =>
    if s.lock.isNone then
      let s := (s.linkTask task dependency).recordAdded ⟨task, dependency, origin⟩
      if dependency = kInvalidNodeID then
        some ({ s with calls := Function.update s.calls thread (some (.enqueue task)) }.setPlace
          task.id (.ready (some thread)))
      else
        some ({ s with calls := Function.update s.calls thread (some (.store task dependency)) }.setPlace
          task.id (.storing thread))
    else
      none
  | some (.enqueue task) =>
    some ({ s with
      taskQueue := s.taskQueue ++ [task]
      calls := Function.update s.calls thread (some (.notify task.id)) }.setPlace task.id .queued)
  | some (.notify id) =>
    some ({ s with
      messages := s.messages ++ [Message.newTask]
      calls := Function.update s.calls thread none }.recordReturn thread id)
  | some (.store task _) =>
    some (({ s with
      tasks := Function.update s.tasks task.id (some task)
      calls := Function.update s.calls thread none }.setPlace task.id .stored).recordReturn thread task.id)

/-! Workers. -/

def setCode (s : State) (w : Nat) (task : ScheduledTask) (code : Code) : State :=
  { s with running := Function.update s.running w (some (task, code)) }

def start (s : State) (w : Nat) : Option State :=
  match s.running w, s.inbox w with
  | none, task :: tasks =>
    some (({ s with
      inbox := Function.update s.inbox w tasks
      running := Function.update s.running w (some (task, .start task))
      named := task.continuation :: s.named }.setPlace task.id (.running w)).recordStarted task)
  | _, _ => none

def finish (s : State) (w : Nat) : Option State :=
  match s.running w, s.calls (.worker w) with
  | some (task, .lambda), none | some (task, .chain [] _ _), none | some (task, .finished), none =>
    some (({ s with
      running := Function.update s.running w none
      messages := s.messages ++ [Message.taskCompletion w task.id] }.setPlace
        task.id (.completed w)).recordFinished task.id)
  | _, _ => none

/--
The next step of a `CreateTaskChain`, an `ExecutionPlan::execute` or a wait for a lock.
-/
def stepCode (s : State) (w : Nat) : Option State :=
  match s.running w, s.calls (.worker w) with
  | some (ctx, code), none =>
    match code with
    | .lambda | .firing | .finished | .chain [] _ _ => none
    | .wait lock => if s.released lock then some (s.setCode w ctx .lambda) else none
    | .release lock =>
      some ({ s with released := Function.update s.released lock true }.setCode w ctx .finished)
    | .chain [task] cDependent next =>
      some ((s.addTask (.worker w) task kInvalidNodeID cDependent (.chained ctx.id next)).setCode
        w ctx (.chain [] kInvalidNodeID (some s.taskCounter)))
    | .chain (task :: rest) cDependent next =>
      let cDependency := s.nextContinuation
      some (((s.allocateContinuation (some ctx.id)).addTask
        (.worker w) task cDependency cDependent (.chained ctx.id next)).setCode
          w ctx (.chain rest cDependency (some s.taskCounter)))
    | .plan operators dependents =>
      let cEnter := s.nextContinuation
      let s := s.allocateContinuation (some ctx.id)
      let cExit := s.nextContinuation
      let s := s.allocateContinuation (some ctx.id)
      some (s.setCode w ctx (.planOperators {
        dependents := dependents
        cEnter := cEnter
        cExit := cExit
        position := 0
        taskIds := fun _ => kInvalidNodeID
        cOperators := fun _ => kInvalidNodeID } operators))
    | .planOperators locals ((opIndex, materializes) :: rest) =>
      let opCont := s.nextContinuation
      some (((s.allocateContinuation (some ctx.id)).addTask
        (.worker w) (.lambda materializes) locals.cEnter opCont (.operator ctx.id locals.position)).setCode
          w ctx (.planLinkExit { locals with
            position := locals.position + 1
            taskIds := Function.update locals.taskIds opIndex (.task s.taskCounter)
            cOperators := Function.update locals.cOperators opIndex opCont } rest opCont))
    | .planOperators locals [] => some (s.setCode w ctx (.planLinks locals locals.dependents))
    | .planLinkExit locals rest opCont =>
      if s.lock.isNone then
        some ((s.addLinkUnsafe opCont locals.cExit).setCode w ctx (.planOperators locals rest))
      else
        none
    | .planLinks locals ((producer, consumer) :: rest) =>
      if s.lock.isNone then
        some ((s.addLinkUnsafe (locals.cOperators producer) (locals.taskIds consumer)).setCode
          w ctx (.planLinks locals rest))
      else
        none
    | .planLinks locals [] =>
      some ((s.addTask (.worker w) (.lambda false) locals.cExit ctx.continuation (.exit ctx.id)).setCode
        w ctx (.planFire locals.cEnter))
    | .planFire cEnter =>
      if s.lock.isNone then
        some ((s.setCode w ctx .firing).processDependents (.worker w) cEnter)
      else
        none
  | _, _ => none

end State

/--
What a functor may ask for.
-/
inductive Request where
  | addTask (task : Task)
  | spawnTask (task : Task)
  /-- `addTask(task, dependency, dependent)`, or `addTaskWithDependency(task, dependency)`. -/
  | addTaskAfter (task : Task) (dependency : Nat) (dependent : NodeID)
  | allocateContinuation
  | applyIndices

namespace State

/--
A call from a thread that is not one of the scheduler's.
-/
def request (s : State) (k : Nat) (request : Request) : Option State :=
  match s.calls (.client k), request with
  | none, .addTask task => some (s.addTask (.client k) task kInvalidNodeID kInvalidNodeID .client)
  | none, .addTaskAfter task dependency dependent =>
    if dependency ≠ 0 ∧ dependency < s.taskCounter ∧ dependent ∈ s.named then
      some (s.addTask (.client k) task (.task dependency) dependent (.after dependency none))
    else
      none
  | none, .allocateContinuation =>
    some { s.allocateContinuation none with named := s.nextContinuation :: s.named }
  | _, _ => none

def functor (s : State) (w : Nat) (request : Request) : Option State :=
  match s.running w, s.calls (.worker w) with
  | some (ctx, .lambda), none =>
    match request with
    | .addTask task =>
      some (s.addTask (.worker w) task kInvalidNodeID kInvalidNodeID (.running ctx.id))
    | .spawnTask task =>
      some (s.addTask (.worker w) task kInvalidNodeID ctx.continuation (.spawned ctx.id))
    | .addTaskAfter task dependency dependent =>
      if dependency ≠ 0 ∧ dependency < s.taskCounter ∧ dependent ∈ s.named then
        some (s.addTask (.worker w) task (.task dependency) dependent (.after dependency (some ctx.id)))
      else
        none
    | .allocateContinuation =>
      some { s.allocateContinuation none with named := s.nextContinuation :: s.named }
    | .applyIndices =>
      match ctx.task with
      | .lambda true =>
        let lock := s.lockCounter
        some (({ s with lockCounter := lock + 1 }.addTask (.worker w)
          (.chain [.lambda false, .release lock]) kInvalidNodeID ctx.continuation
            (.spawned ctx.id)).setCode w ctx (.wait lock))
      | _ => none
  | _, _ => none

end State

inductive Action where
  | join
  | schedule
  | cascade (dependent : NodeID)
  | unlock
  | request (k : Nat) (request : Request)
  | call (thread : Thread)
  | start (w : Nat)
  | functor (w : Nat) (request : Request)
  | code (w : Nat)
  | finish (w : Nat)

def step (s : State) (a : Action) : Option State :=
  if s.fault.isSome then
    none
  else
    match a with
    | .join =>
      some { s with
        messages := s.messages ++ [Message.join]
        history := { s.history with joined := true } }
    | .schedule => s.schedule
    | .cascade dependent => if s.lock.isSome then s.cascade dependent else none
    | .unlock => s.unlock
    | .request k request => s.request k request
    | .call thread => s.stepCall thread
    | .start w => s.start w
    | .functor w request => s.functor w request
    | .code w => s.stepCode w
    | .finish w => s.finish w

end Hustle.Scheduler
