import Hustle.Scheduler.Builders

/-!
This module contains the invariant of the scheduler: the places of tasks, the order of nodes, what every
call and every running task relies on, and that no assertion fails.
-/

namespace Hustle.Scheduler

/--
The operators of every plan have their positions as `operator_index()`, and its links are between them.
-/
inductive Task.Valid : Task → Prop where
  | lambda (materializes : Bool) : Valid (.lambda materializes)
  | release (lock : Nat) : Valid (.release lock)
  | chain {tasks : List Task} (h : ∀ task ∈ tasks, Valid task) : Valid (.chain tasks)
  | plan {operators : List (Nat × Bool)} {dependents : List (Nat × Nat)}
      (hindex : operators.map Prod.fst = List.range operators.length)
      (hlinks : ∀ link ∈ dependents, link.1 < operators.length ∧ link.2 < operators.length)
    : Valid (.plan operators dependents)

def Request.Valid : Request → Prop
  | .addTask task | .spawnTask task | .addTaskAfter task _ _ => task.Valid
  | .allocateContinuation | .applyIndices => True

/--
A task that another one is made to wait for has not been processed yet, and it is not processed between
the two critical sections of `addTask`.
-/
def Allowed (s : State) : Action → Prop
  | .request _ request | .functor _ request => request.Valid
  | .call thread => ∀ task d origin, s.calls thread = some (.link task (.task d) origin) → d ≠ 0 →
    ¬ s.Fired (.task d)
  | .schedule => ∀ id w, s.loop = .complete id w → ∀ thread task,
    s.calls thread ≠ some (.store task (.task id))
  | _ => True

namespace State

/--
The task is somewhere after the critical section of `addTask`.
-/
def Has (s : State) (task : ScheduledTask) : Prop :=
  (∃ thread, s.calls thread = some (.enqueue task)) ∨
  (∃ thread dependency, s.calls thread = some (.store task dependency)) ∨
  (∃ id, s.tasks id = some task) ∨
  s.emit = some (.enqueue task) ∨
  task ∈ s.taskQueue ∨
  (∃ w, task ∈ s.inbox w) ∨
  ∃ w code, s.running w = some (task, code)

def ClientCall (s : State) : Option Call → Prop
  | some (.link task dependency origin) =>
    (origin = .client ∧ dependency = kInvalidNodeID ∧ task.continuation = kInvalidNodeID) ∨
    s.AfterCall task dependency origin
  | some (.store _ dependency) => ∃ d, dependency = .task d
  | _ => True

end State

/--
The records of tasks that were added and started, and of the continuations that can be named.
-/
structure Records (s : State) : Prop where
  known : ∀ task, s.Has task → ∃ a ∈ s.history.added, a.task = task
  unique : ∀ a ∈ s.history.added, ∀ b ∈ s.history.added, a.task.id = b.task.id → a = b
  phase : ∀ a ∈ s.history.added, (s.history.place a.task.id).phase ≠ .fresh ∧
    (s.history.place a.task.id).phase ≠ .linking
  continuation : ∀ a ∈ s.history.added, a.task.continuation = kInvalidNodeID ∨
    (∃ n, a.task.continuation = .continuation n) ∧ s.Linked (.task a.task.id) a.task.continuation
  dependency : ∀ a ∈ s.history.added, a.dependency ≠ kInvalidNodeID →
    s.Linked a.dependency (.task a.task.id)
  valid : ∀ a ∈ s.history.added, a.task.task.Valid
  operator : ∀ a ∈ s.history.added, ∀ p i, a.origin = .operator p i →
    ∃ task ∈ s.history.started, task.id = p
  started : ∀ task ∈ s.history.started, ∃ a ∈ s.history.added, a.task = task
  running : ∀ w ctx code, s.running w = some (ctx, code) → ctx ∈ s.history.started
  named : ∀ c ∈ s.named, c = kInvalidNodeID ∨ ∃ n, c = .continuation n ∧ n < s.continuationCounter ∧
    (s.history.owner n = none ∨ ∃ task ∈ s.history.started, task.continuation = c)
  call_valid : ∀ thread task dependency origin,
    s.calls thread = some (.link task dependency origin) → task.task.Valid
  chain_valid : ∀ w ctx rest cDependent next,
    s.running w = some (ctx, .chain rest cDependent next) → ∀ task ∈ rest, task.Valid

/--
What the calls and the running tasks rely on.
-/
structure Threads (s : State) : Prop where
  client : ∀ k, s.ClientCall (s.calls (.client k))
  code : ∀ w ctx code, s.running w = some (ctx, code) → s.Local ctx (s.calls (.worker w)) code
  store : ∀ thread task dependency, s.calls thread = some (.store task dependency) →
    s.Linked dependency (.task task.id) ∧ (∀ m, s.Linked m (.task task.id) → m = dependency) ∧
    ¬ s.Fired dependency
  idle : ∀ w, s.calls (.worker w) ≠ none → s.running w ≠ none

/--
Who holds `nodes_mutex_`.
-/
structure Locked (s : State) : Prop where
  fault : s.fault = none
  free : s.lock = none → s.graph.frames = [] ∧ s.emit = none
  scheduler : s.lock = some .scheduler → ∃ id w, s.loop = .processDependents id w
  worker : ∀ w, s.lock = some (.worker w) → ∃ ctx, s.running w = some (ctx, .firing)

structure Inv (s : State) : Prop where
  placed : Placed s
  ordered : s.ledger.Ordered
  records : Records s
  threads : Threads s
  locked : Locked s

namespace Inv

open State

theorem init (n : Nat) : Inv (State.init n) where
  placed := Placed.init n
  ordered := {
    counted := Countdown.Graph.counted_empty
    edge_linked := by simp [ledger, State.init, Countdown.empty, Countdown.Graph.Edge]
    linked_edge := by simp [ledger, State.init, Ledger.Linked]
    frame_fired := by simp [ledger, State.init, Countdown.empty]
    fired_edge := by simp [ledger, State.init, Ledger.Fired]
    task_edge := by simp [ledger, State.init, Place.phase]
    continuation_edge := by simp [ledger, State.init, Ledger.Fired]
    continuation_unfired := by simp [ledger, State.init, Ledger.Linked]
    waiting_edge := by simp [ledger, State.init, Place.phase]
    linked_task := by simp [ledger, State.init, Ledger.Linked]
    linked_continuation := by simp [ledger, State.init, Ledger.Linked]
    source := by simp [ledger, State.init, Ledger.Linked]
    source_linking := by simp [ledger, State.init, Ledger.Linked]
    fired_task := by simp [ledger, State.init, Place.phase, Ledger.Fired]
    fired_allocated := by simp [ledger, State.init, Ledger.Fired] }
  records := {
    known := by simp [State.init, Has]
    unique := by simp [State.init]
    phase := by simp [State.init]
    continuation := by simp [State.init]
    dependency := by simp [State.init]
    valid := by simp [State.init]
    operator := by simp [State.init]
    started := by simp [State.init]
    running := by simp [State.init]
    named := by simp [State.init]
    call_valid := by simp [State.init]
    chain_valid := by simp [State.init] }
  threads := {
    client := by simp [State.init, ClientCall]
    code := by simp [State.init]
    store := by simp [State.init]
    idle := by simp [State.init] }
  locked := {
    fault := rfl
    free := fun _ => ⟨rfl, rfl⟩
    scheduler := by simp [State.init]
    worker := by simp [State.init] }

variable {s s' : State}

theorem recorded (h : Inv s) : s.Recorded where
  continuation := by
    intro a ha hne
    rcases h.records.continuation a ha with heq | ⟨-, hlinked⟩
    . exact absurd heq hne
    . exact hlinked
  dependency := h.records.dependency
  fired := fun id hid => (h.ordered.fired_task id).mp hid

end Inv

/-! Steps that leave the nodes, the links and the records of tasks alone. -/

namespace State

/--
The step links, fires and records nothing, and moves tasks only within a phase.
-/
structure Inert (s s' : State) : Prop where
  graph : s'.graph = s.graph
  links : s'.history.links = s.history.links
  fired : s'.history.fired = s.history.fired
  added : s'.history.added = s.history.added
  owner : s'.history.owner = s.history.owner
  counter : s'.continuationCounter = s.continuationCounter
  phase : ∀ id, (s'.history.place id).phase = (s.history.place id).phase
  stored : ∀ id, s.history.place id = .stored → s'.history.place id = .stored
  named : ∀ c ∈ s.named, c ∈ s'.named

variable {s s' : State}

theorem phase_update {place : Nat → Place} {id : Nat} {q : Place} (h : q.phase = (place id).phase)
    (i : Nat) : (Function.update place id q i).phase = (place i).phase := by
  rw [Function.update_apply]
  split
  . next hi => rw [hi, h]
  . rfl

namespace Inert

theorem ledger (h : Inert s s') : s'.ledger = s.ledger := by
  have hphase : (fun id => (s'.history.place id).phase) = fun id => (s.history.place id).phase :=
    funext h.phase
  simp only [State.ledger, h.graph, h.links, h.fired, h.counter, hphase, h.added]

theorem toExtends (h : Inert s s') (p : Nat) : Extends s s' p where
  linked := by
    intro m n hmn
    rw [Linked, h.links]
    exact hmn
  added := by
    rw [h.added]
    exact fun _ ha => ha
  counter := h.counter.ge
  owner := by
    intro n _
    rw [h.owner]
  named := h.named
  allocated := by
    intro id hid
    rwa [h.phase]
  stored := fun id hid => .inl (h.stored id hid)
  into := by
    intro m c _ hmc
    rw [Linked, h.links] at hmc
    exact .inl hmc
  out := by
    intro c m _ hcm
    rwa [Linked, h.links] at hcm
  fires := by
    intro c _ hc
    rw [Fired, h.fired] at hc
    exact .inl hc
  operators := by
    rw [h.added]
    exact fun _ ha _ _ => ha

end Inert

end State

open State

/--
The records of a step that adds no task to the history.
-/
theorem Records.of {s s' : State} (h : Records s)
    (hadded : s'.history.added = s.history.added)
    (hlinked : ∀ m n, s.Linked m n → s'.Linked m n)
    (hphase : ∀ id, (s.history.place id).phase ≠ .fresh ∧ (s.history.place id).phase ≠ .linking →
      (s'.history.place id).phase ≠ .fresh ∧ (s'.history.place id).phase ≠ .linking)
    (hhas : ∀ task, s'.Has task → s.Has task)
    (hstarted : ∀ task ∈ s'.history.started, task ∈ s.history.started ∨ s.Has task)
    (hrunning : ∀ w ctx code, s'.running w = some (ctx, code) →
      (∃ code, s.running w = some (ctx, code)) ∨ ctx ∈ s'.history.started)
    (hmono : ∀ task ∈ s.history.started, task ∈ s'.history.started)
    (hnamed : ∀ c ∈ s'.named, c ∈ s.named ∨ c = kInvalidNodeID ∨ ∃ n, c = .continuation n ∧
      n < s'.continuationCounter ∧
      (s'.history.owner n = none ∨ ∃ task ∈ s'.history.started, task.continuation = c))
    (hcounter : s.continuationCounter ≤ s'.continuationCounter)
    (howner : ∀ n < s.continuationCounter, s'.history.owner n = s.history.owner n)
    (hcalls : ∀ thread task dependency origin, s'.calls thread = some (.link task dependency origin) →
      task.task.Valid)
    (hchain : ∀ w ctx rest cDependent next, s'.running w = some (ctx, .chain rest cDependent next) →
      ∀ task ∈ rest, task.Valid)
    : Records s' where
  known := by
    rw [hadded]
    exact fun task ht => h.known task (hhas task ht)
  unique := by
    rw [hadded]
    exact h.unique
  phase := by
    rw [hadded]
    exact fun a ha => hphase _ (h.phase a ha)
  continuation := by
    rw [hadded]
    intro a ha
    rcases h.continuation a ha with heq | ⟨hn, hlink⟩
    . exact .inl heq
    . exact .inr ⟨hn, hlinked _ _ hlink⟩
  dependency := by
    rw [hadded]
    exact fun a ha hne => hlinked _ _ (h.dependency a ha hne)
  valid := by
    rw [hadded]
    exact h.valid
  operator := by
    rw [hadded]
    intro a ha p i hi
    obtain ⟨task, ht, hid⟩ := h.operator a ha p i hi
    exact ⟨task, hmono task ht, hid⟩
  started := by
    rw [hadded]
    intro task ht
    rcases hstarted task ht with ht | ht
    . exact h.started task ht
    . exact h.known task ht
  running := by
    intro w ctx code hr
    rcases hrunning w ctx code hr with ⟨code', hr'⟩ | ht
    . exact hmono ctx (h.running w ctx code' hr')
    . exact ht
  named := by
    intro c hc
    rcases hnamed c hc with hc | hc
    . rcases h.named c hc with heq | ⟨n, heq, hn, hfree | ⟨task, ht, htc⟩⟩
      . exact .inl heq
      . exact .inr ⟨n, heq, hn.trans_le hcounter, .inl ((howner n hn).trans hfree)⟩
      . exact .inr ⟨n, heq, hn.trans_le hcounter, .inr ⟨task, hmono task ht, htc⟩⟩
    . exact hc
  call_valid := hcalls
  chain_valid := hchain

theorem ClientCall.of {s s' : State} {call : Option Call} (h : s.ClientCall call)
    (hallocated : ∀ id, (s.history.place id).phase ≠ .fresh → (s'.history.place id).phase ≠ .fresh)
    (hnamed : ∀ c ∈ s.named, c ∈ s'.named)
    : s'.ClientCall call := by
  match call with
  | some (.link task dependency origin) =>
    rcases h with h | ⟨d, q, horigin, hd, hzero, hphase, hc⟩
    . exact .inl h
    . exact .inr ⟨d, q, horigin, hd, hzero, hallocated d hphase, hnamed _ hc⟩
  | some (.store _ _) => exact h
  | none | some (.enqueue _) | some (.notify _) => trivial

theorem Threads.of {s s' : State} (h : Inv s)
    (hclient : ∀ k, s'.ClientCall (s'.calls (.client k)))
    (hcode : ∀ w ctx code, s'.running w = some (ctx, code) →
      (s.running w = some (ctx, code) ∧ s'.calls (.worker w) = s.calls (.worker w) ∧
        Extends s s' ctx.id) ∨
      s'.Local ctx (s'.calls (.worker w)) code)
    (hstore : ∀ thread task dependency, s'.calls thread = some (.store task dependency) →
      s'.Linked dependency (.task task.id) ∧ (∀ m, s'.Linked m (.task task.id) → m = dependency) ∧
      ¬ s'.Fired dependency)
    (hidle : ∀ w, s'.calls (.worker w) ≠ none → s'.running w ≠ none)
    : Threads s' where
  client := hclient
  code := by
    intro w ctx code hr
    rcases hcode w ctx code hr with ⟨hr, hcall, hext⟩ | hlocal
    . rw [hcall]
      apply hext.localCode h.recorded (h.threads.code w ctx code hr)
      intro task dependency hcall
      have : s.history.place task.id = .storing (.worker w) :=
        (h.placed.located _ _).mp ⟨task, dependency, hcall, rfl⟩
      rw [this]
      rfl
    . exact hlocal
  store := hstore
  idle := hidle

/-! Steps of the threads that move a task, and the silent steps. -/

/--
A step that leaves calls and running tasks alone as well.
-/
theorem Inv.of_inert {s s' : State} (h : Inv s) (hinert : Inert s s') (hplaced : Placed s')
    (hcalls : s'.calls = s.calls) (hrunning : s'.running = s.running)
    (hstarted : s'.history.started = s.history.started) (hnamed : s'.named = s.named)
    (hhas : ∀ task, s'.Has task → s.Has task) (hlocked : Locked s')
    : Inv s' where
  placed := hplaced
  ordered := by
    rw [hinert.ledger]
    exact h.ordered
  records := by
    apply h.records.of hinert.added
    . intro m n hmn
      rw [Linked, hinert.links]
      exact hmn
    . intro id hid
      rwa [hinert.phase]
    . exact hhas
    . rw [hstarted]
      exact fun task ht => .inl ht
    . rw [hrunning]
      exact fun w ctx code hr => .inl ⟨code, hr⟩
    . rw [hstarted]
      exact fun task ht => ht
    . rw [hnamed]
      exact fun c hc => .inl hc
    . exact hinert.counter.ge
    . intro n _
      rw [hinert.owner]
    . rw [hcalls]
      exact h.records.call_valid
    . rw [hrunning]
      exact h.records.chain_valid
  threads := by
    apply Threads.of h
    . intro k
      rw [hcalls]
      apply ClientCall.of (h.threads.client k)
      . intro id hid
        rwa [hinert.phase]
      . exact hinert.named
    . intro w ctx code hr
      rw [hrunning] at hr
      exact .inl ⟨hr, by rw [hcalls], hinert.toExtends ctx.id⟩
    . intro thread task dependency hcall
      rw [hcalls] at hcall
      simp only [Linked, Fired, hinert.links, hinert.fired]
      exact h.threads.store thread task dependency hcall
    . rw [hcalls, hrunning]
      exact h.threads.idle
  locked := hlocked

end Hustle.Scheduler
