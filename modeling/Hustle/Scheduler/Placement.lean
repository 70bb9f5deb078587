import Hustle.Scheduler.Steps

/-!
This module contains the invariant that every task is in one place, and its consequences: a worker has at
most one task, and no task is started twice.
-/

namespace Hustle.Scheduler

open State

namespace Place

def worker : Place → Option Nat
  | .sent w | .running w | .completed w | .processing w => some w
  | _ => none

def isStarted : Place → Bool
  | .running _ | .completed _ | .processing _ | .done => true
  | _ => false

def isFinished : Place → Bool
  | .completed _ | .processing _ | .done => true
  | _ => false

end Place

/--
The task is found in the part of the state that the place stands for.
-/
def Located (s : State) (id : Nat) : Place → Prop
  | .unallocated => id = 0 ∨ s.taskCounter ≤ id
  | .linking thread => ∃ task dependency origin,
    s.calls thread = some (.link task dependency origin) ∧ task.id = id
  | .storing thread => ∃ task dependency, s.calls thread = some (.store task dependency) ∧ task.id = id
  | .stored => ∃ task, s.tasks id = some task
  | .ready (some thread) => ∃ task, s.calls thread = some (.enqueue task) ∧ task.id = id
  | .ready none => ∃ task, s.emit = some (.enqueue task) ∧ task.id = id
  | .queued => ∃ task ∈ s.taskQueue, task.id = id
  | .sent w => ∃ task ∈ s.inbox w, task.id = id
  | .running w => ∃ task code, s.running w = some (task, code) ∧ task.id = id
  | .completed w => .taskCompletion w id ∈ s.messages ∨ s.loop = .complete id w
  | .processing w => s.loop = .processDependents id w
  | .done => s.history.place id = .done

structure Placed (s : State) : Prop where
  counter : 0 < s.taskCounter
  located : ∀ id p, Located s id p ↔ s.history.place id = p
  stored : ∀ id task, s.tasks id = some task → task.id = id
  queue : (s.taskQueue.map (·.id)).Nodup
  inbox : ∀ w, (s.inbox w).length ≤ 1
  messages : ∀ w id, s.messages.count (.taskCompletion w id) ≤ 1
  complete : ∀ w id, s.loop = .complete id w → .taskCompletion w id ∉ s.messages
  worker : ∀ id id' w, (s.history.place id).worker = some w → (s.history.place id').worker = some w →
    id = id'
  worker_lt : ∀ id w, (s.history.place id).worker = some w → w < s.numWorkers
  available_nodup : s.availableWorkers.Nodup
  available : ∀ w ∈ s.availableWorkers, w < s.numWorkers ∧ ∀ id, (s.history.place id).worker ≠ some w
  started : ∀ id, id ∈ s.history.started.map (·.id) ↔ (s.history.place id).isStarted = true
  started_nodup : (s.history.started.map (·.id)).Nodup
  finished : ∀ id, id ∈ s.history.finished ↔ (s.history.place id).isFinished = true

namespace Placed

variable {s s' : State} {id : Nat}

theorem init (n : Nat) : Placed (State.init n) where
  counter := Nat.one_pos
  located := by
    intro id p
    cases p with
    | ready thread => cases thread <;> simp [Located, State.init]
    | unallocated =>
      simp only [Located, State.init, iff_true]
      omega
    | _ => simp [Located, State.init]
  stored := by simp [State.init]
  queue := by simp [State.init]
  inbox := by simp [State.init]
  messages := by simp [State.init]
  complete := by simp [State.init]
  worker := by simp [State.init, Place.worker]
  worker_lt := by simp [State.init, Place.worker]
  available_nodup := by simp [State.init, List.nodup_range]
  available := by simp [State.init, Place.worker]
  started := by simp [State.init, Place.isStarted]
  started_nodup := by simp [State.init]
  finished := by simp [State.init, Place.isFinished]

/--
A step that leaves every task where it is.
-/
theorem of_located (h : Placed s)
    (hcounter : s'.taskCounter = s.taskCounter)
    (hlocated : ∀ id p, p ≠ .done → (Located s' id p ↔ Located s id p))
    (hplace : s'.history.place = s.history.place) (htasks : s'.tasks = s.tasks)
    (hqueue : s'.taskQueue = s.taskQueue) (hinbox : s'.inbox = s.inbox)
    (hmessages : ∀ w id,
      s'.messages.count (.taskCompletion w id) = s.messages.count (.taskCompletion w id))
    (hloop : ∀ w id, s'.loop = .complete id w → s.loop = .complete id w)
    (hworkers : s'.numWorkers = s.numWorkers) (havailable : s'.availableWorkers = s.availableWorkers)
    (hstarted : s'.history.started = s.history.started)
    (hfinished : s'.history.finished = s.history.finished)
    : Placed s' where
  counter := by
    rw [hcounter]
    exact h.counter
  located := by
    intro id p
    by_cases hp : p = .done
    . subst hp
      rfl
    . rw [hlocated id p hp, hplace, h.located]
  stored := by
    rw [htasks]
    exact h.stored
  queue := by
    rw [hqueue]
    exact h.queue
  inbox := by
    rw [hinbox]
    exact h.inbox
  messages := by
    intro w id
    rw [hmessages]
    exact h.messages w id
  complete := by
    intro w id hc
    have := h.complete w id (hloop w id hc)
    rwa [← List.count_eq_zero, hmessages, List.count_eq_zero]
  worker := by
    rw [hplace]
    exact h.worker
  worker_lt := by
    rw [hplace, hworkers]
    exact h.worker_lt
  available_nodup := by
    rw [havailable]
    exact h.available_nodup
  available := by
    rw [hplace, hworkers, havailable]
    exact h.available
  started := by
    rw [hstarted, hplace]
    exact h.started
  started_nodup := by
    rw [hstarted]
    exact h.started_nodup
  finished := by
    rw [hfinished, hplace]
    exact h.finished

structure Moved (s s' : State) (id : Nat) (p q : Place) : Prop where
  place : s'.history.place = Function.update s.history.place id q
  keep : ∀ i r, r ≠ .done → (i ≠ id ∨ r ≠ p ∧ r ≠ q) → (Located s' i r ↔ Located s i r)
  gone : ¬ Located s' id p
  found : q ≠ .done → Located s' id q

theorem located_move {p q : Place} (h : Placed s) (hp : s.history.place id = p)
    (hmoved : Moved s s' id p q) (i : Nat) (r : Place)
    : Located s' i r ↔ s'.history.place i = r := by
  by_cases hr : r = .done
  . subst hr
    rfl
  rw [hmoved.place]
  by_cases hi : i = id
  . subst hi
    rw [Function.update_self]
    by_cases hrq : r = q
    . subst hrq
      exact iff_of_true (hmoved.found hr) rfl
    . by_cases hrp : r = p
      . subst hrp
        exact iff_of_false hmoved.gone (Ne.symm hrq)
      . rw [hmoved.keep i r hr (.inr ⟨hrp, hrq⟩), h.located, hp]
        exact iff_of_false (Ne.symm hrp) (Ne.symm hrq)
  . rw [hmoved.keep i r hr (.inl hi), Function.update_of_ne hi, h.located]

section

variable {q : Place}

theorem worker_move (h : Placed s)
    (hq : q.worker = none ∨ q.worker = (s.history.place id).worker) (i j w : Nat)
    (hi : (Function.update s.history.place id q i).worker = some w)
    (hj : (Function.update s.history.place id q j).worker = some w)
    : i = j := by
  have := h.worker i j w
  have hi' := h.worker id i w
  have hj' := h.worker id j w
  simp only [Function.update_apply] at hi hj
  grind

theorem worker_lt_move (h : Placed s)
    (hq : q.worker = none ∨ q.worker = (s.history.place id).worker) (i w : Nat)
    (hi : (Function.update s.history.place id q i).worker = some w)
    : w < s.numWorkers := by
  have := h.worker_lt i w
  have := h.worker_lt id w
  simp only [Function.update_apply] at hi
  grind

theorem available_move (h : Placed s)
    (hq : q.worker = none ∨ q.worker = (s.history.place id).worker) (w : Nat)
    (hw : w ∈ s.availableWorkers)
    : w < s.numWorkers ∧ ∀ i, (Function.update s.history.place id q i).worker ≠ some w := by
  obtain ⟨hlt, hfree⟩ := h.available w hw
  refine ⟨hlt, ?_⟩
  intro i hi
  have := hfree i
  have := hfree id
  simp only [Function.update_apply] at hi
  grind

theorem started_move (h : Placed s) (hq : q.isStarted = (s.history.place id).isStarted) (i : Nat)
    : i ∈ s.history.started.map (·.id) ↔ (Function.update s.history.place id q i).isStarted = true := by
  rw [h.started, Function.update_apply]
  split
  . next hi => rw [hi, hq]
  . rfl

theorem finished_move (h : Placed s) (hq : q.isFinished = (s.history.place id).isFinished) (i : Nat)
    : i ∈ s.history.finished ↔ (Function.update s.history.place id q i).isFinished = true := by
  rw [h.finished, Function.update_apply]
  split
  . next hi => rw [hi, hq]
  . rfl

/--
A move that concerns no worker and no message.
-/
theorem of_move {p : Place} (h : Placed s) (hp : s.history.place id = p) (hmoved : Moved s s' id p q)
    (hcounter : s.taskCounter ≤ s'.taskCounter) (hstored : ∀ i task, s'.tasks i = some task → task.id = i)
    (hqueue : (s'.taskQueue.map (·.id)).Nodup) (hinbox : s'.inbox = s.inbox)
    (hmessages : s'.messages = s.messages)
    (hloop : ∀ w id, s'.loop = .complete id w → s.loop = .complete id w)
    (hworkers : s'.numWorkers = s.numWorkers) (havailable : s'.availableWorkers = s.availableWorkers)
    (hstarted : s'.history.started = s.history.started)
    (hfinished : s'.history.finished = s.history.finished)
    (hworker : q.worker = none ∨ q.worker = p.worker) (hstart : q.isStarted = p.isStarted)
    (hfinish : q.isFinished = p.isFinished)
    : Placed s' where
  counter := h.counter.trans_le hcounter
  located := h.located_move hp hmoved
  stored := hstored
  queue := hqueue
  inbox := by
    rw [hinbox]
    exact h.inbox
  messages := by
    rw [hmessages]
    exact h.messages
  complete := by
    intro w i hc
    rw [hmessages]
    exact h.complete w i (hloop w i hc)
  worker := by
    rw [hmoved.place]
    apply h.worker_move
    rwa [hp]
  worker_lt := by
    rw [hmoved.place, hworkers]
    apply h.worker_lt_move
    rwa [hp]
  available_nodup := by
    rw [havailable]
    exact h.available_nodup
  available := by
    rw [hmoved.place, hworkers, havailable]
    apply h.available_move
    rwa [hp]
  started := by
    rw [hmoved.place, hstarted]
    apply h.started_move
    rwa [hp]
  started_nodup := by
    rw [hstarted]
    exact h.started_nodup
  finished := by
    rw [hmoved.place, hfinished]
    apply h.finished_move
    rwa [hp]

end

theorem queue_concat {task : ScheduledTask} (h : Placed s) (hp : s.history.place task.id ≠ .queued)
    : ((s.taskQueue ++ [task]).map (·.id)).Nodup := by
  rw [List.map_append, List.map_singleton, ← List.concat_eq_append]
  apply h.queue.concat
  intro hmem
  apply hp
  obtain ⟨task', hmem, heq⟩ := List.mem_map.mp hmem
  exact (h.located _ _).mp ⟨task', hmem, heq⟩

theorem emitEnqueue {task : ScheduledTask} (h : Placed s) (hemit : s.emit = some (.enqueue task))
    : Placed ({ s with
        taskQueue := s.taskQueue ++ [task], emit := some .notify }.setPlace task.id .queued) := by
  have hp : s.history.place task.id = .ready none := (h.located _ _).mp ⟨task, hemit, rfl⟩
  refine h.of_move hp ⟨rfl, ?_, ?_, ?_⟩ le_rfl h.stored (h.queue_concat (by simp [hp]))
    rfl rfl (fun _ _ => id) rfl rfl rfl rfl ?_ rfl rfl
  . intro i r hr hkeep
    cases r with
    | ready thread =>
      cases thread with
      | none =>
        have : i ≠ task.id := by simpa using hkeep
        simp [Located, setPlace, hemit, this.symm]
      | some thread => rfl
    | queued =>
      have : i ≠ task.id := by simpa using hkeep
      simp [Located, setPlace, this.symm]
    | done => exact absurd rfl hr
    | _ => rfl
  . simp [Located, setPlace]
  . simp [Located, setPlace]
  . simp [Place.worker]

theorem moved_of_call {thread : Thread} {p q : Place} {call : Option Call}
    (hplace : s'.history.place = Function.update s.history.place id q)
    (hcalls : s'.calls = Function.update s.calls thread call)
    (hlinking : ∀ i, i ≠ id ∨ .linking thread ≠ p ∧ .linking thread ≠ q →
      (Located s' i (.linking thread) ↔ Located s i (.linking thread)))
    (hstoring : ∀ i, i ≠ id ∨ .storing thread ≠ p ∧ .storing thread ≠ q →
      (Located s' i (.storing thread) ↔ Located s i (.storing thread)))
    (hready : ∀ i, i ≠ id ∨ .ready (some thread) ≠ p ∧ .ready (some thread) ≠ q →
      (Located s' i (.ready (some thread)) ↔ Located s i (.ready (some thread))))
    (hkeep : ∀ i r, r ≠ .done → (∀ th, r ≠ .linking th) → (∀ th, r ≠ .storing th) →
      (∀ th, r ≠ .ready (some th)) → (i ≠ id ∨ r ≠ p ∧ r ≠ q) → (Located s' i r ↔ Located s i r))
    (hgone : ¬ Located s' id p) (hfound : Located s' id q)
    : Moved s s' id p q where
  place := hplace
  keep := by
    intro i r hr hir
    have hother : ∀ th, th ≠ thread → s'.calls th = s.calls th := by
      intro th hth
      rw [hcalls, Function.update_of_ne hth]
    match r with
    | .linking th =>
      by_cases hth : th = thread
      . subst hth
        exact hlinking i hir
      . simp only [Located, hother th hth]
    | .storing th =>
      by_cases hth : th = thread
      . subst hth
        exact hstoring i hir
      . simp only [Located, hother th hth]
    | .ready (some th) =>
      by_cases hth : th = thread
      . subst hth
        exact hready i hir
      . simp only [Located, hother th hth]
    | .ready none | .unallocated | .stored | .queued | .sent _ | .running _ | .completed _
    | .processing _ | .done => exact hkeep i _ hr (by simp) (by simp) (by simp) hir
  gone := hgone
  found := fun _ => hfound

theorem callEnqueue {thread : Thread} {task : ScheduledTask} (h : Placed s)
    (hcall : s.calls thread = some (.enqueue task))
    : Placed ({ s with
        taskQueue := s.taskQueue ++ [task]
        calls := Function.update s.calls thread (some (.notify task.id)) }.setPlace task.id .queued) := by
  have hp : s.history.place task.id = .ready (some thread) := (h.located _ _).mp ⟨task, hcall, rfl⟩
  refine h.of_move hp (moved_of_call rfl rfl ?_ ?_ ?_ ?_ ?_ ?_) le_rfl h.stored
    (h.queue_concat (by simp [hp])) rfl rfl (fun _ _ => id) rfl rfl rfl rfl ?_ rfl rfl
  . simp [Located, setPlace, hcall]
  . simp [Located, setPlace, hcall]
  . intro i hi
    have : i ≠ task.id := by simpa using hi
    simp [Located, setPlace, hcall, this.symm]
  . intro i r hr hlinking hstoring hready hir
    cases r with
    | queued =>
      have : i ≠ task.id := by simpa using hir
      simp [Located, setPlace, this.symm]
    | linking th => exact absurd rfl (hlinking th)
    | storing th => exact absurd rfl (hstoring th)
    | ready th =>
      cases th with
      | none => rfl
      | some th => exact absurd rfl (hready th)
    | done => exact absurd rfl hr
    | _ => rfl
  . simp [Located, setPlace]
  . simp [Located, setPlace]
  . simp [Place.worker]

theorem frame (h : Placed s) (continuationCounter : Nat) (graph : Countdown.Graph NodeID)
    (lock : Option Holder) (halt : Bool) (lockCounter : Nat) (released : Nat → Bool)
    (named : List NodeID) (fault : Option Fault) (links : List (NodeID × NodeID)) (fired : List NodeID)
    (added : List Added) (beforeJoin : List Nat) (joined : Bool) (owner : Nat → Option Nat)
    : Placed { s with
        continuationCounter := continuationCounter
        graph := graph
        lock := lock
        halt := halt
        lockCounter := lockCounter
        released := released
        named := named
        fault := fault
        history := { s.history with
          links := links
          fired := fired
          added := added
          beforeJoin := beforeJoin
          joined := joined
          owner := owner } } :=
  ⟨h.counter, h.located, h.stored, h.queue, h.inbox, h.messages, h.complete, h.worker, h.worker_lt,
    h.available_nodup, h.available, h.started, h.started_nodup, h.finished⟩

theorem recordReturn (h : Placed s) (thread : Thread) (id : Nat)
    : Placed (s.recordReturn thread id) := by
  cases thread with
  | worker w => exact h
  | client k =>
    simp only [State.recordReturn]
    split
    . exact h
    . apply h.frame

theorem callStore {thread : Thread} {task : ScheduledTask} {dependency : NodeID} (h : Placed s)
    (hcall : s.calls thread = some (.store task dependency))
    : Placed ({ s with
        tasks := Function.update s.tasks task.id (some task)
        calls := Function.update s.calls thread none }.setPlace task.id .stored) := by
  have hp : s.history.place task.id = .storing thread :=
    (h.located _ _).mp ⟨task, dependency, hcall, rfl⟩
  refine h.of_move hp (moved_of_call rfl rfl ?_ ?_ ?_ ?_ ?_ ?_) le_rfl ?_ h.queue rfl rfl
    (fun _ _ => id) rfl rfl rfl rfl ?_ rfl rfl
  . simp [Located, setPlace, hcall]
  . intro i hi
    have : i ≠ task.id := by simpa using hi
    simp [Located, setPlace, hcall, this.symm]
  . simp [Located, setPlace, hcall]
  . intro i r hr hlinking hstoring hready hir
    cases r with
    | stored =>
      have : i ≠ task.id := by simpa using hir
      simp [Located, setPlace, Function.update_of_ne this]
    | linking th => exact absurd rfl (hlinking th)
    | storing th => exact absurd rfl (hstoring th)
    | ready th =>
      cases th with
      | none => rfl
      | some th => exact absurd rfl (hready th)
    | done => exact absurd rfl hr
    | _ => rfl
  . simp [Located, setPlace]
  . simp [Located, setPlace]
  . intro i task' hi
    simp only [setPlace, Function.update_apply] at hi
    split at hi
    . next heq =>
      cases hi
      exact heq.symm
    . exact h.stored i task' hi
  . simp [Place.worker]

theorem callLink {thread : Thread} {task : ScheduledTask} {dependency : NodeID} {origin : Origin}
    (h : Placed s) (hcall : s.calls thread = some (.link task dependency origin))
    : Placed (({ (s.linkTask task dependency).recordAdded ⟨task, dependency, origin⟩ with
        calls := Function.update s.calls thread (some (
          if dependency = kInvalidNodeID then .enqueue task else .store task dependency)) }).setPlace
            task.id (if dependency = kInvalidNodeID then .ready (some thread) else .storing thread)) := by
  have hp : s.history.place task.id = .linking thread :=
    (h.located _ _).mp ⟨task, dependency, origin, hcall, rfl⟩
  obtain ⟨graph, links, heq⟩ := linkTask_eq s task dependency
  rw [heq]
  refine h.of_move hp (moved_of_call rfl rfl ?_ ?_ ?_ ?_ ?_ ?_) le_rfl h.stored h.queue rfl rfl
    (fun _ _ => id) rfl rfl rfl rfl ?_ ?_ ?_
  . intro i hi
    have : i ≠ task.id := by simpa using hi
    simp only [Located, setPlace, hcall, Function.update_self]
    split <;> simp [this.symm]
  . intro i hi
    split at hi
    . simp [Located, setPlace, *]
    . have : i ≠ task.id := by simpa using hi
      simp [Located, setPlace, this.symm, *]
  . intro i hi
    split at hi
    . have : i ≠ task.id := by simpa using hi
      simp [Located, setPlace, this.symm, *]
    . simp [Located, setPlace, *]
  . intro i r hr hlinking hstoring hready hir
    cases r with
    | linking th => exact absurd rfl (hlinking th)
    | storing th => exact absurd rfl (hstoring th)
    | ready th =>
      cases th with
      | none => rfl
      | some th => exact absurd rfl (hready th)
    | done => exact absurd rfl hr
    | _ => rfl
  . simp only [Located, setPlace, Function.update_self]
    split <;> simp
  . split <;> simp [Located, setPlace, *]
  . split <;> simp [Place.worker]
  . split <;> simp [Place.isStarted]
  . split <;> simp [Place.isFinished]

theorem addTask {thread : Thread} (h : Placed s) (hcall : s.calls thread = none) (task : Task)
    (dependency dependent : NodeID) (origin : Origin)
    : Placed (s.addTask thread task dependency dependent origin) := by
  have hp : s.history.place s.taskCounter = .unallocated := (h.located _ _).mp (.inr le_rfl)
  refine h.of_move hp (moved_of_call rfl rfl ?_ ?_ ?_ ?_ ?_ ?_) (Nat.le_succ _) h.stored h.queue rfl
    rfl (fun _ _ => id) rfl rfl rfl rfl ?_ rfl rfl
  . intro i hi
    have : i ≠ s.taskCounter := by simpa using hi
    simp [Located, State.addTask, setPlace, hcall, this.symm]
  . simp [Located, State.addTask, setPlace, hcall]
  . simp [Located, State.addTask, setPlace, hcall]
  . intro i r hr hlinking hstoring hready hir
    cases r with
    | unallocated =>
      have : i ≠ s.taskCounter := by simpa using hir
      simp only [Located, State.addTask, setPlace]
      omega
    | linking th => exact absurd rfl (hlinking th)
    | storing th => exact absurd rfl (hstoring th)
    | ready th =>
      cases th with
      | none => rfl
      | some th => exact absurd rfl (hready th)
    | done => exact absurd rfl hr
    | _ => rfl
  . simp [Located, State.addTask, setPlace, h.counter.ne']
  . simp [Located, State.addTask, setPlace]
  . simp [Place.worker]

theorem release {task : ScheduledTask} (h : Placed s) (htask : s.tasks id = some task)
    (hemit : s.emit = none) (graph : Countdown.Graph NodeID)
    : Placed ({ s with
        graph := graph
        tasks := Function.update s.tasks id none
        emit := some (.enqueue task) }.setPlace id (.ready none)) := by
  have hid := h.stored id task htask
  have hp : s.history.place id = .stored := (h.located _ _).mp ⟨task, htask⟩
  refine h.of_move hp ⟨rfl, ?_, ?_, ?_⟩ le_rfl ?_ h.queue rfl rfl (fun _ _ h => h) rfl rfl rfl rfl ?_
    rfl rfl
  . intro i r hr hkeep
    cases r with
    | stored =>
      have : i ≠ id := by simpa using hkeep
      simp [Located, setPlace, Function.update_of_ne this]
    | ready thread =>
      cases thread with
      | none =>
        have : i ≠ id := by simpa using hkeep
        simp [Located, setPlace, hemit, hid, this.symm]
      | some thread => rfl
    | done => exact absurd rfl hr
    | _ => rfl
  . simp [Located, setPlace]
  . simp [Located, setPlace, hid]
  . intro i task' hi
    simp only [setPlace, Function.update_apply] at hi
    split at hi
    . cases hi
    . exact h.stored i task' hi
  . simp [Place.worker]

theorem complete_step {w : Nat} (h : Placed s) (hloop : s.loop = .complete id w)
    : Placed ({ s with loop := .processDependents id w }.setPlace id (.processing w)) := by
  have hp : s.history.place id = .completed w := (h.located _ _).mp (.inr hloop)
  have hmessage := h.complete w id hloop
  refine h.of_move hp ⟨rfl, ?_, ?_, ?_⟩ le_rfl h.stored h.queue rfl rfl ?_ rfl rfl rfl rfl
    (.inr rfl) rfl rfl
  . intro i r hr hkeep
    cases r with
    | completed v =>
      simp only [Located, setPlace, hloop]
      grind
    | processing v =>
      simp only [Located, setPlace, hloop]
      grind
    | done => exact absurd rfl hr
    | ready thread => cases thread <;> rfl
    | _ => rfl
  . simp [Located, setPlace, hmessage]
  . simp [Located, setPlace]
  . simp [setPlace]

theorem dispatch {w : Nat} {workers : List Nat} {task : ScheduledTask} {tasks : List ScheduledTask}
    (h : Placed s) (hworkers : s.availableWorkers = w :: workers)
    (hqueue : s.taskQueue = task :: tasks)
    : Placed ({ s with
        availableWorkers := workers
        taskQueue := tasks
        inbox := Function.update s.inbox w (s.inbox w ++ [task]) }.setPlace task.id (.sent w)) := by
  have hp : s.history.place task.id = .queued := (h.located _ _).mp ⟨task, by simp [hqueue], rfl⟩
  have hnodup := h.queue
  rw [hqueue, List.map_cons, List.nodup_cons] at hnodup
  have havailable := h.available_nodup
  rw [hworkers, List.nodup_cons] at havailable
  obtain ⟨hlt, hfree⟩ := h.available w (by simp [hworkers])
  have hinbox : s.inbox w = [] := by
    cases hw : s.inbox w with
    | nil => rfl
    | cons task' _ =>
      have : s.history.place task'.id = .sent w := (h.located _ _).mp ⟨task', by simp [hw], rfl⟩
      exact absurd (by rw [this]; rfl) (hfree task'.id)
  have hmoved : Moved s ({ s with
      availableWorkers := workers
      taskQueue := tasks
      inbox := Function.update s.inbox w (s.inbox w ++ [task]) }.setPlace task.id (.sent w))
      task.id .queued (.sent w) := by
    refine ⟨rfl, ?_, ?_, ?_⟩
    . intro i r hr hkeep
      cases r with
      | queued =>
        have : i ≠ task.id := by simpa using hkeep
        simp [Located, setPlace, hqueue, this.symm]
      | sent v =>
        simp only [Located, setPlace, Function.update_apply]
        split
        . next hv =>
          subst hv
          have : i ≠ task.id := by simpa using hkeep
          simp [this.symm]
        . rfl
      | done => exact absurd rfl hr
      | ready thread => cases thread <;> rfl
      | _ => rfl
    . simpa [Located, setPlace] using hnodup.1
    . simp [Located, setPlace]
  exact {
    counter := h.counter
    located := h.located_move hp hmoved
    stored := h.stored
    queue := hnodup.2
    inbox := by
      intro v
      simp only [setPlace, Function.update_apply, hinbox]
      split
      . simp
      . exact h.inbox v
    messages := h.messages
    complete := h.complete
    worker := by
      intro i j v hi hj
      rw [hmoved.place, Function.update_apply] at hi hj
      have := h.worker i j v
      have := hfree i
      have := hfree j
      grind [Place.worker]
    worker_lt := by
      intro i v hi
      rw [hmoved.place, Function.update_apply] at hi
      have := h.worker_lt i v
      change v < s.numWorkers
      grind [Place.worker]
    available_nodup := havailable.2
    available := by
      intro v hv
      obtain ⟨hv', hvfree⟩ := h.available v (by rw [hworkers]; exact List.mem_cons_of_mem _ hv)
      refine ⟨hv', ?_⟩
      intro i hi
      rw [hmoved.place, Function.update_apply] at hi
      have := hvfree i
      have : w ≠ v := fun heq => havailable.1 (heq ▸ hv)
      grind [Place.worker]
    started := by
      intro i
      rw [hmoved.place]
      apply h.started_move
      rw [hp]
      rfl
    started_nodup := h.started_nodup
    finished := by
      intro i
      rw [hmoved.place]
      apply h.finished_move
      rw [hp]
      rfl }

theorem unlockScheduler {w : Nat} (h : Placed s) (hloop : s.loop = .processDependents id w)
    : Placed ({ s with
        lock := none
        loop := .processTaskQueue
        availableWorkers := w :: s.availableWorkers }.setPlace id .done) := by
  have hp : s.history.place id = .processing w := (h.located _ _).mp hloop
  have hbusy : (s.history.place id).worker = some w := by
    rw [hp]
    rfl
  have hmoved : Moved s ({ s with
      lock := none
      loop := .processTaskQueue
      availableWorkers := w :: s.availableWorkers }.setPlace id .done)
      id (.processing w) .done := by
    refine ⟨rfl, ?_, ?_, ?_⟩
    . intro i r hr hkeep
      cases r with
      | completed v => simp [Located, setPlace, hloop]
      | processing v =>
        simp only [Located, setPlace, hloop]
        grind
      | done => exact absurd rfl hr
      | ready thread => cases thread <;> rfl
      | _ => rfl
    . simp [Located, setPlace]
    . simp
  exact {
    counter := h.counter
    located := h.located_move hp hmoved
    stored := h.stored
    queue := h.queue
    inbox := h.inbox
    messages := h.messages
    complete := by simp [setPlace]
    worker := by
      rw [hmoved.place]
      apply h.worker_move
      exact .inl rfl
    worker_lt := by
      rw [hmoved.place]
      apply h.worker_lt_move
      exact .inl rfl
    available_nodup := by
      refine List.nodup_cons.mpr ⟨?_, h.available_nodup⟩
      intro hmem
      exact (h.available w hmem).2 id hbusy
    available := by
      intro v hv
      rcases List.mem_cons.mp hv with rfl | hv
      . refine ⟨h.worker_lt id v hbusy, ?_⟩
        intro i hi
        rw [hmoved.place, Function.update_apply] at hi
        have := h.worker i id v
        grind [Place.worker]
      . rw [hmoved.place]
        apply h.available_move
        . exact .inl rfl
        . exact hv
    started := by
      intro i
      rw [hmoved.place]
      apply h.started_move
      rw [hp]
      rfl
    started_nodup := h.started_nodup
    finished := by
      intro i
      rw [hmoved.place]
      apply h.finished_move
      rw [hp]
      rfl }

theorem start {w : Nat} {task : ScheduledTask} {tasks : List ScheduledTask} (h : Placed s)
    (hrunning : s.running w = none) (hinbox : s.inbox w = task :: tasks)
    : Placed (({ s with
        inbox := Function.update s.inbox w tasks
        running := Function.update s.running w (some (task, .start task))
        named := task.continuation :: s.named }.setPlace task.id (.running w)).recordStarted task) := by
  have hp : s.history.place task.id = .sent w := (h.located _ _).mp ⟨task, by simp [hinbox], rfl⟩
  have htasks : tasks = [] := by
    have := h.inbox w
    simp only [hinbox, List.length_cons] at this
    exact List.length_eq_zero_iff.mp (by omega)
  subst htasks
  have hmoved : Moved s (({ s with
      inbox := Function.update s.inbox w []
      running := Function.update s.running w (some (task, .start task))
      named := task.continuation :: s.named }.setPlace task.id (.running w)).recordStarted task)
      task.id (.sent w) (.running w) := by
    refine ⟨rfl, ?_, ?_, ?_⟩
    . intro i r hr hkeep
      cases r with
      | sent v =>
        simp only [Located, setPlace, recordStarted, Function.update_apply]
        split
        . next hv =>
          subst hv
          have : i ≠ task.id := by simpa using hkeep
          simp [hinbox, this.symm]
        . rfl
      | running v =>
        simp only [Located, setPlace, recordStarted, Function.update_apply]
        split
        . next hv =>
          subst hv
          have : i ≠ task.id := by simpa using hkeep
          simp [hrunning, this.symm]
        . rfl
      | done => exact absurd rfl hr
      | ready thread => cases thread <;> rfl
      | _ => rfl
    . simp [Located, setPlace, recordStarted]
    . simp [Located, setPlace, recordStarted]
  have hstarted : task.id ∉ s.history.started.map (·.id) := by
    rw [h.started, hp]
    simp [Place.isStarted]
  exact {
    counter := h.counter
    located := h.located_move hp hmoved
    stored := h.stored
    queue := h.queue
    inbox := by
      intro v
      simp only [setPlace, recordStarted, Function.update_apply]
      split
      . simp
      . exact h.inbox v
    messages := h.messages
    complete := h.complete
    worker := by
      rw [hmoved.place]
      apply h.worker_move
      rw [hp]
      exact .inr rfl
    worker_lt := by
      rw [hmoved.place]
      apply h.worker_lt_move
      rw [hp]
      exact .inr rfl
    available_nodup := h.available_nodup
    available := by
      rw [hmoved.place]
      apply h.available_move
      rw [hp]
      exact .inr rfl
    started := by
      intro i
      rw [hmoved.place, Function.update_apply]
      simp only [recordStarted, setPlace, List.map_cons, List.mem_cons, h.started]
      split
      . next hi => simp [hi, Place.isStarted]
      . next hi => simp [hi]
    started_nodup := List.nodup_cons.mpr ⟨hstarted, h.started_nodup⟩
    finished := by
      intro i
      rw [hmoved.place]
      apply h.finished_move
      rw [hp]
      rfl }

theorem finish {w : Nat} {task : ScheduledTask} {code : Code} (h : Placed s)
    (hrunning : s.running w = some (task, code))
    : Placed (({ s with
        running := Function.update s.running w none
        messages := s.messages ++ [Message.taskCompletion w task.id] }.setPlace
          task.id (.completed w)).recordFinished task.id) := by
  have hp : s.history.place task.id = .running w := (h.located _ _).mp ⟨task, code, hrunning, rfl⟩
  have hcompleted : ∀ v, ¬ Located s task.id (.completed v) := by
    intro v hl
    rw [h.located, hp] at hl
    cases hl
  have hmoved : Moved s (({ s with
      running := Function.update s.running w none
      messages := s.messages ++ [Message.taskCompletion w task.id] }.setPlace
        task.id (.completed w)).recordFinished task.id)
      task.id (.running w) (.completed w) := by
    refine ⟨rfl, ?_, ?_, ?_⟩
    . intro i r hr hkeep
      cases r with
      | completed v =>
        simp only [Located, setPlace, recordFinished, List.mem_append, List.mem_singleton]
        grind
      | running v =>
        simp only [Located, setPlace, recordFinished, Function.update_apply]
        split
        . next hv =>
          subst hv
          have : i ≠ task.id := by simpa using hkeep
          simp [hrunning, this.symm]
        . rfl
      | done => exact absurd rfl hr
      | ready thread => cases thread <;> rfl
      | _ => rfl
    . simp [Located, setPlace, recordFinished]
    . simp [Located, setPlace, recordFinished]
  exact {
    counter := h.counter
    located := h.located_move hp hmoved
    stored := h.stored
    queue := h.queue
    inbox := h.inbox
    messages := by
      intro v i
      simp only [setPlace, recordFinished, List.count_append, List.count_singleton]
      split
      . next heq =>
        have heq : Message.taskCompletion w task.id = .taskCompletion v i := by simpa using heq
        cases heq
        have : s.messages.count (.taskCompletion w task.id) = 0 :=
          List.count_eq_zero.mpr fun hmem => hcompleted w (.inl hmem)
        omega
      . exact h.messages v i
    complete := by
      intro v i hloop
      simp only [setPlace, recordFinished, List.mem_append, List.mem_singleton, not_or]
      refine ⟨h.complete v i hloop, ?_⟩
      intro heq
      cases heq
      exact hcompleted w (.inr hloop)
    worker := by
      rw [hmoved.place]
      apply h.worker_move
      rw [hp]
      exact .inr rfl
    worker_lt := by
      rw [hmoved.place]
      apply h.worker_lt_move
      rw [hp]
      exact .inr rfl
    available_nodup := h.available_nodup
    available := by
      rw [hmoved.place]
      apply h.available_move
      rw [hp]
      exact .inr rfl
    started := by
      intro i
      rw [hmoved.place]
      apply h.started_move
      rw [hp]
      rfl
    started_nodup := h.started_nodup
    finished := by
      intro i
      rw [hmoved.place, Function.update_apply]
      simp only [recordFinished, setPlace, List.mem_cons, h.finished]
      split
      . next hi => simp [hi, Place.isFinished]
      . next hi => simp [hi] }

theorem popCompletion {w : Nat} {messages : List Message} (h : Placed s) (hloop : s.loop = .popOne)
    (hmessages : s.messages = .taskCompletion w id :: messages)
    : Placed { s with messages := messages, loop := .complete id w } := by
  have hcount := h.messages w id
  rw [hmessages, List.count_cons_self] at hcount
  exact {
    counter := h.counter
    located := by
      intro i r
      rw [← h.located]
      cases r with
      | completed v =>
        simp only [Located, hloop, hmessages, List.mem_cons]
        grind
      | processing v => simp [Located, hloop]
      | ready thread => cases thread <;> rfl
      | _ => rfl
    stored := h.stored
    queue := h.queue
    inbox := h.inbox
    messages := by
      intro v i
      have := h.messages v i
      rw [hmessages, List.count_cons] at this
      exact (Nat.le_add_right _ _).trans this
    complete := by
      intro v i heq
      cases heq
      apply List.count_eq_zero.mp
      change messages.count (.taskCompletion w id) = 0
      omega
    worker := h.worker
    worker_lt := h.worker_lt
    available_nodup := h.available_nodup
    available := h.available
    started := h.started
    started_nodup := h.started_nodup
    finished := h.finished }

theorem setCode {w : Nat} {ctx : ScheduledTask} {code : Code} (h : Placed s)
    (hrunning : s.running w = some (ctx, code)) (code' : Code)
    : Placed (s.setCode w ctx code') := by
  refine h.of_located rfl ?_ rfl rfl rfl rfl (fun _ _ => rfl) (fun _ _ h => h) rfl rfl rfl rfl
  intro i r hr
  cases r with
  | running v =>
    simp only [Located, State.setCode, Function.update_apply]
    split
    . next hv =>
      subst hv
      simp [hrunning]
    . rfl
  | done => exact absurd rfl hr
  | ready thread => cases thread <;> rfl
  | _ => rfl

theorem of_loop (h : Placed s) (messages : List Message) (loop : Loop)
    (hmessages : ∀ w id,
      messages.count (.taskCompletion w id) = s.messages.count (.taskCompletion w id))
    (hloop : loop = s.loop ∨
      (∀ w id, loop ≠ .complete id w ∧ loop ≠ .processDependents id w) ∧
      ∀ w id, s.loop ≠ .complete id w ∧ s.loop ≠ .processDependents id w)
    : Placed { s with messages := messages, loop := loop } := by
  refine h.of_located rfl ?_ rfl rfl rfl rfl hmessages ?_ rfl rfl rfl rfl
  . intro i r hr
    have hmem : ∀ w id, Message.taskCompletion w id ∈ messages ↔ .taskCompletion w id ∈ s.messages := by
      intro w id
      rw [← List.count_pos_iff, hmessages, List.count_pos_iff]
    cases r with
    | completed v =>
      simp only [Located, hmem]
      grind
    | processing v =>
      simp only [Located]
      grind
    | done => exact absurd rfl hr
    | ready thread => cases thread <;> rfl
    | _ => rfl
  . intro w id heq
    rcases hloop with hloop | ⟨hloop, -⟩
    . rw [← hloop]
      exact heq
    . exact absurd heq (hloop w id).1

theorem callNotify {thread : Thread} {id : Nat} (h : Placed s)
    (hcall : s.calls thread = some (.notify id))
    : Placed { s with
        messages := s.messages ++ [Message.newTask]
        calls := Function.update s.calls thread none } := by
  refine h.of_located rfl ?_ rfl rfl rfl rfl (by simp) (fun _ _ h => h) rfl rfl rfl rfl
  intro i r hr
  have hcalls : ∀ th call, (∀ id, call ≠ .notify id) →
      (Function.update s.calls thread none th = some call ↔ s.calls th = some call) := by
    intro th call hne
    rw [Function.update_apply]
    split
    . next hth =>
      subst hth
      simp [hcall, (hne id).symm]
    . rfl
  match r with
  | .completed v => simp [Located]
  | .linking th | .storing th | .ready (some th) => simp [Located, hcalls]
  | .ready none | .unallocated | .stored | .queued | .sent _ | .running _ | .processing _ => rfl
  | .done => exact absurd rfl hr

theorem quiet (h : Placed s) (hstep : Quiet s s') : Placed s' := by
  cases hstep with
  | join =>
    have := h.of_loop (s.messages ++ [.join]) s.loop (by simp) (.inl rfl)
    apply this.frame
  | check hloop => exact h.of_loop _ _ (fun _ _ => rfl) (.inr ⟨by simp, by simp [hloop]⟩)
  | exit hloop => exact h.of_loop _ _ (fun _ _ => rfl) (.inr ⟨by simp, by simp [hloop]⟩)
  | popOne hloop => exact h.of_loop _ _ (fun _ _ => rfl) (.inr ⟨by simp, by simp [hloop]⟩)
  | @popJoin messages hloop hmessages =>
    have := h.of_loop messages .processTaskQueue (by simp [hmessages])
      (.inr ⟨by simp, by simp [hloop]⟩)
    apply this.frame
  | popNewTask hloop hmessages =>
    exact h.of_loop _ _ (by simp [hmessages]) (.inr ⟨by simp, by simp [hloop]⟩)
  | emitNotify hemit =>
    refine h.of_located rfl ?_ rfl rfl rfl rfl (by simp) (fun _ _ h => h) rfl rfl rfl rfl
    intro i r hr
    cases r with
    | completed v => simp [Located]
    | done => exact absurd rfl hr
    | ready thread => cases thread <;> simp [Located, hemit]
    | _ => rfl
  | callNotify hcall => exact (h.callNotify hcall).recordReturn _ _
  | allocateContinuation => apply h.frame

theorem code {w : Nat} {ctx : ScheduledTask} {code : Code} (h : Placed s)
    (hrunning : s.running w = some (ctx, code)) (hstep : CodeStep s w ctx code s')
    : Placed s' := by
  cases hstep with
  | wait => exact h.setCode hrunning _
  | release =>
    have := h.setCode hrunning .finished
    apply this.frame
  | plan =>
    refine Placed.setCode ?_ (by exact hrunning) _
    apply h.frame
  | planOperators => exact h.setCode hrunning _
  | planLinkExit =>
    obtain ⟨graph, links, heq⟩ := addLinkUnsafe_eq s _ _
    rw [heq]
    refine Placed.setCode ?_ (by exact hrunning) _
    apply h.frame
  | planLinks =>
    obtain ⟨graph, links, heq⟩ := addLinkUnsafe_eq s _ _
    rw [heq]
    refine Placed.setCode ?_ (by exact hrunning) _
    apply h.frame
  | planFire =>
    obtain ⟨graph, lock, fired, fault, heq⟩ := processDependents_eq (s.setCode w ctx .firing) _ _
    rw [heq]
    have := h.setCode hrunning .firing
    apply this.frame

theorem call {w : Nat} {ctx : ScheduledTask} {code : Code} {a : Action} (h : Placed s)
    (hrunning : s.running w = some (ctx, code)) (hcall : s.calls (.worker w) = none)
    (hstep : CallStep s w ctx code a s')
    : Placed s' := by
  cases hstep with
  | addTask => apply h.addTask hcall
  | spawnTask => apply h.addTask hcall
  | addTaskAfter => apply h.addTask hcall
  | applyIndices =>
    refine Placed.setCode ?_ (by exact hrunning) _
    apply Placed.addTask
    . apply h.frame
    . exact hcall
  | chainLast =>
    refine Placed.setCode ?_ (by exact hrunning) _
    apply h.addTask hcall
  | chain =>
    refine Placed.setCode ?_ (by exact hrunning) _
    apply Placed.addTask
    . apply h.frame
    . exact hcall
  | planOperator =>
    refine Placed.setCode ?_ (by exact hrunning) _
    apply Placed.addTask
    . apply h.frame
    . exact hcall
  | planExit =>
    refine Placed.setCode ?_ (by exact hrunning) _
    apply h.addTask hcall

theorem step {a : Action} (h : Placed s) (hstep : Step s a s') : Placed s' := by
  cases hstep with
  | quiet hquiet => exact h.quiet hquiet
  | dispatch _ hworkers hqueue => exact h.dispatch hworkers hqueue
  | popCompletion hloop hmessages => exact h.popCompletion hloop hmessages
  | @complete id w hloop =>
    obtain ⟨graph, lock, fired, fault, heq⟩ :=
      processDependents_eq { s with loop := .processDependents id w } .scheduler (.task id)
    rw [heq]
    have := h.complete_step hloop
    apply this.frame
  | emitEnqueue hemit => exact h.emitEnqueue hemit
  | popFrame => apply h.frame
  | @visit a m rest frames dependent hemit =>
    obtain ⟨graph, fired, fault, heq⟩ | ⟨graph, id, task, -, htask, heq⟩ :=
      visitDependent_eq s m rest frames dependent
    . rw [heq]
      apply h.frame
    . rw [heq]
      exact h.release htask hemit graph
  | unlockScheduler _ _ _ hloop => exact h.unlockScheduler hloop
  | unlockWorker _ _ _ hrunning =>
    have := h.setCode hrunning .finished
    apply this.frame
  | clientAdd hcall => apply h.addTask hcall
  | clientAddAfter hcall => apply h.addTask hcall
  | callLink _ hcall => exact h.callLink hcall
  | callEnqueue hcall => exact h.callEnqueue hcall
  | callStore hcall => exact (h.callStore hcall).recordReturn _ _
  | start hrunning hinbox => exact h.start hrunning hinbox
  | finish hrunning => exact h.finish hrunning
  | code hrunning _ hcode => exact h.code hrunning hcode
  | call hrunning hcall hcode => exact h.call hrunning hcall hcode

end Placed

end Hustle.Scheduler
