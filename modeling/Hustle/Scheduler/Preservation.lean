import Hustle.Scheduler.Invariant

/-!
This module shows that every step that is allowed keeps the invariant.
-/

namespace Hustle.Scheduler

open State

variable {s s' : State} {a : Action}

theorem Locked.of (h : Locked s) (hfault : s'.fault = none) (hlock : s'.lock = s.lock)
    (hframes : s'.graph.frames = s.graph.frames) (hemit : s.emit = none → s'.emit = none)
    (hloop : ∀ id w, s.loop = .processDependents id w → s'.loop = .processDependents id w)
    (hrunning : ∀ w ctx, s.running w = some (ctx, .firing) → s'.running w = some (ctx, .firing))
    : Locked s' where
  fault := hfault
  free := by
    intro hl
    rw [hlock] at hl
    obtain ⟨hf, he⟩ := h.free hl
    exact ⟨hframes.trans hf, hemit he⟩
  scheduler := by
    intro hl
    rw [hlock] at hl
    obtain ⟨id, w, hw⟩ := h.scheduler hl
    exact ⟨id, w, hloop id w hw⟩
  worker := by
    intro w hl
    rw [hlock] at hl
    obtain ⟨ctx, hctx⟩ := h.worker w hl
    exact ⟨ctx, hrunning w ctx hctx⟩

theorem stored_update {place : Nat → Place} {id : Nat} {q : Place} (h : place id ≠ .stored) (i : Nat)
    (hi : place i = .stored)
    : Function.update place id q i = .stored := by
  have : i ≠ id := fun heq => h (heq ▸ hi)
  rw [Function.update_of_ne this, hi]

/-! What a running task knows when one of its calls goes on. -/

theorem local_notify {ctx : ScheduledTask} {code : Code} {task : ScheduledTask}
    (h : s.Local ctx (some (.enqueue task)) code)
    : s.Local ctx (some (.notify task.id)) code := by
  cases code with
  | lambda => trivial
  | wait => trivial
  | chain => exact h
  | planLinkExit => exact h.2.2.elim
  | planFire =>
    obtain ⟨locals, -, -, -, hcall⟩ := h
    exact hcall.elim
  | release => cases h
  | firing => cases h
  | finished => cases h
  | plan => cases h.1
  | planOperators => cases h.1
  | planLinks => cases h.1

theorem local_notified {ctx : ScheduledTask} {code : Code} {id : Nat}
    (h : s.Local ctx (some (.notify id)) code)
    : s.Local ctx none code := by
  cases code with
  | lambda => trivial
  | wait => trivial
  | chain => exact h
  | planLinkExit => exact h.2.2.elim
  | planFire =>
    obtain ⟨locals, -, -, -, hcall⟩ := h
    exact hcall.elim
  | release => cases h
  | firing => cases h
  | finished => cases h
  | plan => cases h.1
  | planOperators => cases h.1
  | planLinks => cases h.1

theorem local_stored {ctx : ScheduledTask} {code : Code} (task : ScheduledTask) (dependency : NodeID)
    (h : s.Local ctx (some (.store task dependency)) code)
    (hstored : s.history.place task.id = .stored)
    : s.Local ctx none code := by
  cases code with
  | lambda => trivial
  | wait => trivial
  | chain => exact fun _ => h.2.2
  | planLinkExit =>
    obtain ⟨hpos, hb, -, a, ha, rfl, hcont⟩ := h
    exact ⟨hpos, hb, a, ha, hstored, hcont⟩
  | planFire =>
    obtain ⟨locals, henter, hb, hlinks, -, a, ha, -, horigin, hdep, hcont⟩ := h
    exact ⟨locals, henter, hb, hlinks, a, ha, horigin, hdep, hcont⟩
  | release => cases h
  | firing => cases h
  | finished => cases h
  | plan => cases h.1
  | planOperators => cases h.1
  | planLinks => cases h.1

namespace Inv

theorem of_loop (h : Inv s) {messages : List Message} {halt joined : Bool} {loop : Loop}
    {emit : Option Emit}
    (hplaced : Placed { s with
      messages := messages
      halt := halt
      loop := loop
      emit := emit
      history := { s.history with joined := joined } })
    (hemit : emit = s.emit ∨ emit = none)
    (hloop : ∀ id w, s.loop = .processDependents id w → loop = .processDependents id w)
    : Inv { s with
        messages := messages
        halt := halt
        loop := loop
        emit := emit
        history := { s.history with joined := joined } } := by
  refine h.of_inert ⟨rfl, rfl, rfl, rfl, rfl, rfl, fun _ => rfl, fun _ h => h, fun _ h => h⟩ hplaced
    rfl rfl rfl rfl ?_ ?_
  . intro task ht
    simp only [Has] at ht ⊢
    rcases hemit with hemit | hemit
    . rwa [hemit] at ht
    . simp only [hemit, reduceCtorEq, false_or] at ht
      grind
  . refine h.locked.of h.locked.fault rfl rfl ?_ hloop (fun _ _ h => h)
    intro he
    rcases hemit with hemit | hemit
    . exact hemit.trans he
    . exact hemit

theorem dispatch {w : Nat} {workers : List Nat} {task : ScheduledTask} {tasks : List ScheduledTask}
    (h : Inv s) (hworkers : s.availableWorkers = w :: workers) (hqueue : s.taskQueue = task :: tasks)
    : Inv ({ s with
        availableWorkers := workers
        taskQueue := tasks
        inbox := Function.update s.inbox w (s.inbox w ++ [task]) }.setPlace task.id (.sent w)) := by
  have hp : s.history.place task.id = .queued :=
    (h.placed.located _ _).mp ⟨task, by simp [hqueue], rfl⟩
  refine h.of_inert ⟨rfl, rfl, rfl, rfl, rfl, rfl, phase_update (by rw [hp]; rfl), ?_, fun _ h => h⟩
    (h.placed.dispatch hworkers hqueue) rfl rfl rfl rfl ?_ ?_
  . exact stored_update (by simp [hp])
  . intro t ht
    simp only [Has, setPlace, hqueue, List.mem_cons, Function.update_apply] at ht ⊢
    grind
  . exact h.locked.of h.locked.fault rfl rfl (fun h => h) (fun _ _ h => h) (fun _ _ h => h)

theorem popCompletion {w id : Nat} {messages : List Message} (h : Inv s) (hloop : s.loop = .popOne)
    (hmessages : s.messages = .taskCompletion w id :: messages)
    : Inv { s with messages := messages, loop := .complete id w } :=
  h.of_loop (h.placed.popCompletion hloop hmessages) (.inl rfl) (by simp [hloop])

theorem emitEnqueue {task : ScheduledTask} (h : Inv s) (hemit : s.emit = some (.enqueue task))
    : Inv ({ s with
        taskQueue := s.taskQueue ++ [task], emit := some .notify }.setPlace task.id .queued) := by
  have hp : s.history.place task.id = .ready none := (h.placed.located _ _).mp ⟨task, hemit, rfl⟩
  refine h.of_inert ⟨rfl, rfl, rfl, rfl, rfl, rfl, phase_update (by rw [hp]; rfl), ?_, fun _ h => h⟩
    (h.placed.emitEnqueue hemit) rfl rfl rfl rfl ?_ ?_
  . exact stored_update (by simp [hp])
  . intro t ht
    simp only [Has, setPlace, hemit, List.mem_append] at ht ⊢
    grind
  . exact h.locked.of h.locked.fault rfl rfl (by simp [hemit]) (fun _ _ h => h) (fun _ _ h => h)

theorem unlockScheduler {w id : Nat} (h : Inv s) (hframes : s.graph.frames = [])
    (hemit : s.emit = none) (hloop : s.loop = .processDependents id w)
    : Inv ({ s with
        lock := none
        loop := .processTaskQueue
        availableWorkers := w :: s.availableWorkers }.setPlace id .done) := by
  have hp : s.history.place id = .processing w := (h.placed.located _ _).mp hloop
  refine h.of_inert ⟨rfl, rfl, rfl, rfl, rfl, rfl, phase_update (by rw [hp]; rfl), ?_, fun _ h => h⟩
    (h.placed.unlockScheduler hloop) rfl rfl rfl rfl (fun _ h => h) ?_
  . exact stored_update (by simp [hp])
  . exact ⟨h.locked.fault, fun _ => ⟨hframes, hemit⟩, by simp [setPlace], by simp [setPlace]⟩

/--
A step of one thread that is not a call of `addTask` afterwards.
-/
theorem of_thread (h : Inv s) (hinert : Inert s s') (hplaced : Placed s') (th : Thread)
    (hcalls : ∀ th', th' ≠ th → s'.calls th' = s.calls th')
    (hcall : ∀ task dependency origin, s'.calls th ≠ some (.link task dependency origin) ∧
      s'.calls th ≠ some (.store task dependency))
    (hrunning : ∀ w, .worker w ≠ th → s'.running w = s.running w)
    (hlocal : ∀ w ctx code, th = .worker w → s'.running w = some (ctx, code) →
      ctx ∈ s'.history.started ∧ s'.Local ctx (s'.calls th) code ∧
      ∀ rest cDependent next, code = .chain rest cDependent next → ∀ task ∈ rest, task.Valid)
    (hidle : ∀ w, th = .worker w → s'.calls th ≠ none → s'.running w ≠ none)
    (hhas : ∀ task, s'.Has task → s.Has task)
    (hstarted : ∀ task ∈ s'.history.started, task ∈ s.history.started ∨ s.Has task)
    (hmono : ∀ task ∈ s.history.started, task ∈ s'.history.started)
    (hnamed : ∀ c ∈ s'.named, c ∈ s.named ∨ ∃ task ∈ s'.history.started, s.Has task ∧
      task.continuation = c)
    (hlocked : Locked s')
    : Inv s' where
  placed := hplaced
  ordered := by
    rw [hinert.ledger]
    exact h.ordered
  records := by
    apply h.records.of hinert.added
    . intro m n hmn
      rw [Linked, hinert.links]
      exact hmn
    . intro id hid
      rwa [hinert.phase]
    . exact hhas
    . exact hstarted
    . intro w ctx code hr
      by_cases hw : Thread.worker w = th
      . exact .inr (hlocal w ctx code hw.symm hr).1
      . rw [hrunning w hw] at hr
        exact .inl ⟨code, hr⟩
    . exact hmono
    . intro c hc
      rcases hnamed c hc with hc | ⟨task, ht, hhas, rfl⟩
      . exact .inl hc
      . right
        obtain ⟨a, ha, rfl⟩ := h.records.known task hhas
        rcases h.records.continuation a ha with heq | ⟨⟨n, hn⟩, hlink⟩
        . exact .inl heq
        . refine .inr ⟨n, hn, ?_, .inr ⟨a.task, ht, rfl⟩⟩
          rw [hinert.counter]
          rw [hn] at hlink
          exact h.ordered.linked_continuation _ n hlink
    . exact hinert.counter.ge
    . intro n _
      rw [hinert.owner]
    . intro th' task dependency origin hc
      by_cases hth : th' = th
      . subst hth
        exact absurd hc (hcall task dependency origin).1
      . rw [hcalls th' hth] at hc
        exact h.records.call_valid th' task dependency origin hc
    . intro w ctx rest cDependent next hr
      by_cases hw : Thread.worker w = th
      . exact (hlocal w ctx _ hw.symm hr).2.2 rest cDependent next rfl
      . rw [hrunning w hw] at hr
        exact h.records.chain_valid w ctx rest cDependent next hr
  threads := by
    apply Threads.of h
    . intro k
      by_cases hth : Thread.client k = th
      . rw [hth]
        cases hc : s'.calls th with
        | none => trivial
        | some call =>
          cases call with
          | enqueue task => trivial
          | notify task => trivial
          | link task dependency origin => exact absurd hc (hcall task dependency origin).1
          | store task dependency => exact absurd hc (hcall task dependency .client).2
      . rw [hcalls _ hth]
        apply ClientCall.of (h.threads.client k)
        . intro id hid
          rwa [hinert.phase]
        . exact hinert.named
    . intro w ctx code hr
      by_cases hw : Thread.worker w = th
      . rw [hw]
        exact .inr (hlocal w ctx code hw.symm hr).2.1
      . rw [hrunning w hw] at hr
        exact .inl ⟨hr, hcalls _ hw, hinert.toExtends ctx.id⟩
    . intro th' task dependency hc
      by_cases hth : th' = th
      . subst hth
        exact absurd hc (hcall task dependency .client).2
      . rw [hcalls th' hth] at hc
        simp only [Linked, Fired, hinert.links, hinert.fired]
        exact h.threads.store th' task dependency hc
    . intro w hc
      by_cases hw : Thread.worker w = th
      . exact hidle w hw.symm (hw ▸ hc)
      . rw [hcalls _ hw] at hc
        rw [hrunning w hw]
        exact h.threads.idle w hc
  locked := hlocked

theorem local_call (h : Inv s) (hinert : Inert s s') {th : Thread} {call : Option Call}
    (hcall : ∀ ctx code, s.Local ctx (s.calls th) code → s.Local ctx call code)
    (hcalls : s'.calls th = call) (hrunning : s'.running = s.running)
    (hstarted : s'.history.started = s.history.started)
    (hnone : ∀ task dependency, call ≠ some (.store task dependency))
    (w : Nat) (ctx : ScheduledTask) (code : Code) (hth : th = .worker w)
    (hr : s'.running w = some (ctx, code))
    : ctx ∈ s'.history.started ∧ s'.Local ctx (s'.calls th) code ∧
      ∀ rest cDependent next, code = .chain rest cDependent next → ∀ task ∈ rest, task.Valid := by
  rw [hrunning] at hr
  refine ⟨?_, ?_, ?_⟩
  . rw [hstarted]
    exact h.records.running w ctx code hr
  . rw [hcalls]
    apply (hinert.toExtends ctx.id).localCode h.recorded
    . apply hcall
      rw [hth]
      exact h.threads.code w ctx code hr
    . intro task dependency hc
      exact absurd hc (hnone task dependency)
  . rintro rest cDependent next rfl
    exact h.records.chain_valid w ctx rest cDependent next hr

theorem callEnqueue {thread : Thread} {task : ScheduledTask} (h : Inv s)
    (hcall : s.calls thread = some (.enqueue task))
    : Inv ({ s with
        taskQueue := s.taskQueue ++ [task]
        calls := Function.update s.calls thread (some (.notify task.id)) }.setPlace task.id .queued) := by
  have hp : s.history.place task.id = .ready (some thread) :=
    (h.placed.located _ _).mp ⟨task, hcall, rfl⟩
  have hinert : Inert s ({ s with
      taskQueue := s.taskQueue ++ [task]
      calls := Function.update s.calls thread (some (.notify task.id)) }.setPlace task.id .queued) :=
    ⟨rfl, rfl, rfl, rfl, rfl, rfl, phase_update (by rw [hp]; rfl), stored_update (by simp [hp]),
      fun _ h => h⟩
  refine h.of_thread hinert (h.placed.callEnqueue hcall) thread ?_ ?_ (fun _ _ => rfl) ?_ ?_ ?_
    (fun _ ht => .inl ht) (fun _ ht => ht) (fun _ hc => .inl hc) ?_
  . intro th hth
    exact Function.update_of_ne hth _ _
  . simp [setPlace]
  . apply h.local_call hinert
    . intro ctx code hl
      rw [hcall] at hl
      exact local_notify hl
    . exact Function.update_self ..
    . rfl
    . rfl
    . simp
  . rintro w rfl -
    exact h.threads.idle w (by simp [hcall])
  . intro t ht
    simp only [Has, setPlace, List.mem_append, Function.update_apply] at ht ⊢
    grind
  . exact h.locked.of h.locked.fault rfl rfl (fun h => h) (fun _ _ h => h) (fun _ _ h => h)

theorem recordReturn (h : Inv s) (thread : Thread) (id : Nat) : Inv (s.recordReturn thread id) := by
  cases thread with
  | worker w => exact h
  | client k =>
    have hplaced := h.placed.recordReturn (.client k) id
    simp only [State.recordReturn] at hplaced ⊢
    split
    . exact h
    . next hjoined =>
      rw [if_neg hjoined] at hplaced
      exact h.of_inert ⟨rfl, rfl, rfl, rfl, rfl, rfl, fun _ => rfl, fun _ h => h, fun _ h => h⟩
        hplaced rfl rfl rfl rfl (fun _ h => h)
        (h.locked.of h.locked.fault rfl rfl (fun h => h) (fun _ _ h => h) (fun _ _ h => h))

theorem callNotify {thread : Thread} {id : Nat} (h : Inv s)
    (hcall : s.calls thread = some (.notify id))
    : Inv ({ s with
        messages := s.messages ++ [Message.newTask]
        calls := Function.update s.calls thread none }.recordReturn thread id) := by
  apply recordReturn
  have hinert : Inert s { s with
      messages := s.messages ++ [Message.newTask]
      calls := Function.update s.calls thread none } :=
    ⟨rfl, rfl, rfl, rfl, rfl, rfl, fun _ => rfl, fun _ h => h, fun _ h => h⟩
  refine h.of_thread hinert ?_ thread ?_ ?_ (fun _ _ => rfl) ?_ ?_ ?_
    (fun _ ht => .inl ht) (fun _ ht => ht) (fun _ hc => .inl hc) ?_
  . exact h.placed.callNotify hcall
  . intro th hth
    exact Function.update_of_ne hth _ _
  . simp
  . apply h.local_call hinert
    . intro ctx code hl
      rw [hcall] at hl
      exact local_notified hl
    . exact Function.update_self ..
    . rfl
    . rfl
    . simp
  . simp
  . intro t ht
    simp only [Has, Function.update_apply] at ht ⊢
    grind
  . exact h.locked.of h.locked.fault rfl rfl (fun h => h) (fun _ _ h => h) (fun _ _ h => h)

theorem callStore {thread : Thread} {task : ScheduledTask} {dependency : NodeID} (h : Inv s)
    (hcall : s.calls thread = some (.store task dependency))
    : Inv (({ s with
        tasks := Function.update s.tasks task.id (some task)
        calls := Function.update s.calls thread none }.setPlace
          task.id .stored).recordReturn thread task.id) := by
  have hp : s.history.place task.id = .storing thread :=
    (h.placed.located _ _).mp ⟨task, dependency, hcall, rfl⟩
  apply recordReturn
  have hinert : Inert s ({ s with
      tasks := Function.update s.tasks task.id (some task)
      calls := Function.update s.calls thread none }.setPlace task.id .stored) :=
    ⟨rfl, rfl, rfl, rfl, rfl, rfl, phase_update (by rw [hp]; rfl), stored_update (by simp [hp]),
      fun _ h => h⟩
  refine h.of_thread hinert (h.placed.callStore hcall) thread ?_ ?_ (fun _ _ => rfl) ?_ ?_ ?_
    (fun _ ht => .inl ht) (fun _ ht => ht) (fun _ hc => .inl hc) ?_
  . intro th hth
    exact Function.update_of_ne hth _ _
  . simp [setPlace]
  . rintro w ctx code rfl hr
    refine ⟨h.records.running w ctx code hr, ?_, ?_⟩
    . have hcall' : ({ s with
          tasks := Function.update s.tasks task.id (some task)
          calls := Function.update s.calls (.worker w) none }.setPlace task.id .stored).calls (.worker w)
          = none := Function.update_self ..
      rw [hcall']
      refine local_stored task dependency ?_ (Function.update_self task.id _ _)
      apply (hinert.toExtends ctx.id).localCode h.recorded
      . rw [← hcall]
        exact h.threads.code w ctx code hr
      . rintro _ _ ⟨⟩
        rw [hp]
        rfl
    . rintro rest cDependent next rfl
      exact h.records.chain_valid w ctx rest cDependent next hr
  . simp [setPlace]
  . intro t ht
    simp only [Has, setPlace, Function.update_apply] at ht ⊢
    grind
  . exact h.locked.of h.locked.fault rfl rfl (fun h => h) (fun _ _ h => h) (fun _ _ h => h)

theorem local_start (h : Inv s) {w : Nat} {task : ScheduledTask} (hp : s.history.place task.id = .sent w)
    : s.Local task none (.start task) := by
  cases ht : task.task with
  | lambda => simp [Code.start, ht, Local, FunctorCall]
  | release => simp [Code.start, ht, Local]
  | chain =>
    simp only [Code.start, ht, Local, ChainCall]
    exact fun _ => .inl ⟨rfl, rfl⟩
  | plan =>
    simp only [Code.start, ht, Local, true_and]
    intro a ha i hi
    obtain ⟨t, hmem, hid⟩ := h.records.operator a ha _ i hi
    have := (h.placed.started task.id).mp (List.mem_map.mpr ⟨t, hmem, hid⟩)
    rw [hp] at this
    cases this

theorem chain_valid_start (h : Inv s) {task : ScheduledTask} (hhas : s.Has task) (rest : List Task)
    (cDependent : NodeID) (next : Option Nat) (hcode : Code.start task = .chain rest cDependent next)
    : ∀ t ∈ rest, t.Valid := by
  obtain ⟨a, ha, rfl⟩ := h.records.known task hhas
  have hvalid := h.records.valid a ha
  cases htask : a.task.task with
  | chain tasks =>
    rw [htask] at hvalid
    rw [Code.start, htask] at hcode
    cases hcode
    cases hvalid with
    | chain hvalid => exact fun t ht => hvalid t (List.mem_reverse.mp ht)
  | _ =>
    rw [Code.start, htask] at hcode
    cases hcode

theorem start {w : Nat} {task : ScheduledTask} {tasks : List ScheduledTask} (h : Inv s)
    (hrunning : s.running w = none) (hinbox : s.inbox w = task :: tasks)
    : Inv (({ s with
        inbox := Function.update s.inbox w tasks
        running := Function.update s.running w (some (task, .start task))
        named := task.continuation :: s.named }.setPlace task.id (.running w)).recordStarted task) := by
  have hp : s.history.place task.id = .sent w :=
    (h.placed.located _ _).mp ⟨task, by simp [hinbox], rfl⟩
  have hhas : s.Has task := .inr (.inr (.inr (.inr (.inr (.inl ⟨w, by simp [hinbox]⟩)))))
  have hcall : s.calls (.worker w) = none := by
    by_contra hne
    exact h.threads.idle w hne hrunning
  have hinert : Inert s (({ s with
      inbox := Function.update s.inbox w tasks
      running := Function.update s.running w (some (task, .start task))
      named := task.continuation :: s.named }.setPlace task.id (.running w)).recordStarted task) :=
    ⟨rfl, rfl, rfl, rfl, rfl, rfl, phase_update (by rw [hp]; rfl), stored_update (by simp [hp]),
      fun _ hc => List.mem_cons_of_mem _ hc⟩
  refine h.of_thread hinert (h.placed.start hrunning hinbox) (.worker w) (fun _ _ => rfl) ?_ ?_ ?_ ?_ ?_
    ?_ ?_ ?_ ?_
  . simp [setPlace, recordStarted, hcall]
  . intro v hv
    exact Function.update_of_ne (by simpa using hv) _ _
  . rintro v ctx code ⟨⟩ hr
    simp only [setPlace, recordStarted, Function.update_self, Option.some.injEq, Prod.mk.injEq] at hr
    obtain ⟨rfl, rfl⟩ := hr
    refine ⟨List.mem_cons_self, ?_, h.chain_valid_start hhas⟩
    apply (hinert.toExtends _).localCode h.recorded
    . simp only [setPlace, recordStarted, hcall]
      exact h.local_start hp
    . simp [setPlace, recordStarted, hcall]
  . simp [setPlace, recordStarted]
  . intro t ht
    simp only [Has, setPlace, recordStarted, Function.update_apply] at ht ⊢
    grind
  . intro t ht
    rcases List.mem_cons.mp ht with rfl | ht
    . exact .inr hhas
    . exact .inl ht
  . exact fun t ht => List.mem_cons_of_mem _ ht
  . intro c hc
    rcases List.mem_cons.mp hc with rfl | hc
    . exact .inr ⟨task, List.mem_cons_self, hhas, rfl⟩
    . exact .inl hc
  . refine h.locked.of h.locked.fault rfl rfl (fun h => h) (fun _ _ h => h) ?_
    intro v ctx hv
    have : v ≠ w := by
      rintro rfl
      rw [hrunning] at hv
      cases hv
    simpa [setPlace, recordStarted, Function.update_of_ne this] using hv

theorem finish {w : Nat} {task : ScheduledTask} {code : Code} (h : Inv s)
    (hrunning : s.running w = some (task, code)) (hcode : code.Returns)
    (hcall : s.calls (.worker w) = none)
    : Inv (({ s with
        running := Function.update s.running w none
        messages := s.messages ++ [Message.taskCompletion w task.id] }.setPlace
          task.id (.completed w)).recordFinished task.id) := by
  have hp : s.history.place task.id = .running w :=
    (h.placed.located _ _).mp ⟨task, code, hrunning, rfl⟩
  refine h.of_thread ⟨rfl, rfl, rfl, rfl, rfl, rfl, phase_update (by rw [hp]; rfl),
    stored_update (by simp [hp]), fun _ h => h⟩ (h.placed.finish hrunning) (.worker w)
    (fun _ _ => rfl) ?_ ?_ ?_ ?_ ?_ (fun _ ht => .inl ht) (fun _ ht => ht) (fun _ hc => .inl hc) ?_
  . simp [setPlace, recordFinished, hcall]
  . intro v hv
    exact Function.update_of_ne (by simpa using hv) _ _
  . rintro v ctx code' ⟨⟩ hr
    simp [setPlace, recordFinished] at hr
  . simp [setPlace, recordFinished, hcall]
  . intro t ht
    simp only [Has, setPlace, recordFinished, Function.update_apply] at ht ⊢
    grind
  . refine h.locked.of h.locked.fault rfl rfl (fun h => h) (fun _ _ h => h) ?_
    intro v ctx hv
    have : v ≠ w := by
      rintro rfl
      rw [hrunning] at hv
      cases hv
      exact hcode
    simpa [setPlace, recordFinished, Function.update_of_ne this] using hv

theorem setCode {w : Nat} {ctx : ScheduledTask} {code : Code} (h : Inv s) (lock : Option Holder)
    (code' : Code) (hrunning : s.running w = some (ctx, code)) (hcall : s.calls (.worker w) = none)
    (hlocal : s.Local ctx none code') (hchain : ∀ rest cDependent next,
      code' = .chain rest cDependent next → ∀ task ∈ rest, task.Valid)
    (hlocked : Locked ({ s with lock := lock }.setCode w ctx code'))
    : Inv ({ s with lock := lock }.setCode w ctx code') := by
  have hinert : Inert s ({ s with lock := lock }.setCode w ctx code') :=
    ⟨rfl, rfl, rfl, rfl, rfl, rfl, fun _ => rfl, fun _ h => h, fun _ h => h⟩
  have hplaced : Placed ({ s with lock := lock }.setCode w ctx code') := by
    refine Placed.setCode ?_ (by exact hrunning) _
    apply h.placed.frame
  refine h.of_thread hinert hplaced (.worker w) (fun _ _ => rfl) ?_ ?_ ?_ ?_ ?_ (fun _ ht => .inl ht)
    (fun _ ht => ht) (fun _ hc => .inl hc) hlocked
  . simp [State.setCode, hcall]
  . intro v hv
    exact Function.update_of_ne (by simpa using hv) _ _
  . rintro v ctx' code'' ⟨⟩ hr
    simp only [State.setCode, Function.update_self, Option.some.injEq, Prod.mk.injEq] at hr
    obtain ⟨rfl, rfl⟩ := hr
    refine ⟨h.records.running w ctx code hrunning, ?_, hchain⟩
    apply (hinert.toExtends _).localCode h.recorded
    . simp only [State.setCode, hcall]
      exact hlocal
    . simp [State.setCode, hcall]
  . simp [State.setCode]
  . intro t ht
    simp only [Has, State.setCode, Function.update_apply] at ht ⊢
    grind

theorem unlockWorker {w : Nat} {task : ScheduledTask} (h : Inv s) (hframes : s.graph.frames = [])
    (hemit : s.emit = none) (hrunning : s.running w = some (task, .firing))
    : Inv { s with
        lock := none, running := Function.update s.running w (some (task, .finished)) } := by
  have hcall : s.calls (.worker w) = none := h.threads.code w task .firing hrunning
  refine h.setCode none .finished hrunning hcall ?_ ?_ ?_
  . rfl
  . simp
  . exact ⟨h.locked.fault, fun _ => ⟨hframes, hemit⟩, by simp [State.setCode], by simp [State.setCode]⟩

theorem setCode_locked {w : Nat} {ctx : ScheduledTask} {code code' : Code} (h : Inv s)
    (hrunning : s.running w = some (ctx, code)) (hcode : code ≠ .firing)
    : Locked (s.setCode w ctx code') := by
  refine h.locked.of h.locked.fault rfl rfl (fun h => h) (fun _ _ h => h) ?_
  intro v ctx' hv
  have : v ≠ w := by
    rintro rfl
    rw [hrunning] at hv
    cases hv
    exact hcode rfl
  simpa [State.setCode, Function.update_of_ne this] using hv

theorem wait {w lock : Nat} {ctx : ScheduledTask} (h : Inv s)
    (hrunning : s.running w = some (ctx, .wait lock)) (hcall : s.calls (.worker w) = none)
    : Inv (s.setCode w ctx .lambda) :=
  h.setCode s.lock .lambda hrunning hcall trivial (by simp) (h.setCode_locked hrunning (by simp))

theorem release {w lock : Nat} {ctx : ScheduledTask} (h : Inv s)
    (hrunning : s.running w = some (ctx, .release lock)) (hcall : s.calls (.worker w) = none)
    : Inv ({ s with released := Function.update s.released lock true }.setCode w ctx .finished) := by
  have hreleased : Inv { s with released := Function.update s.released lock true } := by
    refine h.of_inert ⟨rfl, rfl, rfl, rfl, rfl, rfl, fun _ => rfl, fun _ h => h, fun _ h => h⟩ ?_ rfl rfl
      rfl rfl (fun _ h => h)
      (h.locked.of h.locked.fault rfl rfl (fun h => h) (fun _ _ h => h) (fun _ _ h => h))
    apply h.placed.frame
  exact hreleased.setCode s.lock .finished hrunning hcall rfl (by simp)
    (hreleased.setCode_locked hrunning (by simp))

theorem planOperators_nil {w : Nat} {ctx : ScheduledTask} {locals : PlanLocals} (h : Inv s)
    (hrunning : s.running w = some (ctx, .planOperators locals []))
    (hcall : s.calls (.worker w) = none)
    : Inv (s.setCode w ctx (.planLinks locals locals.dependents)) := by
  have hlocal := h.threads.code w ctx _ hrunning
  refine h.setCode s.lock _ hrunning hcall ?_ (by simp) (h.setCode_locked hrunning (by simp))
  exact ⟨rfl, hlocal.2, [], rfl, by simp⟩

theorem extends_allocateContinuation (s : State) (owner : Option Nat) (p : Nat)
    : Extends s (s.allocateContinuation owner) p where
  linked := fun _ _ h => h
  added := fun _ h => h
  counter := Nat.le_succ _
  owner := fun _ hn => Function.update_of_ne hn.ne _ _
  named := fun _ h => h
  allocated := fun _ h => h
  stored := fun _ h => .inl h
  into := fun _ _ _ h => .inl h
  out := fun _ _ _ h => h
  fires := fun _ _ h => .inl h
  operators := fun _ h _ _ => h

theorem allocateContinuation (h : Inv s) (owner : Option Nat) : Inv (s.allocateContinuation owner) where
  placed := by apply h.placed.frame
  ordered := h.ordered.mono (Nat.le_succ _) (fun _ h => h)
  records := h.records.of rfl (fun _ _ h => h) (fun _ h => h) (fun _ h => h) (fun _ h => .inl h)
    (fun _ _ code hr => .inl ⟨code, hr⟩) (fun _ h => h) (fun _ h => .inl h) (Nat.le_succ _)
    (fun _ hn => Function.update_of_ne hn.ne _ _) h.records.call_valid h.records.chain_valid
  threads := Threads.of h
    (fun k => ClientCall.of (h.threads.client k) (fun _ h => h) (fun _ h => h))
    (fun _ ctx _ hr => .inl ⟨hr, rfl, extends_allocateContinuation s owner ctx.id⟩)
    h.threads.store h.threads.idle
  locked := h.locked.of h.locked.fault rfl rfl (fun h => h) (fun _ _ h => h) (fun _ _ h => h)

theorem reserved_next (h : Inv s) (p : Nat)
    : (s.allocateContinuation (some p)).Reserved p s.nextContinuation ∧
      ∀ m, ¬ (s.allocateContinuation (some p)).Linked s.nextContinuation m := by
  refine ⟨⟨⟨s.continuationCounter, rfl, Nat.lt_succ_self _, Function.update_self ..⟩, ?_, ?_⟩, ?_⟩
  . intro m hm
    exact Nat.lt_irrefl _ (h.ordered.linked_continuation m _ hm)
  . intro hf
    exact Nat.lt_irrefl _ (h.ordered.fired_allocated _ hf)
  . intro m hm
    exact Nat.lt_irrefl _ (h.ordered.source _ m hm)

theorem allocate (h : Inv s)
    : Inv { s.allocateContinuation none with named := s.nextContinuation :: s.named } := by
  have halloc := h.allocateContinuation none
  have hinert : Inert (s.allocateContinuation none)
      { s.allocateContinuation none with named := s.nextContinuation :: s.named } :=
    ⟨rfl, rfl, rfl, rfl, rfl, rfl, fun _ => rfl, fun _ h => h, fun _ h => List.mem_cons_of_mem _ h⟩
  exact {
    placed := by apply h.placed.frame
    ordered := halloc.ordered
    records := halloc.records.of rfl (fun _ _ h => h) (fun _ h => h) (fun _ h => h) (fun _ h => .inl h)
      (fun _ _ code hr => .inl ⟨code, hr⟩) (fun _ h => h)
      (by
        intro c hc
        rcases List.mem_cons.mp hc with rfl | hc
        . exact .inr (.inr ⟨_, rfl, Nat.lt_succ_self _, .inl (Function.update_self ..)⟩)
        . exact .inl hc)
      le_rfl (fun _ _ => rfl) halloc.records.call_valid halloc.records.chain_valid
    threads := Threads.of halloc
      (fun k => ClientCall.of (halloc.threads.client k) (fun _ h => h)
        (fun _ h => List.mem_cons_of_mem _ h))
      (fun _ ctx _ hr => .inl ⟨hr, rfl, hinert.toExtends ctx.id⟩)
      halloc.threads.store halloc.threads.idle
    locked := halloc.locked.of h.locked.fault rfl rfl (fun h => h) (fun _ _ h => h) (fun _ _ h => h) }

theorem quiet (h : Inv s) (hstep : Quiet s s') : Inv s' := by
  have hplaced := h.placed.quiet hstep
  cases hstep with
  | join => exact h.of_loop hplaced (.inl rfl) (fun _ _ h => h)
  | check hloop => exact h.of_loop hplaced (.inl rfl) (by simp [hloop])
  | exit hloop => exact h.of_loop hplaced (.inl rfl) (by simp [hloop])
  | popOne hloop => exact h.of_loop hplaced (.inl rfl) (by simp [hloop])
  | popJoin hloop => exact h.of_loop hplaced (.inl rfl) (by simp [hloop])
  | popNewTask hloop => exact h.of_loop hplaced (.inl rfl) (by simp [hloop])
  | emitNotify => exact h.of_loop hplaced (.inr rfl) (fun _ _ h => h)
  | callNotify hcall => exact h.callNotify hcall
  | allocateContinuation => exact h.allocate

/-! Calls of `addTask`. -/

theorem phase_setPlace (place : Nat → Place) (id : Nat) (q : Place)
    : (fun i => (Function.update place id q i).phase)
        =
      Function.update (fun i => (place i).phase) id q.phase := by
  funext i
  simp only [Function.update_apply]
  split <;> rfl

section

variable {thread : Thread} {task : Task} {dependency dependent : NodeID} {origin : Origin}

theorem place_counter (h : Inv s) : s.history.place s.taskCounter = .unallocated :=
  (h.placed.located _ _).mp (.inr le_rfl)

theorem extends_addTask (h : Inv s) (p : Nat)
    : Extends s (s.addTask thread task dependency dependent origin) p where
  linked := fun _ _ h => h
  added := fun _ h => h
  counter := le_rfl
  owner := fun _ _ => rfl
  named := fun _ h => h
  allocated := by
    intro id hid
    simp only [State.addTask, setPlace, Function.update_apply]
    split
    . simp [Place.phase]
    . exact hid
  stored := by
    intro id hid
    left
    exact stored_update (by simp [h.place_counter]) id hid
  into := fun _ _ _ h => .inl h
  out := fun _ _ _ h => h
  fires := fun _ _ h => .inl h
  operators := fun _ h _ _ => h

theorem ordered_addTask (h : Inv s)
    : (s.addTask thread task dependency dependent origin).ledger.Ordered := by
  have heq : (s.addTask thread task dependency dependent origin).ledger
      = s.ledger.setPhase s.taskCounter .linking := by
    simp only [State.addTask, setPlace, ledger, Ledger.setPhase, phase_setPlace]
    rfl
  rw [heq]
  apply h.ordered.advance
  left
  refine ⟨?_, rfl⟩
  simp [ledger, h.place_counter, Place.phase]

theorem records_addTask (h : Inv s) (hvalid : task.Valid)
    : Records (s.addTask thread task dependency dependent origin) := by
  refine h.records.of rfl (fun _ _ h => h) ?_ ?_ (fun _ h => .inl h)
    (fun _ _ code hr => .inl ⟨code, hr⟩) (fun _ h => h) (fun _ h => .inl h) le_rfl (fun _ _ => rfl) ?_
    h.records.chain_valid
  . intro id hid
    have : id ≠ s.taskCounter := by
      rintro rfl
      rw [h.place_counter] at hid
      exact hid.1 rfl
    simpa only [State.addTask, setPlace, Function.update_of_ne this] using hid
  . intro t ht
    simp only [Has, State.addTask, setPlace, Function.update_apply] at ht ⊢
    grind
  . intro th t dep o hcall
    simp only [State.addTask, setPlace, Function.update_apply] at hcall
    split at hcall
    . cases hcall
      exact hvalid
    . exact h.records.call_valid th t dep o hcall

/--
A thread that is not one of the scheduler's calls `addTask`.
-/
theorem addTask_client {k : Nat} (h : Inv s) (hcall : s.calls (.client k) = none) (hvalid : task.Valid)
    (hclient : s.ClientCall (some (.link ⟨s.taskCounter, dependent, task⟩ dependency origin)))
    : Inv (s.addTask (.client k) task dependency dependent origin) where
  placed := h.placed.addTask hcall task dependency dependent origin
  ordered := h.ordered_addTask
  records := h.records_addTask hvalid
  threads := by
    have hext : ∀ p, Extends s (s.addTask (.client k) task dependency dependent origin) p :=
      fun p => h.extends_addTask p
    have hself : (s.addTask (.client k) task dependency dependent origin).calls (.client k)
        = some (.link ⟨s.taskCounter, dependent, task⟩ dependency origin) := Function.update_self ..
    have hother : ∀ th, th ≠ .client k →
        (s.addTask (.client k) task dependency dependent origin).calls th = s.calls th :=
      fun th hth => Function.update_of_ne hth _ _
    apply Threads.of h
    . intro l
      by_cases hl : l = k
      . rw [hl, hself]
        exact ClientCall.of hclient (hext 0).allocated (hext 0).named
      . rw [hother _ (by simpa using hl)]
        exact ClientCall.of (h.threads.client l) (hext 0).allocated (hext 0).named
    . intro w ctx code hr
      exact .inl ⟨hr, hother _ (by simp), hext ctx.id⟩
    . intro th t dep hc
      by_cases hth : th = .client k
      . rw [hth, hself] at hc
        cases hc
      . rw [hother th hth] at hc
        exact h.threads.store th t dep hc
    . intro w hc
      rw [hother _ (by simp)] at hc
      exact h.threads.idle w hc
  locked := h.locked.of h.locked.fault rfl rfl (fun h => h) (fun _ _ h => h) (fun _ _ h => h)

/--
A running task calls `addTask` and goes on in its code.
-/
theorem addTask_worker {w : Nat} {ctx : ScheduledTask} {code code' : Code} (h : Inv s)
    (hrunning : s.running w = some (ctx, code)) (hcall : s.calls (.worker w) = none)
    (hcode : code ≠ .firing) (hvalid : task.Valid)
    (hlocal : s.Local ctx (some (.link ⟨s.taskCounter, dependent, task⟩ dependency origin)) code')
    (hchain : ∀ rest cDependent next, code' = .chain rest cDependent next → ∀ t ∈ rest, t.Valid)
    : Inv ((s.addTask (.worker w) task dependency dependent origin).setCode w ctx code') := by
  let s₁ := s.addTask (.worker w) task dependency dependent origin
  let s₂ := s₁.setCode w ctx code'
  have hadd : ∀ p, Extends s s₁ p := fun p => h.extends_addTask p
  have hext : ∀ p, Extends s s₂ p := fun p =>
    ⟨(hadd p).linked, (hadd p).added, (hadd p).counter, (hadd p).owner, (hadd p).named,
      (hadd p).allocated, (hadd p).stored, (hadd p).into, (hadd p).out, (hadd p).fires,
      (hadd p).operators⟩
  have hrecords : Records s₁ := h.records_addTask hvalid
  have hself : s₂.calls (.worker w)
      = some (.link ⟨s.taskCounter, dependent, task⟩ dependency origin) := Function.update_self ..
  have hother : ∀ th, th ≠ .worker w → s₂.calls th = s.calls th :=
    fun th hth => Function.update_of_ne hth _ _
  have hrun : s₂.running w = some (ctx, code') := Function.update_self ..
  have hruns : ∀ v, v ≠ w → s₂.running v = s.running v :=
    fun v hv => Function.update_of_ne hv _ _
  refine ⟨?_, h.ordered_addTask, ?_, ?_, ?_⟩
  . exact (h.placed.addTask hcall task dependency dependent origin).setCode hrunning _
  . refine hrecords.of rfl (fun _ _ h => h) (fun _ h => h) ?_ (fun _ h => .inl h) ?_ (fun _ h => h)
      (fun _ h => .inl h) le_rfl (fun _ _ => rfl) hrecords.call_valid ?_
    . intro t ht
      have hrunning₁ : s₁.running w = some (ctx, code) := hrunning
      simp only [Has, State.setCode, Function.update_apply] at ht ⊢
      grind
    . intro v ctx' code'' hr
      by_cases hv : v = w
      . subst hv
        rw [hrun] at hr
        cases hr
        exact .inl ⟨code, hrunning⟩
      . rw [hruns v hv] at hr
        exact .inl ⟨code'', hr⟩
    . intro v ctx' rest cDependent next hr
      by_cases hv : v = w
      . subst hv
        rw [hrun] at hr
        cases hr
        exact hchain rest cDependent next rfl
      . rw [hruns v hv] at hr
        exact h.records.chain_valid v ctx' rest cDependent next hr
  . apply Threads.of h
    . intro k
      rw [hother _ (by simp)]
      exact ClientCall.of (h.threads.client k) (hext 0).allocated (hext 0).named
    . intro v ctx' code'' hr
      by_cases hv : v = w
      . subst hv
        rw [hrun] at hr
        cases hr
        right
        rw [hself]
        exact (hext ctx.id).localCode h.recorded hlocal (by simp)
      . rw [hruns v hv] at hr
        exact .inl ⟨hr, hother _ (by simpa using hv), hext ctx'.id⟩
    . intro th t dep hc
      by_cases hth : th = .worker w
      . rw [hth, hself] at hc
        cases hc
      . rw [hother th hth] at hc
        exact h.threads.store th t dep hc
    . intro v hc
      by_cases hv : v = w
      . subst hv
        intro hnone
        cases hrun.symm.trans hnone
      . rw [hother _ (by simpa using hv)] at hc
        rw [hruns v hv]
        exact h.threads.idle v hc
  . have hlocked : Locked s₁ :=
      h.locked.of h.locked.fault rfl rfl (fun h => h) (fun _ _ h => h) (fun _ _ h => h)
    refine hlocked.of hlocked.fault rfl rfl (fun h => h) (fun _ _ h => h) ?_
    intro v ctx' hv
    have hv' : s.running v = some (ctx', .firing) := hv
    have : v ≠ w := by
      rintro rfl
      rw [hrunning] at hv'
      cases hv'
      exact hcode rfl
    exact (hruns v this).trans hv'

end

/-! The calls of a running task. -/

section

variable {w : Nat} {ctx : ScheduledTask} {code : Code}

theorem added_running (h : Inv s) (hrunning : s.running w = some (ctx, code))
    : ∃ a ∈ s.history.added, a.task = ctx :=
  h.records.started ctx (h.records.running w ctx code hrunning)

theorem continuation_lt (h : Inv s) (hrunning : s.running w = some (ctx, code)) (n : Nat)
    (hn : ctx.continuation = .continuation n)
    : n < s.continuationCounter := by
  obtain ⟨a, ha, rfl⟩ := h.added_running hrunning
  rcases h.records.continuation a ha with heq | ⟨-, hlink⟩
  . rw [hn] at heq
    cases heq
  . rw [hn] at hlink
    exact h.ordered.linked_continuation _ n hlink

theorem addTask_same (h : Inv s) {task : Task} {dependency dependent : NodeID} {origin : Origin}
    (hrunning : s.running w = some (ctx, .lambda)) (hcall : s.calls (.worker w) = none)
    (hvalid : task.Valid)
    (hlocal : s.FunctorCall ctx (some (.link ⟨s.taskCounter, dependent, task⟩ dependency origin)))
    : Inv (s.addTask (.worker w) task dependency dependent origin) := by
  have hsame : (s.addTask (.worker w) task dependency dependent origin).setCode w ctx .lambda
      = s.addTask (.worker w) task dependency dependent origin := by
    simp only [State.setCode, State.addTask, setPlace]
    rw [← hrunning, Function.update_eq_self]
  rw [← hsame]
  exact h.addTask_worker hrunning hcall (by simp) hvalid hlocal (by simp)

theorem allocated_of_lt (h : Inv s) {d : Nat} (hzero : d ≠ 0) (hd : d < s.taskCounter)
    : (s.history.place d).phase ≠ .fresh := by
  intro hfresh
  have hp : s.history.place d = .unallocated := by
    cases hplace : s.history.place d <;> simp [hplace, Place.phase] at hfresh ⊢
  have := (h.placed.located d .unallocated).mpr hp
  simp only [Located] at this
  omega

theorem reserved_ne_next {p : Nat} {c : NodeID} (hc : s.Owned p c) : s.nextContinuation ≠ c := by
  obtain ⟨n, rfl, hn, -⟩ := hc
  simp only [nextContinuation, ne_eq, NodeID.continuation.injEq]
  omega

theorem chainLast {task : Task} {cDependent : NodeID} {next : Option Nat} (h : Inv s)
    (hrunning : s.running w = some (ctx, .chain [task] cDependent next))
    (hcall : s.calls (.worker w) = none)
    : Inv ((s.addTask (.worker w) task kInvalidNodeID cDependent (.chained ctx.id next)).setCode
        w ctx (.chain [] kInvalidNodeID (some s.taskCounter))) := by
  have hlocal := h.threads.code w ctx _ hrunning
  rw [hcall] at hlocal
  apply h.addTask_worker hrunning hcall (by simp)
  . exact h.records.chain_valid w ctx _ _ _ hrunning task List.mem_cons_self
  . exact ⟨rfl, rfl, .inl ⟨rfl, rfl⟩, next, rfl, hlocal (by simp)⟩
  . rintro rest c n ⟨⟩
    simp

theorem chain {task : Task} {rest : List Task} {cDependent : NodeID} {next : Option Nat} (h : Inv s)
    (hrunning : s.running w = some (ctx, .chain (task :: rest) cDependent next))
    (hcall : s.calls (.worker w) = none) (hrest : rest ≠ [])
    : Inv (((s.allocateContinuation (some ctx.id)).addTask
        (.worker w) task s.nextContinuation cDependent (.chained ctx.id next)).setCode
          w ctx (.chain rest s.nextContinuation (some s.taskCounter))) := by
  have hlocal := h.threads.code w ctx _ hrunning
  rw [hcall] at hlocal
  have htarget : s.ChainTarget ctx next cDependent := hlocal (by simp)
  obtain ⟨hreserved, hout⟩ := h.reserved_next ctx.id
  have hvalid := h.records.chain_valid w ctx _ _ _ hrunning
  refine (h.allocateContinuation (some ctx.id)).addTask_worker hrunning hcall (by simp) ?_ ?_ ?_
  . exact hvalid task List.mem_cons_self
  . refine ⟨rfl, rfl, .inr ⟨hrest, hreserved, hout, ?_⟩, next, rfl, ?_⟩
    . rcases htarget with ⟨-, rfl⟩ | ⟨-, -, hc, -⟩
      . intro heq
        exact absurd (h.continuation_lt hrunning _ heq.symm) (Nat.lt_irrefl _)
      . exact reserved_ne_next hc.owned
    . exact (extends_allocateContinuation s _ _).chainTarget htarget
  . rintro rest' c n ⟨⟩
    exact fun t ht => hvalid t (List.mem_cons_of_mem _ ht)

/--
The next operator of the plan is the one at its position.
-/
theorem building_operator {locals : PlanLocals} {opIndex : Nat} {materializes : Bool}
    {rest : List (Nat × Bool)} (taskId opCont : NodeID)
    (hb : s.Building ctx locals ((opIndex, materializes) :: rest) locals.position)
    : opIndex = locals.position ∧
      s.Building ctx { locals with
        position := locals.position + 1
        taskIds := Function.update locals.taskIds opIndex taskId
        cOperators := Function.update locals.cOperators opIndex opCont } rest locals.position := by
  obtain ⟨operators, htask, hindex, hrest, hpos, hlinks⟩ := hb.task
  have hget : operators[locals.position]? = some (opIndex, materializes) := by
    have := congrArg (fun l => l[0]?) hrest
    simpa using this.symm
  obtain ⟨hlt, -⟩ := List.getElem?_eq_some_iff.mp hget
  have hop : opIndex = locals.position := by
    have hmap := congrArg (fun l => l[locals.position]?) hindex
    simp only [List.getElem?_map, hget, Option.map_some, List.getElem?_range hlt] at hmap
    exact Option.some.inj hmap
  refine ⟨hop, ?_⟩
  subst hop
  have htasks : ∀ i < locals.position, Function.update locals.taskIds locals.position taskId i
      = locals.taskIds i := fun i hi => Function.update_of_ne hi.ne _ _
  have hconts : ∀ i < locals.position, Function.update locals.cOperators locals.position opCont i
      = locals.cOperators i := fun i hi => Function.update_of_ne hi.ne _ _
  exact {
    enter := hb.enter
    exit := hb.exit
    enter_ne_exit := hb.enter_ne_exit
    exit_unfired := hb.exit_unfired
    exit_only := by
      intro m hm
      obtain ⟨i, hi, rfl⟩ := hb.exit_only m hm
      exact ⟨i, hi, (hconts i hi).symm⟩
    operators := by
      intro i hi
      obtain ⟨a, ha, hstored, hexit⟩ := hb.operators i hi
      refine ⟨a, ⟨ha.added, ha.origin, ?_, ?_, ha.dependency, ha.owned, ha.unfired, ha.only⟩, hstored, hexit⟩
      . exact (htasks i hi).trans ha.taskId
      . exact (hconts i hi).trans ha.cOperator
    task := by
      refine ⟨operators, htask, hindex, ?_, hlt, hlinks⟩
      have := congrArg List.tail hrest
      simpa using this
    only_operators := by
      intro a ha i hi
      exact Nat.lt_succ_of_lt (hb.only_operators a ha i hi) }

theorem planOperator {locals : PlanLocals} {opIndex : Nat} {materializes : Bool}
    {rest : List (Nat × Bool)} (h : Inv s)
    (hrunning : s.running w = some (ctx, .planOperators locals ((opIndex, materializes) :: rest)))
    (hcall : s.calls (.worker w) = none)
    : Inv (((s.allocateContinuation (some ctx.id)).addTask
        (.worker w) (.lambda materializes) locals.cEnter s.nextContinuation
          (.operator ctx.id locals.position)).setCode
            w ctx (.planLinkExit { locals with
              position := locals.position + 1
              taskIds := Function.update locals.taskIds opIndex (.task s.taskCounter)
              cOperators := Function.update locals.cOperators opIndex s.nextContinuation }
                rest s.nextContinuation)) := by
  obtain ⟨-, hb⟩ := h.threads.code w ctx _ hrunning
  obtain ⟨hreserved, hout⟩ := h.reserved_next ctx.id
  have hb₁ := (extends_allocateContinuation s (some ctx.id) ctx.id).building h.recorded hb
  obtain ⟨hop, hb₂⟩ := building_operator (.task s.taskCounter) s.nextContinuation hb₁
  subst hop
  refine (h.allocateContinuation (some ctx.id)).addTask_worker hrunning hcall (by simp) (.lambda _) ?_ ?_
  . refine ⟨Nat.succ_pos _, hb₂, rfl, rfl, rfl, hreserved, ?_, ?_, hout, ?_, ?_, ?_⟩
    . exact reserved_ne_next hb.enter.owned
    . exact reserved_ne_next hb.exit
    . exact Function.update_self ..
    . exact Function.update_self ..
    . intro a ha hi
      exact absurd (hb.only_operators a ha _ hi) (Nat.lt_irrefl _)
  . simp

theorem planExit {locals : PlanLocals} (h : Inv s)
    (hrunning : s.running w = some (ctx, .planLinks locals [])) (hcall : s.calls (.worker w) = none)
    : Inv ((s.addTask (.worker w) (.lambda false) locals.cExit ctx.continuation (.exit ctx.id)).setCode
        w ctx (.planFire locals.cEnter)) := by
  obtain ⟨-, hb, done, hdone, hlinks⟩ := h.threads.code w ctx _ hrunning
  rw [List.append_nil] at hdone
  subst hdone
  apply h.addTask_worker hrunning hcall (by simp) (.lambda _)
  . exact ⟨locals, rfl, hb, hlinks, rfl, rfl, rfl⟩
  . simp

theorem call {a : Action} (h : Inv s) (hallowed : Allowed s a)
    (hrunning : s.running w = some (ctx, code)) (hcall : s.calls (.worker w) = none)
    (hstep : CallStep s w ctx code a s')
    : Inv s' := by
  cases hstep with
  | addTask => exact h.addTask_same hrunning hcall hallowed (.inl ⟨rfl, rfl, rfl⟩)
  | spawnTask => exact h.addTask_same hrunning hcall hallowed (.inr (.inl ⟨rfl, rfl, rfl⟩))
  | addTaskAfter hzero hd hnamed =>
    exact h.addTask_same hrunning hcall hallowed
      (.inr (.inr ⟨_, _, rfl, rfl, hzero, h.allocated_of_lt hzero hd, hnamed⟩))
  | applyIndices =>
    have hcounter : Inv { s with lockCounter := s.lockCounter + 1 } := by
      refine h.of_inert ⟨rfl, rfl, rfl, rfl, rfl, rfl, fun _ => rfl, fun _ h => h, fun _ h => h⟩ ?_
        rfl rfl rfl rfl (fun _ h => h)
        (h.locked.of h.locked.fault rfl rfl (fun h => h) (fun _ _ h => h) (fun _ _ h => h))
      apply h.placed.frame
    refine hcounter.addTask_worker hrunning hcall (by simp) (.chain ?_) ?_ (by simp)
    . intro t ht
      simp only [List.mem_cons, List.not_mem_nil, or_false] at ht
      rcases ht with rfl | rfl
      . exact .lambda _
      . exact .release _
    . exact .inr (.inl ⟨rfl, rfl, rfl⟩)
  | chainLast => exact h.chainLast hrunning hcall
  | chain hrest => exact h.chain hrunning hcall hrest
  | planOperator => exact h.planOperator hrunning hcall
  | planExit => exact h.planExit hrunning hcall

theorem plan {operators : List (Nat × Bool)} {dependents : List (Nat × Nat)} (h : Inv s)
    (hrunning : s.running w = some (ctx, .plan operators dependents))
    (hcall : s.calls (.worker w) = none)
    : Inv (((s.allocateContinuation (some ctx.id)).allocateContinuation (some ctx.id)).setCode w ctx
        (.planOperators {
          dependents := dependents
          cEnter := s.nextContinuation
          cExit := (s.allocateContinuation (some ctx.id)).nextContinuation
          position := 0
          taskIds := fun _ => kInvalidNodeID
          cOperators := fun _ => kInvalidNodeID } operators)) := by
  obtain ⟨-, htask, hnone⟩ := h.threads.code w ctx _ hrunning
  have h₁ := h.allocateContinuation (some ctx.id)
  have h₂ := h₁.allocateContinuation (some ctx.id)
  obtain ⟨henter, -⟩ := h.reserved_next ctx.id
  obtain ⟨hexit, -⟩ := h₁.reserved_next ctx.id
  obtain ⟨a, ha, rfl⟩ := h.added_running hrunning
  have hvalid := h.records.valid a ha
  rw [htask] at hvalid
  cases hvalid with
  | plan hindex hlinks =>
  refine h₂.setCode s.lock _ hrunning hcall ⟨rfl, ?_⟩ (by simp) (h₂.setCode_locked hrunning (by simp))
  exact {
    enter := (extends_allocateContinuation _ _ _).reserved henter
    exit := hexit.owned
    enter_ne_exit := by simp [nextContinuation, State.allocateContinuation]
    exit_unfired := hexit.unfired
    exit_only := fun m hm => absurd hm (hexit.unlisted m)
    operators := fun i hi => absurd hi (Nat.not_lt_zero i)
    task := ⟨operators, htask, hindex, rfl, Nat.zero_le _, hlinks⟩
    only_operators := fun b hb i hi => absurd hi (hnone b hb i) }

end

end Inv

end Hustle.Scheduler
