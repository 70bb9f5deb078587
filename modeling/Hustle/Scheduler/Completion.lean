import Hustle.Scheduler.BasicRuns
import Hustle.Scheduler.Dependencies

/-!
This module contains what programs of functors and chains can rely on: the elements of a chain are executed
one after the other, no task is executed twice, and none is left when the scheduler leaves its loop.
-/

namespace Hustle.Scheduler

open State

variable {s s' : State}

/-! Chains. -/

/--
An element of a chain is about to be added: the chain still has to, or it has called `addTask`.
-/
def State.Comes (s : State) (p : Nat) (b : Added) : Prop :=
  (∃ w ctx rest, s.running w = some (ctx, .chain rest b.dependency (some b.task.id)) ∧ ctx.id = p ∧
    rest ≠ []) ∨
  ∃ w task dependency, s.calls (.worker w) = some (.link task dependency (.chained p (some b.task.id))) ∧
    task.continuation = b.dependency

/--
The element of a chain before one that has to wait was added, or will be.
-/
def Preceded (s : State) : Prop :=
  ∀ b ∈ s.history.added, ∀ p next, b.origin = .chained p next → b.dependency ≠ kInvalidNodeID →
    (∃ a ∈ s.history.added, a.origin = .chained p (some b.task.id)) ∨ s.Comes p b

namespace Preceded

theorem init (n : Nat) : Preceded (State.init n) := by
  simp [Preceded, State.init]

theorem of_comes (h : Preceded s) (hadded : s'.history.added = s.history.added)
    (hcomes : ∀ p b, s.Comes p b → s'.Comes p b)
    : Preceded s' := by
  intro b hb p next horigin hne
  rw [hadded] at hb ⊢
  rcases h b hb p next horigin hne with ha | hc
  . exact .inl ha
  . exact .inr (hcomes p b hc)

theorem of_calls (h : Preceded s) (hadded : s'.history.added = s.history.added)
    (hcalls : ∀ thread task dependency origin, s.calls thread = some (.link task dependency origin) →
      s'.calls thread = some (.link task dependency origin))
    (hrunning : ∀ w ctx rest c next, s.running w = some (ctx, .chain rest c next) → rest ≠ [] →
      s'.running w = some (ctx, .chain rest c next))
    : Preceded s' := by
  apply h.of_comes hadded
  rintro p b (⟨w, ctx, rest, hr, hp, hne⟩ | ⟨w, task, dependency, hc, hcont⟩)
  . exact .inl ⟨w, ctx, rest, hrunning w ctx rest _ _ hr hne, hp, hne⟩
  . exact .inr ⟨w, task, dependency, hcalls _ _ _ _ hc, hcont⟩

theorem addTask (h : Preceded s) {thread : Thread} {task : Task} {dependency dependent : NodeID}
    {origin : Origin} (hcall : s.calls thread = none)
    : Preceded (s.addTask thread task dependency dependent origin) :=
  h.of_calls rfl (Progress.update_call _ (by simp [hcall])) (fun _ _ _ _ _ hr _ => hr)

theorem recordReturn (h : Preceded s) (thread : Thread) (id : Nat)
    : Preceded (s.recordReturn thread id) := by
  cases thread with
  | worker w => exact h
  | client k =>
    simp only [State.recordReturn]
    split
    . exact h
    . exact h

theorem quiet (h : Preceded s) (hstep : Quiet s s') : Preceded s' := by
  cases hstep with
  | callNotify hcall =>
    apply recordReturn
    exact h.of_calls rfl (Progress.update_call _ (by simp [hcall])) (fun _ _ _ _ _ hr _ => hr)
  | _ => exact h.of_comes rfl (fun _ _ hc => hc)

/--
The chain calls `addTask` for the element before the one that it added last.
-/
theorem chain (h : Preceded s) {w : Nat} {ctx : ScheduledTask} {rest : List Task} {c : NodeID}
    {next : Option Nat} {task : ScheduledTask} {dependency : NodeID}
    (hrunning : s.running w = some (ctx, .chain rest c next)) (hcall : s.calls (.worker w) = none)
    (hadded : s'.history.added = s.history.added)
    (hcalls : s'.calls
      = Function.update s.calls (.worker w) (some (.link task dependency (.chained ctx.id next))))
    (hcont : task.continuation = c)
    (hruns : ∀ v, v ≠ w → s'.running v = s.running v)
    : Preceded s' := by
  apply h.of_comes hadded
  rintro p b (⟨v, ctx', rest', hr, hp, hne⟩ | ⟨v, task', dependency', hc, hcont'⟩)
  . by_cases hv : v = w
    . subst hv
      rw [hrunning] at hr
      cases hr
      refine .inr ⟨v, task, dependency, ?_, hcont⟩
      rw [hcalls, Function.update_self, hp]
    . exact .inl ⟨v, ctx', rest', (hruns v hv).trans hr, hp, hne⟩
  . refine .inr ⟨v, task', dependency', ?_, hcont'⟩
    rw [hcalls]
    exact Progress.update_call _ (by simp [hcall]) _ _ _ _ hc

theorem call_step {w : Nat} {ctx : ScheduledTask} {code : Code} {a : Action} (h : Preceded s)
    (hcode : BasicCode s) (hbasic : a.Basic) (hrunning : s.running w = some (ctx, code))
    (hcall : s.calls (.worker w) = none) (hstep : CallStep s w ctx code a s')
    : Preceded s' := by
  cases hstep with
  | addTask => exact h.addTask hcall
  | spawnTask => exact h.addTask hcall
  | addTaskAfter => exact hbasic.elim
  | applyIndices => exact hbasic.elim
  | chainLast =>
    exact h.chain hrunning hcall rfl rfl rfl (fun _ hv => Function.update_of_ne hv _ _)
  | chain =>
    exact h.chain hrunning hcall rfl rfl rfl (fun _ hv => Function.update_of_ne hv _ _)
  | planOperator =>
    rcases hcode.running w ctx _ hrunning with heq | ⟨_, _, _, heq, -⟩ <;> cases heq
  | planExit =>
    rcases hcode.running w ctx _ hrunning with heq | ⟨_, _, _, heq, -⟩ <;> cases heq

theorem chained_call {thread : Thread} {task : ScheduledTask} {dependency : NodeID} {p : Nat}
    {next : Option Nat} (hinv : Inv s) (hcode : BasicCode s)
    (hcall : s.calls thread = some (.link task dependency (.chained p next)))
    : ∃ w ctx rest, thread = .worker w ∧ ctx.id = p ∧
        s.running w = some (ctx, .chain rest dependency (some task.id)) ∧
        (dependency ≠ kInvalidNodeID → rest ≠ []) ∧ s.ChainTarget ctx next task.continuation := by
  cases thread with
  | client k =>
    have hclient := hinv.threads.client k
    rw [hcall] at hclient
    rcases hclient with ⟨h, -⟩ | ⟨d, q, h, -⟩ <;> cases h
  | worker w =>
    have hidle := hinv.threads.idle w (by simp [hcall])
    obtain ⟨⟨ctx, code⟩, hrunning⟩ := Option.ne_none_iff_exists'.mp hidle
    have hlocal := hinv.threads.code w ctx code hrunning
    rw [hcall] at hlocal
    rcases hcode.running w ctx code hrunning with rfl | ⟨rest, c, next', rfl, -⟩
    . rcases hlocal with ⟨h, -⟩ | ⟨h, -⟩ | ⟨d, q, h, -⟩ <;> cases h
    . obtain ⟨rfl, rfl, hdep, next'', horigin, htarget⟩ := hlocal
      cases horigin
      refine ⟨w, ctx, rest, rfl, rfl, hrunning, ?_, htarget⟩
      intro hne
      rcases hdep with ⟨-, hinvalid⟩ | ⟨hrest, -⟩
      . exact absurd hinvalid hne
      . exact hrest

theorem callLink {thread : Thread} {task : ScheduledTask} {dependency : NodeID} {origin : Origin}
    (hinv : Inv s) (hcode : BasicCode s) (h : Preceded s)
    (hcall : s.calls thread = some (.link task dependency origin))
    : Preceded (s.afterLink thread task dependency origin) := by
  obtain ⟨graph, links, heq⟩ := afterLink_eq s thread task dependency origin
  rw [heq]
  intro b hb p next horigin hne
  rcases List.mem_cons.mp hb with rfl | hb
  . -- the chain goes on with the element before the new one
    dsimp only at horigin hne ⊢
    subst horigin
    obtain ⟨w, ctx, rest, -, hp, hrunning, hrest, -⟩ := chained_call hinv hcode hcall
    exact .inr (.inl ⟨w, ctx, rest, hrunning, hp, hrest hne⟩)
  . rcases h b hb p next horigin hne with ⟨a, ha, ha'⟩ | ⟨w, ctx, rest, hr, hp, hrest⟩ |
      ⟨w, task', dependency', hc, hcont⟩
    . exact .inl ⟨a, List.mem_cons_of_mem _ ha, ha'⟩
    . exact .inr (.inl ⟨w, ctx, rest, hr, hp, hrest⟩)
    . by_cases hth : Thread.worker w = thread
      . subst hth
        rw [hcall] at hc
        cases hc
        exact .inl ⟨_, List.mem_cons_self, rfl⟩
      . refine .inr (.inr ⟨w, task', dependency', ?_, hcont⟩)
        exact (Function.update_of_ne hth _ _).trans hc

theorem step {a : Action} (hinv : Inv s) (hcode : BasicCode s) (h : Preceded s) (hbasic : a.Basic)
    (hstep : Step s a s')
    : Preceded s' := by
  cases hstep with
  | quiet hquiet => exact h.quiet hquiet
  | @complete id w =>
    obtain ⟨graph, lock, fired, fault, heq⟩ :=
      processDependents_eq { s with loop := .processDependents id w } .scheduler (.task id)
    rw [heq]
    exact h
  | @visit _ m rest frames dependent =>
    obtain ⟨graph, fired, fault, tasks, emit, place, -, heq⟩ :=
      visitDependent_fired s m rest frames dependent
    rw [heq]
    exact h
  | unlockWorker _ _ _ hrunning =>
    rcases hcode.running _ _ _ hrunning with heq | ⟨_, _, _, heq, -⟩ <;> cases heq
  | clientAdd hcall => exact h.addTask hcall
  | clientAddAfter => exact hbasic.elim
  | callLink hlock hcall => exact callLink hinv hcode h hcall
  | callEnqueue hcall =>
    exact h.of_calls rfl (Progress.update_call _ (by simp [hcall])) (fun _ _ _ _ _ hr _ => hr)
  | callStore hcall =>
    apply recordReturn
    exact h.of_calls rfl (Progress.update_call _ (by simp [hcall])) (fun _ _ _ _ _ hr _ => hr)
  | @start _ w task tasks hrunning =>
    refine h.of_calls rfl (fun _ _ _ _ hc => hc) ?_
    intro v ctx rest c next hr _
    exact start_chain hrunning hr
  | @finish _ w task code hrunning hreturns =>
    refine h.of_calls rfl (fun _ _ _ _ hc => hc) ?_
    intro v ctx rest c next hr hne
    exact finish_chain hrunning hreturns hr hne
  | code hrunning _ hstep => exact (hcode.code hrunning hstep).elim
  | call hrunning hcall hstep => exact h.call_step hcode hbasic hrunning hcall hstep
  | _ => exact h

end Preceded

/-! Tasks that were put into the queue. -/

def Place.isQueued : Place → Bool
  | .queued | .sent _ | .running _ | .completed _ | .processing _ | .done => true
  | _ => false

theorem isQueued_update {place : Nat → Place} {id i : Nat} {q : Place} (h : (place i).isQueued = true)
    (hq : q.isQueued = true ∨ (place id).isQueued = false)
    : (Function.update place id q i).isQueued = true := by
  rw [Function.update_apply]
  split
  . next hi =>
    rcases hq with hq | hq
    . exact hq
    . rw [← hi, h] at hq
      cases hq
  . exact h

theorem isQueued_recordReturn (thread : Thread) (id i : Nat)
    : ((s.recordReturn thread id).history.place i).isQueued = (s.history.place i).isQueued := by
  cases thread with
  | worker w => rfl
  | client k =>
    simp only [State.recordReturn]
    split <;> rfl

theorem isQueued_step {a : Action} {i : Nat} (hplaced : Placed s) (hcode : BasicCode s) (hbasic : a.Basic)
    (h : (s.history.place i).isQueued = true) (hstep : Step s a s')
    : (s'.history.place i).isQueued = true := by
  have hat : ∀ {id q}, Located s id q → q.isQueued = false →
      (s.history.place id).isQueued = false := by
    intro id q hl hq
    rw [(hplaced.located id q).mp hl]
    exact hq
  have hfresh : (s.history.place s.taskCounter).isQueued = false :=
    hat (show Located s s.taskCounter .unallocated from .inr le_rfl) rfl
  cases hstep with
  | quiet hquiet =>
    cases hquiet with
    | callNotify =>
      rw [isQueued_recordReturn]
      exact h
    | _ => exact h
  | @complete id w =>
    obtain ⟨graph, lock, fired, fault, heq⟩ :=
      processDependents_eq { s with loop := .processDependents id w } .scheduler (.task id)
    rw [heq]
    exact isQueued_update h (.inl rfl)
  | @visit _ m rest frames dependent =>
    obtain ⟨graph, fired, fault, heq⟩ | ⟨graph, id, task, -, htask, heq⟩ :=
      visitDependent_eq s m rest frames dependent
    . rw [heq]
      exact h
    . rw [heq]
      exact isQueued_update h (.inr (hat (show Located s id .stored from ⟨task, htask⟩) rfl))
  | clientAdd => exact isQueued_update h (.inr hfresh)
  | clientAddAfter => exact isQueued_update h (.inr hfresh)
  | @callLink thread task dependency origin hlock hcall =>
    obtain ⟨graph, links, heq⟩ := linkTask_eq s task dependency
    rw [heq]
    exact isQueued_update h (.inr (hat (show Located s task.id (.linking thread) from
      ⟨task, dependency, origin, hcall, rfl⟩) rfl))
  | @callStore _ thread task dependency hcall =>
    rw [isQueued_recordReturn]
    exact isQueued_update h (.inr (hat (show Located s task.id (.storing thread) from
      ⟨task, dependency, hcall, rfl⟩) rfl))
  | code hrunning _ hcode' => exact (hcode.code hrunning hcode').elim
  | call hrunning _ hcall =>
    cases hcall with
    | addTaskAfter => exact hbasic.elim
    | applyIndices => exact hbasic.elim
    | _ => exact isQueued_update h (.inr hfresh)
  | dispatch => exact isQueued_update h (.inl rfl)
  | emitEnqueue => exact isQueued_update h (.inl rfl)
  | unlockScheduler => exact isQueued_update h (.inl rfl)
  | callEnqueue => exact isQueued_update h (.inl rfl)
  | start => exact isQueued_update h (.inl rfl)
  | finish => exact isQueued_update h (.inl rfl)
  | popCompletion => exact h
  | popFrame => exact h
  | unlockWorker => exact h

/--
The calls from outside and the message of `join()`.
-/
structure Returned (s : State) : Prop where
  client : ∀ a ∈ s.history.added, a.origin = .client → a.task.continuation = kInvalidNodeID
  enqueue : ∀ k task, s.calls (.client k) = some (.enqueue task) →
    ∃ a ∈ s.history.added, a.task = task ∧ a.origin = .client
  notify : ∀ thread id, s.calls thread = some (.notify id) → (s.history.place id).isQueued = true
  returned : ∀ id ∈ s.history.beforeJoin, (s.history.place id).isQueued = true
  halt : s.halt = true → s.history.joined = true
  message : .join ∈ s.messages → s.history.joined = true

namespace Returned

theorem init (n : Nat) : Returned (State.init n) where
  client := by simp [State.init]
  enqueue := by simp [State.init]
  notify := by simp [State.init]
  returned := by simp [State.init]
  halt := by simp [State.init]
  message := by simp [State.init]

theorem of_calls (h : Returned s) (hplace : ∀ id, (s.history.place id).isQueued = true →
      (s'.history.place id).isQueued = true)
    (hadded : s'.history.added = s.history.added)
    (henqueue : ∀ k task, s'.calls (.client k) = some (.enqueue task) →
      s.calls (.client k) = some (.enqueue task))
    (hnotify : ∀ thread id, s'.calls thread = some (.notify id) →
      s.calls thread = some (.notify id) ∨ (s'.history.place id).isQueued = true)
    (hreturned : s'.history.beforeJoin = s.history.beforeJoin)
    (hhalt : s'.halt = s.halt) (hjoined : s'.history.joined = s.history.joined)
    (hmessage : .join ∈ s'.messages → .join ∈ s.messages)
    : Returned s' where
  client := by
    rw [hadded]
    exact h.client
  enqueue := by
    rw [hadded]
    exact fun k task hc => h.enqueue k task (henqueue k task hc)
  notify := by
    intro thread id hc
    rcases hnotify thread id hc with hc | hq
    . exact hplace id (h.notify thread id hc)
    . exact hq
  returned := by
    rw [hreturned]
    exact fun id hid => hplace id (h.returned id hid)
  halt := by
    rw [hhalt, hjoined]
    exact h.halt
  message := by
    rw [hjoined]
    exact fun hm => h.message (hmessage hm)

theorem of_same (h : Returned s) (hplace : ∀ id, (s.history.place id).isQueued = true →
      (s'.history.place id).isQueued = true)
    (hadded : s'.history.added = s.history.added) (hcalls : s'.calls = s.calls)
    (hreturned : s'.history.beforeJoin = s.history.beforeJoin)
    (hhalt : s'.halt = s.halt) (hjoined : s'.history.joined = s.history.joined)
    (hmessage : .join ∈ s'.messages → .join ∈ s.messages)
    : Returned s' := by
  apply h.of_calls hplace hadded ?_ ?_ hreturned hhalt hjoined hmessage
  . rw [hcalls]
    exact fun _ _ hc => hc
  . rw [hcalls]
    exact fun _ _ hc => .inl hc

theorem addTask (h : Returned s) {thread : Thread} {task : Task} {dependency dependent : NodeID}
    {origin : Origin}
    (hplace : ∀ id, (s.history.place id).isQueued = true →
      ((s.addTask thread task dependency dependent origin).history.place id).isQueued = true)
    : Returned (s.addTask thread task dependency dependent origin) := by
  apply h.of_calls hplace rfl ?_ ?_ rfl rfl rfl (fun hm => hm)
  . intro k t hc
    simp only [State.addTask, setPlace, Function.update_apply] at hc
    split at hc
    . cases hc
    . exact hc
  . intro th id hc
    simp only [State.addTask, setPlace, Function.update_apply] at hc
    split at hc
    . cases hc
    . exact .inl hc

theorem recordReturn (h : Returned s) {thread : Thread} {id : Nat}
    (hid : ∀ k, thread = .client k → (s.history.place id).isQueued = true)
    : Returned (s.recordReturn thread id) := by
  cases thread with
  | worker w => exact h
  | client k =>
    simp only [State.recordReturn]
    split
    . exact h
    . refine ⟨h.client, h.enqueue, h.notify, ?_, h.halt, h.message⟩
      intro i hi
      rcases List.mem_cons.mp hi with rfl | hi
      . exact hid k rfl
      . exact h.returned i hi

theorem quiet (h : Returned s) (hstep : Quiet s s') : Returned s' := by
  cases hstep with
  | join => exact ⟨h.client, h.enqueue, h.notify, h.returned, fun _ => rfl, fun _ => rfl⟩
  | popJoin hloop hmessages =>
    have hjoined : s.history.joined = true := h.message (by simp [hmessages])
    exact ⟨h.client, h.enqueue, h.notify, h.returned, fun _ => hjoined, fun _ => hjoined⟩
  | popNewTask hloop hmessages =>
    refine h.of_same (fun _ hq => hq) rfl rfl rfl rfl rfl ?_
    intro hm
    rw [hmessages]
    exact List.mem_cons_of_mem _ hm
  | emitNotify =>
    refine h.of_same (fun _ hq => hq) rfl rfl rfl rfl rfl ?_
    simp
  | @callNotify thread id hcall =>
    apply recordReturn
    . refine h.of_calls (fun _ hq => hq) rfl ?_ ?_ rfl rfl rfl (by simp)
      . intro k task hc
        dsimp only at hc
        rw [Function.update_apply] at hc
        split at hc
        . cases hc
        . exact hc
      . intro th i hc
        dsimp only at hc
        rw [Function.update_apply] at hc
        split at hc
        . cases hc
        . exact .inl hc
    . exact fun k hk => h.notify thread id hcall
  | _ => exact h.of_same (fun _ hq => hq) rfl rfl rfl rfl rfl (fun hm => hm)

theorem worker_origin {w : Nat} {task : ScheduledTask} {dependency : NodeID} {origin : Origin}
    (hinv : Inv s) (hcode : BasicCode s)
    (hcall : s.calls (.worker w) = some (.link task dependency origin))
    : origin ≠ .client := by
  rintro rfl
  have hidle := hinv.threads.idle w (by simp [hcall])
  obtain ⟨⟨ctx, code⟩, hrunning⟩ := Option.ne_none_iff_exists'.mp hidle
  have hlocal := hinv.threads.code w ctx code hrunning
  rw [hcall] at hlocal
  rcases hcode.running w ctx code hrunning with rfl | ⟨rest, c, next, rfl, -⟩
  . rcases hlocal with ⟨h, -⟩ | ⟨h, -⟩ | ⟨d, q, h, -⟩ <;> cases h
  . obtain ⟨-, -, -, next', h, -⟩ := hlocal
    cases h

theorem callLink {thread : Thread} {task : ScheduledTask} {dependency : NodeID} {origin : Origin}
    (hinv : Inv s) (hafter : NoAfter s) (hcode : BasicCode s) (h : Returned s)
    (hplace : ∀ id, (s.history.place id).isQueued = true →
      ((s.afterLink thread task dependency origin).history.place id).isQueued = true)
    (hcall : s.calls thread = some (.link task dependency origin))
    : Returned (s.afterLink thread task dependency origin) := by
  obtain ⟨graph, links, heq⟩ := afterLink_eq s thread task dependency origin
  rw [heq] at hplace ⊢
  -- only clients add tasks for a client
  have hclient : ∀ k, thread = .client k → origin = .client ∧ task.continuation = kInvalidNodeID := by
    rintro k rfl
    have hc := hinv.threads.client k
    rw [hcall] at hc
    rcases hc with ⟨horigin, -, hcont⟩ | ⟨d, p, rfl, -⟩
    . exact ⟨horigin, hcont⟩
    . exact absurd hcall (hafter.link _ _ _ d p)
  refine ⟨?_, ?_, ?_, ?_, h.halt, h.message⟩
  . intro a ha horigin
    rcases List.mem_cons.mp ha with rfl | ha
    . cases thread with
      | client k => exact (hclient k rfl).2
      | worker w => exact absurd horigin (worker_origin hinv hcode hcall)
    . exact h.client a ha horigin
  . intro k t hc
    dsimp only at hc
    rw [Function.update_apply] at hc
    split at hc
    . next hk =>
      split at hc
      . cases hc
        exact ⟨_, List.mem_cons_self, rfl, (hclient k hk.symm).1⟩
      . cases hc
    . obtain ⟨a, ha, hat⟩ := h.enqueue k t hc
      exact ⟨a, List.mem_cons_of_mem _ ha, hat⟩
  . intro th id hc
    dsimp only at hc
    rw [Function.update_apply] at hc
    split at hc
    . split at hc <;> cases hc
    . exact hplace id (h.notify th id hc)
  . exact fun id hid => hplace id (h.returned id hid)

theorem callEnqueue {thread : Thread} {task : ScheduledTask} (h : Returned s)
    (hplace : ∀ id, (s.history.place id).isQueued = true →
      ((s.setPlace task.id .queued).history.place id).isQueued = true)
    : Returned ({ s with
        taskQueue := s.taskQueue ++ [task]
        calls := Function.update s.calls thread (some (.notify task.id)) }.setPlace task.id .queued) := by
  refine h.of_calls hplace rfl ?_ ?_ rfl rfl rfl (fun hm => hm)
  . intro k t hc
    simp only [setPlace, Function.update_apply] at hc
    split at hc
    . cases hc
    . exact hc
  . intro th id hc
    simp only [setPlace, Function.update_apply] at hc
    split at hc
    . cases hc
      right
      simp [setPlace, Place.isQueued]
    . exact .inl hc

theorem callStore {thread : Thread} {task : ScheduledTask} {dependency : NodeID} (hinv : Inv s)
    (hafter : NoAfter s) (h : Returned s)
    (hplace : ∀ id, (s.history.place id).isQueued = true →
      ((s.setPlace task.id .stored).history.place id).isQueued = true)
    (hcall : s.calls thread = some (.store task dependency))
    : Returned (({ s with
        tasks := Function.update s.tasks task.id (some task)
        calls := Function.update s.calls thread none }.setPlace
          task.id .stored).recordReturn thread task.id) := by
  apply recordReturn
  . refine h.of_calls hplace rfl ?_ ?_ rfl rfl rfl (fun hm => hm)
    . intro k t hc
      simp only [setPlace, Function.update_apply] at hc
      split at hc
      . cases hc
      . exact hc
    . intro th id hc
      simp only [setPlace, Function.update_apply] at hc
      split at hc
      . cases hc
      . exact .inl hc
  . rintro k rfl
    -- a client stores only tasks that wait for a task
    have hclient := hinv.threads.client k
    rw [hcall] at hclient
    obtain ⟨d, rfl⟩ := hclient
    exact absurd hcall (hafter.store _ _ d)

theorem step {a : Action} (hinv : Inv s) (hafter : NoAfter s) (hcode : BasicCode s) (h : Returned s)
    (hbasic : a.Basic) (hstep : Step s a s')
    : Returned s' := by
  have hplace : ∀ id, (s.history.place id).isQueued = true → (s'.history.place id).isQueued = true :=
    fun id hq => isQueued_step hinv.placed hcode hbasic hq hstep
  cases hstep with
  | quiet hquiet => exact h.quiet hquiet
  | popCompletion hloop hmessages =>
    refine h.of_same hplace rfl rfl rfl rfl rfl ?_
    intro hm
    rw [hmessages]
    exact List.mem_cons_of_mem _ hm
  | @complete id w =>
    obtain ⟨graph, lock, fired, fault, heq⟩ :=
      processDependents_eq { s with loop := .processDependents id w } .scheduler (.task id)
    rw [heq] at hplace ⊢
    exact h.of_same hplace rfl rfl rfl rfl rfl (fun hm => hm)
  | @visit _ m rest frames dependent =>
    obtain ⟨graph, fired, fault, tasks, emit, place, -, heq⟩ :=
      visitDependent_fired s m rest frames dependent
    rw [heq] at hplace ⊢
    exact h.of_same hplace rfl rfl rfl rfl rfl (fun hm => hm)
  | clientAdd => exact h.addTask hplace
  | clientAddAfter => exact hbasic.elim
  | callLink hlock hcall => exact callLink hinv hafter hcode h hplace hcall
  | callEnqueue => exact h.callEnqueue hplace
  | callStore hcall =>
    refine callStore hinv hafter h ?_ hcall
    intro id hq
    have := hplace id hq
    rwa [isQueued_recordReturn] at this
  | finish => exact h.of_same hplace rfl rfl rfl rfl rfl (by simp [recordFinished, setPlace])
  | code hrunning _ hstep => exact (hcode.code hrunning hstep).elim
  | @call _ w ctx code _ hrunning hcall hstep =>
    cases hstep with
    | addTaskAfter => exact hbasic.elim
    | applyIndices => exact hbasic.elim
    | addTask => exact h.addTask hplace
    | spawnTask => exact h.addTask hplace
    | chainLast => exact (h.addTask hplace).of_same (fun _ hq => hq) rfl rfl rfl rfl rfl (fun hm => hm)
    | chain =>
      have : Returned (s.allocateContinuation (some ctx.id)) :=
        h.of_same (fun _ hq => hq) rfl rfl rfl rfl rfl (fun hm => hm)
      exact (this.addTask hplace).of_same (fun _ hq => hq) rfl rfl rfl rfl rfl (fun hm => hm)
    | planOperator =>
      rcases hcode.running _ _ _ hrunning with heq | ⟨_, _, _, heq, -⟩ <;> cases heq
    | planExit =>
      rcases hcode.running _ _ _ hrunning with heq | ⟨_, _, _, heq, -⟩ <;> cases heq
  | _ => exact h.of_same hplace rfl rfl rfl rfl rfl (fun hm => hm)

end Returned

/-! The end of the loop. -/

structure BasicSound (s : State) : Prop extends PlainSound s where
  code : BasicCode s
  progress : Progress s
  preceded : Preceded s
  returned : Returned s

namespace BasicSound

theorem init (n : Nat) : BasicSound (State.init n) where
  toPlainSound := PlainSound.init n
  code := BasicCode.init n
  progress := Progress.init n
  preceded := Preceded.init n
  returned := Returned.init n

theorem step {a : Action} (h : BasicSound s) (hbasic : a.Basic)
    (hstep : Hustle.Scheduler.step s a = some s')
    : BasicSound s' where
  toPlainSound := h.toPlainSound.step hbasic.plain hstep
  code := BasicCode.step h.inv h.code hbasic (step_cases hstep)
  progress := Progress.step h.inv h.noAfter h.code h.progress hbasic (step_cases hstep)
  preceded := Preceded.step h.inv h.code h.preceded hbasic (step_cases hstep)
  returned := Returned.step h.inv h.noAfter h.code h.returned hbasic (step_cases hstep)

theorem running_eq_none (h : BasicSound s) (hall : s.availableWorkers.length = s.numWorkers) (w : Nat)
    : s.running w = none := by
  by_contra hne
  obtain ⟨⟨ctx, code⟩, hr⟩ := Option.ne_none_iff_exists'.mp hne
  have hp : s.history.place ctx.id = .running w := (h.inv.placed.located _ _).mp ⟨ctx, code, hr, rfl⟩
  have := worker_eq_none h.inv.placed hall ctx.id
  rw [hp] at this
  cases this

theorem call_eq_none (h : BasicSound s) (hall : s.availableWorkers.length = s.numWorkers) (w : Nat)
    : s.calls (.worker w) = none := by
  by_contra hne
  exact h.inv.threads.idle w hne (h.running_eq_none hall w)

/--
When all workers are available, a task that was added but not processed is in the queue, waits, or is on
the way to the queue for a client.
-/
theorem place_cases (h : BasicSound s) (hall : s.availableWorkers.length = s.numWorkers) {a : Added}
    (ha : a ∈ s.history.added)
    : s.history.place a.task.id = .stored ∨ s.history.place a.task.id = .queued ∨
        s.history.place a.task.id = .done ∨ a.origin = .client := by
  have hworker := worker_eq_none h.inv.placed hall a.task.id
  have hphase := h.inv.records.phase a ha
  have hfree := h.inv.locked.free (lock_eq_none h.inv hall)
  cases hp : s.history.place a.task.id with
  | unallocated => exact absurd (by simp [hp, Place.phase]) hphase.1
  | linking thread => exact absurd (by simp [hp, Place.phase]) hphase.2
  | storing thread =>
    obtain ⟨task, dependency, hcall, -⟩ := (h.inv.placed.located _ _).mpr hp
    cases thread with
    | worker w => simp [h.call_eq_none hall w] at hcall
    | client k =>
      have hclient := h.inv.threads.client k
      rw [hcall] at hclient
      obtain ⟨d, rfl⟩ := hclient
      exact absurd hcall (h.noAfter.store _ _ d)
  | stored => exact .inl rfl
  | ready thread =>
    have hlocated := (h.inv.placed.located _ _).mpr hp
    cases thread with
    | none =>
      obtain ⟨task, hemit, -⟩ := hlocated
      simp [hfree.2] at hemit
    | some th =>
      cases th with
      | worker w =>
        obtain ⟨task, hcall, -⟩ := hlocated
        simp [h.call_eq_none hall w] at hcall
      | client k =>
        obtain ⟨task, hcall, hid⟩ := hlocated
        obtain ⟨b, hb, rfl, horigin⟩ := h.returned.enqueue k task hcall
        rw [h.inv.records.unique b hb a ha hid] at horigin
        exact .inr (.inr (.inr horigin))
  | queued => exact .inr (.inl rfl)
  | done => exact .inr (.inr (.inl rfl))
  | sent w => simp [hp, Place.worker] at hworker
  | running w => simp [hp, Place.worker] at hworker
  | completed w => simp [hp, Place.worker] at hworker
  | processing w => simp [hp, Place.worker] at hworker

/--
Nothing is waited for when all workers are available and the queue is empty.
-/
theorem not_edge (h : BasicSound s) (hall : s.availableWorkers.length = s.numWorkers)
    (hqueue : s.taskQueue = []) (m n : NodeID)
    : ¬ s.graph.Edge m n := by
  have hframes := (h.inv.locked.free (lock_eq_none h.inv hall)).1
  have hunfired : ∀ m n, s.graph.Edge m n → ¬ s.Fired m := by
    intro m n hedge hfired
    obtain ⟨rest, hrest⟩ := h.inv.ordered.fired_edge m n hfired hedge
    rw [show s.ledger.graph.frames = [] from hframes] at hrest
    cases hrest
  obtain ⟨rank, bound, hbound, hrank⟩ := h.progress.rank
  -- whatever is waited for waits itself, for a node of a higher rank
  induction hk : bound - rank m using Nat.strong_induction_on generalizing m n with
  | _ k ih =>
    intro hedge
    have hlinked := h.inv.ordered.edge_linked m n hedge
    have hhigher : ∀ m', ¬ s.graph.Edge m' m := by
      intro m' hedge'
      have hlt := hrank m' m (h.inv.ordered.edge_linked m' m hedge')
      have hle := hbound m'
      exact ih (bound - rank m') (by omega) m' m rfl hedge'
    cases m with
    | task x =>
      obtain ⟨a, ha, rfl, hcont⟩ := h.progress.target x n hlinked
      rcases h.place_cases hall ha with hp | hp | hp | horigin
      . obtain ⟨m', hm'⟩ := h.inv.ordered.waiting_edge a.task.id (by simp [ledger, hp, Place.phase])
        exact hhigher m' hm'
      . obtain ⟨task, hmem, -⟩ := (h.inv.placed.located _ _).mpr hp
        simp [hqueue] at hmem
      . apply hunfired _ _ hedge
        apply (h.inv.ordered.fired_task a.task.id).mpr
        simp [ledger, hp, Place.phase]
      . have hinvalid := h.returned.client a ha horigin
        rw [hcont] at hinvalid
        subst hinvalid
        have hzero := (h.inv.ordered.linked_task _ 0 hlinked).1
        apply hzero
        have : s.history.place 0 = .unallocated := (h.inv.placed.located _ _).mp (.inl rfl)
        simp [ledger, this, Place.phase]
    | continuation c =>
      rcases h.progress.feeding c n hlinked with hf | ⟨m', hm'⟩ | hchains | ⟨thread, task, dep, origin, hc, hcont⟩
      . exact hunfired _ _ hedge hf
      . rcases h.inv.ordered.continuation_unfired m' c hm' with hf | ⟨m'', hm''⟩
        . exact hunfired _ _ hedge hf
        . exact hhigher m'' hm''
      . obtain ⟨w, ctx, rest, next, hr, -⟩ := hchains
        simp [h.running_eq_none hall w] at hr
      . cases thread with
        | worker w => simp [h.call_eq_none hall w] at hc
        | client k =>
          have hclient := h.inv.threads.client k
          rw [hc] at hclient
          rcases hclient with ⟨-, -, hinvalid⟩ | ⟨d, p, rfl, -⟩
          . rw [hcont] at hinvalid
            cases hinvalid
          . exact h.noAfter.link _ _ _ d p hc

end BasicSound

namespace State

/--
The task was added before the join, or by a running task.
-/
def Due (s : State) (id : Nat) : Prop :=
  id ∈ s.history.beforeJoin ∨ ∃ a ∈ s.history.added, a.task.id = id ∧ a.origin ≠ .client

end State

structure Exited (s : State) : Prop where
  joined : s.history.joined = true
  available : s.availableWorkers.length = s.numWorkers
  finished : ∀ id, s.Due id → id ∈ s.history.finished

namespace Exited

theorem of_done (hplaced : Placed s) {id : Nat} (h : s.history.place id = .done)
    : id ∈ s.history.finished := by
  rw [hplaced.finished, h]
  rfl

theorem exit (h : BasicSound s) (hhalt : s.halt = true)
    (hall : s.availableWorkers.length = s.numWorkers) (hqueue : s.taskQueue = [])
    : Exited s where
  joined := h.returned.halt hhalt
  available := hall
  finished := by
    have hqueued : ∀ id, s.history.place id ≠ .queued := by
      intro id hp
      obtain ⟨task, hmem, -⟩ := (h.inv.placed.located _ _).mpr hp
      simp [hqueue] at hmem
    rintro id (hid | ⟨a, ha, rfl, horigin⟩)
    . have hq := h.returned.returned id hid
      have hworker := worker_eq_none h.inv.placed hall id
      have hne := hqueued id
      cases hp : s.history.place id <;> simp [hp, Place.isQueued, Place.worker] at hq hworker hne
      exact of_done h.inv.placed hp
    . rcases h.place_cases hall ha with hp | hp | hp | hclient
      . obtain ⟨m, hm⟩ := h.inv.ordered.waiting_edge a.task.id (by simp [ledger, hp, Place.phase])
        exact absurd hm (h.not_edge hall hqueue m _)
      . exact absurd hp (hqueued _)
      . exact of_done h.inv.placed hp
      . exact absurd hclient horigin

theorem of_same (h : Exited s) (hjoined : s'.history.joined = true)
    (havailable : s'.availableWorkers = s.availableWorkers) (hworkers : s'.numWorkers = s.numWorkers)
    (hreturned : s'.history.beforeJoin = s.history.beforeJoin)
    (hadded : ∀ a ∈ s'.history.added, a ∈ s.history.added ∨ a.origin = .client)
    (hfinished : s'.history.finished = s.history.finished)
    : Exited s' where
  joined := hjoined
  available := by
    rw [havailable, hworkers]
    exact h.available
  finished := by
    rw [hfinished]
    rintro id (hid | ⟨a, ha, rfl, horigin⟩)
    . rw [hreturned] at hid
      exact h.finished id (.inl hid)
    . rcases hadded a ha with ha | hclient
      . exact h.finished _ (.inr ⟨a, ha, rfl, horigin⟩)
      . exact absurd hclient horigin

theorem recordReturn (h : Exited s) (thread : Thread) (id : Nat) : Exited (s.recordReturn thread id) := by
  cases thread with
  | worker w => exact h
  | client k =>
    simp only [State.recordReturn, h.joined, if_true]
    exact h

theorem addTask (h : Exited s) {thread : Thread} {task : Task} {dependency dependent : NodeID}
    {origin : Origin}
    : Exited (s.addTask thread task dependency dependent origin) :=
  h.of_same h.joined rfl rfl rfl (fun _ ha => .inl ha) rfl

/--
Only clients take steps after the scheduler has left its loop, and the tasks that they add are not due.
-/
theorem step {a : Action} (hs : BasicSound s) (h : Exited s) (hloop : s.loop = .exited)
    (hbasic : a.Basic) (hstep : Step s a s')
    : Exited s' := by
  have hfree := lock_eq_none hs.inv h.available
  have hnone := hs.running_eq_none h.available
  cases hstep with
  | quiet hquiet =>
    cases hquiet with
    | join => exact h.of_same rfl rfl rfl rfl (fun _ ha => .inl ha) rfl
    | callNotify =>
      apply recordReturn
      exact h.of_same h.joined rfl rfl rfl (fun _ ha => .inl ha) rfl
    | _ => exact h.of_same h.joined rfl rfl rfl (fun _ ha => .inl ha) rfl
  | dispatch hpop => simp [hloop] at hpop
  | popCompletion hpop => simp [hloop] at hpop
  | complete hpop => simp [hloop] at hpop
  | unlockScheduler _ _ hlock => simp [hfree] at hlock
  | unlockWorker _ _ hlock => simp [hfree] at hlock
  | visit _ _ _ hlock => exact absurd hfree hlock
  | emitEnqueue _ hlock => exact absurd hfree hlock
  | popFrame _ _ hlock => exact absurd hfree hlock
  | clientAdd => exact h.addTask
  | clientAddAfter => exact hbasic.elim
  | @callLink thread task dependency origin hlock hcall =>
    obtain ⟨graph, links, heq⟩ := linkTask_eq s task dependency
    rw [heq]
    refine h.of_same h.joined rfl rfl rfl ?_ rfl
    intro a ha
    rcases List.mem_cons.mp ha with rfl | ha
    . right
      cases thread with
      | worker w => simp [hs.call_eq_none h.available w] at hcall
      | client k =>
        have hclient := hs.inv.threads.client k
        rw [hcall] at hclient
        rcases hclient with ⟨horigin, -⟩ | ⟨d, p, rfl, -⟩
        . exact horigin
        . exact absurd hcall (hs.noAfter.link _ _ _ d p)
    . exact .inl ha
  | callEnqueue => exact h.of_same h.joined rfl rfl rfl (fun _ ha => .inl ha) rfl
  | callStore =>
    apply recordReturn
    exact h.of_same h.joined rfl rfl rfl (fun _ ha => .inl ha) rfl
  | start => exact h.of_same h.joined rfl rfl rfl (fun _ ha => .inl ha) rfl
  | finish hrunning => simp [hnone] at hrunning
  | code hrunning => simp [hnone] at hrunning
  | call hrunning => simp [hnone] at hrunning

end Exited

theorem loop_recordReturn (thread : Thread) (id : Nat) : (s.recordReturn thread id).loop = s.loop := by
  cases thread with
  | worker w => rfl
  | client k =>
    simp only [State.recordReturn]
    split <;> rfl

theorem exit_of_loop {a : Action} (hcode : BasicCode s) (hloop : s.loop ≠ .exited) (hstep : Step s a s')
    (h : s'.loop = .exited)
    : s.halt = true ∧ s.availableWorkers.length = s.numWorkers ∧ s.taskQueue = [] ∧
        s' = { s with loop := .exited } := by
  cases hstep with
  | quiet hquiet =>
    cases hquiet with
    | exit _ hhalt havailable hqueue => exact ⟨hhalt, havailable, hqueue, rfl⟩
    | check => cases h
    | popOne => cases h
    | popJoin => cases h
    | popNewTask => cases h
    | callNotify =>
      rw [loop_recordReturn] at h
      exact absurd h hloop
    | join => exact absurd h hloop
    | emitNotify => exact absurd h hloop
    | allocateContinuation => exact absurd h hloop
  | popCompletion => cases h
  | @complete id w =>
    obtain ⟨graph, lock, fired, fault, heq⟩ :=
      processDependents_eq { s with loop := .processDependents id w } .scheduler (.task id)
    rw [heq] at h
    cases h
  | @visit _ m rest frames dependent =>
    obtain ⟨graph, fired, fault, tasks, emit, place, -, heq⟩ :=
      visitDependent_fired s m rest frames dependent
    rw [heq] at h
    exact absurd h hloop
  | unlockScheduler => cases h
  | @callLink thread task dependency =>
    obtain ⟨graph, links, heq⟩ := linkTask_eq s task dependency
    rw [heq] at h
    exact absurd h hloop
  | callStore =>
    rw [loop_recordReturn] at h
    exact absurd h hloop
  | code hrunning _ hstep => exact (hcode.code hrunning hstep).elim
  | call _ _ hstep => cases hstep <;> exact absurd h hloop
  | _ => exact absurd h hloop

structure BasicRun (s : State) : Prop extends BasicSound s where
  exited : s.loop = .exited → Exited s

theorem BasicRun.init (n : Nat) : BasicRun (State.init n) where
  toBasicSound := BasicSound.init n
  exited := by simp [State.init]

theorem BasicRun.step {a : Action} (h : BasicRun s) (hbasic : a.Basic)
    (hstep : Hustle.Scheduler.step s a = some s')
    : BasicRun s' where
  toBasicSound := h.toBasicSound.step hbasic hstep
  exited := by
    intro hloop'
    have hcases := step_cases hstep
    by_cases hloop : s.loop = .exited
    . exact (h.exited hloop).step h.toBasicSound hloop hbasic hcases
    . obtain ⟨hhalt, havailable, hqueue, rfl⟩ := exit_of_loop h.code hloop hcases hloop'
      have hexit := Exited.exit h.toBasicSound hhalt havailable hqueue
      exact ⟨hexit.joined, hexit.available, hexit.finished⟩

theorem BasicRun.run {n : Nat} {actions : List Action} (hbasic : ∀ a ∈ actions, a.Basic)
    (hrun : actions.foldlM Hustle.Scheduler.step (State.init n) = some s)
    : BasicRun s := by
  have hmeets := (Run.meets_true Hustle.Scheduler.step (State.init n) actions).and_forall hbasic
  exact hmeets.invariant (fun _ _ _ h hb hstep => h.step hb.2 hstep) (BasicRun.init n) hrun

/-! Programs of functors and chains. -/

namespace State

/--
The nodes that list `n` as a dependent.
-/
def Listing (s : State) (n : NodeID) : Set NodeID :=
  { m | ∃ node, s.graph.nodes m = some node ∧ n ∈ node.dependents }

/--
The nodes among them that have not counted it down yet.
-/
def Awaiting (s : State) (n : NodeID) : Set NodeID :=
  { m | m ∈ s.Listing n ∧ ∀ rest, (m, rest) ∈ s.graph.frames → n ∈ rest }

/--
The nodes, the tasks and the chains are in order.
-/
structure InOrder (s : State) : Prop where
  counts : ∀ n node, s.graph.nodes n = some node → (s.Awaiting n).encard = node.dependencyCount
  /-- While nobody processes dependents. -/
  listed : s.lock = none → ∀ n node, s.graph.nodes n = some node →
    (s.Listing n).encard = node.dependencyCount
  fault : s.fault = none
  once : (s.history.started.map (·.id)).Nodup
  /-- An element of a chain that has to wait for the one before it. -/
  chains : ∀ b ∈ s.history.added, ∀ p next, b.origin = .chained p next → b.dependency ≠ kInvalidNodeID →
    s.Started b.task.id → ∃ a ∈ s.history.added, a.origin = .chained p (some b.task.id)
  elements : ∀ a ∈ s.history.added, ∀ p b, a.origin = .chained p (some b) → s.Started b →
    s.TreeFinished a.task.id
  exited : s.loop = .exited → ∀ id, s.Due id → id ∈ s.history.finished

end State

namespace BasicSound

theorem awaiting_eq (n : NodeID) : s.Awaiting n = { m | s.graph.Edge m n } := by
  ext m
  constructor
  . rintro ⟨⟨node, hnode, hn⟩, hrest⟩
    exact ⟨node, hnode, hn, hrest⟩
  . rintro ⟨node, hnode, hn, hrest⟩
    exact ⟨⟨node, hnode, hn⟩, hrest⟩

theorem counts (h : BasicSound s) {n : NodeID} {node : Countdown.Node NodeID}
    (hn : s.graph.nodes n = some node)
    : (s.Awaiting n).encard = node.dependencyCount := by
  rw [awaiting_eq]
  exact h.inv.ordered.counted.count n node hn

theorem listed (h : BasicSound s) (hlock : s.lock = none) {n : NodeID} {node : Countdown.Node NodeID}
    (hn : s.graph.nodes n = some node)
    : (s.Listing n).encard = node.dependencyCount := by
  have hframes := (h.inv.locked.free hlock).1
  have : s.Listing n = s.Awaiting n := by
    ext m
    simp [Awaiting, hframes]
  rw [this]
  exact h.counts hn

theorem chains (h : BasicSound s) {b : Added} (hb : b ∈ s.history.added) {p : Nat} {next : Option Nat}
    (horigin : b.origin = .chained p next) (hne : b.dependency ≠ kInvalidNodeID)
    (hstarted : s.Started b.task.id)
    : ∃ a ∈ s.history.added, a.origin = .chained p (some b.task.id) := by
  have hfired : s.Fired b.dependency :=
    fired_of_started h.inv (started_of_id h.inv hb hstarted) (h.inv.records.dependency b hb hne)
  rcases h.preceded b hb p next horigin hne with ha | ⟨w, ctx, rest, hr, -, hrest⟩ |
    ⟨w, task, dependency, hcall, hcont⟩
  . exact ha
  . have hlocal := h.inv.threads.code w ctx _ hr
    have htarget : s.ChainTarget ctx (some b.task.id) b.dependency := by
      match hcall : s.calls (.worker w), hlocal with
      | some (.link task dependency origin), hlocal =>
        -- the task that is being linked has not been added
        have hid := Option.some.inj hlocal.1
        have hphase := (h.inv.records.phase b hb).2
        rw [hid, h.inv.phase_linking hcall] at hphase
        exact absurd rfl hphase
      | some (.store _ _), hlocal => exact hlocal.2.2
      | some (.enqueue _), hlocal => exact hlocal hrest
      | some (.notify _), hlocal => exact hlocal hrest
      | none, hlocal => exact hlocal hrest
    rcases htarget with ⟨hnone, -⟩ | ⟨_, -, hreserved, -⟩
    . cases hnone
    . exact absurd hfired hreserved.unfired
  . obtain ⟨_, ctx, rest, -, -, -, -, htarget⟩ := Preceded.chained_call h.inv h.code hcall
    rcases htarget with ⟨hnone, -⟩ | ⟨_, -, hreserved, -⟩
    . cases hnone
    . rw [hcont] at hreserved
      exact absurd hfired hreserved.unfired

theorem elements (h : BasicSound s) {a : Added} (ha : a ∈ s.history.added) {p b : Nat}
    (horigin : a.origin = .chained p (some b)) (hstarted : s.Started b)
    : s.TreeFinished a.task.id := by
  obtain ⟨t, ht, rfl⟩ := List.mem_map.mp hstarted
  have hlink := h.joined.chained a ha p t.id horigin
  have hfired := fired_of_started h.inv ht hlink
  have hne : a.task.continuation ≠ kInvalidNodeID := by
    intro hinvalid
    rw [hinvalid] at hlink
    have hzero : s.history.place 0 = .unallocated := (h.inv.placed.located _ _).mp (.inl rfl)
    apply h.inv.ordered.source _ _ hlink
    simp [ledger, hzero, Place.phase]
  intro x hx
  exact finished_of_tree h.inv h.joined ha (h.noAfter.not_late _) hne hfired hx

end BasicSound

/--
In every run of a program that adds work only through `addTask(task)`, `spawnTask` and chains, the nodes,
the tasks and the chains are in order.
-/
theorem inOrder_of_basic {n : Nat} {actions : List Action} (hbasic : ∀ a ∈ actions, a.Basic)
    (hrun : actions.foldlM step (State.init n) = some s)
    : s.InOrder := by
  have h := BasicRun.run hbasic hrun
  exact {
    counts := fun _ _ hn => h.counts hn
    listed := fun hlock _ _ hn => h.listed hlock hn
    fault := h.inv.locked.fault
    once := h.inv.placed.started_nodup
    chains := fun _ hb _ _ horigin hne hstarted => h.chains hb horigin hne hstarted
    elements := fun _ ha _ _ horigin hstarted => h.elements ha horigin hstarted
    exited := fun hloop id hdue => (h.exited hloop).finished id hdue }

def chainRun : List Action :=
  [.request 0 (.addTask (.chain [.lambda false, .lambda false])), .call (.client 0),
    .call (.client 0), .call (.client 0), .join, .schedule, .start 0, .code 0, .call (.worker 0),
    .call (.worker 0), .code 0, .call (.worker 0), .call (.worker 0), .call (.worker 0), .finish 0,
    .schedule, .schedule, .schedule, .schedule, .schedule, .schedule, .schedule, .schedule,
    .schedule, .schedule, .schedule, .schedule, .schedule, .unlock, .schedule, .start 0, .finish 0,
    .schedule, .schedule, .schedule, .schedule, .cascade (.continuation 1), .cascade (.task 2),
    .cascade kInvalidNodeID, .cascade kInvalidNodeID, .cascade kInvalidNodeID,
    .cascade kInvalidNodeID, .unlock, .schedule, .start 0, .finish 0, .schedule, .schedule,
    .schedule, .schedule, .schedule, .schedule, .schedule, .cascade kInvalidNodeID, .unlock,
    .schedule, .schedule]

theorem inOrder_chainRun
    : ∃ s, chainRun.foldlM step (State.init 1) = some s ∧
        s.loop = .exited ∧ s.history.started.map (·.id) = [2, 3, 1] ∧ s.InOrder := by
  have hrun : (chainRun.foldlM step (State.init 1)).map
      (fun s => (s.loop, s.history.started.map (·.id))) = some (.exited, [2, 3, 1]) := by decide +kernel
  obtain ⟨s, hs, hend⟩ := Option.map_eq_some_iff.mp hrun
  simp only [Prod.mk.injEq] at hend
  have hchain : (Task.chain [.lambda false, .lambda false]).Basic := by
    apply Task.Basic.chain
    simp only [List.mem_cons, List.not_mem_nil, or_false, or_self, forall_eq]
    exact .lambda false
  refine ⟨s, hs, hend.1, hend.2, inOrder_of_basic ?_ hs⟩
  rw [chainRun]
  iterate 57
    refine List.forall_mem_cons.mpr ⟨by trivial, ?_⟩
  exact List.forall_mem_nil _

end Hustle.Scheduler
