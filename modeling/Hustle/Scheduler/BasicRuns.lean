import Hustle.Scheduler.Plain

/-!
This module contains the runs of programs that add work only through `addTask(task)`, `spawnTask` and
`CreateTaskChain`: which code runs in them, and why no task of them waits forever.
-/

namespace Hustle.Scheduler

open State

/--
Functors and chains of such tasks, nested to any depth.
-/
inductive Task.Basic : Task → Prop where
  | lambda (materializes : Bool) : Basic (.lambda materializes)
  | chain {tasks : List Task} (h : ∀ task ∈ tasks, Basic task) : Basic (.chain tasks)

def Request.Basic : Request → Prop
  | .addTask task | .spawnTask task => task.Basic
  | .addTaskAfter _ _ _ | .allocateContinuation | .applyIndices => False

def Action.Basic : Action → Prop
  | .request _ r | .functor _ r => r.Basic
  | _ => True

theorem Task.Basic.valid {task : Task} (h : task.Basic) : task.Valid := by
  induction h with
  | lambda materializes => exact .lambda materializes
  | chain _ ih => exact .chain ih

theorem Action.Basic.plain {a : Action} (h : a.Basic) : a.Plain := by
  cases a with
  | request k r => cases r <;> first | exact Task.Basic.valid h | exact h.elim
  | functor w r => cases r <;> first | exact Task.Basic.valid h | exact h.elim
  | _ => trivial

variable {s s' : State}

/--
Only functors and chains run.
-/
structure BasicCode (s : State) : Prop where
  added : ∀ a ∈ s.history.added, a.task.task.Basic
  call : ∀ thread task dependency origin, s.calls thread = some (.link task dependency origin) →
    task.task.Basic
  running : ∀ w ctx code, s.running w = some (ctx, code) →
    code = .lambda ∨ ∃ rest cDependent next, code = .chain rest cDependent next ∧ ∀ t ∈ rest, t.Basic

namespace BasicCode

theorem init (n : Nat) : BasicCode (State.init n) where
  added := by simp [State.init]
  call := by simp [State.init]
  running := by simp [State.init]

theorem of_same (h : BasicCode s) (hadded : s'.history.added = s.history.added)
    (hcalls : ∀ thread task dependency origin, s'.calls thread = some (.link task dependency origin) →
      s.calls thread = some (.link task dependency origin))
    (hrunning : ∀ w ctx code, s'.running w = some (ctx, code) → s.running w = some (ctx, code))
    : BasicCode s' where
  added := by
    rw [hadded]
    exact h.added
  call := fun thread task dependency origin hc =>
    h.call thread task dependency origin (hcalls thread task dependency origin hc)
  running := fun w ctx code hr => h.running w ctx code (hrunning w ctx code hr)

theorem addTask (h : BasicCode s) {thread : Thread} {task : Task} {dependency dependent : NodeID}
    {origin : Origin} (htask : task.Basic)
    : BasicCode (s.addTask thread task dependency dependent origin) where
  added := h.added
  call := by
    intro th t dep o hc
    simp only [State.addTask, setPlace, Function.update_apply] at hc
    split at hc
    . cases hc
      exact htask
    . exact h.call th t dep o hc
  running := h.running

theorem setCode (h : BasicCode s) {w : Nat} {ctx : ScheduledTask} {rest : List Task} {c : NodeID}
    {next : Option Nat} (hrest : ∀ t ∈ rest, t.Basic)
    : BasicCode (s.setCode w ctx (.chain rest c next)) where
  added := h.added
  call := h.call
  running := by
    intro v ctx' code hr
    simp only [State.setCode, Function.update_apply] at hr
    split at hr
    . cases hr
      exact .inr ⟨rest, c, next, rfl, hrest⟩
    . exact h.running v ctx' code hr

theorem update_call {calls : Thread → Option Call} {thread : Thread} {call : Option Call}
    (hcall : ∀ task dependency origin, call ≠ some (.link task dependency origin)) (th : Thread)
    (task : ScheduledTask) (dependency : NodeID) (origin : Origin)
    (h : Function.update calls thread call th = some (.link task dependency origin))
    : calls th = some (.link task dependency origin) := by
  rw [Function.update_apply] at h
  split at h
  . exact absurd h (hcall task dependency origin)
  . exact h

theorem recordReturn (h : BasicCode s) (thread : Thread) (id : Nat)
    : BasicCode (s.recordReturn thread id) := by
  cases thread with
  | worker w => exact h
  | client k =>
    simp only [State.recordReturn]
    split
    . exact h
    . exact h.of_same rfl (fun _ _ _ _ hc => hc) (fun _ _ _ hr => hr)

theorem quiet (h : BasicCode s) (hstep : Quiet s s') : BasicCode s' := by
  cases hstep with
  | callNotify =>
    apply recordReturn
    exact h.of_same rfl (update_call (by simp)) (fun _ _ _ hr => hr)
  | _ => exact h.of_same rfl (fun _ _ _ _ hc => hc) (fun _ _ _ hr => hr)

theorem start {w : Nat} {task : ScheduledTask} {tasks : List ScheduledTask} (h : BasicCode s)
    (htask : task.task.Basic)
    : BasicCode (({ s with
        inbox := Function.update s.inbox w tasks
        running := Function.update s.running w (some (task, .start task))
        named := task.continuation :: s.named }.setPlace task.id (.running w)).recordStarted task) where
  added := h.added
  call := h.call
  running := by
    intro v ctx code hr
    simp only [setPlace, recordStarted, Function.update_apply] at hr
    split at hr
    . simp only [Option.some.injEq, Prod.mk.injEq] at hr
      obtain ⟨rfl, rfl⟩ := hr
      cases ht : task.task with
      | lambda => exact .inl (by simp [Code.start, ht])
      | chain tasks =>
        rw [ht] at htask
        cases htask with
        | chain hall =>
          refine .inr ⟨tasks.reverse, task.continuation, none, by simp [Code.start, ht], ?_⟩
          exact fun t hmem => hall t (List.mem_reverse.mp hmem)
      | release =>
        rw [ht] at htask
        cases htask
      | plan =>
        rw [ht] at htask
        cases htask
    . exact h.running v ctx code hr

theorem callLink {thread : Thread} {task : ScheduledTask} {dependency : NodeID} {origin : Origin}
    (h : BasicCode s) (hcall : s.calls thread = some (.link task dependency origin))
    : BasicCode (s.afterLink thread task dependency origin) := by
  obtain ⟨graph, links, heq⟩ := afterLink_eq s thread task dependency origin
  rw [heq]
  refine ⟨?_, ?_, h.running⟩
  . intro a ha
    rcases List.mem_cons.mp ha with rfl | ha
    . exact h.call thread task dependency origin hcall
    . exact h.added a ha
  . intro th t dep o hc
    apply h.call th t dep o
    apply update_call ?_ th t dep o hc
    intro t' dep' o'
    split <;> simp

theorem code {w : Nat} {ctx : ScheduledTask} {code : Code} (h : BasicCode s)
    (hrunning : s.running w = some (ctx, code)) (hstep : CodeStep s w ctx code s')
    : False := by
  rcases h.running w ctx code hrunning with rfl | ⟨rest, c, next, rfl, -⟩
  . cases hstep
  . cases hstep

theorem call_step {w : Nat} {ctx : ScheduledTask} {code : Code} {a : Action} (h : BasicCode s)
    (hbasic : a.Basic) (hrunning : s.running w = some (ctx, code)) (hstep : CallStep s w ctx code a s')
    : BasicCode s' := by
  have hrest : ∀ rest c next, code = .chain rest c next → ∀ t ∈ rest, t.Basic := by
    intro rest c next hcode
    rcases h.running w ctx code hrunning with hlambda | ⟨rest', c', next', hchain, hall⟩
    . rw [hlambda] at hcode
      cases hcode
    . rw [hchain] at hcode
      cases hcode
      exact hall
  cases hstep with
  | addTask => exact h.addTask hbasic
  | spawnTask => exact h.addTask hbasic
  | addTaskAfter => exact hbasic.elim
  | applyIndices => exact hbasic.elim
  | chainLast =>
    apply setCode
    . exact h.addTask (hrest _ _ _ rfl _ List.mem_cons_self)
    . simp
  | chain =>
    apply setCode
    . apply addTask
      . exact h.of_same rfl (fun _ _ _ _ hc => hc) (fun _ _ _ hr => hr)
      . exact hrest _ _ _ rfl _ List.mem_cons_self
    . exact fun t ht => hrest _ _ _ rfl t (List.mem_cons_of_mem _ ht)
  | planOperator =>
    rcases h.running w ctx _ hrunning with hcode | ⟨_, _, _, hcode, -⟩ <;> cases hcode
  | planExit =>
    rcases h.running w ctx _ hrunning with hcode | ⟨_, _, _, hcode, -⟩ <;> cases hcode

theorem step {a : Action} (hinv : Inv s) (h : BasicCode s) (hbasic : a.Basic) (hstep : Step s a s')
    : BasicCode s' := by
  cases hstep with
  | quiet hquiet => exact h.quiet hquiet
  | @complete id w =>
    obtain ⟨graph, lock, fired, fault, heq⟩ :=
      processDependents_eq { s with loop := .processDependents id w } .scheduler (.task id)
    rw [heq]
    exact h.of_same rfl (fun _ _ _ _ hc => hc) (fun _ _ _ hr => hr)
  | @visit _ m rest frames dependent =>
    obtain ⟨graph, fired, fault, heq⟩ | ⟨graph, id, task, -, -, heq⟩ :=
      visitDependent_eq s m rest frames dependent
    . rw [heq]
      exact h.of_same rfl (fun _ _ _ _ hc => hc) (fun _ _ _ hr => hr)
    . rw [heq]
      exact h.of_same rfl (fun _ _ _ _ hc => hc) (fun _ _ _ hr => hr)
  | unlockWorker _ _ _ hrunning =>
    rcases h.running _ _ _ hrunning with hcode | ⟨_, _, _, hcode, -⟩ <;> cases hcode
  | clientAdd => exact h.addTask hbasic
  | clientAddAfter => exact hbasic.elim
  | callLink _ hcall => exact h.callLink hcall
  | callEnqueue => exact h.of_same rfl (update_call (by simp)) (fun _ _ _ hr => hr)
  | callStore =>
    apply recordReturn
    exact h.of_same rfl (update_call (by simp)) (fun _ _ _ hr => hr)
  | @start _ w task tasks _ hinbox =>
    apply h.start
    have hhas : s.Has task := .inr (.inr (.inr (.inr (.inr (.inl ⟨w, by simp [hinbox]⟩)))))
    obtain ⟨a, ha, rfl⟩ := hinv.records.known task hhas
    exact h.added a ha
  | @finish _ w =>
    refine h.of_same rfl (fun _ _ _ _ hc => hc) ?_
    intro v ctx code hr
    simp only [setPlace, recordFinished, Function.update_apply] at hr
    split at hr
    . cases hr
    . exact hr
  | code hrunning _ hcode => exact (h.code hrunning hcode).elim
  | call hrunning _ hcode => exact h.call_step hbasic hrunning hcode
  | _ => exact h.of_same rfl (fun _ _ _ _ hc => hc) (fun _ _ _ hr => hr)

end BasicCode

/-! Links. -/

/--
A running chain will add its next task to the continuation.
-/
def State.Chains (s : State) (c : NodeID) : Prop :=
  ∃ w ctx rest next, s.running w = some (ctx, .chain rest c next) ∧ rest ≠ []

/--
A task is about to be added to the continuation.
-/
def State.Feeds (s : State) (c : NodeID) : Prop :=
  s.Chains c ∨ ∃ thread task dependency origin,
    s.calls thread = some (.link task dependency origin) ∧ task.continuation = c

/--
The links have no cycles, and everything that is waited for can still be processed.
-/
structure Progress (s : State) : Prop where
  target : ∀ x n, s.Linked (.task x) n → ∃ a ∈ s.history.added, a.task.id = x ∧ a.task.continuation = n
  feeding : ∀ c n, s.Linked (.continuation c) n → s.Fired (.continuation c) ∨
    (∃ m, s.Linked m (.continuation c)) ∨ s.Feeds (.continuation c)
  rank : ∃ (rank : NodeID → Nat) (bound : Nat), (∀ m, rank m ≤ bound) ∧
    ∀ m n, s.Linked m n → rank n < rank m

/-! The chains that go on when another task starts or finishes. -/

section

variable {w v : Nat} {ctx : ScheduledTask} {rest : List Task} {c : NodeID} {next : Option Nat}

theorem start_chain {task : Option (ScheduledTask × Code)} (hrunning : s.running w = none)
    (hr : s.running v = some (ctx, .chain rest c next))
    : Function.update s.running w task v = some (ctx, .chain rest c next) := by
  have : v ≠ w := by
    rintro rfl
    rw [hrunning] at hr
    cases hr
  exact (Function.update_of_ne this _ _).trans hr

theorem finish_chain {task : ScheduledTask} {code : Code} (hrunning : s.running w = some (task, code))
    (hreturns : code.Returns) (hr : s.running v = some (ctx, .chain rest c next)) (hne : rest ≠ [])
    : Function.update s.running w none v = some (ctx, .chain rest c next) := by
  have : v ≠ w := by
    rintro rfl
    rw [hrunning] at hr
    cases hr
    cases rest with
    | nil => exact hne rfl
    | cons => exact hreturns
  exact (Function.update_of_ne this _ _).trans hr

end

/-! Processing dependents fires nodes and unfires none. -/

theorem processDependents_fired (s : State) (holder : Holder) (n : NodeID)
    : ∃ graph lock fired fault, (∀ m ∈ s.history.fired, m ∈ fired) ∧
        s.processDependents holder n
          =
        { s with
          graph := graph
          lock := lock
          fault := fault
          history := { s.history with fired := fired } } := by
  have hcons : ∀ m ∈ s.history.fired, m ∈ n :: s.history.fired :=
    fun m hm => List.mem_cons_of_mem n hm
  rw [processDependents]
  split
  . exact ⟨_, _, _, _, hcons, rfl⟩
  . split
    . exact ⟨_, _, _, _, hcons, rfl⟩
    . exact ⟨_, _, s.history.fired, _, fun m hm => hm, rfl⟩

theorem visitDependent_fired (s : State) (m : NodeID) (rest : Finset NodeID)
    (frames : List (NodeID × Finset NodeID)) (dependent : NodeID)
    : ∃ graph fired fault tasks emit place, (∀ n ∈ s.history.fired, n ∈ fired) ∧
        s.visitDependent m rest frames dependent
          =
        { s with
          graph := graph
          tasks := tasks
          emit := emit
          fault := fault
          history := { s.history with fired := fired, place := place } } := by
  have hsame : ∀ n ∈ s.history.fired, n ∈ s.history.fired := fun n hn => hn
  rw [visitDependent]
  split
  . exact ⟨_, _, _, _, _, _, hsame, rfl⟩
  . split
    . exact ⟨_, _, _, _, _, _, hsame, rfl⟩
    . dsimp only
      split
      . split
        . rw [releaseTaskByID]
          split
          . exact ⟨_, _, _, _, _, _, hsame, rfl⟩
          . exact ⟨_, _, _, _, _, _, hsame, rfl⟩
        . exact ⟨_, _, _, _, _, _, fun n hn => List.mem_cons_of_mem _ hn, rfl⟩
      . exact ⟨_, _, _, _, _, _, hsame, rfl⟩

namespace Progress

theorem init (n : Nat) : Progress (State.init n) where
  target := by simp [State.init, Linked]
  feeding := by simp [State.init, Linked]
  rank := ⟨fun _ => 0, 0, fun _ => le_rfl, by simp [State.init, Linked]⟩

theorem of_same (h : Progress s) (hadded : s'.history.added = s.history.added)
    (hlinks : s'.history.links = s.history.links) (hfired : ∀ n, s.Fired n → s'.Fired n)
    (hfeeds : ∀ c, s.Feeds c → s'.Feeds c)
    : Progress s' := by
  have hlinked : ∀ m n, s'.Linked m n ↔ s.Linked m n := by
    intro m n
    rw [Linked, hlinks]
    rfl
  refine ⟨?_, ?_, ?_⟩
  . intro x n hxn
    rw [hadded]
    exact h.target x n ((hlinked _ _).mp hxn)
  . intro c n hcn
    rcases h.feeding c n ((hlinked _ _).mp hcn) with hf | ⟨m, hm⟩ | hfeed
    . exact .inl (hfired _ hf)
    . exact .inr (.inl ⟨m, (hlinked _ _).mpr hm⟩)
    . exact .inr (.inr (hfeeds _ hfeed))
  . obtain ⟨rank, bound, hbound, hrank⟩ := h.rank
    exact ⟨rank, bound, hbound, fun m n hmn => hrank m n ((hlinked m n).mp hmn)⟩

theorem of_calls (h : Progress s) (hadded : s'.history.added = s.history.added)
    (hlinks : s'.history.links = s.history.links) (hfired : ∀ n, s.Fired n → s'.Fired n)
    (hcalls : ∀ thread task dependency origin, s.calls thread = some (.link task dependency origin) →
      s'.calls thread = some (.link task dependency origin))
    (hrunning : ∀ w ctx rest c next, s.running w = some (ctx, .chain rest c next) → rest ≠ [] →
      s'.running w = some (ctx, .chain rest c next))
    : Progress s' := by
  apply h.of_same hadded hlinks hfired
  rintro c (⟨w, ctx, rest, next, hr, hne⟩ | ⟨thread, task, dependency, origin, hc, hcont⟩)
  . exact .inl ⟨w, ctx, rest, next, hrunning w ctx rest c next hr hne, hne⟩
  . exact .inr ⟨thread, task, dependency, origin, hcalls thread task dependency origin hc, hcont⟩

theorem update_call {calls : Thread → Option Call} {thread : Thread} (call : Option Call)
    (hcall : ∀ task dependency origin, calls thread ≠ some (.link task dependency origin)) (th : Thread)
    (task : ScheduledTask) (dependency : NodeID) (origin : Origin)
    (h : calls th = some (.link task dependency origin))
    : Function.update calls thread call th = some (.link task dependency origin) := by
  rw [Function.update_of_ne, h]
  rintro rfl
  exact hcall task dependency origin h

theorem addTask (h : Progress s) {thread : Thread} {task : Task} {dependency dependent : NodeID}
    {origin : Origin} (hcall : s.calls thread = none)
    : Progress (s.addTask thread task dependency dependent origin) :=
  h.of_calls rfl rfl (fun _ hf => hf) (update_call _ (by simp [hcall])) (fun _ _ _ _ _ hr _ => hr)

theorem recordReturn (h : Progress s) (thread : Thread) (id : Nat)
    : Progress (s.recordReturn thread id) := by
  cases thread with
  | worker w => exact h
  | client k =>
    simp only [State.recordReturn]
    split
    . exact h
    . exact h.of_same rfl rfl (fun _ hf => hf) (fun _ hc => hc)

theorem quiet (h : Progress s) (hstep : Quiet s s') : Progress s' := by
  cases hstep with
  | callNotify hcall =>
    apply recordReturn
    exact h.of_calls rfl rfl (fun _ hf => hf) (update_call _ (by simp [hcall]))
      (fun _ _ _ _ _ hr _ => hr)
  | _ => exact h.of_same rfl rfl (fun _ hf => hf) (fun _ hc => hc)

theorem chain (h : Progress s) {w : Nat} {ctx : ScheduledTask} {rest : List Task} {c : NodeID}
    {next : Option Nat} {task : ScheduledTask} {dependency : NodeID} {origin : Origin}
    (hrunning : s.running w = some (ctx, .chain rest c next)) (hcall : s.calls (.worker w) = none)
    (hadded : s'.history.added = s.history.added) (hlinks : s'.history.links = s.history.links)
    (hfired : s'.history.fired = s.history.fired)
    (hcalls : s'.calls = Function.update s.calls (.worker w) (some (.link task dependency origin)))
    (hcont : task.continuation = c)
    (hruns : ∀ v, v ≠ w → s'.running v = s.running v)
    : Progress s' := by
  apply h.of_same hadded hlinks
  . intro n hn
    rw [Fired, hfired]
    exact hn
  . rintro d (⟨v, ctx', rest', next', hr, hne⟩ | ⟨thread, task', dependency', origin', hc, hcont'⟩)
    . by_cases hv : v = w
      . subst hv
        rw [hrunning] at hr
        cases hr
        refine .inr ⟨.worker v, task, dependency, origin, ?_, hcont⟩
        rw [hcalls, Function.update_self]
      . exact .inl ⟨v, ctx', rest', next', (hruns v hv).trans hr, hne⟩
    . refine .inr ⟨thread, task', dependency', origin', ?_, hcont'⟩
      rw [hcalls]
      exact update_call _ (by simp [hcall]) thread task' dependency' origin' hc

theorem call_step {w : Nat} {ctx : ScheduledTask} {code : Code} {a : Action} (h : Progress s)
    (hcode : BasicCode s) (hbasic : a.Basic) (hrunning : s.running w = some (ctx, code))
    (hcall : s.calls (.worker w) = none) (hstep : CallStep s w ctx code a s')
    : Progress s' := by
  cases hstep with
  | addTask => exact h.addTask hcall
  | spawnTask => exact h.addTask hcall
  | addTaskAfter => exact hbasic.elim
  | applyIndices => exact hbasic.elim
  | chainLast =>
    exact h.chain hrunning hcall rfl rfl rfl rfl rfl (fun _ hv => Function.update_of_ne hv _ _)
  | chain =>
    exact h.chain hrunning hcall rfl rfl rfl rfl rfl (fun _ hv => Function.update_of_ne hv _ _)
  | planOperator =>
    rcases hcode.running w ctx _ hrunning with heq | ⟨_, _, _, heq, -⟩ <;> cases heq
  | planExit =>
    rcases hcode.running w ctx _ hrunning with heq | ⟨_, _, _, heq, -⟩ <;> cases heq

section

variable {thread : Thread} {task : ScheduledTask} {dependency : NodeID} {origin : Origin}

theorem dependency_fresh (hinv : Inv s) (hafter : NoAfter s) (hcode : BasicCode s)
    (hcall : s.calls thread = some (.link task dependency origin))
    : dependency = kInvalidNodeID ∨ (∃ n, dependency = .continuation n) ∧
        (∀ m, ¬ s.Linked m dependency) ∧ (∀ m, ¬ s.Linked dependency m) ∧
        dependency ≠ task.continuation ∧ s.Chains dependency := by
  cases thread with
  | client k =>
    have hclient := hinv.threads.client k
    rw [hcall] at hclient
    rcases hclient with ⟨-, hdep, -⟩ | ⟨d, p, rfl, -⟩
    . exact .inl hdep
    . exact absurd hcall (hafter.link _ _ _ d p)
  | worker w =>
    have hidle := hinv.threads.idle w (by simp [hcall])
    obtain ⟨⟨ctx, code⟩, hrunning⟩ := Option.ne_none_iff_exists'.mp hidle
    have hlocal := hinv.threads.code w ctx code hrunning
    rw [hcall] at hlocal
    rcases hcode.running w ctx code hrunning with rfl | ⟨rest, c, next, rfl, -⟩
    . rcases hlocal with ⟨-, hdep, -⟩ | ⟨-, hdep, -⟩ | ⟨d, p, rfl, -⟩
      . exact .inl hdep
      . exact .inl hdep
      . exact absurd hcall (hafter.link _ _ _ d p)
    . obtain ⟨-, rfl, ⟨-, hdep⟩ | ⟨hrest, hreserved, hout, hne⟩, -⟩ := hlocal
      . exact .inl hdep
      . obtain ⟨n, hn, -⟩ := hreserved.owned
        exact .inr ⟨⟨n, hn⟩, hreserved.unlisted, hout, hne, w, ctx, rest, next, hrunning, hrest⟩

theorem callLink (hinv : Inv s) (hafter : NoAfter s) (hcode : BasicCode s) (h : Progress s)
    (hcall : s.calls thread = some (.link task dependency origin)) (hlock : s.lock = none)
    : Progress (s.afterLink thread task dependency origin) := by
  obtain ⟨graph, links, heq⟩ := afterLink_eq s thread task dependency origin
  have hlinked := hinv.linked_afterLink hcall hlock
  have hdep := dependency_fresh hinv hafter hcode hcall
  have hself : ∀ n, ¬ s.Linked (.task task.id) n := by
    intro n hn
    obtain ⟨a, ha, hid, -⟩ := h.target _ _ hn
    apply (hinv.records.phase a ha).2
    rw [hid, hinv.phase_linking hcall]
    rfl
  refine ⟨?_, ?_, ?_⟩
  . intro x n hxn
    rw [heq]
    rcases (hlinked _ _).mp hxn with hxn | ⟨hx, rfl, -⟩ | ⟨hx, -, hne⟩
    . obtain ⟨a, ha, hid, hcont⟩ := h.target x n hxn
      exact ⟨a, List.mem_cons_of_mem _ ha, hid, hcont⟩
    . cases hx
      exact ⟨_, List.mem_cons_self, rfl, rfl⟩
    . obtain ⟨⟨k, hk⟩, -⟩ := hdep.resolve_left hne
      rw [hk] at hx
      cases hx
  . intro c n hcn
    rcases (hlinked _ _).mp hcn with hcn | ⟨hc, -, -⟩ | ⟨hc, -, hne⟩
    . rcases h.feeding c n hcn with hf | ⟨m, hm⟩ | hchains | ⟨th, task', dep', origin', hc, hcont⟩
      . left
        rw [heq]
        exact hf
      . exact .inr (.inl ⟨m, (hlinked _ _).mpr (.inl hm)⟩)
      . right
        right
        left
        rw [heq]
        exact hchains
      . right
        by_cases hth : th = thread
        . subst hth
          rw [hcall] at hc
          cases hc
          left
          refine ⟨_, (hlinked _ _).mpr (.inr (.inl ⟨rfl, hcont.symm, ?_⟩))⟩
          rw [hcont]
          simp
        . refine .inr (.inr ⟨th, task', dep', origin', ?_, hcont⟩)
          rw [heq]
          exact (Function.update_of_ne hth _ _).trans hc
    . cases hc
    . obtain ⟨-, -, -, -, hchains⟩ := hdep.resolve_left hne
      right
      right
      left
      rw [heq, hc]
      exact hchains
  . obtain ⟨rank, bound, hbound, hrank⟩ := h.rank
    -- the new task comes after all nodes, and what it waits for after the task
    rcases hdep with hinvalid | ⟨⟨k, hk⟩, hunlisted, hout, hne, -⟩
    . refine ⟨Function.update rank (.task task.id) (bound + 1), bound + 1, ?_, ?_⟩
      . intro m
        rw [Function.update_apply]
        split
        . exact le_rfl
        . exact (hbound m).trans (Nat.le_succ _)
      . intro m n hmn
        rcases (hlinked m n).mp hmn with hmn | ⟨rfl, rfl, -⟩ | ⟨-, -, hne⟩
        . have hm : m ≠ .task task.id := by
            rintro rfl
            exact hself n hmn
          have hn : n ≠ .task task.id := by
            rintro rfl
            exact hinv.unlinked hcall m hmn
          rw [Function.update_of_ne hm, Function.update_of_ne hn]
          exact hrank m n hmn
        . rw [Function.update_self, Function.update_of_ne (hinv.continuation_ne_task hcall)]
          exact Nat.lt_succ_of_le (hbound _)
        . exact absurd hinvalid hne
    . refine ⟨Function.update (Function.update rank (.task task.id) (bound + 1)) dependency (bound + 2),
        bound + 2, ?_, ?_⟩
      . intro m
        have := hbound m
        rw [Function.update_apply, Function.update_apply]
        split
        . exact le_rfl
        . split <;> omega
      . have htask : NodeID.task task.id ≠ dependency := by simp [hk]
        intro m n hmn
        rcases (hlinked m n).mp hmn with hmn' | ⟨rfl, rfl, -⟩ | ⟨rfl, rfl, -⟩
        . have hm : m ≠ .task task.id := by
            rintro rfl
            exact hself n hmn'
          have hn : n ≠ .task task.id := by
            rintro rfl
            exact hinv.unlinked hcall m hmn'
          have hmd : m ≠ dependency := fun heq => hout n (heq ▸ hmn')
          have hnd : n ≠ dependency := fun heq => hunlisted m (heq ▸ hmn')
          rw [Function.update_of_ne hmd, Function.update_of_ne hm, Function.update_of_ne hnd,
            Function.update_of_ne hn]
          exact hrank m n hmn'
        . rw [Function.update_of_ne htask, Function.update_self, Function.update_of_ne hne.symm,
            Function.update_of_ne (hinv.continuation_ne_task hcall)]
          exact Nat.lt_succ_of_le (hbound _)
        . rw [Function.update_self, Function.update_of_ne htask, Function.update_self]
          exact Nat.lt_succ_self _

end

theorem step {a : Action} (hinv : Inv s) (hafter : NoAfter s) (hcode : BasicCode s) (h : Progress s)
    (hbasic : a.Basic) (hstep : Step s a s')
    : Progress s' := by
  cases hstep with
  | quiet hquiet => exact h.quiet hquiet
  | @complete id w =>
    obtain ⟨graph, lock, fired, fault, hmono, heq⟩ :=
      processDependents_fired { s with loop := .processDependents id w } .scheduler (.task id)
    rw [heq]
    exact h.of_same rfl rfl (fun n hn => hmono n hn) (fun _ hc => hc)
  | @visit _ m rest frames dependent =>
    obtain ⟨graph, fired, fault, tasks, emit, place, hmono, heq⟩ :=
      visitDependent_fired s m rest frames dependent
    rw [heq]
    exact h.of_same rfl rfl (fun n hn => hmono n hn) (fun _ hc => hc)
  | unlockWorker _ _ _ hrunning =>
    rcases hcode.running _ _ _ hrunning with heq | ⟨_, _, _, heq, -⟩ <;> cases heq
  | clientAdd hcall => exact h.addTask hcall
  | clientAddAfter => exact hbasic.elim
  | callLink hlock hcall => exact callLink hinv hafter hcode h hcall hlock
  | callEnqueue hcall =>
    exact h.of_calls rfl rfl (fun _ hf => hf) (update_call _ (by simp [hcall]))
      (fun _ _ _ _ _ hr _ => hr)
  | callStore hcall =>
    apply recordReturn
    exact h.of_calls rfl rfl (fun _ hf => hf) (update_call _ (by simp [hcall]))
      (fun _ _ _ _ _ hr _ => hr)
  | @start _ w task tasks hrunning =>
    refine h.of_calls rfl rfl (fun _ hf => hf) (fun _ _ _ _ hc => hc) ?_
    intro v ctx rest c next hr _
    exact start_chain hrunning hr
  | @finish _ w task code hrunning hreturns =>
    refine h.of_calls rfl rfl (fun _ hf => hf) (fun _ _ _ _ hc => hc) ?_
    intro v ctx rest c next hr hne
    exact finish_chain hrunning hreturns hr hne
  | code hrunning _ hstep => exact (hcode.code hrunning hstep).elim
  | call hrunning hcall hstep => exact h.call_step hcode hbasic hrunning hcall hstep
  | _ => exact h.of_same rfl rfl (fun _ hf => hf) (fun _ hc => hc)

end Progress

end Hustle.Scheduler
