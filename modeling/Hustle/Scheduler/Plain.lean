import Hustle.Scheduler.Tree

/-!
This module contains the runs in which no task is made to wait for another one by its id. All their steps
are allowed.
-/

namespace Hustle.Scheduler

open State

def Request.Plain : Request → Prop
  | .addTask task | .spawnTask task => task.Valid
  | .addTaskAfter _ _ _ => False
  | .allocateContinuation | .applyIndices => True

def Action.Plain : Action → Prop
  | .request _ r | .functor _ r => r.Plain
  | _ => True

/--
No task waits, or is about to wait, for a task.
-/
structure NoAfter (s : State) : Prop where
  link : ∀ thread task dependency d p, s.calls thread ≠ some (.link task dependency (.after d p))
  store : ∀ thread task d, s.calls thread ≠ some (.store task (.task d))
  added : ∀ a ∈ s.history.added, ∀ d p, a.origin ≠ .after d p

variable {s s' : State}

namespace NoAfter

theorem init (n : Nat) : NoAfter (State.init n) where
  link := by simp [State.init]
  store := by simp [State.init]
  added := by simp [State.init]

theorem of_calls (h : NoAfter s) (thread : Thread) (call : Option Call)
    (hcalls : s'.calls = Function.update s.calls thread call)
    (hlink : ∀ task dependency d p, call ≠ some (.link task dependency (.after d p)))
    (hstore : ∀ task d, call ≠ some (.store task (.task d)))
    (hadded : s'.history.added = s.history.added)
    : NoAfter s' where
  link := by
    intro th task dependency d p
    rw [hcalls, Function.update_apply]
    split
    . exact hlink task dependency d p
    . exact h.link th task dependency d p
  store := by
    intro th task d
    rw [hcalls, Function.update_apply]
    split
    . exact hstore task d
    . exact h.store th task d
  added := by
    rw [hadded]
    exact h.added

theorem of_same (h : NoAfter s) (hcalls : s'.calls = s.calls)
    (hadded : s'.history.added = s.history.added)
    : NoAfter s' where
  link := by
    rw [hcalls]
    exact h.link
  store := by
    rw [hcalls]
    exact h.store
  added := by
    rw [hadded]
    exact h.added

theorem addTask {thread : Thread} {task : Task} {dependency dependent : NodeID} {origin : Origin}
    (h : NoAfter s) (horigin : ∀ d p, origin ≠ .after d p)
    : NoAfter (s.addTask thread task dependency dependent origin) := by
  apply h.of_calls thread _ rfl
  . rintro t dep d p ⟨⟩
    exact horigin d p rfl
  . simp
  . rfl

theorem recordReturn (h : NoAfter s) (thread : Thread) (id : Nat)
    : NoAfter (s.recordReturn thread id) := by
  cases thread with
  | worker w => exact h
  | client k =>
    simp only [State.recordReturn]
    split
    . exact h
    . exact h.of_same rfl rfl

theorem quiet (h : NoAfter s) (hstep : Quiet s s') : NoAfter s' := by
  cases hstep with
  | @callNotify thread id =>
    apply recordReturn
    exact h.of_calls thread none rfl (by simp) (by simp) rfl
  | _ => exact h.of_same rfl rfl

theorem callStore {thread : Thread} {task : ScheduledTask} (h : NoAfter s)
    : NoAfter (({ s with
        tasks := Function.update s.tasks task.id (some task)
        calls := Function.update s.calls thread none }.setPlace
          task.id .stored).recordReturn thread task.id) := by
  apply recordReturn
  exact h.of_calls thread none rfl (by simp) (by simp) rfl

theorem callLink {thread : Thread} {task : ScheduledTask} {dependency : NodeID} {origin : Origin}
    (hinv : Inv s) (h : NoAfter s) (hcall : s.calls thread = some (.link task dependency origin))
    : NoAfter (s.afterLink thread task dependency origin) := by
  obtain ⟨graph, links, heq⟩ := afterLink_eq s thread task dependency origin
  have horigin : ∀ d p, origin ≠ .after d p := by
    rintro d p rfl
    exact h.link thread task dependency d p hcall
  have hstore : ∀ th t d, (s.afterLink thread task dependency origin).calls th
      ≠ some (.store t (.task d)) := by
    intro th t d hc
    rw [heq] at hc
    simp only [Function.update_apply] at hc
    split at hc
    . split at hc
      . cases hc
      . next hne =>
        cases hc
        cases hinv.linkCall hcall with
        | plain hdep => exact hne hdep
        | after hafter =>
          obtain ⟨d, p, hd, -⟩ := hafter
          exact horigin d p hd
        | own _ _ _ hdep =>
          obtain ⟨⟨n, hn, -⟩, -⟩ := hdep.resolve_left hne
          cases hn
    . exact h.store th t d hc
  refine ⟨?_, hstore, ?_⟩
  . intro th t dep d p hc
    rw [heq] at hc
    simp only [Function.update_apply] at hc
    split at hc
    . split at hc <;> cases hc
    . exact h.link th t dep d p hc
  . rw [heq]
    intro a ha
    rcases List.mem_cons.mp ha with rfl | ha
    . exact horigin
    . exact h.added a ha

theorem code {w : Nat} {ctx : ScheduledTask} {code : Code} (h : NoAfter s)
    (hstep : CodeStep s w ctx code s')
    : NoAfter s' := by
  cases hstep with
  | planLinkExit =>
    obtain ⟨graph, links, heq⟩ := addLinkUnsafe_eq s _ _
    rw [heq]
    exact h.of_same rfl rfl
  | planLinks =>
    obtain ⟨graph, links, heq⟩ := addLinkUnsafe_eq s _ _
    rw [heq]
    exact h.of_same rfl rfl
  | planFire =>
    obtain ⟨graph, lock, fired, fault, heq⟩ := processDependents_eq (s.setCode w ctx .firing) (.worker w) _
    rw [heq]
    exact h.of_same rfl rfl
  | _ => exact h.of_same rfl rfl

theorem call {w : Nat} {ctx : ScheduledTask} {code : Code} {a : Action} (h : NoAfter s)
    (hplain : a.Plain) (hstep : CallStep s w ctx code a s')
    : NoAfter s' := by
  cases hstep with
  | addTask => exact h.addTask (by simp)
  | spawnTask => exact h.addTask (by simp)
  | addTaskAfter => exact hplain.elim
  | applyIndices =>
    refine NoAfter.of_same (s := { s with lockCounter := s.lockCounter + 1 }.addTask _ _ _ _ _)
      ?_ rfl rfl
    apply NoAfter.addTask
    . exact h.of_same rfl rfl
    . simp
  | chainLast =>
    refine NoAfter.of_same (h.addTask ?_) rfl rfl
    simp
  | chain =>
    refine NoAfter.of_same (s := (s.allocateContinuation (some ctx.id)).addTask _ _ _ _ _) ?_ rfl rfl
    apply NoAfter.addTask
    . exact h.of_same rfl rfl
    . simp
  | planOperator =>
    refine NoAfter.of_same (s := (s.allocateContinuation (some ctx.id)).addTask _ _ _ _ _) ?_ rfl rfl
    apply NoAfter.addTask
    . exact h.of_same rfl rfl
    . simp
  | planExit =>
    refine NoAfter.of_same (h.addTask ?_) rfl rfl
    simp

theorem step {a : Action} (hinv : Inv s) (h : NoAfter s) (hplain : a.Plain) (hstep : Step s a s')
    : NoAfter s' := by
  cases hstep with
  | quiet hquiet => exact h.quiet hquiet
  | @complete id w =>
    obtain ⟨graph, lock, fired, fault, heq⟩ :=
      processDependents_eq { s with loop := .processDependents id w } .scheduler (.task id)
    rw [heq]
    exact h.of_same rfl rfl
  | @visit _ m rest frames dependent =>
    obtain ⟨graph, fired, fault, heq⟩ | ⟨graph, id, task, -, -, heq⟩ :=
      visitDependent_eq s m rest frames dependent
    . rw [heq]
      exact h.of_same rfl rfl
    . rw [heq]
      exact h.of_same rfl rfl
  | clientAdd => exact h.addTask (by simp)
  | clientAddAfter => exact hplain.elim
  | callLink hlock hcall => exact callLink hinv h hcall
  | callEnqueue => exact h.of_calls _ _ rfl (by simp) (by simp) rfl
  | callStore => exact h.callStore
  | code _ _ hcode => exact h.code hcode
  | call _ _ hcode => exact h.call hplain hcode
  | _ => exact h.of_same rfl rfl

theorem allowed {a : Action} (hinv : Inv s) (h : NoAfter s) (hplain : a.Plain) : Allowed s a := by
  cases a with
  | request k request => cases request <;> first | exact hplain | exact hplain.elim
  | functor w request => cases request <;> first | exact hplain | exact hplain.elim
  | call thread =>
    intro task d origin hcall hne
    cases hinv.linkCall hcall with
    | plain hdep => exact absurd (by simpa using hdep) hne
    | after hafter =>
      obtain ⟨d', p, rfl, -⟩ := hafter
      exact absurd hcall (h.link thread task _ d' p)
    | own _ _ _ hdep =>
      rcases hdep with hdep | ⟨⟨n, hn, -⟩, -⟩
      . exact absurd (by simpa using hdep) hne
      . cases hn
  | schedule => exact fun id w _ thread task => h.store thread task id
  | _ => trivial

theorem not_late (h : NoAfter s) (x : Nat) : ¬ Late s.history.added x := by
  intro hlate
  induction hlate with
  | after ha horigin => exact h.added _ ha _ _ horigin
  | shared _ _ _ ih => exact ih

end NoAfter

structure PlainSound (s : State) : Prop extends Sound s where
  noAfter : NoAfter s

theorem PlainSound.init (n : Nat) : PlainSound (State.init n) :=
  ⟨Sound.init n, NoAfter.init n⟩

theorem PlainSound.step {a : Action} (h : PlainSound s) (hplain : a.Plain)
    (hstep : Hustle.Scheduler.step s a = some s')
    : PlainSound s' :=
  ⟨h.toSound.step (h.noAfter.allowed h.inv hplain) hstep,
    NoAfter.step h.inv h.noAfter hplain (step_cases hstep)⟩

theorem meets_of_plain {actions : List Action} (h : PlainSound s) (hplain : ∀ a ∈ actions, a.Plain)
    : Run.Meets step Allowed s actions := by
  induction actions generalizing s with
  | nil => trivial
  | cons a actions ih =>
    have ha := hplain a List.mem_cons_self
    refine ⟨h.noAfter.allowed h.inv ha, ?_⟩
    intro s' hstep
    exact ih (h.step ha hstep) fun b hb => hplain b (List.mem_cons_of_mem _ hb)

end Hustle.Scheduler
