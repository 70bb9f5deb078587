import Hustle.Scheduler.Plans

/-!
This module contains the tasks that are made to wait for another task by its id. They are neither started
too early nor left behind, unless the other task is processed before they are both linked and stored.
-/

namespace Hustle.Scheduler

namespace State

/--
No message, no queued task and no busy worker is left.
-/
def Quiescent (s : State) : Prop :=
  s.messages = [] ∧ s.taskQueue = [] ∧ s.availableWorkers.length = s.numWorkers

/--
The tasks that wait for a task are executed after it and at most once, no task is missing in `tasks_`, and
no task is left there that waits for a task whose completion has been processed.
-/
structure KeepsDependencies (s : State) : Prop where
  order : ∀ a ∈ s.history.added, ∀ d p, a.origin = .after d p → s.Started a.task.id →
    d ∈ s.history.finished
  once : (s.history.started.map (·.id)).Nodup
  found : s.fault ≠ some .missingTask
  released : s.Quiescent → ∀ a ∈ s.history.added, ∀ d p, a.origin = .after d p → s.Fired (.task d) →
    s.tasks a.task.id = none

end State

open State

variable {s : State}

theorem worker_eq_none (hplaced : Placed s) (h : s.availableWorkers.length = s.numWorkers) (id : Nat)
    : (s.history.place id).worker = none := by
  by_contra hne
  obtain ⟨w, hw⟩ := Option.ne_none_iff_exists'.mp hne
  have hlt := hplaced.worker_lt id w hw
  have hsub : s.availableWorkers ⊆ List.range s.numWorkers := by
    intro v hv
    exact List.mem_range.mpr (hplaced.available v hv).1
  have hperm : s.availableWorkers.Perm (List.range s.numWorkers) := by
    apply (hplaced.available_nodup.subperm hsub).perm_of_length_le
    simp [h]
  have hmem : w ∈ s.availableWorkers := hperm.mem_iff.mpr (List.mem_range.mpr hlt)
  exact (hplaced.available w hmem).2 id hw

theorem lock_eq_none (hinv : Inv s) (h : s.availableWorkers.length = s.numWorkers) : s.lock = none := by
  by_contra hne
  obtain ⟨holder, hholder⟩ := Option.ne_none_iff_exists'.mp hne
  cases holder with
  | scheduler =>
    obtain ⟨id, w, hloop⟩ := hinv.locked.scheduler hholder
    have hp : s.history.place id = .processing w := (hinv.placed.located _ _).mp hloop
    have := worker_eq_none hinv.placed h id
    rw [hp] at this
    cases this
  | worker w =>
    obtain ⟨ctx, hr⟩ := hinv.locked.worker w hholder
    have hp : s.history.place ctx.id = .running w := (hinv.placed.located _ _).mp ⟨ctx, _, hr, rfl⟩
    have := worker_eq_none hinv.placed h ctx.id
    rw [hp] at this
    cases this

theorem tasks_eq_none (hinv : Inv s) (hjoined : Joined s) (h : s.Quiescent) {a : Added} {d : Nat}
    {p : Option Nat} (ha : a ∈ s.history.added) (horigin : a.origin = .after d p)
    (hfired : s.Fired (.task d))
    : s.tasks a.task.id = none := by
  by_contra hne
  obtain ⟨task, htask⟩ := Option.ne_none_iff_exists'.mp hne
  have hp : s.history.place a.task.id = .stored := (hinv.placed.located _ _).mp ⟨task, htask⟩
  have hwaiting : s.ledger.phase a.task.id = .waiting := by
    simp [ledger, hp, Place.phase]
  obtain ⟨m, hedge⟩ := hinv.ordered.waiting_edge _ hwaiting
  -- the task waits for nothing but `d`, which has been processed
  have hm := (hjoined.after a ha d p horigin).2.2 m (hinv.ordered.edge_linked _ _ hedge)
  subst hm
  obtain ⟨rest, hrest⟩ := hinv.ordered.fired_edge _ _ hfired hedge
  have hframes : s.ledger.graph.frames = [] := (hinv.locked.free (lock_eq_none hinv h.2.2)).1
  rw [hframes] at hrest
  cases hrest

theorem Sound.dependencies (h : Sound s) : s.KeepsDependencies where
  order := by
    intro a ha d p horigin hstarted
    obtain ⟨hdep, hzero, -⟩ := h.joined.after a ha d p horigin
    have hlink : s.Linked (.task d) (.task a.task.id) := by
      rw [← hdep]
      apply h.inv.records.dependency a ha
      rw [hdep]
      simpa using hzero
    exact finished_of_fired h.inv (fired_of_started h.inv (started_of_id h.inv ha hstarted) hlink)
  once := h.inv.placed.started_nodup
  found := by
    rw [h.inv.locked.fault]
    simp
  released := fun hq a ha d p horigin hfired => tasks_eq_none h.inv h.joined hq ha horigin hfired

/--
In every run in which no task is made to wait for a task that has been processed, or is processed before
the new one is stored, the tasks that wait for others keep their dependencies.
-/
theorem keepsDependencies_of_allowed {n : Nat} {actions : List Action}
    (hallowed : Run.Meets step Allowed (State.init n) actions)
    (hrun : actions.foldlM step (State.init n) = some s)
    : s.KeepsDependencies :=
  (Sound.run hallowed hrun).dependencies

def waitingRun : List Action :=
  [.request 0 (.addTask (.lambda false)), .call (.client 0), .call (.client 0), .call (.client 0),
    .request 0 (.addTaskAfter (.lambda false) 1 kInvalidNodeID), .call (.client 0), .call (.client 0),
    .schedule, .start 0, .finish 0, .schedule, .schedule, .schedule, .schedule, .schedule, .schedule,
    .schedule, .cascade (.task 2), .cascade kInvalidNodeID, .cascade kInvalidNodeID,
    .cascade kInvalidNodeID, .unlock, .schedule, .start 0]

theorem meets_waitingRun : Run.Meets step Allowed (State.init 1) waitingRun := by
  have hvalid : (Task.lambda false).Valid := .lambda false
  iterate 24
    refine ⟨?_, fun s hs => ?_⟩
    rotate_left
    obtain rfl := Option.some.inj hs
    clear hs
  . trivial
  all_goals first | exact hvalid | trivial | skip
  all_goals first | (intro task d origin h; cases h; done) | skip
  all_goals first | (intro task d origin h hne; cases h; exact absurd rfl hne) | skip
  all_goals first | (intro id w h; cases h; done) | skip
  -- the critical section of the second task, and the completion of the first one
  . intro task d origin h hne
    cases h
    intro hf
    cases hf
  . intro id w h thread task hc
    rcases thread with (_ | k) | w <;> cases hc

theorem keepsDependencies_waitingRun
    : ∃ s, waitingRun.foldlM step (State.init 1) = some s ∧ s.history.started.map (·.id) = [2, 1] ∧
        s.KeepsDependencies := by
  have hrun : (waitingRun.foldlM step (State.init 1)).map (·.history.started.map (·.id))
      = some [2, 1] := by decide +kernel
  obtain ⟨s, hs, hstarted⟩ := Option.map_eq_some_iff.mp hrun
  exact ⟨s, hs, hstarted, keepsDependencies_of_allowed meets_waitingRun hs⟩

def lateRun : List Action :=
  [.request 0 (.addTask (.lambda false)), .call (.client 0), .call (.client 0), .call (.client 0),
    .schedule, .start 0, .finish 0, .schedule, .schedule, .schedule, .schedule, .schedule, .schedule,
    .schedule, .unlock, .request 0 (.addTaskAfter (.lambda false) 1 kInvalidNodeID), .call (.client 0),
    .call (.client 0)]

theorem not_keepsDependencies_lateRun
    : ∃ s, lateRun.foldlM step (State.init 1) = some s ∧ ¬ s.KeepsDependencies := by
  have hadded : (lateRun.foldlM step (State.init 1)).map
      (fun s => s.history.added.map fun a => (a.task.id, a.origin))
      = some [(2, .after 1 none), (1, .client)] := by decide +kernel
  have hquiet : (lateRun.foldlM step (State.init 1)).map
      (fun s => (s.messages, s.taskQueue.map (·.id), s.availableWorkers.length, s.numWorkers))
      = some ([], [], 1, 1) := by decide +kernel
  have hleft : (lateRun.foldlM step (State.init 1)).map
      (fun s => (s.history.fired, (s.tasks 2).isSome)) = some ([.task 1], true) := by decide +kernel
  obtain ⟨s, hs, hadded⟩ := Option.map_eq_some_iff.mp hadded
  rw [hs] at hquiet hleft
  simp only [Option.map_some, Option.some.injEq, Prod.mk.injEq, List.map_eq_nil_iff] at hquiet hleft
  refine ⟨s, hs, ?_⟩
  intro h
  have ha : (2, Origin.after 1 none) ∈ s.history.added.map fun a => (a.task.id, a.origin) := by
    simp [hadded]
  obtain ⟨a, ha, heq⟩ := List.mem_map.mp ha
  simp only [Prod.mk.injEq] at heq
  have hnone := h.released ⟨hquiet.1, hquiet.2.1, hquiet.2.2.1.trans hquiet.2.2.2.symm⟩ a ha 1 none heq.2
    (by simp [Fired, hleft.1])
  rw [heq.1] at hnone
  simp [hnone] at hleft

end Hustle.Scheduler
