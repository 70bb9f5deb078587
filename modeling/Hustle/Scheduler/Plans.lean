import Hustle.Scheduler.Plain

/-!
This module contains the order of the operators of an execution plan. The plans are those whose operators
have their positions as `operator_index()`; `ExecutionPlan::merge` makes other ones.
-/

namespace Hustle.Scheduler

/--
The operators with their `operator_index()`, and the pairs of `dependents_`.
-/
structure ExecutionPlan where
  operators : List (Nat × Bool)
  dependents : List (Nat × Nat)

namespace ExecutionPlan

def empty : ExecutionPlan where
  operators := []
  dependents := []

def addOperator (plan : ExecutionPlan) (materializes : Bool) : ExecutionPlan :=
  { plan with operators := plan.operators ++ [(plan.operators.length, materializes)] }

def createLink (plan : ExecutionPlan) (producer consumer : Nat) : ExecutionPlan :=
  { plan with dependents := plan.dependents ++ [(producer, consumer)] }

def merge (plan other : ExecutionPlan) : ExecutionPlan where
  operators := plan.operators ++ other.operators
  -- the links are shifted in a loop over the operators of the other plan
  dependents :=
    if other.operators.isEmpty then
      plan.dependents
    else
      plan.dependents ++ other.dependents.map fun link =>
        (link.1 + plan.operators.length, link.2 + plan.operators.length)

def task (plan : ExecutionPlan) : Task :=
  .plan plan.operators plan.dependents

variable {plan other : ExecutionPlan}

theorem valid_empty : empty.task.Valid :=
  .plan rfl (by simp [empty])

theorem valid_addOperator (materializes : Bool) (h : plan.task.Valid)
    : (plan.addOperator materializes).task.Valid := by
  cases h with
  | plan hindex hlinks =>
    apply Task.Valid.plan
    . simp [addOperator, hindex, List.range_succ]
    . intro link hlink
      have := hlinks link hlink
      simp only [addOperator, List.length_append, List.length_singleton]
      omega

theorem valid_createLink {producer consumer : Nat} (h : plan.task.Valid)
    (hproducer : producer < plan.operators.length) (hconsumer : consumer < plan.operators.length)
    : (plan.createLink producer consumer).task.Valid := by
  cases h with
  | plan hindex hlinks =>
    apply Task.Valid.plan hindex
    intro link hlink
    rcases List.mem_append.mp hlink with hlink | hlink
    . exact hlinks link hlink
    . rw [List.mem_singleton.mp hlink]
      exact ⟨hproducer, hconsumer⟩

/--
`merge` moves operators to new positions, and leaves them the indices of the old ones. The results about valid plans
say nothing about the plan that it leaves, and `mergedPlan` shows what such a plan does.
-/
theorem valid_merge_iff (h : plan.task.Valid) (hother : other.task.Valid)
    : (plan.merge other).task.Valid ↔ plan.operators = [] ∨ other.operators = [] := by
  cases h with
  | plan hindex hlinks =>
  cases hother with
  | plan hindex' hlinks' =>
  constructor
  . intro hvalid
    cases hvalid with
    | plan hmerged _ =>
    by_contra hne
    rw [not_or] at hne
    have hpos : 0 < plan.operators.length := List.length_pos_iff.mpr hne.1
    have hpos' : 0 < other.operators.length := List.length_pos_iff.mpr hne.2
    -- the first operator of the other plan has index 0 at a position that is not 0
    have hget := congrArg (fun l => l[plan.operators.length]?) hmerged
    simp only [merge, List.map_append, hindex, hindex', List.length_append] at hget
    rw [List.getElem?_append_right (by simp)] at hget
    simp only [List.length_range, Nat.sub_self, List.getElem?_range hpos',
      List.getElem?_range (show plan.operators.length < plan.operators.length + other.operators.length by omega),
      Option.some.injEq] at hget
    omega
  . rintro (hnil | hnil)
    . have hdep : plan.dependents = [] := by
        apply List.eq_nil_iff_forall_not_mem.mpr
        intro link hlink
        have := hlinks link hlink
        simp [hnil] at this
      apply Task.Valid.plan
      . simp [merge, hnil, hindex']
      . intro link hlink
        simp only [merge, hnil, hdep, List.nil_append, List.length_nil, Nat.add_zero] at hlink ⊢
        split at hlink
        . cases hlink
        . simp only [Prod.mk.eta, List.map_id'] at hlink
          exact hlinks' link hlink
    . apply Task.Valid.plan
      . simp [merge, hnil, hindex]
      . simpa [merge, hnil] using hlinks

end ExecutionPlan

namespace State

def Started (s : State) (id : Nat) : Prop :=
  id ∈ s.history.started.map (·.id)

/--
The task and all tasks that were spawned by it, directly or not, have finished.
-/
def TreeFinished (s : State) (id : Nat) : Prop :=
  ∀ x, s.Tree id x → x ∈ s.history.finished

/--
The operator at a position of the plan `p` was added, and it and its subtasks have finished.
-/
def OperatorFinished (s : State) (p i : Nat) : Prop :=
  ∃ a ∈ s.history.added, a.origin = .operator p i ∧ s.TreeFinished a.task.id

/--
The plan that the task `t` runs respects its data dependencies so far.
-/
structure RespectsPlan (s : State) (t : ScheduledTask) (operators : List (Nat × Bool))
    (dependents : List (Nat × Nat)) : Prop where
  producers : ∀ b ∈ s.history.added, ∀ i j, b.origin = .operator t.id j → (i, j) ∈ dependents →
    s.Started b.task.id → s.OperatorFinished t.id i
  once : ∀ a ∈ s.history.added, ∀ b ∈ s.history.added, ∀ i, a.origin = .operator t.id i →
    b.origin = .operator t.id i → a = b
  exit : ∀ e ∈ s.history.added, e.origin = .exit t.id → s.Started e.task.id →
    ∀ i < operators.length, s.OperatorFinished t.id i
  continuation : t.continuation ≠ kInvalidNodeID → s.Fired t.continuation →
    ¬ Late s.history.added t.id → ∀ i < operators.length, s.OperatorFinished t.id i

/--
No task was executed twice, and every plan that was started respects its data dependencies.
-/
def RespectsPlans (s : State) : Prop :=
  (s.history.started.map (·.id)).Nodup ∧
  ∀ t ∈ s.history.started, ∀ operators dependents, t.task = .plan operators dependents →
    s.RespectsPlan t operators dependents

end State

open State

variable {s : State}

theorem not_late_operator (hinv : Inv s) {a : Added} {p i : Nat} (ha : a ∈ s.history.added)
    (horigin : a.origin = .operator p i)
    : ¬ Late s.history.added a.task.id := by
  intro hlate
  generalize hx : a.task.id = x at hlate
  cases hlate with
  | after hb hafter =>
    have := hinv.records.unique a ha _ hb hx
    subst this
    rw [hafter] at horigin
    cases horigin
  | shared hb hshares =>
    have := hinv.records.unique a ha _ hb hx
    subst this
    rw [horigin] at hshares
    cases hshares

theorem Linked.source_ne_invalid (hinv : Inv s) {m n : NodeID} (hlink : s.Linked m n)
    : m ≠ kInvalidNodeID := by
  rintro rfl
  apply hinv.ordered.source _ _ hlink
  change (s.history.place 0).phase = _
  rw [(hinv.placed.located 0 .unallocated).mp (.inl rfl)]
  rfl

theorem operatorFinished_of_linked (hinv : Inv s) (hjoined : Joined s) {a : Added} {p i : Nat}
    {n : NodeID} (ha : a ∈ s.history.added) (horigin : a.origin = .operator p i)
    (hlink : s.Linked a.task.continuation n) (hfired : s.Fired a.task.continuation)
    : s.OperatorFinished p i := by
  refine ⟨a, ha, horigin, ?_⟩
  intro x hx
  exact finished_of_tree hinv hjoined ha (not_late_operator hinv ha horigin)
    (Linked.source_ne_invalid hinv hlink) hfired hx

theorem started_eq (hinv : Inv s) {t u : ScheduledTask} (ht : t ∈ s.history.started)
    (hu : u ∈ s.history.started) (hid : t.id = u.id)
    : t = u := by
  obtain ⟨a, ha, rfl⟩ := hinv.records.started t ht
  obtain ⟨b, hb, rfl⟩ := hinv.records.started u hu
  rw [hinv.records.unique a ha b hb hid]

theorem started_of_id (hinv : Inv s) {a : Added} (ha : a ∈ s.history.added) (h : s.Started a.task.id)
    : a.task ∈ s.history.started := by
  obtain ⟨t, ht, hid⟩ := List.mem_map.mp h
  obtain ⟨b, hb, rfl⟩ := hinv.records.started t ht
  rwa [hinv.records.unique b hb a ha hid] at ht

theorem not_fired_of_builds (hinv : Inv s) {p : Nat} {c : NodeID} (h : s.Builds p c) : ¬ s.Fired c := by
  obtain ⟨w, ctx, code, hr, -, hentry⟩ := h
  have hlocal := hinv.threads.code w ctx code hr
  cases code with
  | planOperators locals rest =>
    cases hentry
    exact hlocal.2.enter.unfired
  | planLinkExit locals rest opCont =>
    cases hentry
    exact hlocal.2.1.enter.unfired
  | planLinks locals rest =>
    cases hentry
    exact hlocal.2.1.enter.unfired
  | planFire cEnter =>
    cases hentry
    obtain ⟨locals, rfl, hb, -⟩ := hlocal
    exact hb.enter.unfired
  | _ => cases hentry

section

variable {t : ScheduledTask} {operators : List (Nat × Bool)} {dependents : List (Nat × Nat)}

theorem producers_finished (hinv : Inv s) (hjoined : Joined s) (ht : t ∈ s.history.started)
    (htask : t.task = .plan operators dependents) {b : Added} (hb : b ∈ s.history.added) {i j : Nat}
    (hj : b.origin = .operator t.id j) (hij : (i, j) ∈ dependents)
    (hstarted : b.task ∈ s.history.started)
    : s.OperatorFinished t.id i := by
  obtain ⟨hne, hwaits⟩ := hjoined.operator b hb t.id j hj
  have hfired : s.Fired b.dependency :=
    fired_of_started hinv hstarted (hinv.records.dependency b hb hne)
  rcases hwaits with hbuild | ⟨u, hu, hid, operators', dependents', htask', hall⟩
  . exact absurd hfired (not_fired_of_builds hinv hbuild)
  . have := started_eq hinv hu ht hid
    subst this
    rw [htask] at htask'
    cases htask'
    obtain ⟨a, ha, horigin, hlink⟩ := hall i hij
    exact operatorFinished_of_linked hinv hjoined ha horigin hlink (fired_of_started hinv hstarted hlink)

theorem operators_finished (hinv : Inv s) (hjoined : Joined s) (ht : t ∈ s.history.started)
    (htask : t.task = .plan operators dependents) {e : Added} (he : e ∈ s.history.added)
    (horigin : e.origin = .exit t.id) (hstarted : e.task ∈ s.history.started) (i : Nat)
    (hi : i < operators.length)
    : s.OperatorFinished t.id i := by
  obtain ⟨hne, u, hu, hid, operators', dependents', htask', hall⟩ := hjoined.exit e he t.id horigin
  have := started_eq hinv hu ht hid
  subst this
  rw [htask] at htask'
  cases htask'
  have hfired : s.Fired e.dependency :=
    fired_of_started hinv hstarted (hinv.records.dependency e he hne)
  obtain ⟨a, ha, haorigin, hlink⟩ := hall i hi
  refine operatorFinished_of_linked hinv hjoined ha haorigin hlink ?_
  cases hdep : e.dependency with
  | task id =>
    rw [hdep] at hfired hlink
    exact hinv.ordered.fired_of_task (.inr ((hinv.ordered.fired_task id).mp hfired)) hlink
  | continuation c =>
    rw [hdep] at hfired hlink
    apply hinv.ordered.fired_of_continuation hfired ?_ hlink
    intro x hx
    rcases hinv.records.continuation a ha with heq | ⟨⟨n, hn⟩, -⟩
    . exact absurd heq (Linked.source_ne_invalid hinv hlink)
    . rw [hn] at hx
      cases hx

theorem operators_finished_of_continuation (hinv : Inv s) (hjoined : Joined s)
    (ht : t ∈ s.history.started) (htask : t.task = .plan operators dependents)
    (hne : t.continuation ≠ kInvalidNodeID) (hfired : s.Fired t.continuation)
    (hlate : ¬ Late s.history.added t.id) (i : Nat) (hi : i < operators.length)
    : s.OperatorFinished t.id i := by
  obtain ⟨a, ha, rfl⟩ := hinv.records.started t ht
  have hself := fired_of_tree hinv hjoined ha hlate hne hfired .refl
  rcases hjoined.exits a.task ht operators dependents htask with ⟨e, he, horigin⟩ | ⟨w, code, hr, -⟩
  . have hexit := finished_of_tree hinv hjoined ha hlate hne hfired
      (.single ⟨e, he, by rw [horigin]; rfl, rfl⟩)
    have hstarted : s.Started e.task.id := by
      rw [Started, hinv.placed.started]
      rw [hinv.placed.finished] at hexit
      cases hp : s.history.place e.task.id <;> simp [hp, Place.isFinished, Place.isStarted] at hexit ⊢
    exact operators_finished hinv hjoined ht htask he horigin (started_of_id hinv he hstarted) i hi
  . have hphase := (hinv.ordered.fired_task _).mp hself
    change (s.history.place _).phase = _ at hphase
    rw [hinv.phase_running hr] at hphase
    cases hphase

end

theorem Sound.plans (h : Sound s) : s.RespectsPlans := by
  refine ⟨h.inv.placed.started_nodup, ?_⟩
  intro t ht operators dependents htask
  exact {
    producers := fun b hb i j hj hij hstarted =>
      producers_finished h.inv h.joined ht htask hb hj hij (started_of_id h.inv hb hstarted)
    once := fun a ha b hb i hai hbi => h.joined.operator_unique a ha b hb t.id i hai hbi
    exit := fun e he horigin hstarted i hi =>
      operators_finished h.inv h.joined ht htask he horigin (started_of_id h.inv he hstarted) i hi
    continuation := fun hne hfired hlate i hi =>
      operators_finished_of_continuation h.inv h.joined ht htask hne hfired hlate i hi }

/--
In every run in which all plans have the positions of their operators as indices, every operator starts
after its producers and their subtasks, and the exit after all operators and their subtasks.
-/
theorem respectsPlans_of_allowed {n : Nat} {actions : List Action}
    (hallowed : Run.Meets step Allowed (State.init n) actions)
    (hrun : actions.foldlM step (State.init n) = some s)
    : s.RespectsPlans :=
  (Sound.run hallowed hrun).plans

def linkedPlan : ExecutionPlan :=
  ((ExecutionPlan.empty.addOperator false).addOperator false).createLink 0 1

def linkedRun : List Action :=
  [.request 0 (.addTask linkedPlan.task), .call (.client 0), .call (.client 0), .call (.client 0),
    .schedule, .start 0, .code 0, .code 0, .call (.worker 0), .call (.worker 0), .code 0, .code 0,
    .call (.worker 0), .call (.worker 0), .code 0, .code 0, .code 0, .code 0, .call (.worker 0),
    .call (.worker 0), .code 0, .cascade (.task 2), .cascade kInvalidNodeID,
    .cascade kInvalidNodeID, .cascade (.task 3), .cascade kInvalidNodeID, .unlock, .finish 0,
    .schedule, .schedule, .schedule, .schedule, .schedule, .schedule, .schedule, .schedule,
    .schedule, .schedule, .unlock, .schedule, .start 0, .finish 0, .schedule, .schedule, .schedule,
    .schedule, .cascade (.continuation 3), .cascade (.task 3), .cascade kInvalidNodeID,
    .cascade kInvalidNodeID, .cascade (.continuation 2), .cascade kInvalidNodeID,
    .cascade kInvalidNodeID, .unlock, .schedule, .start 0]

theorem valid_linkedPlan : linkedPlan.task.Valid := by
  apply ExecutionPlan.valid_createLink
  . apply ExecutionPlan.valid_addOperator
    apply ExecutionPlan.valid_addOperator
    exact ExecutionPlan.valid_empty
  . decide
  . decide

theorem plain_linkedRun : ∀ a ∈ linkedRun, a.Plain := by
  simp [linkedRun, Action.Plain, Request.Plain, valid_linkedPlan]

theorem respectsPlans_linkedRun
    : ∃ s, linkedRun.foldlM step (State.init 1) = some s ∧ s.history.started.map (·.id) = [3, 2, 1] ∧
        s.RespectsPlans := by
  have hrun : (linkedRun.foldlM step (State.init 1)).map (·.history.started.map (·.id))
      = some [3, 2, 1] := by decide +kernel
  obtain ⟨s, hs, hstarted⟩ := Option.map_eq_some_iff.mp hrun
  exact ⟨s, hs, hstarted, respectsPlans_of_allowed (meets_of_plain (PlainSound.init 1) plain_linkedRun) hs⟩

/--
The same plan after an operator of another plan is merged into it. The consumer waits for that operator.
-/
def mergedPlan : ExecutionPlan :=
  linkedPlan.merge (ExecutionPlan.empty.addOperator false)

def mergedRun : List Action :=
  [.request 0 (.addTask mergedPlan.task), .call (.client 0), .call (.client 0), .call (.client 0),
    .schedule, .start 1, .code 1, .code 1, .call (.worker 1), .call (.worker 1), .code 1, .code 1,
    .call (.worker 1), .call (.worker 1), .code 1, .code 1, .call (.worker 1), .call (.worker 1),
    .code 1, .code 1, .code 1, .code 1, .call (.worker 1), .call (.worker 1), .code 1,
    .cascade (.task 2), .cascade kInvalidNodeID, .cascade kInvalidNodeID, .cascade (.task 3),
    .cascade (.task 4), .cascade kInvalidNodeID, .cascade kInvalidNodeID, .cascade kInvalidNodeID,
    .unlock, .finish 1, .schedule, .start 0, .schedule, .schedule, .schedule, .schedule, .schedule,
    .schedule, .schedule, .schedule, .schedule, .schedule, .schedule, .schedule, .schedule,
    .unlock, .schedule, .start 1, .finish 1, .schedule, .schedule, .schedule, .schedule,
    .cascade (.continuation 5), .cascade (.continuation 2), .cascade (.task 3),
    .cascade kInvalidNodeID, .cascade kInvalidNodeID, .cascade kInvalidNodeID,
    .cascade kInvalidNodeID, .unlock, .schedule, .start 1]

def Task.links? : Task → Option (List (Nat × Nat))
  | .plan _ dependents => some dependents
  | _ => none

theorem not_respectsPlans_mergedRun
    : ∃ s, mergedRun.foldlM step (State.init 2) = some s ∧ ¬ s.RespectsPlans := by
  have hadded : (mergedRun.foldlM step (State.init 2)).map
      (fun s => s.history.added.map fun a => (a.task.id, a.origin))
      = some [(5, .exit 1), (4, .operator 1 2), (3, .operator 1 1), (2, .operator 1 0), (1, .client)] := by
    decide +kernel
  have hstarted : (mergedRun.foldlM step (State.init 2)).map
      (fun s => s.history.started.map fun t => (t.id, t.task.links?))
      = some [(3, none), (4, none), (2, none), (1, some [(0, 1)])] := by decide +kernel
  have hfinished : (mergedRun.foldlM step (State.init 2)).map (·.history.finished) = some [4, 1] := by
    decide +kernel
  obtain ⟨s, hs, hadded⟩ := Option.map_eq_some_iff.mp hadded
  rw [hs] at hstarted hfinished
  simp only [Option.map_some, Option.some.injEq] at hstarted hfinished
  refine ⟨s, hs, ?_⟩
  intro h
  have ht : (1, some [(0, 1)]) ∈ s.history.started.map fun t => (t.id, t.task.links?) := by
    simp [hstarted]
  obtain ⟨t, ht, heq⟩ := List.mem_map.mp ht
  simp only [Prod.mk.injEq] at heq
  obtain ⟨operators, htask⟩ : ∃ operators, t.task = .plan operators [(0, 1)] := by
    cases htask : t.task <;> simp_all [Task.links?]
  have hb : (3, Origin.operator 1 1) ∈ s.history.added.map fun a => (a.task.id, a.origin) := by
    simp [hadded]
  obtain ⟨b, hb, hbeq⟩ := List.mem_map.mp hb
  simp only [Prod.mk.injEq] at hbeq
  have hbstarted : s.Started b.task.id := by
    have := congrArg (List.map Prod.fst) hstarted
    rw [Started, hbeq.1]
    simp only [List.map_map, Function.comp_def] at this
    simp [this]
  obtain ⟨a, ha, horigin, htree⟩ := (h.2 t ht operators _ htask).producers b hb 0 1
    (by rw [heq.1]; exact hbeq.2) (by simp) hbstarted
  have ha' : (a.task.id, a.origin) ∈ s.history.added.map fun a => (a.task.id, a.origin) :=
    List.mem_map_of_mem ha
  rw [hadded, horigin, heq.1] at ha'
  have hid : a.task.id = 2 := by simpa using ha'
  have := htree 2 (hid ▸ .refl)
  rw [hfinished] at this
  simp at this

end Hustle.Scheduler
