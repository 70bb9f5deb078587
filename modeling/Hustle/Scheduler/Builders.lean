import Hustle.Scheduler.Placement
import Hustle.Scheduler.Ledger
import Mathlib.Logic.Relation

/-!
This module contains what a running task knows about the chain or the plan that it is building: which
continuations only it can name, and what it has linked so far.
-/

namespace Hustle.Scheduler

def Place.phase : Place → Phase
  | .unallocated => .fresh
  | .linking _ => .linking
  | .storing _ | .stored => .waiting
  | .ready _ | .queued | .sent _ | .running _ | .completed _ => .active
  | .processing _ | .done => .fired

/--
The parent whose continuation a task was added to.
-/
def Origin.shares : Origin → Option Nat
  | .spawned parent | .chained parent none | .exit parent => some parent
  | _ => none

/--
The task was added together with a task to wait for, or to the continuation of such a task.
-/
inductive Late (added : List Added) : Nat → Prop where
  | after {a d p} (ha : a ∈ added) (horigin : a.origin = .after d p) : Late added a.task.id
  | shared {a p} (ha : a ∈ added) (hshares : a.origin.shares = some p) (hp : Late added p)
    : Late added a.task.id

theorem Late.mono {added added' : List Added} {x : Nat} (hx : Late added x)
    (hadded : ∀ a ∈ added, a ∈ added')
    : Late added' x := by
  induction hx with
  | after ha horigin => exact .after (hadded _ ha) horigin
  | shared ha hshares _ ih => exact .shared (hadded _ ha) hshares ih

namespace State

def ledger (s : State) : Ledger where
  graph := s.graph
  links := s.history.links
  fired := s.history.fired
  phase := fun id => (s.history.place id).phase
  late := Late s.history.added
  counter := s.continuationCounter

def Linked (s : State) (m n : NodeID) : Prop :=
  (m, n) ∈ s.history.links

def Fired (s : State) (n : NodeID) : Prop :=
  n ∈ s.history.fired

/--
The task `p` allocated the continuation for its chain or plan.
-/
def Owned (s : State) (p : Nat) (c : NodeID) : Prop :=
  ∃ n, c = .continuation n ∧ n < s.continuationCounter ∧ s.history.owner n = some p

/--
Nothing is linked to the continuation yet.
-/
structure Reserved (s : State) (p : Nat) (c : NodeID) : Prop where
  owned : s.Owned p c
  unlisted : ∀ m, ¬ s.Linked m c
  unfired : ¬ s.Fired c

/--
A link of the chain or the plan that the task `p` builds.
-/
def LinkedBy (s : State) (p : Nat) (m n : NodeID) : Prop :=
  s.Linked m n ∧ ∀ x, m = .task x → ∃ a ∈ s.history.added, a.task.id = x ∧ a.origin.spawner = some p

/--
Whatever waits for `d` also waits for `c`, by what the task `p` builds.
-/
def Leads (s : State) (p : Nat) (c d : NodeID) : Prop :=
  d = kInvalidNodeID ∨ Relation.ReflTransGen (s.LinkedBy p) c d

/--
The continuation that the next task of a chain is added to: the one of the chain, or one that the task
`next` waits for.
-/
def ChainTarget (s : State) (ctx : ScheduledTask) (next : Option Nat) (c : NodeID) : Prop :=
  (next = none ∧ c = ctx.continuation) ∨
  ∃ b, next = some b ∧ s.Reserved ctx.id c ∧ s.Linked c (.task b) ∧ s.Leads ctx.id c ctx.continuation

structure OperatorLinked (s : State) (ctx : ScheduledTask) (locals : PlanLocals) (i : Nat) (a : Added)
    : Prop where
  added : a ∈ s.history.added
  origin : a.origin = .operator ctx.id i
  taskId : locals.taskIds i = .task a.task.id
  cOperator : locals.cOperators i = a.task.continuation
  dependency : a.dependency = locals.cEnter
  owned : s.Owned ctx.id a.task.continuation
  unfired : ¬ s.Fired a.task.continuation
  only : ∀ m, s.Linked m a.task.continuation → m = .task a.task.id

/--
The plan is being built: its entry has not been fired, and the first `k` operators are complete.
-/
structure Building (s : State) (ctx : ScheduledTask) (locals : PlanLocals) (rest : List (Nat × Bool))
    (k : Nat) : Prop where
  enter : s.Reserved ctx.id locals.cEnter
  exit : s.Owned ctx.id locals.cExit
  enter_ne_exit : locals.cEnter ≠ locals.cExit
  exit_unfired : ¬ s.Fired locals.cExit
  exit_only : ∀ m, s.Linked m locals.cExit → ∃ i < k, m = locals.cOperators i
  operators : ∀ i < k, ∃ a, s.OperatorLinked ctx locals i a ∧ s.history.place a.task.id = .stored ∧
    s.Linked a.task.continuation locals.cExit
  task : ∃ operators, ctx.task = .plan operators locals.dependents ∧
    operators.map Prod.fst = List.range operators.length ∧ rest = operators.drop locals.position ∧
    locals.position ≤ operators.length ∧
    ∀ link ∈ locals.dependents, link.1 < operators.length ∧ link.2 < operators.length
  only_operators : ∀ a ∈ s.history.added, ∀ i, a.origin = .operator ctx.id i → i < locals.position

def AfterCall (s : State) (task : ScheduledTask) (dependency : NodeID) (origin : Origin) : Prop :=
  ∃ d p, origin = .after d p ∧ dependency = .task d ∧ d ≠ 0 ∧ (s.history.place d).phase ≠ .fresh ∧
    task.continuation ∈ s.named

def FunctorCall (s : State) (ctx : ScheduledTask) : Option Call → Prop
  | some (.link task dependency origin) =>
    (origin = .running ctx.id ∧ dependency = kInvalidNodeID ∧ task.continuation = kInvalidNodeID) ∨
    (origin = .spawned ctx.id ∧ dependency = kInvalidNodeID ∧ task.continuation = ctx.continuation) ∨
    s.AfterCall task dependency origin
  | some (.store _ dependency) => ∃ d, dependency = .task d
  | _ => True

def ChainCall (s : State) (ctx : ScheduledTask) (rest : List Task) (cDependent : NodeID)
    (next : Option Nat) : Option Call → Prop
  | some (.link task dependency origin) =>
    next = some task.id ∧ dependency = cDependent ∧
    (rest = [] ∧ dependency = kInvalidNodeID ∨
      rest ≠ [] ∧ s.Reserved ctx.id dependency ∧ (∀ m, ¬ s.Linked dependency m) ∧
      dependency ≠ task.continuation) ∧
    ∃ next', origin = .chained ctx.id next' ∧ s.ChainTarget ctx next' task.continuation
  | some (.store _ dependency) =>
    dependency = cDependent ∧ next ≠ none ∧ s.ChainTarget ctx next cDependent
  | _ => rest ≠ [] → s.ChainTarget ctx next cDependent

def OperatorCall (s : State) (ctx : ScheduledTask) (locals : PlanLocals) (i : Nat) (opCont : NodeID)
    : Option Call → Prop
  | some (.link task dependency origin) =>
    origin = .operator ctx.id i ∧ dependency = locals.cEnter ∧ task.continuation = opCont ∧
    s.Reserved ctx.id opCont ∧ opCont ≠ locals.cEnter ∧ opCont ≠ locals.cExit ∧
    (∀ m, ¬ s.Linked opCont m) ∧ locals.taskIds i = .task task.id ∧ locals.cOperators i = opCont ∧
    ∀ a ∈ s.history.added, a.origin ≠ .operator ctx.id i
  | some (.store task dependency) =>
    dependency = locals.cEnter ∧
    ∃ a, s.OperatorLinked ctx locals i a ∧ a.task = task ∧ a.task.continuation = opCont
  | some _ => False
  | none => ∃ a, s.OperatorLinked ctx locals i a ∧ s.history.place a.task.id = .stored ∧
    a.task.continuation = opCont

def ExitCall (s : State) (ctx : ScheduledTask) (locals : PlanLocals) : Option Call → Prop
  | some (.link task dependency origin) =>
    origin = .exit ctx.id ∧ dependency = locals.cExit ∧ task.continuation = ctx.continuation
  | some (.store task dependency) =>
    dependency = locals.cExit ∧
    ∃ a ∈ s.history.added, a.task = task ∧ a.origin = .exit ctx.id ∧ a.dependency = locals.cExit ∧
      a.task.continuation = ctx.continuation
  | some _ => False
  | none => ∃ a ∈ s.history.added, a.origin = .exit ctx.id ∧ a.dependency = locals.cExit ∧
      a.task.continuation = ctx.continuation

/--
What holds at a point of the code of the running task `ctx`.
-/
def Local (s : State) (ctx : ScheduledTask) (call : Option Call) : Code → Prop
  | .lambda | .wait _ => s.FunctorCall ctx call
  | .chain rest cDependent next => s.ChainCall ctx rest cDependent next call
  | .release _ | .firing | .finished => call = none
  | .plan operators dependents => call = none ∧ ctx.task = .plan operators dependents ∧
    ∀ a ∈ s.history.added, ∀ i, a.origin ≠ .operator ctx.id i
  | .planOperators locals rest => call = none ∧ s.Building ctx locals rest locals.position
  | .planLinkExit locals rest opCont => 0 < locals.position ∧
    s.Building ctx locals rest (locals.position - 1) ∧
    s.OperatorCall ctx locals (locals.position - 1) opCont call
  | .planLinks locals rest => call = none ∧ s.Building ctx locals [] locals.position ∧
    ∃ done, locals.dependents = done ++ rest ∧
      ∀ link ∈ done, s.Linked (locals.cOperators link.1) (locals.taskIds link.2)
  | .planFire cEnter => ∃ locals, locals.cEnter = cEnter ∧ s.Building ctx locals [] locals.position ∧
    (∀ link ∈ locals.dependents, s.Linked (locals.cOperators link.1) (locals.taskIds link.2)) ∧
    s.ExitCall ctx locals call

/--
Every task that was added is linked to what it was added for.
-/
structure Recorded (s : State) : Prop where
  continuation : ∀ a ∈ s.history.added, a.task.continuation ≠ kInvalidNodeID →
    s.Linked (.task a.task.id) a.task.continuation
  dependency : ∀ a ∈ s.history.added, a.dependency ≠ kInvalidNodeID →
    s.Linked a.dependency (.task a.task.id)
  fired : ∀ id, s.Fired (.task id) → (s.history.place id).phase = .fired

theorem Owned.ne_invalid {s : State} {p : Nat} {c : NodeID} (h : s.Owned p c) : c ≠ kInvalidNodeID := by
  obtain ⟨n, rfl, -⟩ := h
  simp

/--
What a step of another thread may change, as far as the task `p` can tell. A continuation of `p` gets a
new link only from a task that some active task shares it with, and it is processed only after all it
waits for.
-/
structure Extends (s s' : State) (p : Nat) : Prop where
  linked : ∀ m n, s.Linked m n → s'.Linked m n
  added : ∀ a ∈ s.history.added, a ∈ s'.history.added
  counter : s.continuationCounter ≤ s'.continuationCounter
  owner : ∀ n < s.continuationCounter, s'.history.owner n = s.history.owner n
  named : ∀ c ∈ s.named, c ∈ s'.named
  allocated : ∀ id, (s.history.place id).phase ≠ .fresh → (s'.history.place id).phase ≠ .fresh
  stored : ∀ id, s.history.place id = .stored →
    s'.history.place id = .stored ∨ ∀ m, s.Linked m (.task id) → s.Fired m
  into : ∀ m c, s.Owned p c → s'.Linked m c → s.Linked m c ∨
    ∃ x, s.Linked (.task x) c ∧ (s.history.place x).phase ≠ .waiting
  out : ∀ c m, s.Owned p c → s'.Linked c m → s.Linked c m
  fires : ∀ c, s.Owned p c → s'.Fired c → s.Fired c ∨
    (∃ m, s.Linked m c) ∧ ∀ m, s.Linked m c → s.Fired m
  operators : ∀ a ∈ s'.history.added, ∀ i, a.origin = .operator p i → a ∈ s.history.added

namespace Extends

variable {s s' : State} {p : Nat} {c : NodeID} {ctx : ScheduledTask}

theorem owned (h : Extends s s' p) (hc : s.Owned p c) : s'.Owned p c := by
  obtain ⟨n, rfl, hn, howner⟩ := hc
  refine ⟨n, rfl, hn.trans_le h.counter, ?_⟩
  rw [h.owner n hn, howner]

theorem reserved (h : Extends s s' p) (hc : s.Reserved p c) : s'.Reserved p c where
  owned := h.owned hc.owned
  unlisted := by
    intro m hm
    rcases h.into m c hc.owned hm with hm | ⟨x, hx, -⟩
    . exact hc.unlisted m hm
    . exact hc.unlisted _ hx
  unfired := by
    intro hf
    rcases h.fires c hc.owned hf with hf | ⟨⟨m, hm⟩, -⟩
    . exact hc.unfired hf
    . exact hc.unlisted m hm

theorem leads {d : NodeID} {q : Nat} (h : Extends s s' p) (hc : s.Leads q c d) : s'.Leads q c d := by
  rcases hc with hd | hc
  . exact .inl hd
  . refine .inr (Relation.ReflTransGen.mono ?_ _ _ hc)
    rintro m n ⟨hmn, hm⟩
    refine ⟨h.linked m n hmn, ?_⟩
    intro x hx
    obtain ⟨a, ha, hax⟩ := hm x hx
    exact ⟨a, h.added a ha, hax⟩

theorem chainTarget {next : Option Nat} (h : Extends s s' ctx.id) (hc : s.ChainTarget ctx next c)
    : s'.ChainTarget ctx next c := by
  rcases hc with hc | ⟨b, hb, hreserved, hlinked, hleads⟩
  . exact .inl hc
  . exact .inr ⟨b, hb, h.reserved hreserved, h.linked _ _ hlinked, h.leads hleads⟩

theorem functorCall {call : Option Call} (h : Extends s s' p) (hc : s.FunctorCall ctx call)
    : s'.FunctorCall ctx call := by
  cases call with
  | none => trivial
  | some call =>
    cases call with
    | link task dependency origin =>
      rcases hc with hc | hc | ⟨d, q, horigin, hd, hzero, hphase, hnamed⟩
      . exact .inl hc
      . exact .inr (.inl hc)
      . exact .inr (.inr ⟨d, q, horigin, hd, hzero, h.allocated d hphase, h.named _ hnamed⟩)
    | store => exact hc
    | enqueue => trivial
    | notify => trivial

theorem chainCall {rest : List Task} {next : Option Nat} {call : Option Call}
    (h : Extends s s' ctx.id) (hc : s.ChainCall ctx rest c next call)
    : s'.ChainCall ctx rest c next call := by
  match call with
  | some (.link task dependency origin) =>
    obtain ⟨hnext, hdep, hrest, next', horigin, htarget⟩ := hc
    refine ⟨hnext, hdep, ?_, next', horigin, h.chainTarget htarget⟩
    rcases hrest with hrest | ⟨hrest, hreserved, hout, hne⟩
    . exact .inl hrest
    . refine .inr ⟨hrest, h.reserved hreserved, ?_, hne⟩
      intro m hm
      exact hout m (h.out _ m hreserved.owned hm)
  | some (.store task dependency) =>
    obtain ⟨hdep, hnext, htarget⟩ := hc
    exact ⟨hdep, hnext, h.chainTarget htarget⟩
  | none | some (.enqueue _) | some (.notify _) => exact fun hrest => h.chainTarget (hc hrest)

section

variable {locals : PlanLocals} {rest : List (Nat × Bool)} {i k : Nat} {a : Added} {opCont : NodeID}

theorem operatorLinked (h : Extends s s' ctx.id) (hrec : s.Recorded)
    (ha : s.OperatorLinked ctx locals i a)
    (hwaiting : (s.history.place a.task.id).phase = .waiting)
    : s'.OperatorLinked ctx locals i a where
  added := h.added a ha.added
  origin := ha.origin
  taskId := ha.taskId
  cOperator := ha.cOperator
  dependency := ha.dependency
  owned := h.owned ha.owned
  unfired := by
    intro hf
    rcases h.fires _ ha.owned hf with hf | ⟨-, hall⟩
    . exact ha.unfired hf
    . have hfired := hrec.fired _ (hall _ (hrec.continuation a ha.added ha.owned.ne_invalid))
      rw [hwaiting] at hfired
      cases hfired
  only := by
    intro m hm
    rcases h.into m _ ha.owned hm with hm | ⟨x, hx, hphase⟩
    . exact ha.only m hm
    . have := ha.only _ hx
      cases this
      exact absurd hwaiting hphase

/--
An operator is not taken out of `tasks_` before the entry of its plan is fired.
-/
theorem stored_operator (h : Extends s s' ctx.id) (hrec : s.Recorded)
    (ha : s.OperatorLinked ctx locals i a) (henter : s.Reserved ctx.id locals.cEnter)
    (hstored : s.history.place a.task.id = .stored)
    : s'.history.place a.task.id = .stored := by
  rcases h.stored _ hstored with hstored | hall
  . exact hstored
  . have hdep : a.dependency ≠ kInvalidNodeID := by
      rw [ha.dependency]
      exact henter.owned.ne_invalid
    have := hall _ (hrec.dependency a ha.added hdep)
    rw [ha.dependency] at this
    exact absurd this henter.unfired

theorem building (h : Extends s s' ctx.id) (hrec : s.Recorded) (hb : s.Building ctx locals rest k)
    : s'.Building ctx locals rest k where
  enter := h.reserved hb.enter
  exit := h.owned hb.exit
  enter_ne_exit := hb.enter_ne_exit
  exit_unfired := by
    intro hf
    rcases h.fires _ hb.exit hf with hf | ⟨⟨m, hm⟩, hall⟩
    . exact hb.exit_unfired hf
    . obtain ⟨i, hi, rfl⟩ := hb.exit_only m hm
      obtain ⟨a, ha, -, -⟩ := hb.operators i hi
      apply ha.unfired
      rw [← ha.cOperator]
      exact hall _ hm
  exit_only := by
    intro m hm
    rcases h.into m _ hb.exit hm with hm | ⟨x, hx, -⟩
    . exact hb.exit_only m hm
    . obtain ⟨i, hi, heq⟩ := hb.exit_only _ hx
      obtain ⟨a, ha, -, -⟩ := hb.operators i hi
      obtain ⟨n, hn, -⟩ := ha.owned
      rw [ha.cOperator, hn] at heq
      cases heq
  operators := by
    intro i hi
    obtain ⟨a, ha, hstored, hexit⟩ := hb.operators i hi
    refine ⟨a, h.operatorLinked hrec ha ?_, h.stored_operator hrec ha hb.enter hstored,
      h.linked _ _ hexit⟩
    rw [hstored]
    rfl
  task := hb.task
  only_operators := fun a ha i hi => hb.only_operators a (h.operators a ha i hi) i hi

theorem operatorCall {call : Option Call} (h : Extends s s' ctx.id) (hrec : s.Recorded)
    (henter : s.Reserved ctx.id locals.cEnter) (hc : s.OperatorCall ctx locals i opCont call)
    (hstoring : ∀ task dependency, call = some (.store task dependency) →
      (s.history.place task.id).phase = .waiting)
    : s'.OperatorCall ctx locals i opCont call := by
  match call with
  | some (.link task dependency origin) =>
    obtain ⟨horigin, hdep, hcont, hreserved, henter, hexit, hout, htask, hop, hnone⟩ := hc
    refine ⟨horigin, hdep, hcont, h.reserved hreserved, henter, hexit, ?_, htask, hop, ?_⟩
    . intro m hm
      exact hout m (h.out _ m hreserved.owned hm)
    . intro a ha heq
      exact hnone a (h.operators a ha i heq) heq
  | some (.store task dependency) =>
    obtain ⟨hdep, a, ha, rfl, hcont⟩ := hc
    exact ⟨hdep, a, h.operatorLinked hrec ha (hstoring _ _ rfl), rfl, hcont⟩
  | some (.enqueue _) | some (.notify _) => exact hc
  | none =>
    obtain ⟨a, ha, hstored, hcont⟩ := hc
    refine ⟨a, h.operatorLinked hrec ha ?_, h.stored_operator hrec ha henter hstored, hcont⟩
    rw [hstored]
    rfl

theorem exitCall {call : Option Call} (h : Extends s s' p) (hc : s.ExitCall ctx locals call)
    : s'.ExitCall ctx locals call := by
  match call with
  | some (.link task dependency origin) => exact hc
  | some (.store task dependency) =>
    obtain ⟨hdep, a, ha, hrest⟩ := hc
    exact ⟨hdep, a, h.added a ha, hrest⟩
  | some (.enqueue _) | some (.notify _) => exact hc
  | none =>
    obtain ⟨a, ha, hrest⟩ := hc
    exact ⟨a, h.added a ha, hrest⟩

theorem localCode {call : Option Call} {code : Code} (h : Extends s s' ctx.id) (hrec : s.Recorded)
    (hc : s.Local ctx call code)
    (hstoring : ∀ task dependency, call = some (.store task dependency) →
      (s.history.place task.id).phase = .waiting)
    : s'.Local ctx call code := by
  cases code with
  | lambda => exact h.functorCall hc
  | wait => exact h.functorCall hc
  | chain => exact h.chainCall hc
  | release => exact hc
  | firing => exact hc
  | finished => exact hc
  | plan =>
    obtain ⟨hcall, htask, hnone⟩ := hc
    refine ⟨hcall, htask, ?_⟩
    intro a ha i hi
    exact hnone a (h.operators a ha i hi) i hi
  | planOperators => exact ⟨hc.1, h.building hrec hc.2⟩
  | planLinkExit =>
    obtain ⟨hpos, hb, hcall⟩ := hc
    exact ⟨hpos, h.building hrec hb, h.operatorCall hrec hb.enter hcall hstoring⟩
  | planLinks =>
    obtain ⟨hcall, hb, done, hdone, hlinks⟩ := hc
    exact ⟨hcall, h.building hrec hb, done, hdone, fun link hl => h.linked _ _ (hlinks link hl)⟩
  | planFire =>
    obtain ⟨locals, henter, hb, hlinks, hcall⟩ := hc
    exact ⟨locals, henter, h.building hrec hb, fun link hl => h.linked _ _ (hlinks link hl),
      h.exitCall hcall⟩

end

end Extends

end State

end Hustle.Scheduler
