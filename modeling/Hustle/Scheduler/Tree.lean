import Hustle.Scheduler.Cascade

/-!
This module contains what the scheduler guarantees for the tasks that a task spawns, directly or not:
all of them are finished once the continuation of the task is processed.
-/

namespace Hustle.Scheduler

def Code.isBuilding : Code → Bool
  | .plan _ _ | .planOperators _ _ | .planLinkExit _ _ _ | .planLinks _ _ | .planFire _ => true
  | _ => false

def Code.entry : Code → Option NodeID
  | .planOperators locals _ | .planLinkExit locals _ _ | .planLinks locals _ => some locals.cEnter
  | .planFire cEnter => some cEnter
  | _ => none

theorem Code.isBuilding_of_entry {code : Code} {c : NodeID} (h : code.entry = some c)
    : code.isBuilding = true := by
  cases code with
  | planOperators => rfl
  | planLinkExit => rfl
  | planLinks => rfl
  | planFire => rfl
  | _ => cases h

namespace State

def Spawned (s : State) (p x : Nat) : Prop :=
  ∃ a ∈ s.history.added, a.origin.spawner = some p ∧ a.task.id = x

/--
The tasks that were spawned by a task, by the tasks that it spawned, and so on.
-/
def Tree (s : State) : Nat → Nat → Prop :=
  Relation.ReflTransGen s.Spawned

/--
The task `p` is building the plan with the entry `c`.
-/
def Builds (s : State) (p : Nat) (c : NodeID) : Prop :=
  ∃ w ctx code, s.running w = some (ctx, code) ∧ ctx.id = p ∧ code.entry = some c

/--
The task `p` runs a plan, every producer of the operator at position `j` has been made to be waited for
by the task `id`.
-/
def Waits (s : State) (p j id : Nat) : Prop :=
  ∃ t ∈ s.history.started, t.id = p ∧ ∃ operators dependents, t.task = .plan operators dependents ∧
    ∀ i, (i, j) ∈ dependents → ∃ a ∈ s.history.added, a.origin = .operator p i ∧
      s.Linked a.task.continuation (.task id)

/--
The task `p` runs a plan, and `c` waits for all of its operators.
-/
def WaitsAll (s : State) (p : Nat) (c : NodeID) : Prop :=
  ∃ t ∈ s.history.started, t.id = p ∧ ∃ operators dependents, t.task = .plan operators dependents ∧
    ∀ i < operators.length, ∃ a ∈ s.history.added, a.origin = .operator p i ∧
      s.Linked a.task.continuation c

end State

open State

/--
What was linked for the tasks that were added, by the origin of each.
-/
structure Joined (s : State) : Prop where
  spawned : ∀ a ∈ s.history.added, ∀ p, a.origin.spawner = some p →
    (∃ t ∈ s.history.started, t.id = p ∧ s.Leads p a.task.continuation t.continuation) ∨
    (∃ i, a.origin = .operator p i) ∧ s.Builds p a.dependency
  chained : ∀ a ∈ s.history.added, ∀ p b, a.origin = .chained p (some b) →
    s.Linked a.task.continuation (.task b)
  operator_unique : ∀ a ∈ s.history.added, ∀ b ∈ s.history.added, ∀ p i,
    a.origin = .operator p i → b.origin = .operator p i → a = b
  operator : ∀ b ∈ s.history.added, ∀ p j, b.origin = .operator p j →
    b.dependency ≠ kInvalidNodeID ∧ (s.Builds p b.dependency ∨ s.Waits p j b.task.id)
  exit : ∀ e ∈ s.history.added, ∀ p, e.origin = .exit p →
    e.dependency ≠ kInvalidNodeID ∧ s.WaitsAll p e.dependency
  exits : ∀ t ∈ s.history.started, ∀ operators dependents, t.task = .plan operators dependents →
    (∃ e ∈ s.history.added, e.origin = .exit t.id) ∨
    ∃ w code, s.running w = some (t, code) ∧ code.isBuilding = true
  after : ∀ a ∈ s.history.added, ∀ d p, a.origin = .after d p →
    a.dependency = .task d ∧ d ≠ 0 ∧ ∀ m, s.Linked m (.task a.task.id) → m = .task d

variable {s s' : State}

theorem Waits.mono {p j id : Nat} (h : s.Waits p j id)
    (hlinked : ∀ m n, s.Linked m n → s'.Linked m n)
    (hadded : ∀ a ∈ s.history.added, a ∈ s'.history.added)
    (hstarted : ∀ t ∈ s.history.started, t ∈ s'.history.started)
    : s'.Waits p j id := by
  obtain ⟨t, ht, hid, operators, dependents, htask, hall⟩ := h
  refine ⟨t, hstarted t ht, hid, operators, dependents, htask, ?_⟩
  intro i hi
  obtain ⟨a, ha, horigin, hlink⟩ := hall i hi
  exact ⟨a, hadded a ha, horigin, hlinked _ _ hlink⟩

theorem WaitsAll.mono {p : Nat} {c : NodeID} (h : s.WaitsAll p c)
    (hlinked : ∀ m n, s.Linked m n → s'.Linked m n)
    (hadded : ∀ a ∈ s.history.added, a ∈ s'.history.added)
    (hstarted : ∀ t ∈ s.history.started, t ∈ s'.history.started)
    : s'.WaitsAll p c := by
  obtain ⟨t, ht, hid, operators, dependents, htask, hall⟩ := h
  refine ⟨t, hstarted t ht, hid, operators, dependents, htask, ?_⟩
  intro i hi
  obtain ⟨a, ha, horigin, hlink⟩ := hall i hi
  exact ⟨a, hadded a ha, horigin, hlinked _ _ hlink⟩

theorem Leads.mono {p : Nat} {c d : NodeID} (h : s.Leads p c d)
    (hlinked : ∀ m n, s.Linked m n → s'.Linked m n)
    (hadded : ∀ a ∈ s.history.added, a ∈ s'.history.added)
    : s'.Leads p c d := by
  rcases h with hd | hc
  . exact .inl hd
  . refine .inr (Relation.ReflTransGen.mono ?_ _ _ hc)
    rintro m n ⟨hmn, hm⟩
    refine ⟨hlinked m n hmn, ?_⟩
    intro x hx
    obtain ⟨a, ha, hax⟩ := hm x hx
    exact ⟨a, hadded a ha, hax⟩

namespace Joined

theorem init (n : Nat) : Joined (State.init n) where
  spawned := by simp [State.init]
  chained := by simp [State.init]
  operator_unique := by simp [State.init]
  operator := by simp [State.init]
  exit := by simp [State.init]
  exits := by simp [State.init]
  after := by simp [State.init]

/--
A step that adds no task and fires no entry of a plan.
-/
theorem of_added (h : Joined s) (hadded : s'.history.added = s.history.added)
    (hlinked : ∀ m n, s.Linked m n → s'.Linked m n)
    (hstarted : ∀ t ∈ s.history.started, t ∈ s'.history.started)
    (hrunning : ∀ w ctx code, s.running w = some (ctx, code) → code.isBuilding = true →
      ∃ code', s'.running w = some (ctx, code') ∧ code'.isBuilding = true ∧
        ∀ c, code.entry = some c → code'.entry = some c)
    (hnew : ∀ t ∈ s'.history.started, t ∈ s.history.started ∨
      ∃ w, s'.running w = some (t, .start t))
    (hafter : ∀ a ∈ s.history.added, ∀ d p, a.origin = .after d p → ∀ m,
      s'.Linked m (.task a.task.id) → s.Linked m (.task a.task.id))
    : Joined s' := by
  have hadded' : ∀ a ∈ s.history.added, a ∈ s'.history.added := by
    rw [hadded]
    exact fun _ ha => ha
  have hbuilds : ∀ p c, s.Builds p c → s'.Builds p c := by
    rintro p c ⟨w, ctx, code, hr, hid, hentry⟩
    obtain ⟨code', hr', -, hentry'⟩ := hrunning w ctx code hr (Code.isBuilding_of_entry hentry)
    exact ⟨w, ctx, code', hr', hid, hentry' c hentry⟩
  exact {
    spawned := by
      rw [hadded]
      intro a ha p hp
      rcases h.spawned a ha p hp with ⟨t, ht, hid, hleads⟩ | ⟨hi, hbuild⟩
      . exact .inl ⟨t, hstarted t ht, hid, Leads.mono hleads hlinked hadded'⟩
      . exact .inr ⟨hi, hbuilds _ _ hbuild⟩
    chained := by
      rw [hadded]
      exact fun a ha p b hb => hlinked _ _ (h.chained a ha p b hb)
    operator_unique := by
      rw [hadded]
      exact h.operator_unique
    operator := by
      rw [hadded]
      intro b hb p j hj
      obtain ⟨hne, hwaits⟩ := h.operator b hb p j hj
      refine ⟨hne, ?_⟩
      rcases hwaits with hbuild | hwaits
      . exact .inl (hbuilds _ _ hbuild)
      . exact .inr (Waits.mono hwaits hlinked hadded' hstarted)
    exit := by
      rw [hadded]
      intro e he p hp
      obtain ⟨hne, hwaits⟩ := h.exit e he p hp
      exact ⟨hne, WaitsAll.mono hwaits hlinked hadded' hstarted⟩
    exits := by
      intro t ht operators dependents htask
      rcases hnew t ht with ht | ⟨w, hw⟩
      . rcases h.exits t ht operators dependents htask with ⟨e, he, horigin⟩ | ⟨w, code, hr, hcode⟩
        . exact .inl ⟨e, hadded' e he, horigin⟩
        . obtain ⟨code', hr', hcode', -⟩ := hrunning w t code hr hcode
          exact .inr ⟨w, code', hr', hcode'⟩
      . refine .inr ⟨w, _, hw, ?_⟩
        simp [Code.start, htask, Code.isBuilding]
    after := by
      rw [hadded]
      intro a ha d p hd
      obtain ⟨hdep, hzero, honly⟩ := h.after a ha d p hd
      exact ⟨hdep, hzero, fun m hm => honly m (hafter a ha d p hd m hm)⟩ }

theorem of_same (h : Joined s) (hadded : s'.history.added = s.history.added)
    (hlinks : s'.history.links = s.history.links) (hstarted : s'.history.started = s.history.started)
    (hrunning : ∀ w ctx code, s.running w = some (ctx, code) → code.isBuilding = true →
      ∃ code', s'.running w = some (ctx, code') ∧ code'.isBuilding = true ∧
        ∀ c, code.entry = some c → code'.entry = some c)
    : Joined s' := by
  have hlinked : ∀ m n, s'.Linked m n ↔ s.Linked m n := by
    intro m n
    rw [Linked, hlinks]
    rfl
  refine h.of_added hadded (fun m n hmn => (hlinked m n).mpr hmn) ?_ hrunning ?_ ?_
  . rw [hstarted]
    exact fun _ ht => ht
  . rw [hstarted]
    exact fun _ ht => .inl ht
  . exact fun a _ d p _ m hm => (hlinked _ _).mp hm

theorem running_update {running : Nat → Option (ScheduledTask × Code)} {w : Nat} {ctx : ScheduledTask}
    {code : Code} (value : Option (ScheduledTask × Code)) (hw : s.running w = some (ctx, code))
    (hrunning : running = Function.update s.running w value)
    (hvalue : code.isBuilding = true → ∃ code', value = some (ctx, code') ∧ code'.isBuilding = true ∧
      ∀ c, code.entry = some c → code'.entry = some c)
    (v : Nat) (ctx' : ScheduledTask) (code' : Code) (hv : s.running v = some (ctx', code'))
    (hcode : code'.isBuilding = true)
    : ∃ code'', running v = some (ctx', code'') ∧ code''.isBuilding = true ∧
        ∀ c, code'.entry = some c → code''.entry = some c := by
  rw [hrunning, Function.update_apply]
  split
  . next heq =>
    subst heq
    rw [hw] at hv
    cases hv
    exact hvalue hcode
  . exact ⟨code', hv, hcode, fun _ h => h⟩

theorem running_same {running : Nat → Option (ScheduledTask × Code)} (hrunning : running = s.running)
    (v : Nat) (ctx : ScheduledTask) (code : Code) (hv : s.running v = some (ctx, code))
    (hcode : code.isBuilding = true)
    : ∃ code', running v = some (ctx, code') ∧ code'.isBuilding = true ∧
        ∀ c, code.entry = some c → code'.entry = some c := by
  rw [hrunning]
  exact ⟨code, hv, hcode, fun _ h => h⟩

theorem quiet (h : Joined s) (hstep : Quiet s s') : Joined s' := by
  cases hstep with
  | @callNotify thread id hcall =>
    cases thread with
    | worker w => exact h.of_same rfl rfl rfl (running_same rfl)
    | client k =>
      simp only [recordReturn]
      split
      . exact h.of_same rfl rfl rfl (running_same rfl)
      . exact h.of_same rfl rfl rfl (running_same rfl)
  | _ => exact h.of_same rfl rfl rfl (running_same rfl)

theorem callStore {thread : Thread} {task : ScheduledTask} (h : Joined s)
    : Joined (({ s with
        tasks := Function.update s.tasks task.id (some task)
        calls := Function.update s.calls thread none }.setPlace
          task.id .stored).recordReturn thread task.id) := by
  cases thread with
  | worker w => exact h.of_same rfl rfl rfl (running_same rfl)
  | client k =>
    simp only [recordReturn]
    split
    . exact h.of_same rfl rfl rfl (running_same rfl)
    . exact h.of_same rfl rfl rfl (running_same rfl)

theorem start {w : Nat} {task : ScheduledTask} {tasks : List ScheduledTask} (h : Joined s)
    (hrunning : s.running w = none)
    : Joined (({ s with
        inbox := Function.update s.inbox w tasks
        running := Function.update s.running w (some (task, .start task))
        named := task.continuation :: s.named }.setPlace task.id (.running w)).recordStarted task) := by
  refine h.of_added rfl (fun _ _ h => h) ?_ ?_ ?_ ?_
  . exact fun t ht => List.mem_cons_of_mem _ ht
  . intro v ctx code hv hcode
    have : v ≠ w := by
      rintro rfl
      rw [hrunning] at hv
      cases hv
    exact ⟨code, (Function.update_of_ne this _ _).trans hv, hcode, fun _ h => h⟩
  . intro t ht
    rcases List.mem_cons.mp ht with rfl | ht
    . exact .inr ⟨w, Function.update_self ..⟩
    . exact .inl ht
  . exact fun _ _ _ _ _ _ hm => hm

theorem finish {w : Nat} {task : ScheduledTask} {code : Code} (h : Joined s)
    (hrunning : s.running w = some (task, code)) (hcode : code.Returns)
    : Joined (({ s with
        running := Function.update s.running w none
        messages := s.messages ++ [Message.taskCompletion w task.id] }.setPlace
          task.id (.completed w)).recordFinished task.id) := by
  refine h.of_same rfl rfl rfl ?_
  apply running_update none hrunning rfl
  intro hbuilding
  cases code with
  | lambda => cases hbuilding
  | chain => cases hbuilding
  | finished => cases hbuilding
  | _ => exact hcode.elim

section

variable {w : Nat} {ctx : ScheduledTask} {code : Code}

theorem addLink (hinv : Inv s) (h : Joined s) {m n : NodeID} (code' : Code)
    (hlock : s.lock = none) (hrunning : s.running w = some (ctx, code))
    (hcode : code'.isBuilding = true ∧ ∀ c, code.entry = some c → code'.entry = some c)
    (hn : ∀ id, n = .task id → ∃ a ∈ s.history.added, a.task.id = id ∧ ∀ d p, a.origin ≠ .after d p)
    : Joined ((s.addLinkUnsafe m n).setCode w ctx code') := by
  obtain ⟨graph, links, heq⟩ := addLinkUnsafe_eq s m n
  have hlinked : ∀ a b, ((s.addLinkUnsafe m n).setCode w ctx code').Linked a b ↔
      s.Linked a b ∨ (a = m ∧ b = n) := hinv.linked_addLinkUnsafe hlock
  apply h.of_added
  . rw [heq]
    rfl
  . exact fun a b hab => (hlinked a b).mpr (.inl hab)
  . rw [heq]
    exact fun _ ht => ht
  . apply running_update (some (ctx, code')) hrunning
    . rw [heq]
      rfl
    . exact fun _ => ⟨code', rfl, hcode⟩
  . rw [heq]
    exact fun _ ht => .inl ht
  . intro a ha d p hd k hk
    rcases (hlinked k _).mp hk with hk | ⟨-, heq⟩
    . exact hk
    . obtain ⟨b, hb, hid, horigin⟩ := hn a.task.id heq.symm
      have := hinv.records.unique b hb a ha hid
      subst this
      exact absurd hd (horigin d p)

/-! The task of a plan that is complete. -/

theorem operatorLinked_of_operator (h : Joined s) {locals : PlanLocals} {rest : List (Nat × Bool)} {i : Nat}
    (hb : s.Building ctx locals rest locals.position) {a : Added} (ha : a ∈ s.history.added)
    (hi : a.origin = .operator ctx.id i)
    : s.OperatorLinked ctx locals i a ∧ s.Linked a.task.continuation locals.cExit := by
  obtain ⟨b, hb', -, hexit⟩ := hb.operators i (hb.only_operators a ha i hi)
  have := h.operator_unique a ha b hb'.added ctx.id i hi hb'.origin
  subst this
  exact ⟨hb', hexit⟩

theorem leads_of_operator (hinv : Inv s) (h : Joined s) {locals : PlanLocals} {rest : List (Nat × Bool)} {i : Nat}
    (hb : s.Building ctx locals rest locals.position) {a e : Added} (ha : a ∈ s.history.added)
    (hi : a.origin = .operator ctx.id i) (he : e ∈ s.history.added) (heorigin : e.origin = .exit ctx.id)
    (hedep : e.dependency = locals.cExit) (hecont : e.task.continuation = ctx.continuation)
    : s.Leads ctx.id a.task.continuation ctx.continuation := by
  by_cases hinvalid : ctx.continuation = kInvalidNodeID
  . exact .inl hinvalid
  . obtain ⟨hop, hexit⟩ := h.operatorLinked_of_operator hb ha hi
    obtain ⟨n, hn, -⟩ := hop.owned
    obtain ⟨n', hn', -⟩ := hb.exit
    right
    apply Relation.ReflTransGen.head (b := locals.cExit)
    . refine ⟨hexit, ?_⟩
      intro x hx
      rw [hn] at hx
      cases hx
    apply Relation.ReflTransGen.head (b := .task e.task.id)
    . rw [← hedep]
      refine ⟨hinv.records.dependency e he ?_, ?_⟩
      . rw [hedep, hn']
        simp
      . intro x hx
        rw [hedep, hn'] at hx
        cases hx
    apply Relation.ReflTransGen.single
    rw [← hecont]
    refine ⟨hinv.recorded.continuation e he (by rwa [hecont]), ?_⟩
    rintro x ⟨⟩
    exact ⟨e, he, rfl, by rw [heorigin]; rfl⟩

theorem waits_of_operator (hinv : Inv s) (h : Joined s) {locals : PlanLocals} {code : Code}
    (hrunning : s.running w = some (ctx, code)) (hb : s.Building ctx locals [] locals.position)
    (hdone : ∀ link ∈ locals.dependents, s.Linked (locals.cOperators link.1) (locals.taskIds link.2))
    {b : Added} (hb' : b ∈ s.history.added) {j : Nat} (hj : b.origin = .operator ctx.id j)
    : s.Waits ctx.id j b.task.id := by
  obtain ⟨operators, htask, hindex, hrest, hposition, hrange⟩ := hb.task
  have hlength : operators.length ≤ locals.position := by
    simpa [List.drop_eq_nil_iff] using hrest.symm
  refine ⟨ctx, hinv.records.running w ctx code hrunning, rfl, operators, locals.dependents, htask, ?_⟩
  intro i hi
  obtain ⟨a, ha, -, -⟩ := hb.operators i ((hrange _ hi).1.trans_le hlength)
  refine ⟨a, ha.added, ha.origin, ?_⟩
  have hlink := hdone _ hi
  rwa [ha.cOperator, (h.operatorLinked_of_operator hb hb' hj).1.taskId] at hlink

/--
When the entry of a plan is fired, its exit waits for all operators, and every operator for its producers.
-/
theorem planFire (hinv : Inv s) (h : Joined s) {cEnter : NodeID}
    (hrunning : s.running w = some (ctx, .planFire cEnter)) (hcall : s.calls (.worker w) = none)
    (hadded : s'.history.added = s.history.added) (hlinks : s'.history.links = s.history.links)
    (hstarted : s'.history.started = s.history.started)
    (hrunning' : s'.running = Function.update s.running w (some (ctx, .firing)))
    : Joined s' := by
  have hlocal := hinv.threads.code w ctx _ hrunning
  rw [hcall] at hlocal
  obtain ⟨locals, rfl, hb, hdone, e, he, heorigin, hedep, hecont⟩ := hlocal
  have hlinked : ∀ m n, s'.Linked m n ↔ s.Linked m n := by
    intro m n
    rw [Linked, hlinks]
    rfl
  have hadded' : ∀ a ∈ s.history.added, a ∈ s'.history.added := by
    rw [hadded]
    exact fun _ ha => ha
  have hstarted' : ∀ t ∈ s.history.started, t ∈ s'.history.started := by
    rw [hstarted]
    exact fun _ ht => ht
  have hlinked' : ∀ m n, s.Linked m n → s'.Linked m n := fun m n hmn => (hlinked m n).mpr hmn
  -- every other plan that is being built stays so
  have hbuilds : ∀ p c, s.Builds p c → p = ctx.id ∨ s'.Builds p c := by
    rintro p c ⟨v, ctx', code', hr, hid, hentry⟩
    by_cases hv : v = w
    . subst hv
      rw [hrunning] at hr
      cases hr
      exact .inl hid.symm
    . refine .inr ⟨v, ctx', code', ?_, hid, hentry⟩
      rw [hrunning', Function.update_of_ne hv, hr]
  exact {
    spawned := by
      rw [hadded]
      intro a ha p hp
      rcases h.spawned a ha p hp with ⟨t, ht, hid, hleads⟩ | ⟨⟨i, hi⟩, hbuild⟩
      . exact .inl ⟨t, hstarted' t ht, hid, Leads.mono hleads hlinked' hadded'⟩
      . rcases hbuilds _ _ hbuild with rfl | hbuild
        . have hleads := leads_of_operator hinv h hb ha hi he heorigin hedep hecont
          refine .inl ⟨ctx, hstarted' ctx (hinv.records.running w ctx _ hrunning), rfl, ?_⟩
          exact Leads.mono hleads hlinked' hadded'
        . exact .inr ⟨⟨i, hi⟩, hbuild⟩
    chained := by
      rw [hadded]
      exact fun a ha p b hb => hlinked' _ _ (h.chained a ha p b hb)
    operator_unique := by
      rw [hadded]
      exact h.operator_unique
    operator := by
      rw [hadded]
      intro b hb' p j hj
      obtain ⟨hne, hwaits⟩ := h.operator b hb' p j hj
      refine ⟨hne, ?_⟩
      rcases hwaits with hbuild | hwaits
      . rcases hbuilds _ _ hbuild with rfl | hbuild
        . have hwaits := waits_of_operator hinv h hrunning hb hdone hb' hj
          exact .inr (Waits.mono hwaits hlinked' hadded' hstarted')
        . exact .inl hbuild
      . exact .inr (Waits.mono hwaits hlinked' hadded' hstarted')
    exit := by
      rw [hadded]
      intro e he p hp
      obtain ⟨hne, hwaits⟩ := h.exit e he p hp
      exact ⟨hne, WaitsAll.mono hwaits hlinked' hadded' hstarted'⟩
    exits := by
      rw [hstarted, hadded]
      intro t ht operators dependents htask
      rcases h.exits t ht operators dependents htask with hexit | ⟨v, code', hr, hcode⟩
      . exact .inl hexit
      . by_cases hv : v = w
        . subst hv
          rw [hrunning] at hr
          cases hr
          exact .inl ⟨e, he, heorigin⟩
        . refine .inr ⟨v, code', ?_, hcode⟩
          rw [hrunning', Function.update_of_ne hv, hr]
    after := by
      rw [hadded]
      intro a ha d p hd
      obtain ⟨hdep, hzero, honly⟩ := h.after a ha d p hd
      exact ⟨hdep, hzero, fun m hm => honly m ((hlinked _ _).mp hm)⟩ }

end

theorem code {w : Nat} {ctx : ScheduledTask} {code : Code} (hinv : Inv s) (h : Joined s)
    (hrunning : s.running w = some (ctx, code))
    (hcall : s.calls (.worker w) = none) (hstep : CodeStep s w ctx code s')
    : Joined s' := by
  cases hstep with
  | wait =>
    refine h.of_same rfl rfl rfl ?_
    apply running_update (some (ctx, .lambda)) hrunning rfl
    simp [Code.isBuilding]
  | release =>
    refine h.of_same rfl rfl rfl ?_
    apply running_update (some (ctx, .finished)) hrunning rfl
    simp [Code.isBuilding]
  | plan =>
    refine h.of_same rfl rfl rfl ?_
    apply running_update _ hrunning rfl
    exact fun _ => ⟨_, rfl, rfl, by simp [Code.entry]⟩
  | planOperators =>
    refine h.of_same rfl rfl rfl ?_
    apply running_update _ hrunning rfl
    exact fun _ => ⟨_, rfl, rfl, by simp [Code.entry]⟩
  | @planLinkExit locals rest opCont hlock =>
    refine Joined.addLink hinv h _ hlock hrunning ⟨rfl, by simp [Code.entry]⟩ ?_
    intro id hid
    obtain ⟨-, hb, -⟩ := hinv.threads.code w ctx _ hrunning
    obtain ⟨n, hn, -⟩ := hb.exit
    rw [hid] at hn
    cases hn
  | @planLinks locals producer consumer rest hlock =>
    refine Joined.addLink hinv h _ hlock hrunning ⟨rfl, by simp [Code.entry]⟩ ?_
    intro id hid
    obtain ⟨-, hb, done, hdone, -⟩ := hinv.threads.code w ctx _ hrunning
    obtain ⟨operators, -, -, hrest, -, hrange⟩ := hb.task
    have hlength : operators.length ≤ locals.position := by
      simpa [List.drop_eq_nil_iff] using hrest.symm
    obtain ⟨-, hconsumer⟩ := hrange (producer, consumer) (by simp [hdone])
    obtain ⟨a, ha, -, -⟩ := hb.operators consumer (hconsumer.trans_le hlength)
    refine ⟨a, ha.added, ?_, ?_⟩
    . have := ha.taskId.symm.trans hid
      simpa using this
    . simp [ha.origin]
  | planFire hlock =>
    obtain ⟨graph, lock, fired, fault, heq⟩ := processDependents_eq (s.setCode w ctx .firing) (.worker w) _
    apply planFire hinv h hrunning hcall <;> rw [heq] <;> rfl

theorem call {w : Nat} {ctx : ScheduledTask} {code : Code} {a : Action} (h : Joined s)
    (hrunning : s.running w = some (ctx, code))
    (hstep : CallStep s w ctx code a s')
    : Joined s' := by
  cases hstep with
  | addTask => exact h.of_same rfl rfl rfl (running_same rfl)
  | spawnTask => exact h.of_same rfl rfl rfl (running_same rfl)
  | addTaskAfter => exact h.of_same rfl rfl rfl (running_same rfl)
  | applyIndices =>
    refine h.of_same rfl rfl rfl ?_
    apply running_update _ hrunning rfl
    simp [Code.isBuilding]
  | chainLast =>
    refine h.of_same rfl rfl rfl ?_
    apply running_update _ hrunning rfl
    simp [Code.isBuilding]
  | chain =>
    refine h.of_same rfl rfl rfl ?_
    apply running_update _ hrunning rfl
    simp [Code.isBuilding]
  | planOperator =>
    refine h.of_same rfl rfl rfl ?_
    apply running_update _ hrunning rfl
    exact fun _ => ⟨_, rfl, rfl, by simp [Code.entry]⟩
  | planExit =>
    refine h.of_same rfl rfl rfl ?_
    apply running_update _ hrunning rfl
    exact fun _ => ⟨_, rfl, rfl, by simp [Code.entry]⟩

end Joined

/--
What a running task knows when it links a task for its chain or plan.
-/
def State.Links (s : State) (task : ScheduledTask) (dependency : NodeID) : Origin → Prop
  | .client | .running _ => True
  | .spawned p => ∃ w ctx code, s.running w = some (ctx, code) ∧ ctx.id = p ∧
    task.continuation = ctx.continuation
  | .chained p next => ∃ w ctx code, s.running w = some (ctx, code) ∧ ctx.id = p ∧
    s.ChainTarget ctx next task.continuation
  | .operator p i => (∃ w ctx code, s.running w = some (ctx, code) ∧ ctx.id = p ∧
      code.entry = some dependency) ∧ dependency ≠ kInvalidNodeID ∧
    ∀ a ∈ s.history.added, a.origin ≠ .operator p i
  | .exit p => ∃ w ctx code locals, s.running w = some (ctx, code) ∧ ctx.id = p ∧
    task.continuation = ctx.continuation ∧ dependency = locals.cExit ∧
    s.Building ctx locals [] locals.position
  | .after d _ => dependency = .task d ∧ d ≠ 0

namespace Inv

variable {thread : Thread} {task : ScheduledTask} {dependency : NodeID} {origin : Origin}

theorem links (h : Inv s) (hcall : s.calls thread = some (.link task dependency origin))
    : s.Links task dependency origin := by
  cases thread with
  | client k =>
    have hclient := h.threads.client k
    rw [hcall] at hclient
    rcases hclient with ⟨rfl, -, -⟩ | ⟨d, p, rfl, hdep, hzero, -⟩
    . trivial
    . exact ⟨hdep, hzero⟩
  | worker w =>
    have hidle := h.threads.idle w (by simp [hcall])
    obtain ⟨⟨ctx, code⟩, hrunning⟩ := Option.ne_none_iff_exists'.mp hidle
    have hlocal := h.threads.code w ctx code hrunning
    rw [hcall] at hlocal
    have hfunctor : s.FunctorCall ctx (some (.link task dependency origin)) →
        s.Links task dependency origin := by
      rintro (⟨rfl, -, -⟩ | ⟨rfl, -, hcont⟩ | ⟨d, p, rfl, hdep, hzero, -⟩)
      . trivial
      . exact ⟨w, ctx, code, hrunning, rfl, hcont⟩
      . exact ⟨hdep, hzero⟩
    cases code with
    | lambda => exact hfunctor hlocal
    | wait => exact hfunctor hlocal
    | chain rest cDependent next =>
      obtain ⟨-, -, -, next', rfl, htarget⟩ := hlocal
      exact ⟨w, ctx, _, hrunning, rfl, htarget⟩
    | planLinkExit locals rest opCont =>
      obtain ⟨-, hb, rfl, rfl, -, -, -, -, -, -, -, hnone⟩ := hlocal
      exact ⟨⟨w, ctx, _, hrunning, rfl, rfl⟩, hb.enter.owned.ne_invalid, hnone⟩
    | planFire cEnter =>
      obtain ⟨locals, -, hb, -, rfl, hdep, hcont⟩ := hlocal
      exact ⟨w, ctx, _, locals, hrunning, rfl, hcont, hdep, hb⟩
    | release => cases hlocal
    | firing => cases hlocal
    | finished => cases hlocal
    | plan => cases hlocal.1
    | planOperators => cases hlocal.1
    | planLinks => cases hlocal.1

theorem eq_of_linked_afterLink (h : Inv s) (hcall : s.calls thread = some (.link task dependency origin))
    (hlock : s.lock = none) {m : NodeID} (hm : (s.afterLink thread task dependency origin).Linked m (.task task.id))
    : m = dependency := by
  rcases (h.linked_afterLink hcall hlock m _).mp hm with hm | ⟨-, hcont, -⟩ | ⟨hm, -, -⟩
  . exact absurd hm (h.unlinked hcall m)
  . exact absurd hcont.symm (h.continuation_ne_task hcall)
  . exact hm

theorem linked_of_added_afterLink (h : Inv s) (hcall : s.calls thread = some (.link task dependency origin))
    (hlock : s.lock = none) {a : Added} (ha : a ∈ s.history.added) {m : NodeID}
    (hm : (s.afterLink thread task dependency origin).Linked m (.task a.task.id))
    : s.Linked m (.task a.task.id) := by
  have hphase := h.records.phase a ha
  rcases (h.linked_afterLink hcall hlock m _).mp hm with hm | ⟨-, hcont, -⟩ | ⟨-, htask, -⟩
  . exact hm
  . rcases h.continuation_linkCall hcall with hinvalid | ⟨n, hn, -⟩
    . rw [hinvalid] at hcont
      have hzero : a.task.id = 0 := by simpa using hcont
      rw [(h.placed.located a.task.id .unallocated).mp (.inl hzero)] at hphase
      exact absurd rfl hphase.1
    . rw [hn] at hcont
      cases hcont
  . have hid : a.task.id = task.id := by simpa using htask
    rw [hid, h.phase_linking hcall] at hphase
    exact absurd rfl hphase.2

end Inv

namespace State.Links

variable {task : ScheduledTask} {dependency : NodeID} {origin : Origin}

theorem spawned (hinv : Inv s) (h : s.Links task dependency origin) {p : Nat} (hp : origin.spawner = some p)
    : (∃ t ∈ s.history.started, t.id = p ∧ s.Leads p task.continuation t.continuation) ∨
        (∃ i, origin = .operator p i) ∧ s.Builds p dependency := by
  cases origin with
  | client => cases hp
  | running => cases hp
  | after => cases hp
  | spawned q =>
    cases hp
    obtain ⟨w, ctx, code, hr, hid, hcont⟩ := h
    refine .inl ⟨ctx, hinv.records.running w ctx code hr, hid, .inr ?_⟩
    rw [hcont]
  | chained q next =>
    cases hp
    obtain ⟨w, ctx, code, hr, rfl, ⟨-, hcont⟩ | ⟨b, -, -, -, hc⟩⟩ := h
    . refine .inl ⟨ctx, hinv.records.running w ctx code hr, rfl, .inr ?_⟩
      rw [hcont]
    . exact .inl ⟨ctx, hinv.records.running w ctx code hr, rfl, hc⟩
  | operator q i =>
    cases hp
    exact .inr ⟨⟨i, rfl⟩, h.1⟩
  | exit q =>
    cases hp
    obtain ⟨w, ctx, code, locals, hr, hid, hcont, -⟩ := h
    refine .inl ⟨ctx, hinv.records.running w ctx code hr, hid, .inr ?_⟩
    rw [hcont]

theorem chained {p b : Nat} (h : s.Links task dependency (.chained p (some b)))
    : s.Linked task.continuation (.task b) := by
  obtain ⟨w, ctx, code, -, -, ⟨hnone, -⟩ | ⟨b', hb', -, hlink, -⟩⟩ := h
  . cases hnone
  . cases hb'
    exact hlink

theorem exit (hinv : Inv s) {p : Nat} (h : s.Links task dependency (.exit p))
    : dependency ≠ kInvalidNodeID ∧ s.WaitsAll p dependency := by
  obtain ⟨w, ctx, code, locals, hr, rfl, -, hdep, hb⟩ := h
  obtain ⟨operators, htask, -, hrest, -⟩ := hb.task
  have hlength : operators.length ≤ locals.position := by
    simpa [List.drop_eq_nil_iff] using hrest.symm
  rw [hdep]
  refine ⟨hb.exit.ne_invalid, ctx, hinv.records.running w ctx code hr, rfl, operators, locals.dependents, htask, ?_⟩
  intro i hi
  obtain ⟨a, ha, -, hexit⟩ := hb.operators i (hi.trans_le hlength)
  exact ⟨a, ha.added, ha.origin, hexit⟩

end State.Links

namespace Joined

section

variable {thread : Thread} {task : ScheduledTask} {dependency : NodeID} {origin : Origin}

theorem callLink (hinv : Inv s) (h : Joined s)
    (hcall : s.calls thread = some (.link task dependency origin)) (hlock : s.lock = none)
    : Joined (s.afterLink thread task dependency origin) := by
  obtain ⟨graph, links, heq⟩ := afterLink_eq s thread task dependency origin
  have hlinked := hinv.linked_afterLink hcall hlock
  have hself := @Inv.eq_of_linked_afterLink _ _ _ _ _ hinv hcall hlock
  have hkeep := @Inv.linked_of_added_afterLink _ _ _ _ _ hinv hcall hlock
  have hlinks := hinv.links hcall
  generalize hs' : s.afterLink thread task dependency origin = s' at heq hlinked hself hkeep
  have hadded : s'.history.added = ⟨task, dependency, origin⟩ :: s.history.added := by rw [heq]
  have hstarted : s'.history.started = s.history.started := by rw [heq]
  have hrunning : s'.running = s.running := by rw [heq]
  have hlinked' : ∀ m n, s.Linked m n → s'.Linked m n := fun m n hmn => (hlinked m n).mpr (.inl hmn)
  have hadded' : ∀ a ∈ s.history.added, a ∈ s'.history.added := by
    rw [hadded]
    exact fun _ ha => List.mem_cons_of_mem _ ha
  have hstarted' : ∀ t ∈ s.history.started, t ∈ s'.history.started := by
    rw [hstarted]
    exact fun _ ht => ht
  have hbuilds : ∀ p c, s.Builds p c → s'.Builds p c := by
    intro p c hbuild
    rw [Builds, hrunning]
    exact hbuild
  exact {
    spawned := by
      rw [hadded, hstarted]
      intro a ha p hp
      have hspawned : (∃ t ∈ s.history.started, t.id = p ∧ s.Leads p a.task.continuation t.continuation) ∨
          (∃ i, a.origin = .operator p i) ∧ s.Builds p a.dependency := by
        rcases List.mem_cons.mp ha with rfl | ha
        . exact hlinks.spawned hinv hp
        . exact h.spawned a ha p hp
      rcases hspawned with ⟨t, ht, hid, hc⟩ | ⟨hi, hbuild⟩
      . exact .inl ⟨t, ht, hid, Leads.mono hc hlinked' hadded'⟩
      . exact .inr ⟨hi, hbuilds _ _ hbuild⟩
    chained := by
      rw [hadded]
      intro a ha p b hb
      rcases List.mem_cons.mp ha with rfl | ha
      . change origin = _ at hb
        subst hb
        exact hlinked' _ _ hlinks.chained
      . exact hlinked' _ _ (h.chained a ha p b hb)
    operator_unique := by
      rw [hadded]
      intro a ha b hb p i hai hbi
      rcases List.mem_cons.mp ha with rfl | ha' <;> rcases List.mem_cons.mp hb with rfl | hb'
      . rfl
      . change origin = _ at hai
        subst hai
        exact absurd hbi (hlinks.2.2 b hb')
      . change origin = _ at hbi
        subst hbi
        exact absurd hai (hlinks.2.2 a ha')
      . exact h.operator_unique a ha' b hb' p i hai hbi
    operator := by
      rw [hadded]
      intro b hb p j hj
      rcases List.mem_cons.mp hb with rfl | hb
      . change origin = _ at hj
        subst hj
        exact ⟨hlinks.2.1, .inl (hbuilds _ _ hlinks.1)⟩
      . obtain ⟨hne, hwaits⟩ := h.operator b hb p j hj
        refine ⟨hne, ?_⟩
        rcases hwaits with hbuild | hwaits
        . exact .inl (hbuilds _ _ hbuild)
        . exact .inr (Waits.mono hwaits hlinked' hadded' hstarted')
    exit := by
      rw [hadded]
      intro e he p hp
      have hexit : e.dependency ≠ kInvalidNodeID ∧ s.WaitsAll p e.dependency := by
        rcases List.mem_cons.mp he with rfl | he
        . change origin = _ at hp
          subst hp
          exact hlinks.exit hinv
        . exact h.exit e he p hp
      exact ⟨hexit.1, WaitsAll.mono hexit.2 hlinked' hadded' hstarted'⟩
    exits := by
      rw [hstarted, hrunning]
      intro t ht operators dependents htask
      rcases h.exits t ht operators dependents htask with ⟨e, he, horigin⟩ | hbuilding
      . exact .inl ⟨e, hadded' e he, horigin⟩
      . exact .inr hbuilding
    after := by
      rw [hadded]
      intro a ha d p hd
      rcases List.mem_cons.mp ha with rfl | ha
      . change origin = _ at hd
        subst hd
        exact ⟨hlinks.1, hlinks.2, fun m hm => (hself hm).trans hlinks.1⟩
      . obtain ⟨hdep, hzero, honly⟩ := h.after a ha d p hd
        exact ⟨hdep, hzero, fun m hm => honly m (hkeep ha hm)⟩ }

end

theorem step {a : Action} (hinv : Inv s) (h : Joined s) (hstep : Step s a s') : Joined s' := by
  cases hstep with
  | quiet hquiet => exact h.quiet hquiet
  | @complete id w =>
    obtain ⟨graph, lock, fired, fault, heq⟩ :=
      processDependents_eq { s with loop := .processDependents id w } .scheduler (.task id)
    rw [heq]
    exact h.of_same rfl rfl rfl (running_same rfl)
  | @visit _ m rest frames dependent =>
    obtain ⟨graph, fired, fault, heq⟩ | ⟨graph, id, task, -, -, heq⟩ :=
      visitDependent_eq s m rest frames dependent
    . rw [heq]
      exact h.of_same rfl rfl rfl (running_same rfl)
    . rw [heq]
      exact h.of_same rfl rfl rfl (running_same rfl)
  | unlockWorker _ _ _ hrunning =>
    refine h.of_same rfl rfl rfl (running_update _ hrunning rfl ?_)
    simp [Code.isBuilding]
  | callLink hlock hcall => exact callLink hinv h hcall hlock
  | callStore => exact h.callStore
  | start hrunning => exact h.start hrunning
  | finish hrunning hcode => exact h.finish hrunning hcode
  | code hrunning hcall hcode => exact code hinv h hrunning hcall hcode
  | call hrunning _ hcode => exact h.call hrunning hcode
  | _ => exact h.of_same rfl rfl rfl (running_same rfl)

end Joined

/-! What has been processed when a continuation is. -/

section

variable {p x : Nat} {c d : NodeID}

theorem Leads.ne_invalid (hinv : Inv s) (h : s.Leads p c d) (hd : d ≠ kInvalidNodeID)
    : c ≠ kInvalidNodeID := by
  rcases (h.resolve_left hd).cases_head with rfl | ⟨n, ⟨hlink, -⟩, -⟩
  . exact hd
  . rintro rfl
    apply hinv.ordered.source _ _ hlink
    change (s.history.place 0).phase = _
    rw [(hinv.placed.located 0 .unallocated).mp (.inl rfl)]
    rfl

theorem not_late_of_spawner (hinv : Inv s) {a : Added} (ha : a ∈ s.history.added)
    (hspawner : a.origin.spawner = some p) (hp : ¬ Late s.history.added p)
    : ¬ Late s.history.added a.task.id := by
  intro hlate
  generalize hx : a.task.id = x at hlate
  cases hlate with
  | after hb horigin =>
    have := hinv.records.unique a ha _ hb hx
    subst this
    rw [horigin] at hspawner
    cases hspawner
  | @shared b q hb hshares hq =>
    have := hinv.records.unique a ha _ hb hx
    subst this
    have hqp : q = p := by
      cases horigin : a.origin with
      | chained r next =>
        rw [horigin] at hshares hspawner
        cases next <;> simp_all [Origin.shares, Origin.spawner]
      | _ =>
        rw [horigin] at hshares hspawner
        simp_all [Origin.shares, Origin.spawner]
    subst hqp
    exact hp hq

theorem fired_of_leads (hinv : Inv s) (h : s.Leads p c d) (hp : ¬ Late s.history.added p)
    (hd : d ≠ kInvalidNodeID) (hfired : s.Fired d)
    : s.Fired c := by
  have hpath := h.resolve_left hd
  clear h
  induction hpath using Relation.ReflTransGen.head_induction_on with
  | refl => exact hfired
  | @head m n hmn _ ih =>
    obtain ⟨hlink, hm⟩ := hmn
    cases n with
    | task id =>
      exact hinv.ordered.fired_of_task (.inr ((hinv.ordered.fired_task id).mp ih)) hlink
    | continuation k =>
      apply hinv.ordered.fired_of_continuation ih ?_ hlink
      intro x hx
      obtain ⟨a, ha, hid, hspawner⟩ := hm x hx
      rw [← hid]
      exact not_late_of_spawner hinv ha hspawner hp

/--
When the continuation of a task is processed, so are the task and all tasks that were spawned by it,
directly or not.
-/
theorem fired_of_tree (hinv : Inv s) (hjoined : Joined s) {a : Added} (ha : a ∈ s.history.added)
    (hlate : ¬ Late s.history.added a.task.id) (hne : a.task.continuation ≠ kInvalidNodeID)
    (hfired : s.Fired a.task.continuation) (htree : s.Tree a.task.id x)
    : s.Fired (.task x) := by
  -- every task of the tree has a continuation that leads to the one of the root
  suffices h : s.Fired (.task x) ∧ ∃ b ∈ s.history.added, b.task.id = x ∧
      ¬ Late s.history.added x ∧ b.task.continuation ≠ kInvalidNodeID ∧ s.Fired b.task.continuation from h.1
  have hself : ∀ b ∈ s.history.added, ¬ Late s.history.added b.task.id →
      b.task.continuation ≠ kInvalidNodeID → s.Fired b.task.continuation → s.Fired (.task b.task.id) := by
    intro b hb hblate hbne hbfired
    obtain ⟨⟨n, hn⟩, hlink⟩ := (hinv.records.continuation b hb).resolve_left hbne
    rw [hn] at hbfired hlink
    apply hinv.ordered.fired_of_continuation hbfired ?_ hlink
    rintro y ⟨⟩
    exact hblate
  induction htree with
  | refl => exact ⟨hself a ha hlate hne hfired, a, ha, rfl, hlate, hne, hfired⟩
  | tail _ hstep ih =>
    obtain ⟨hpfired, b, hb, hbid, hblate, hbne, hbfired⟩ := ih
    obtain ⟨e, he, hspawner, rfl⟩ := hstep
    rcases hjoined.spawned e he _ hspawner with ⟨t, ht, htid, hleads⟩ | ⟨-, w, ctx, code, hr, hid, -⟩
    . obtain ⟨b', hb', rfl⟩ := hinv.records.started t ht
      have := hinv.records.unique b' hb' b hb (htid.trans hbid.symm)
      subst this
      have hne' := Leads.ne_invalid hinv hleads hbne
      have hfired' := fired_of_leads hinv hleads hblate hbne hbfired
      have hlate' := not_late_of_spawner hinv he hspawner hblate
      exact ⟨hself e he hlate' hne' hfired', e, he, rfl, hlate', hne', hfired'⟩
    . have hphase := (hinv.ordered.fired_task _).mp hpfired
      change (s.history.place _).phase = _ at hphase
      rw [← hid, hinv.phase_running hr] at hphase
      cases hphase

theorem finished_of_fired (hinv : Inv s) (h : s.Fired (.task x)) : x ∈ s.history.finished := by
  rw [hinv.placed.finished]
  have hphase := (hinv.ordered.fired_task x).mp h
  change (s.history.place x).phase = _ at hphase
  cases hp : s.history.place x <;> simp [hp, Place.phase, Place.isFinished] at hphase ⊢

theorem finished_of_tree (hinv : Inv s) (hjoined : Joined s) {a : Added} (ha : a ∈ s.history.added)
    (hlate : ¬ Late s.history.added a.task.id) (hne : a.task.continuation ≠ kInvalidNodeID)
    (hfired : s.Fired a.task.continuation) (htree : s.Tree a.task.id x)
    : x ∈ s.history.finished :=
  finished_of_fired hinv (fired_of_tree hinv hjoined ha hlate hne hfired htree)

theorem fired_of_started (hinv : Inv s) {t : ScheduledTask} (ht : t ∈ s.history.started)
    (hlink : s.Linked c (.task t.id))
    : s.Fired c :=
  hinv.ordered.fired_of_task (hinv.phase_started ht) hlink

end

/-! Runs. -/

/--
Every state of a run whose steps are all allowed.
-/
structure Sound (s : State) : Prop where
  inv : Inv s
  joined : Joined s

theorem Sound.init (n : Nat) : Sound (State.init n) :=
  ⟨Inv.init n, Joined.init n⟩

theorem Sound.step {a : Action} (h : Sound s) (hallowed : Allowed s a)
    (hstep : Hustle.Scheduler.step s a = some s')
    : Sound s' :=
  ⟨h.inv.step hallowed (step_cases hstep), Joined.step h.inv h.joined (step_cases hstep)⟩

theorem Sound.run {n : Nat} {actions : List Action}
    (hallowed : Run.Meets Hustle.Scheduler.step Allowed (State.init n) actions)
    (hrun : actions.foldlM Hustle.Scheduler.step (State.init n) = some s)
    : Sound s :=
  hallowed.invariant (fun _ _ _ h hok hstep => h.step hok hstep) (Sound.init n) hrun

end Hustle.Scheduler
