import Hustle.Scheduler.Preservation

/-!
This module shows that the critical section of `addTask` and the links of a plan keep the invariant.
-/

namespace Hustle.Scheduler

namespace State

/--
The links that the critical section of `addTask` makes.
-/
def NewLink (task : ScheduledTask) (dependency : NodeID) (m n : NodeID) : Prop :=
  (m = .task task.id ∧ n = task.continuation ∧ task.continuation ≠ kInvalidNodeID) ∨
  (m = dependency ∧ n = .task task.id ∧ dependency ≠ kInvalidNodeID)

/--
The state after the critical section of `addTask`.
-/
def afterLink (s : State) (thread : Thread) (task : ScheduledTask) (dependency : NodeID)
    (origin : Origin) : State :=
  ({ (s.linkTask task dependency).recordAdded ⟨task, dependency, origin⟩ with
    calls := Function.update s.calls thread (some (
      if dependency = kInvalidNodeID then .enqueue task else .store task dependency)) }).setPlace
        task.id (if dependency = kInvalidNodeID then .ready (some thread) else .storing thread)

/--
What a call of `addTask` links, and who may have made it.
-/
inductive LinkCall (s : State) (thread : Thread) (task : ScheduledTask) (dependency : NodeID)
    (origin : Origin) : Prop where
  | plain (hdependency : dependency = kInvalidNodeID) (hcontinuation : task.continuation = kInvalidNodeID)
      (horigin : ∀ p i, origin ≠ .operator p i)
  | after (h : s.AfterCall task dependency origin)
  | own {w ctx code} (hthread : thread = .worker w) (hrunning : s.running w = some (ctx, code))
      (hcontinuation : task.continuation = ctx.continuation ∧ origin.shares = some ctx.id ∨
        s.Reserved ctx.id task.continuation)
      (hdependency : dependency = kInvalidNodeID ∨ s.Owned ctx.id dependency ∧ ¬ s.Fired dependency)
      (horigin : ∀ p i, origin = .operator p i → p = ctx.id)

end State

open State

variable {s : State} {thread : Thread} {task : ScheduledTask} {dependency : NodeID} {origin : Origin}

theorem addLinkUnsafe_of_not_edge {m n : NodeID} (hframes : s.graph.frames = [])
    (hedge : ¬ s.graph.Edge m n)
    : s.addLinkUnsafe m n = s.link m n := by
  rw [addLinkUnsafe, if_neg]
  rwa [Countdown.Graph.hasDependent_iff hframes]

theorem linkTask_of_not_edge (hframes : s.graph.frames = [])
    (hedge : ∀ m, ¬ s.graph.Edge m (.task task.id)) (hcont : task.continuation ≠ .task task.id)
    : s.linkTask task dependency
        =
      let s₁ := if task.continuation = kInvalidNodeID then s else s.link (.task task.id) task.continuation
      if dependency = kInvalidNodeID then s₁ else s₁.link dependency (.task task.id) := by
  rw [linkTask]
  dsimp only
  split
  . rfl
  . split
    . exact addLinkUnsafe_of_not_edge hframes (hedge dependency)
    . apply addLinkUnsafe_of_not_edge
      . exact hframes
      . intro hlinked
        have := (Countdown.Graph.edge_link hframes _ _ _ _).mp hlinked
        rcases this with h | ⟨-, h⟩
        . exact hedge _ h
        . exact hcont h.symm

theorem linked_linkTask (hframes : s.graph.frames = [])
    (hedge : ∀ m, ¬ s.graph.Edge m (.task task.id)) (hcont : task.continuation ≠ .task task.id)
    (m n : NodeID)
    : (s.linkTask task dependency).Linked m n ↔ s.Linked m n ∨ NewLink task dependency m n := by
  rw [linkTask_of_not_edge hframes hedge hcont]
  dsimp only
  split <;> split <;> simp_all [Linked, State.link, recordLink, NewLink] <;> grind

theorem frames_addLinkUnsafe (s : State) (m n : NodeID)
    : (s.addLinkUnsafe m n).graph.frames = s.graph.frames := by
  rw [addLinkUnsafe]
  split <;> rfl

theorem frames_linkTask (s : State) (task : ScheduledTask) (dependency : NodeID)
    : (s.linkTask task dependency).graph.frames = s.graph.frames := by
  rw [linkTask]
  split
  . split <;> rfl
  . rw [frames_addLinkUnsafe]
    split <;> rfl

theorem afterLink_eq (s : State) (thread : Thread) (task : ScheduledTask) (dependency : NodeID)
    (origin : Origin)
    : ∃ graph links,
        s.afterLink thread task dependency origin
          =
        { s with
          graph := graph
          calls := Function.update s.calls thread (some (
            if dependency = kInvalidNodeID then .enqueue task else .store task dependency))
          history := { s.history with
            links := links
            added := ⟨task, dependency, origin⟩ :: s.history.added
            place := Function.update s.history.place task.id (
              if dependency = kInvalidNodeID then .ready (some thread) else .storing thread) } } := by
  obtain ⟨graph, links, heq⟩ := linkTask_eq s task dependency
  refine ⟨graph, links, ?_⟩
  rw [afterLink, heq]
  rfl

theorem State.Owned.inj {p q : Nat} {c : NodeID} (hp : s.Owned p c) (hq : s.Owned q c) : p = q := by
  obtain ⟨n, rfl, -, hn⟩ := hp
  obtain ⟨m, heq, -, hm⟩ := hq
  cases heq
  rw [hn] at hm
  exact Option.some.inj hm

theorem State.Building.exit_unlinked {ctx : ScheduledTask} {locals : PlanLocals}
    {rest : List (Nat × Bool)} {k : Nat} (hb : s.Building ctx locals rest k) (id : Nat)
    : ¬ s.Linked (.task id) locals.cExit := by
  intro hlink
  obtain ⟨i, hi, heq⟩ := hb.exit_only _ hlink
  obtain ⟨a, ha, -, -⟩ := hb.operators i hi
  obtain ⟨n, hn, -⟩ := ha.owned
  rw [ha.cOperator, hn] at heq
  cases heq

/--
The task of a plan links what it has built. The first `k` operators stay complete, and those from `k` on
are complete now.
-/
theorem State.Building.of_links {s' : State} {ctx : ScheduledTask} {locals : PlanLocals}
    {rest : List (Nat × Bool)} {k : Nat} (k' : Nat) (hb : s.Building ctx locals rest k)
    (hlinked : ∀ m n, s.Linked m n → s'.Linked m n)
    (hadded : ∀ a ∈ s.history.added, a ∈ s'.history.added)
    (hcounter : s'.continuationCounter = s.continuationCounter)
    (howner : s'.history.owner = s.history.owner) (hfired : s'.history.fired = s.history.fired)
    (hstored : ∀ id, s.history.place id = .stored → s'.history.place id = .stored)
    (hinto : ∀ m n, s'.Linked m n → s.Linked m n ∨
      n ≠ locals.cEnter ∧ (n = locals.cExit → ∃ i < k', m = locals.cOperators i) ∧
      ∀ i < k, n ≠ locals.cOperators i)
    (hoperators : ∀ a ∈ s'.history.added, ∀ i, a.origin = .operator ctx.id i → i < locals.position)
    (hk : k ≤ k')
    (hnew : ∀ i, k ≤ i → i < k' → ∃ a, s'.OperatorLinked ctx locals i a ∧
      s'.history.place a.task.id = .stored ∧ s'.Linked a.task.continuation locals.cExit)
    : s'.Building ctx locals rest k' := by
  have howned : ∀ p c, s.Owned p c → s'.Owned p c := by
    rintro p c ⟨n, rfl, hlt, hn⟩
    refine ⟨n, rfl, ?_, ?_⟩
    . rwa [hcounter]
    . rw [howner, hn]
  have hunfired : ∀ c, ¬ s.Fired c → ¬ s'.Fired c := by
    intro c hc
    rwa [Fired, hfired]
  exact {
    enter := by
      refine ⟨howned _ _ hb.enter.owned, ?_, hunfired _ hb.enter.unfired⟩
      intro m hm
      rcases hinto m _ hm with hm | ⟨hne, -⟩
      . exact hb.enter.unlisted m hm
      . exact hne rfl
    exit := howned _ _ hb.exit
    enter_ne_exit := hb.enter_ne_exit
    exit_unfired := hunfired _ hb.exit_unfired
    exit_only := by
      intro m hm
      rcases hinto m _ hm with hm | ⟨-, hexit, -⟩
      . obtain ⟨i, hi, heq⟩ := hb.exit_only m hm
        exact ⟨i, hi.trans_le hk, heq⟩
      . exact hexit rfl
    operators := by
      intro i hi
      by_cases hik : i < k
      . obtain ⟨a, ha, hplace, hexit⟩ := hb.operators i hik
        refine ⟨a, ⟨hadded a ha.added, ha.origin, ha.taskId, ha.cOperator, ha.dependency,
          howned _ _ ha.owned, hunfired _ ha.unfired, ?_⟩, hstored _ hplace, hlinked _ _ hexit⟩
        intro m hm
        rcases hinto m _ hm with hm | ⟨-, -, hne⟩
        . exact ha.only m hm
        . exact absurd ha.cOperator.symm (hne i hik)
      . exact hnew i (Nat.le_of_not_lt hik) hi
    task := hb.task
    only_operators := hoperators }

namespace Inv

theorem linkCall (h : Inv s) (hcall : s.calls thread = some (.link task dependency origin))
    : s.LinkCall thread task dependency origin := by
  cases thread with
  | client k =>
    have hclient := h.threads.client k
    rw [hcall] at hclient
    rcases hclient with ⟨rfl, hdep, hcont⟩ | hafter
    . exact .plain hdep hcont (by simp)
    . exact .after hafter
  | worker w =>
    have hidle := h.threads.idle w (by simp [hcall])
    obtain ⟨⟨ctx, code⟩, hrunning⟩ := Option.ne_none_iff_exists'.mp hidle
    have hlocal := h.threads.code w ctx code hrunning
    rw [hcall] at hlocal
    have hfunctor : s.FunctorCall ctx (some (.link task dependency origin)) →
        s.LinkCall (.worker w) task dependency origin := by
      rintro (⟨rfl, hdep, hcont⟩ | ⟨rfl, hdep, hcont⟩ | hafter)
      . exact .plain hdep hcont (by simp)
      . exact .own rfl hrunning (.inl ⟨hcont, rfl⟩) (.inl hdep) (by simp)
      . exact .after hafter
    cases code with
    | lambda => exact hfunctor hlocal
    | wait => exact hfunctor hlocal
    | chain rest cDependent next =>
      obtain ⟨-, -, hrest, next', rfl, htarget⟩ := hlocal
      refine .own rfl hrunning ?_ ?_ (by simp)
      . rcases htarget with ⟨rfl, heq⟩ | ⟨-, -, hreserved, -⟩
        . exact .inl ⟨heq, rfl⟩
        . exact .inr hreserved
      . rcases hrest with ⟨-, hdep⟩ | ⟨-, hreserved, -⟩
        . exact .inl hdep
        . exact .inr ⟨hreserved.owned, hreserved.unfired⟩
    | planLinkExit locals rest opCont =>
      obtain ⟨-, hb, rfl, rfl, rfl, hreserved, -⟩ := hlocal
      refine .own rfl hrunning (.inr hreserved) (.inr ⟨hb.enter.owned, hb.enter.unfired⟩) ?_
      rintro p i ⟨⟩
      rfl
    | planFire cEnter =>
      obtain ⟨locals, -, hb, -, rfl, rfl, hcont⟩ := hlocal
      exact .own rfl hrunning (.inl ⟨hcont, rfl⟩) (.inr ⟨hb.exit, hb.exit_unfired⟩) (by simp)
    | release => cases hlocal
    | firing => cases hlocal
    | finished => cases hlocal
    | plan => cases hlocal.1
    | planOperators => cases hlocal.1
    | planLinks => cases hlocal.1

section

variable {w : Nat} {ctx : ScheduledTask} {code : Code}

theorem phase_running (h : Inv s) (hrunning : s.running w = some (ctx, code))
    : (s.history.place ctx.id).phase = .active := by
  have : s.history.place ctx.id = .running w := (h.placed.located _ _).mp ⟨ctx, code, hrunning, rfl⟩
  rw [this]
  rfl

theorem late_of_fired (h : Inv s) (hrunning : s.running w = some (ctx, code))
    (hne : ctx.continuation ≠ kInvalidNodeID) (hfired : s.Fired ctx.continuation)
    : Late s.history.added ctx.id := by
  obtain ⟨a, ha, rfl⟩ := h.added_running hrunning
  rcases h.records.continuation a ha with heq | ⟨⟨n, hn⟩, hlink⟩
  . exact absurd heq hne
  . by_contra hlate
    rw [hn] at hfired hlink
    have hfired' := h.ordered.fired_of_continuation hfired
      (by rintro x ⟨⟩; exact hlate) hlink
    have := (h.ordered.fired_task _).mp hfired'
    have hactive := h.phase_running hrunning
    change (s.history.place _).phase = _ at this
    rw [hactive] at this
    cases this

theorem linked_running (h : Inv s) (hrunning : s.running w = some (ctx, code))
    (hne : ctx.continuation ≠ kInvalidNodeID)
    : s.Linked (.task ctx.id) ctx.continuation := by
  obtain ⟨a, ha, rfl⟩ := h.added_running hrunning
  exact h.recorded.continuation a ha hne

theorem phase_started (h : Inv s) {t : ScheduledTask} (ht : t ∈ s.history.started)
    : (s.history.place t.id).phase = .active ∨ (s.history.place t.id).phase = .fired := by
  have := (h.placed.started t.id).mp (List.mem_map.mpr ⟨t, ht, rfl⟩)
  cases hp : s.history.place t.id <;> simp [hp, Place.isStarted, Place.phase] at this ⊢

end

theorem phase_linking (h : Inv s) (hcall : s.calls thread = some (.link task dependency origin))
    : s.history.place task.id = .linking thread :=
  (h.placed.located _ _).mp ⟨task, dependency, origin, hcall, rfl⟩

theorem unlinked (h : Inv s) (hcall : s.calls thread = some (.link task dependency origin)) (m : NodeID)
    : ¬ s.Linked m (.task task.id) := by
  intro hm
  apply (h.ordered.linked_task m task.id hm).2
  simp [ledger, h.phase_linking hcall, Place.phase]

theorem continuation_linkCall (h : Inv s)
    (hcall : s.calls thread = some (.link task dependency origin))
    : task.continuation = kInvalidNodeID ∨ ∃ n, task.continuation = .continuation n ∧
        n < s.continuationCounter ∧
        (s.Fired task.continuation → (∃ d p, origin = .after d p) ∨
          ∃ p, origin.shares = some p ∧ Late s.history.added p) := by
  cases h.linkCall hcall with
  | plain _ hcont => exact .inl hcont
  | after hafter =>
    obtain ⟨d, p, horigin, -, -, -, hnamed⟩ := hafter
    rcases h.records.named _ hnamed with heq | ⟨n, hn, hlt, -⟩
    . exact .inl heq
    . exact .inr ⟨n, hn, hlt, fun _ => .inl ⟨d, p, horigin⟩⟩
  | @own w ctx code hthread hrunning hcont =>
    rcases hcont with ⟨hcont, hshares⟩ | hreserved
    . rw [hcont]
      by_cases hne : ctx.continuation = kInvalidNodeID
      . exact .inl hne
      . right
        obtain ⟨a, ha, rfl⟩ := h.added_running hrunning
        rcases h.records.continuation a ha with heq | ⟨⟨n, hn⟩, hlink⟩
        . exact absurd heq hne
        . exact ⟨n, hn, h.continuation_lt hrunning n hn,
            fun hf => .inr ⟨_, hshares, h.late_of_fired hrunning hne hf⟩⟩
    . obtain ⟨n, hn, hlt, -⟩ := hreserved.owned
      exact .inr ⟨n, hn, hlt, fun hf => absurd hf hreserved.unfired⟩

theorem dependency_linkCall (h : Inv s)
    (hcall : s.calls thread = some (.link task dependency origin)) (hallowed : Allowed s (.call thread))
    : dependency = kInvalidNodeID ∨ ¬ s.Fired dependency ∧ s.ledger.Allocated dependency := by
  cases h.linkCall hcall with
  | plain hdep => exact .inl hdep
  | after hafter =>
    obtain ⟨d, p, -, rfl, hzero, hphase, -⟩ := hafter
    exact .inr ⟨hallowed task d origin hcall hzero, hphase⟩
  | own hthread hrunning hcont hdep =>
    rcases hdep with hdep | ⟨⟨n, rfl, hlt, -⟩, hunfired⟩
    . exact .inl hdep
    . exact .inr ⟨hunfired, hlt⟩

theorem continuation_ne_task (h : Inv s)
    (hcall : s.calls thread = some (.link task dependency origin))
    : task.continuation ≠ .task task.id := by
  rcases h.continuation_linkCall hcall with heq | ⟨n, hn, -⟩
  . rw [heq]
    intro hzero
    have hid : task.id = 0 := by simpa using hzero.symm
    have := (h.placed.located task.id .unallocated).mp (.inl hid)
    rw [h.phase_linking hcall] at this
    cases this
  . simp [hn]

theorem not_edge_task (h : Inv s) (hcall : s.calls thread = some (.link task dependency origin)) (m : NodeID)
    : ¬ s.graph.Edge m (.task task.id) := by
  intro hedge
  exact h.unlinked hcall m (h.ordered.edge_linked _ _ hedge)

theorem linkTask_eq_link (h : Inv s) (hcall : s.calls thread = some (.link task dependency origin))
    (hlock : s.lock = none)
    : s.linkTask task dependency
        =
      let s₁ := if task.continuation = kInvalidNodeID then s else s.link (.task task.id) task.continuation
      if dependency = kInvalidNodeID then s₁ else s₁.link dependency (.task task.id) :=
  linkTask_of_not_edge (h.locked.free hlock).1 (h.not_edge_task hcall) (h.continuation_ne_task hcall)

theorem linked_afterLink (h : Inv s) (hcall : s.calls thread = some (.link task dependency origin))
    (hlock : s.lock = none) (m n : NodeID)
    : (s.afterLink thread task dependency origin).Linked m n ↔
      s.Linked m n ∨ NewLink task dependency m n :=
  linked_linkTask (h.locked.free hlock).1 (h.not_edge_task hcall) (h.continuation_ne_task hcall) m n

theorem ordered_link_continuation (h : Inv s)
    (hcall : s.calls thread = some (.link task dependency origin)) (hlock : s.lock = none)
    (late : Nat → Prop) (hlate : ∀ x, Late s.history.added x → late x)
    (hafter : (∃ d p, origin = .after d p) → late task.id)
    (hshared : (∃ p, origin.shares = some p ∧ Late s.history.added p) → late task.id)
    : let l := Ledger.setPhase { s.ledger with late := late } task.id .active
      (if task.continuation = kInvalidNodeID then l else l.link (.task task.id) task.continuation).Ordered := by
  intro l
  have hphase : s.ledger.phase task.id = .linking := by
    simp [ledger, h.phase_linking hcall, Place.phase]
  have hl : l.Ordered := (h.ordered.mono le_rfl hlate).advance (.inr ⟨hphase, rfl⟩)
  split
  . exact hl
  . next hne =>
    obtain ⟨n, hn, hlt, hfired⟩ := (h.continuation_linkCall hcall).resolve_left hne
    rw [hn] at hfired ⊢
    apply hl.link_nodes (h.locked.free hlock).1
    . intro hedge
      exact h.ordered.source_linking task.id n (h.ordered.edge_linked _ _ hedge) hphase
    . intro hf
      have := (h.ordered.fired_task task.id).mp hf
      rw [hphase] at this
      cases this
    . simp [l, Ledger.Allocated, Ledger.setPhase]
    . simp
    . rintro c ⟨⟩
      refine ⟨hlt, ?_⟩
      intro hf
      rcases hfired hf with horigin | hl
      . exact ⟨task.id, rfl, hafter horigin⟩
      . exact ⟨task.id, rfl, hshared hl⟩
    . rintro id c ⟨⟩ -
      simp [l, Ledger.setPhase]

theorem ordered_link_dependency {l : Ledger} {id : Nat} {m : NodeID} (phase : Nat → Phase)
    (h : l.Ordered) (hframes : l.graph.frames = []) (hedge : ¬ l.graph.Edge m (.task id))
    (hm : ¬ l.Fired m) (hsource : l.Allocated m) (hphase : l.phase = Function.update phase id .active)
    : Ledger.Ordered { l.link m (.task id) with phase := Function.update phase id .waiting } := by
  apply h.link hframes hedge hm hsource
  . intro i hi
    have : i ≠ id := by simpa using hi
    rw [hphase, Function.update_of_ne this, Function.update_of_ne this]
  . rintro i ⟨⟩
    refine ⟨Function.update_self .., .inl ?_⟩
    rw [hphase, Function.update_self]
  . simp
  . simp

theorem ledger_afterLink (s : State) (thread : Thread) (task : ScheduledTask) (dependency : NodeID)
    (origin : Origin)
    : (s.afterLink thread task dependency origin).ledger
        =
      { s.ledger with
        graph := (s.linkTask task dependency).graph
        links := (s.linkTask task dependency).history.links
        phase := Function.update s.ledger.phase task.id (
          if dependency = kInvalidNodeID then .active else .waiting)
        late := Late (s.afterLink thread task dependency origin).history.added } := by
  obtain ⟨graph, links, heq⟩ := linkTask_eq s task dependency
  simp only [ledger, afterLink, heq, setPlace, recordAdded, phase_setPlace]
  congr 2
  split <;> rfl

theorem ordered_afterLink (h : Inv s) (hcall : s.calls thread = some (.link task dependency origin))
    (hlock : s.lock = none) (hallowed : Allowed s (.call thread))
    : (s.afterLink thread task dependency origin).ledger.Ordered := by
  have hadded : (s.afterLink thread task dependency origin).history.added
      = ⟨task, dependency, origin⟩ :: s.history.added := by
    obtain ⟨graph, links, heq⟩ := afterLink_eq s thread task dependency origin
    rw [heq]
  rw [ledger_afterLink]
  generalize hl : Late (s.afterLink thread task dependency origin).history.added = late
  have hmem : ⟨task, dependency, origin⟩ ∈ (s.afterLink thread task dependency origin).history.added := by
    rw [hadded]
    exact List.mem_cons_self
  have hlate : ∀ x, Late s.history.added x → late x := by
    subst hl
    intro x hx
    apply hx.mono
    rw [hadded]
    exact fun _ ha => List.mem_cons_of_mem _ ha
  have hafter : (∃ d p, origin = .after d p) → late task.id := by
    subst hl
    rintro ⟨d, p, horigin⟩
    exact .after hmem horigin
  have hshared : (∃ p, origin.shares = some p ∧ Late s.history.added p) → late task.id := by
    rintro ⟨p, hshares, hp⟩
    have := hlate p hp
    subst hl
    exact .shared hmem hshares this
  have hactive := h.ordered_link_continuation hcall hlock late hlate hafter hshared
  rw [h.linkTask_eq_link hcall hlock]
  dsimp only at hactive ⊢
  by_cases hdep : dependency = kInvalidNodeID
  . rw [if_pos hdep, if_pos hdep]
    split at hactive
    . next hcont =>
      rw [if_pos hcont]
      exact hactive
    . next hcont =>
      rw [if_neg hcont]
      exact hactive
  . rw [if_neg hdep, if_neg hdep]
    obtain ⟨hunfired, hallocated⟩ := (h.dependency_linkCall hcall hallowed).resolve_left hdep
    have hframes := (h.locked.free hlock).1
    have hsource : ∀ l : Ledger, l.phase = Function.update s.ledger.phase task.id .active →
        l.counter = s.continuationCounter → l.Allocated dependency := by
      intro l hphase hcounter
      cases dependency with
      | continuation n => exact hallocated.trans_eq hcounter.symm
      | task d =>
        simp only [Ledger.Allocated, hphase, Function.update_apply]
        split
        . simp
        . exact hallocated
    split at hactive
    . next hcont =>
      rw [if_pos hcont]
      exact ordered_link_dependency s.ledger.phase hactive hframes (h.not_edge_task hcall dependency)
        hunfired (hsource _ rfl rfl) rfl
    . next hcont =>
      rw [if_neg hcont]
      refine ordered_link_dependency s.ledger.phase hactive hframes ?_ hunfired (hsource _ rfl rfl) rfl
      intro hedge
      rcases (Countdown.Graph.edge_link hframes _ _ _ _).mp hedge with hedge | ⟨-, heq⟩
      . exact h.not_edge_task hcall dependency hedge
      . exact h.continuation_ne_task hcall heq.symm

/--
A task that is not the one that calls `addTask` finds its own continuations as they were.
-/
theorem extends_afterLink (h : Inv s) (hcall : s.calls thread = some (.link task dependency origin))
    (hlock : s.lock = none) (p : Nat)
    (hp : ∀ w ctx code, thread = .worker w → s.running w = some (ctx, code) → ctx.id ≠ p)
    : Extends s (s.afterLink thread task dependency origin) p := by
  obtain ⟨graph, links, heq⟩ := afterLink_eq s thread task dependency origin
  have hlinked := h.linked_afterLink hcall hlock
  have hplace := h.phase_linking hcall
  exact {
    linked := fun m n hmn => (hlinked m n).mpr (.inl hmn)
    added := by
      rw [heq]
      exact fun a ha => List.mem_cons_of_mem _ ha
    counter := by rw [heq]
    owner := by
      rw [heq]
      exact fun _ _ => rfl
    named := by
      rw [heq]
      exact fun _ hc => hc
    allocated := by
      intro id hid
      rw [heq]
      simp only [Function.update_apply]
      split
      . split <;> simp [Place.phase]
      . exact hid
    stored := by
      intro id hid
      left
      rw [heq]
      exact stored_update (by simp [hplace]) id hid
    into := by
      intro m c hc hmc
      rcases (hlinked m c).mp hmc with hmc | ⟨-, rfl, hne⟩ | ⟨-, rfl, -⟩
      . exact .inl hmc
      . right
        cases h.linkCall hcall with
        | plain _ hcont => exact absurd hcont hne
        | after hafter =>
          obtain ⟨-, -, -, -, -, -, hnamed⟩ := hafter
          obtain ⟨n, hn, -, howner⟩ := hc
          obtain ⟨n', hn', -, hfree | ⟨t, ht, htc⟩⟩ := (h.records.named _ hnamed).resolve_left hne
          . rw [hn] at hn'
            cases hn'
            rw [howner] at hfree
            cases hfree
          . obtain ⟨a, ha, rfl⟩ := h.records.started t ht
            refine ⟨a.task.id, ?_, ?_⟩
            . rw [← htc]
              exact h.recorded.continuation a ha (by rwa [htc])
            . rcases h.phase_started ht with hphase | hphase <;> simp [hphase]
        | @own w ctx code hthread hrunning hcont =>
          rcases hcont with ⟨hcont, -⟩ | hreserved
          . refine ⟨ctx.id, ?_, ?_⟩
            . rw [hcont] at hne ⊢
              exact h.linked_running hrunning hne
            . simp [h.phase_running hrunning]
          . exact absurd (hreserved.owned.inj hc) (hp w ctx code hthread hrunning)
      . obtain ⟨n, hn, -⟩ := hc
        cases hn
    out := by
      intro c m hc hcm
      rcases (hlinked c m).mp hcm with hcm | ⟨rfl, -, -⟩ | ⟨rfl, -, hne⟩
      . exact hcm
      . obtain ⟨n, hn, -⟩ := hc
        cases hn
      . cases h.linkCall hcall with
        | plain hdep => exact absurd hdep hne
        | after hafter =>
          obtain ⟨d, q, -, rfl, -⟩ := hafter
          obtain ⟨n, hn, -⟩ := hc
          cases hn
        | @own w ctx code hthread hrunning _ hdep =>
          obtain ⟨howned, -⟩ := hdep.resolve_left hne
          exact absurd (howned.inj hc) (hp w ctx code hthread hrunning)
    fires := by
      intro c _ hc
      rw [heq] at hc
      exact .inl hc
    operators := by
      intro a ha i hi
      rw [heq] at ha
      rcases List.mem_cons.mp ha with rfl | ha
      . cases h.linkCall hcall with
        | plain _ _ horigin => exact absurd hi (horigin p i)
        | after hafter =>
          obtain ⟨d, q, rfl, -⟩ := hafter
          cases hi
        | @own w ctx code hthread hrunning _ _ horigin =>
          exact absurd (horigin p i hi).symm (hp w ctx code hthread hrunning)
      . exact ha }

theorem records_afterLink (h : Inv s) (hcall : s.calls thread = some (.link task dependency origin))
    (hlock : s.lock = none)
    : Records (s.afterLink thread task dependency origin) := by
  obtain ⟨graph, links, heq⟩ := afterLink_eq s thread task dependency origin
  have hlinked := h.linked_afterLink hcall hlock
  have hplace := h.phase_linking hcall
  -- no task with this id was added before, as its id is still being linked
  have hfresh : ∀ a ∈ s.history.added, a.task.id ≠ task.id := by
    intro a ha hid
    apply (h.records.phase a ha).2
    rw [hid, hplace]
    rfl
  exact {
    known := by
      intro t ht
      rw [heq] at ht ⊢
      by_cases htask : t = task
      . exact ⟨_, List.mem_cons_self, htask.symm⟩
      . have : s.Has t := by
          simp only [Has, Function.update_apply] at ht ⊢
          grind
        obtain ⟨a, ha, hat⟩ := h.records.known t this
        exact ⟨a, List.mem_cons_of_mem _ ha, hat⟩
    unique := by
      rw [heq]
      intro a ha b hb hid
      rcases List.mem_cons.mp ha with rfl | ha <;> rcases List.mem_cons.mp hb with rfl | hb
      . rfl
      . exact absurd hid.symm (hfresh b hb)
      . exact absurd hid (hfresh a ha)
      . exact h.records.unique a ha b hb hid
    phase := by
      rw [heq]
      intro a ha
      rcases List.mem_cons.mp ha with rfl | ha
      . simp only [Function.update_self]
        split <;> simp [Place.phase]
      . simp only [Function.update_of_ne (hfresh a ha)]
        exact h.records.phase a ha
    continuation := by
      intro a ha
      rw [heq] at ha
      rcases List.mem_cons.mp ha with rfl | ha
      . rcases h.continuation_linkCall hcall with hcont | ⟨n, hn, -⟩
        . exact .inl hcont
        . refine .inr ⟨⟨n, hn⟩, (hlinked _ _).mpr (.inr (.inl ⟨rfl, rfl, ?_⟩))⟩
          simp [hn]
      . rcases h.records.continuation a ha with hcont | ⟨hn, hlink⟩
        . exact .inl hcont
        . exact .inr ⟨hn, (hlinked _ _).mpr (.inl hlink)⟩
    dependency := by
      intro a ha hne
      rw [heq] at ha
      rcases List.mem_cons.mp ha with rfl | ha
      . exact (hlinked _ _).mpr (.inr (.inr ⟨rfl, rfl, hne⟩))
      . exact (hlinked _ _).mpr (.inl (h.records.dependency a ha hne))
    valid := by
      rw [heq]
      intro a ha
      rcases List.mem_cons.mp ha with rfl | ha
      . exact h.records.call_valid thread task dependency origin hcall
      . exact h.records.valid a ha
    operator := by
      rw [heq]
      intro a ha p i hi
      rcases List.mem_cons.mp ha with rfl | ha
      . cases h.linkCall hcall with
        | plain _ _ horigin => exact absurd hi (horigin p i)
        | after hafter =>
          obtain ⟨d, q, rfl, -⟩ := hafter
          cases hi
        | @own w ctx code hthread hrunning _ _ horigin =>
          exact ⟨ctx, h.records.running w ctx code hrunning, (horigin p i hi).symm⟩
      . exact h.records.operator a ha p i hi
    started := by
      rw [heq]
      intro t ht
      obtain ⟨a, ha, hat⟩ := h.records.started t ht
      exact ⟨a, List.mem_cons_of_mem _ ha, hat⟩
    running := by
      rw [heq]
      exact h.records.running
    named := by
      rw [heq]
      exact h.records.named
    call_valid := by
      rw [heq]
      intro th t dep o hc
      simp only [Function.update_apply] at hc
      split at hc
      . split at hc <;> cases hc
      . exact h.records.call_valid th t dep o hc
    chain_valid := by
      rw [heq]
      exact h.records.chain_valid }

section

variable {w : Nat} {ctx : ScheduledTask} {code : Code}

theorem calls_afterLink (s : State) (thread : Thread) (task : ScheduledTask) (dependency : NodeID)
    (origin : Origin)
    : (s.afterLink thread task dependency origin).calls thread
        =
      some (if dependency = kInvalidNodeID then .enqueue task else .store task dependency) := by
  obtain ⟨graph, links, heq⟩ := afterLink_eq s thread task dependency origin
  rw [heq]
  exact Function.update_self ..

theorem functorCall_afterLink (hlocal : s.FunctorCall ctx (some (.link task dependency origin)))
    : (s.afterLink thread task dependency origin).FunctorCall ctx
        (some (if dependency = kInvalidNodeID then .enqueue task else .store task dependency)) := by
  rcases hlocal with ⟨-, hdep, -⟩ | ⟨-, hdep, -⟩ | ⟨d, p, -, rfl, hzero, -⟩
  . rw [if_pos hdep]
    trivial
  . rw [if_pos hdep]
    trivial
  . rw [if_neg (by simpa using hzero)]
    exact ⟨d, rfl⟩

/--
The new element of a chain waits for the continuation of the element that is added next.
-/
theorem chainCall_afterLink (h : Inv s) {rest : List Task} {cDependent : NodeID} {next : Option Nat}
    (hcall : s.calls thread = some (.link task dependency origin)) (hlock : s.lock = none)
    (hlocal : s.ChainCall ctx rest cDependent next (some (.link task dependency origin)))
    : (s.afterLink thread task dependency origin).ChainCall ctx rest cDependent next
        (some (if dependency = kInvalidNodeID then .enqueue task else .store task dependency)) := by
  obtain ⟨graph, links, heq⟩ := afterLink_eq s thread task dependency origin
  have hlinked := h.linked_afterLink hcall hlock
  obtain ⟨rfl, rfl, hrest, next', horigin, htarget⟩ := hlocal
  rcases hrest with ⟨hrest, hdep⟩ | ⟨-, hreserved, -, hne⟩
  . rw [if_pos hdep]
    exact fun hne => absurd hrest hne
  . rw [if_neg hreserved.owned.ne_invalid]
    refine ⟨rfl, by simp, .inr ⟨task.id, rfl, ?_, ?_, ?_⟩⟩
    . refine ⟨?_, ?_, ?_⟩
      . rw [heq]
        exact hreserved.owned
      . intro m hm
        rcases (hlinked m dependency).mp hm with hm | ⟨-, hcont, -⟩ | ⟨-, htask, -⟩
        . exact hreserved.unlisted m hm
        . exact hne hcont
        . obtain ⟨n, hn, -⟩ := hreserved.owned
          rw [hn] at htask
          cases htask
      . rw [heq]
        exact hreserved.unfired
    . exact (hlinked _ _).mpr (.inr (.inr ⟨rfl, rfl, hreserved.owned.ne_invalid⟩))
    . by_cases hinvalid : ctx.continuation = kInvalidNodeID
      . exact .inl hinvalid
      right
      -- the continuation of this element leads to the continuation of the chain
      have hcont : task.continuation ≠ kInvalidNodeID ∧
          Relation.ReflTransGen ((s.afterLink thread task dependency origin).LinkedBy ctx.id)
            task.continuation ctx.continuation := by
        rcases htarget with ⟨-, hcont⟩ | ⟨b, -, hc, -, hleads⟩
        . rw [hcont]
          exact ⟨hinvalid, .refl⟩
        . refine ⟨hc.owned.ne_invalid, ?_⟩
          refine Relation.ReflTransGen.mono ?_ _ _ (hleads.resolve_left hinvalid)
          rintro m n ⟨hmn, hm⟩
          refine ⟨(hlinked m n).mpr (.inl hmn), ?_⟩
          intro x hx
          obtain ⟨a, ha, hax⟩ := hm x hx
          rw [heq]
          exact ⟨a, List.mem_cons_of_mem _ ha, hax⟩
      apply Relation.ReflTransGen.head
      . refine ⟨(hlinked _ _).mpr (.inr (.inr ⟨rfl, rfl, hreserved.owned.ne_invalid⟩)), ?_⟩
        rintro x rfl
        obtain ⟨n, hn, -⟩ := hreserved.owned
        cases hn
      . apply Relation.ReflTransGen.head _ hcont.2
        refine ⟨(hlinked _ _).mpr (.inr (.inl ⟨rfl, rfl, hcont.1⟩)), ?_⟩
        rintro x ⟨⟩
        rw [heq]
        exact ⟨_, List.mem_cons_self, rfl, by rw [horigin]; rfl⟩

/--
What a plan has built, after its task adds another operator or its exit.
-/
theorem building_afterLink (h : Inv s) {locals : PlanLocals} {rest : List (Nat × Bool)} {k : Nat}
    (hcall : s.calls thread = some (.link task dependency origin)) (hlock : s.lock = none)
    (hb : s.Building ctx locals rest k)
    (henter : task.continuation ≠ locals.cEnter) (hexit : task.continuation ≠ locals.cExit)
    (hops : ∀ i < k, task.continuation ≠ locals.cOperators i)
    (horigin : ∀ i, origin = .operator ctx.id i → i < locals.position)
    : (s.afterLink thread task dependency origin).Building ctx locals rest k := by
  obtain ⟨graph, links, heq⟩ := afterLink_eq s thread task dependency origin
  have hlinked := h.linked_afterLink hcall hlock
  apply hb.of_links k
  . exact fun m n hmn => (hlinked m n).mpr (.inl hmn)
  . rw [heq]
    exact fun a ha => List.mem_cons_of_mem _ ha
  . rw [heq]
  . rw [heq]
  . rw [heq]
  . rw [heq]
    exact stored_update (by simp [h.phase_linking hcall])
  . intro m n hmn
    rcases (hlinked m n).mp hmn with hmn | ⟨-, rfl, -⟩ | ⟨-, rfl, -⟩
    . exact .inl hmn
    . exact .inr ⟨henter, fun heq => absurd heq hexit, hops⟩
    . right
      refine ⟨?_, ?_, ?_⟩
      . intro heq
        obtain ⟨n, hn, -⟩ := hb.enter.owned
        rw [hn] at heq
        cases heq
      . intro heq
        obtain ⟨n, hn, -⟩ := hb.exit
        rw [hn] at heq
        cases heq
      . intro i hi heq
        obtain ⟨a, ha, -, -⟩ := hb.operators i hi
        obtain ⟨n, hn, -⟩ := ha.owned
        rw [ha.cOperator, hn] at heq
        cases heq
  . rw [heq]
    intro a ha i hi
    rcases List.mem_cons.mp ha with rfl | ha
    . exact horigin i hi
    . exact hb.only_operators a ha i hi
  . exact le_rfl
  . intro i hki hik
    omega

theorem operatorCall_afterLink (h : Inv s) {locals : PlanLocals} {rest : List (Nat × Bool)} {k : Nat}
    {opCont : NodeID} (hcall : s.calls thread = some (.link task dependency origin))
    (hlock : s.lock = none) (hb : s.Building ctx locals rest k)
    (hlocal : s.OperatorCall ctx locals k opCont (some (.link task dependency origin)))
    (hposition : k < locals.position)
    : (s.afterLink thread task dependency origin).Building ctx locals rest k ∧
      (s.afterLink thread task dependency origin).OperatorCall ctx locals k opCont
        (some (if dependency = kInvalidNodeID then .enqueue task else .store task dependency)) := by
  obtain ⟨graph, links, heq⟩ := afterLink_eq s thread task dependency origin
  have hlinked := h.linked_afterLink hcall hlock
  obtain ⟨horigin, hdep, rfl, hreserved, henter, hexit, -, htask, hop, -⟩ := hlocal
  constructor
  . apply h.building_afterLink hcall hlock hb henter hexit
    . intro i hi hcont
      obtain ⟨a, ha, -, -⟩ := hb.operators i hi
      apply hreserved.unlisted (.task a.task.id)
      rw [hcont, ha.cOperator]
      exact h.recorded.continuation a ha.added ha.owned.ne_invalid
    . intro i hi
      rw [horigin] at hi
      cases hi
      exact hposition
  . rw [if_neg (by rw [hdep]; exact hb.enter.owned.ne_invalid)]
    refine ⟨hdep, ⟨task, dependency, origin⟩, ?_, rfl, rfl⟩
    exact {
      added := by
        rw [heq]
        exact List.mem_cons_self
      origin := horigin
      taskId := htask
      cOperator := hop
      dependency := hdep
      owned := by
        rw [heq]
        exact hreserved.owned
      unfired := by
        rw [heq]
        exact hreserved.unfired
      only := by
        intro m hm
        rcases (hlinked m _).mp hm with hm | ⟨hm, -, -⟩ | ⟨-, htask, -⟩
        . exact absurd hm (hreserved.unlisted m)
        . exact hm
        . exact absurd htask (h.continuation_ne_task hcall) }

theorem exitCall_afterLink (h : Inv s) {locals : PlanLocals} {rest : List (Nat × Bool)} {k : Nat}
    (hcall : s.calls thread = some (.link task dependency origin)) (hlock : s.lock = none)
    (hrunning : s.running w = some (ctx, code)) (hb : s.Building ctx locals rest k)
    (hlocal : s.ExitCall ctx locals (some (.link task dependency origin)))
    : (s.afterLink thread task dependency origin).Building ctx locals rest k ∧
      (s.afterLink thread task dependency origin).ExitCall ctx locals
        (some (if dependency = kInvalidNodeID then .enqueue task else .store task dependency)) := by
  obtain ⟨graph, links, heq⟩ := afterLink_eq s thread task dependency origin
  obtain ⟨horigin, hdep, hcont⟩ := hlocal
  have hactive := h.phase_running hrunning
  constructor
  . by_cases hinvalid : ctx.continuation = kInvalidNodeID
    . refine h.building_afterLink hcall hlock hb ?_ ?_ ?_ ?_
      . rw [hcont, hinvalid]
        exact hb.enter.owned.ne_invalid.symm
      . rw [hcont, hinvalid]
        exact hb.exit.ne_invalid.symm
      . intro i hi
        obtain ⟨a, ha, -, -⟩ := hb.operators i hi
        rw [hcont, hinvalid, ha.cOperator]
        exact ha.owned.ne_invalid.symm
      . simp [horigin]
    . have hlink := h.linked_running hrunning hinvalid
      refine h.building_afterLink hcall hlock hb ?_ ?_ ?_ ?_
      . intro heq
        rw [hcont] at heq
        rw [heq] at hlink
        exact hb.enter.unlisted _ hlink
      . intro heq
        rw [hcont] at heq
        rw [heq] at hlink
        exact hb.exit_unlinked _ hlink
      . intro i hi heq
        obtain ⟨a, ha, hstored, -⟩ := hb.operators i hi
        rw [hcont, ha.cOperator] at heq
        rw [heq] at hlink
        have hid : ctx.id = a.task.id := by simpa using ha.only _ hlink
        rw [hid, hstored] at hactive
        cases hactive
      . simp [horigin]
  . rw [if_neg (by rw [hdep]; exact hb.exit.ne_invalid)]
    refine ⟨hdep, ⟨task, dependency, origin⟩, ?_, rfl, horigin, hdep, hcont⟩
    rw [heq]
    exact List.mem_cons_self

theorem local_afterLink (h : Inv s) (hcall : s.calls (.worker w) = some (.link task dependency origin))
    (hlock : s.lock = none) (hrunning : s.running w = some (ctx, code))
    : (s.afterLink (.worker w) task dependency origin).Local ctx
        ((s.afterLink (.worker w) task dependency origin).calls (.worker w)) code := by
  have hlocal := h.threads.code w ctx code hrunning
  rw [hcall] at hlocal
  rw [calls_afterLink]
  have hlinked := h.linked_afterLink hcall hlock
  cases code with
  | lambda => exact functorCall_afterLink hlocal
  | wait => exact functorCall_afterLink hlocal
  | chain => exact h.chainCall_afterLink hcall hlock hlocal
  | planLinkExit locals rest opCont =>
    obtain ⟨hpos, hb, hop⟩ := hlocal
    exact ⟨hpos, h.operatorCall_afterLink hcall hlock hb hop (by omega)⟩
  | planFire cEnter =>
    obtain ⟨locals, henter, hb, hlinks, hexit⟩ := hlocal
    obtain ⟨hb', hexit'⟩ := h.exitCall_afterLink hcall hlock hrunning hb hexit
    exact ⟨locals, henter, hb', fun link hl => (hlinked _ _).mpr (.inl (hlinks link hl)), hexit'⟩
  | release => cases hlocal
  | firing => cases hlocal
  | finished => cases hlocal
  | plan => cases hlocal.1
  | planOperators => cases hlocal.1
  | planLinks => cases hlocal.1

end

theorem clientCall_afterLink {k : Nat} (h : Inv s)
    (hcall : s.calls (.client k) = some (.link task dependency origin))
    : (s.afterLink (.client k) task dependency origin).ClientCall
        ((s.afterLink (.client k) task dependency origin).calls (.client k)) := by
  have hclient := h.threads.client k
  rw [hcall] at hclient
  rw [calls_afterLink]
  rcases hclient with ⟨-, hdep, -⟩ | ⟨d, p, -, rfl, hzero, -⟩
  . rw [if_pos hdep]
    trivial
  . rw [if_neg (by simpa using hzero)]
    exact ⟨d, rfl⟩

theorem running_inj (h : Inv s) {v w : Nat} {ctx ctx' : ScheduledTask} {code code' : Code}
    (hv : s.running v = some (ctx, code)) (hw : s.running w = some (ctx', code')) (hid : ctx.id = ctx'.id)
    : v = w := by
  have hv' : s.history.place ctx.id = .running v := (h.placed.located _ _).mp ⟨ctx, code, hv, rfl⟩
  have hw' : s.history.place ctx'.id = .running w := (h.placed.located _ _).mp ⟨ctx', code', hw, rfl⟩
  rw [hid, hw'] at hv'
  cases hv'
  rfl

theorem callLink (h : Inv s) (hcall : s.calls thread = some (.link task dependency origin))
    (hlock : s.lock = none) (hallowed : Allowed s (.call thread))
    : Inv (s.afterLink thread task dependency origin) := by
  obtain ⟨graph, links, heq⟩ := afterLink_eq s thread task dependency origin
  have hlinked := h.linked_afterLink hcall hlock
  have hother : ∀ th, th ≠ thread →
      (s.afterLink thread task dependency origin).calls th = s.calls th := by
    intro th hth
    rw [heq]
    exact Function.update_of_ne hth _ _
  have hself := calls_afterLink s thread task dependency origin
  refine ⟨h.placed.callLink hcall, h.ordered_afterLink hcall hlock hallowed,
    h.records_afterLink hcall hlock, ?_, ?_⟩
  . apply Threads.of h
    . intro k
      by_cases hk : Thread.client k = thread
      . subst hk
        exact h.clientCall_afterLink hcall
      . rw [hother _ hk]
        apply ClientCall.of (h.threads.client k)
        . intro id hid
          rw [heq]
          simp only [Function.update_apply]
          split
          . split <;> simp [Place.phase]
          . exact hid
        . rw [heq]
          exact fun _ hc => hc
    . intro w ctx code hr
      have hr' : s.running w = some (ctx, code) := by rwa [heq] at hr
      by_cases hw : Thread.worker w = thread
      . subst hw
        exact .inr (h.local_afterLink hcall hlock hr')
      . refine .inl ⟨hr', hother _ hw, h.extends_afterLink hcall hlock ctx.id ?_⟩
        rintro v ctx' code' rfl hv hid
        exact hw (by rw [h.running_inj hv hr' hid])
    . intro th t dep hc
      have hfired : ∀ n, (s.afterLink thread task dependency origin).Fired n ↔ s.Fired n := by
        intro n
        rw [heq]
        rfl
      by_cases hth : th = thread
      . subst hth
        rw [hself] at hc
        split at hc
        . cases hc
        . next hdep =>
          cases hc
          refine ⟨(hlinked _ _).mpr (.inr (.inr ⟨rfl, rfl, hdep⟩)), ?_, ?_⟩
          . intro m hm
            rcases (hlinked m _).mp hm with hm | ⟨-, hcont, -⟩ | ⟨hm, -, -⟩
            . exact absurd hm (h.unlinked hcall m)
            . exact absurd hcont.symm (h.continuation_ne_task hcall)
            . exact hm
          . rw [hfired]
            exact ((h.dependency_linkCall hcall hallowed).resolve_left hdep).1
      . rw [hother th hth] at hc
        obtain ⟨hlink, honly, hunfired⟩ := h.threads.store th t dep hc
        refine ⟨(hlinked _ _).mpr (.inl hlink), ?_, ?_⟩
        . intro m hm
          have hne : t.id ≠ task.id := by
            intro hid
            have hstoring : s.history.place t.id = .storing th :=
              (h.placed.located _ _).mp ⟨t, dep, hc, rfl⟩
            rw [hid, h.phase_linking hcall] at hstoring
            cases hstoring
          rcases (hlinked m _).mp hm with hm | ⟨-, hcont, -⟩ | ⟨-, htask, -⟩
          . exact honly m hm
          . rcases h.continuation_linkCall hcall with hinvalid | ⟨n, hn, -⟩
            . rw [hinvalid] at hcont
              have : t.id = 0 := by simpa using hcont
              have hzero := (h.placed.located t.id .unallocated).mp (.inl this)
              rw [(h.placed.located t.id (.storing th)).mp ⟨t, dep, hc, rfl⟩] at hzero
              cases hzero
            . rw [hn] at hcont
              cases hcont
          . exact absurd (by simpa using htask) hne
        . rwa [hfired]
    . intro w hc
      by_cases hw : Thread.worker w = thread
      . subst hw
        rw [heq]
        exact h.threads.idle w (by simp [hcall])
      . rw [hother _ hw] at hc
        rw [heq]
        exact h.threads.idle w hc
  . apply h.locked.of
    . rw [heq]
      exact h.locked.fault
    . rw [heq]
    . exact frames_linkTask s task dependency
    . rw [heq]
      exact fun he => he
    . rw [heq]
      exact fun _ _ hl => hl
    . rw [heq]
      exact fun _ _ hr => hr

/-! The links of a plan. -/

section

variable {w : Nat} {ctx : ScheduledTask} {code : Code} {m n : NodeID}

theorem linked_addLinkUnsafe (h : Inv s) (hlock : s.lock = none) (a b : NodeID)
    : (s.addLinkUnsafe m n).Linked a b ↔ s.Linked a b ∨ (a = m ∧ b = n) := by
  rw [addLinkUnsafe]
  split
  . next hedge =>
    rw [Countdown.Graph.hasDependent_iff (h.locked.free hlock).1] at hedge
    have hmn := h.ordered.edge_linked _ _ hedge
    constructor
    . exact fun hab => .inl hab
    . rintro (hab | ⟨rfl, rfl⟩)
      . exact hab
      . exact hmn
  . simp [Linked, State.link, recordLink, or_comm]

theorem ordered_addLinkUnsafe (h : Inv s) (hlock : s.lock = none) (hm : ¬ s.Fired m)
    (hallocated : s.ledger.Allocated m)
    (htask : ∀ id, n = .task id → (s.history.place id).phase = .waiting)
    (hcont : ∀ c, n = .continuation c → c < s.continuationCounter ∧ ¬ s.Fired n)
    (hsource : ∀ id, m ≠ .task id)
    : (s.addLinkUnsafe m n).ledger.Ordered := by
  rw [addLinkUnsafe]
  split
  . exact h.ordered
  . next hedge =>
    rw [Countdown.Graph.hasDependent_iff (h.locked.free hlock).1] at hedge
    refine h.ordered.link_nodes (h.locked.free hlock).1 hedge hm hallocated htask ?_ ?_
    . rintro c rfl
      refine ⟨(hcont c rfl).1, fun hf => absurd hf (hcont c rfl).2⟩
    . intro id c hid
      exact absurd hid (hsource id)

theorem extends_addLink (h : Inv s) (code' : Code) (hlock : s.lock = none) (hm : s.Owned ctx.id m)
    (hn : (∃ id, n = .task id ∧ s.history.place id = .stored) ∨ s.Owned ctx.id n ∧ ¬ s.Fired n)
    {p : Nat} (hp : p ≠ ctx.id)
    : Extends s ((s.addLinkUnsafe m n).setCode w ctx code') p := by
  obtain ⟨graph, links, heq⟩ := addLinkUnsafe_eq s m n
  have hlinked : ∀ a b, ((s.addLinkUnsafe m n).setCode w ctx code').Linked a b ↔
      s.Linked a b ∨ (a = m ∧ b = n) := h.linked_addLinkUnsafe hlock
  refine ⟨fun a b hab => (hlinked a b).mpr (.inl hab), ?_, ?_, ?_, ?_, ?_, ?_, ?_, ?_, ?_, ?_⟩
  . rw [heq]
    exact fun _ ha => ha
  . rw [heq]
    exact le_rfl
  . rw [heq]
    exact fun _ _ => rfl
  . rw [heq]
    exact fun _ hc => hc
  . rw [heq]
    exact fun _ hid => hid
  . rw [heq]
    exact fun _ hid => .inl hid
  . intro a c hc hac
    rcases (hlinked a c).mp hac with hac | ⟨-, rfl⟩
    . exact .inl hac
    . rcases hn with ⟨id, rfl, -⟩ | ⟨howned, -⟩
      . obtain ⟨k, hk, -⟩ := hc
        cases hk
      . exact absurd (hc.inj howned) hp
  . intro c a hc hca
    rcases (hlinked c a).mp hca with hca | ⟨rfl, -⟩
    . exact hca
    . exact absurd (hc.inj hm) hp
  . rw [heq]
    exact fun _ _ hc => .inl hc
  . rw [heq]
    exact fun _ ha _ _ => ha

theorem ordered_addLink (h : Inv s) (hlock : s.lock = none) (hm : s.Owned ctx.id m) (hunfired : ¬ s.Fired m)
    (hn : (∃ id, n = .task id ∧ s.history.place id = .stored) ∨ s.Owned ctx.id n ∧ ¬ s.Fired n)
    : (s.addLinkUnsafe m n).ledger.Ordered := by
  obtain ⟨c, rfl, hlt, -⟩ := hm
  apply h.ordered_addLinkUnsafe hlock hunfired hlt
  . rintro id rfl
    rcases hn with ⟨id', heq, hstored⟩ | ⟨⟨n, hn, -⟩, -⟩
    . cases heq
      rw [hstored]
      rfl
    . cases hn
  . rintro c rfl
    rcases hn with ⟨id', heq, -⟩ | ⟨⟨n, heq, hlt, -⟩, hunfired⟩
    . cases heq
    . cases heq
      exact ⟨hlt, hunfired⟩
  . simp

theorem running_addLink (code' : Code) {v : Nat} {ctx' : ScheduledTask} {code'' : Code}
    (hr : ((s.addLinkUnsafe m n).setCode w ctx code').running v = some (ctx', code''))
    : (v = w ∧ ctx' = ctx ∧ code'' = code') ∨ v ≠ w ∧ s.running v = some (ctx', code'') := by
  obtain ⟨graph, links, heq⟩ := addLinkUnsafe_eq s m n
  rw [heq] at hr
  simp only [State.setCode, Function.update_apply] at hr
  split at hr
  . next hv =>
    cases hr
    exact .inl ⟨hv, rfl, rfl⟩
  . next hv => exact .inr ⟨hv, hr⟩

theorem records_addLink (h : Inv s) (code' : Code) (hlock : s.lock = none)
    (hrunning : s.running w = some (ctx, code)) (hchain : ∀ rest cDependent next, code' ≠ .chain rest cDependent next)
    : Records ((s.addLinkUnsafe m n).setCode w ctx code') := by
  obtain ⟨graph, links, heq⟩ := addLinkUnsafe_eq s m n
  refine h.records.of ?_ (fun a b hab => (h.linked_addLinkUnsafe hlock a b).mpr (.inl hab)) ?_ ?_ ?_ ?_ ?_ ?_ ?_ ?_ ?_ ?_
  . rw [heq]
    rfl
  . rw [heq]
    exact fun _ hid => hid
  . intro t ht
    rw [heq] at ht
    simp only [Has, State.setCode, Function.update_apply] at ht ⊢
    grind
  . rw [heq]
    exact fun _ ht => .inl ht
  . intro v ctx' code'' hr
    rcases running_addLink code' hr with ⟨rfl, rfl, -⟩ | ⟨-, hr⟩
    . exact .inl ⟨code, hrunning⟩
    . exact .inl ⟨code'', hr⟩
  . rw [heq]
    exact fun _ ht => ht
  . rw [heq]
    exact fun _ hc => .inl hc
  . rw [heq]
    exact le_rfl
  . rw [heq]
    exact fun _ _ => rfl
  . rw [heq]
    exact h.records.call_valid
  . intro v ctx' rest cDependent next hr
    rcases running_addLink code' hr with ⟨-, -, hcode⟩ | ⟨-, hr⟩
    . exact absurd hcode.symm (hchain rest cDependent next)
    . exact h.records.chain_valid v ctx' rest cDependent next hr

theorem threads_addLink (h : Inv s) (code' : Code) (hlock : s.lock = none)
    (hrunning : s.running w = some (ctx, code)) (hcall : s.calls (.worker w) = none) (hm : s.Owned ctx.id m)
    (hn : (∃ id, n = .task id ∧ s.history.place id = .stored) ∨ s.Owned ctx.id n ∧ ¬ s.Fired n)
    (hlocal : ((s.addLinkUnsafe m n).setCode w ctx code').Local ctx none code')
    : Threads ((s.addLinkUnsafe m n).setCode w ctx code') := by
  obtain ⟨graph, links, heq⟩ := addLinkUnsafe_eq s m n
  have hlinked : ∀ a b, ((s.addLinkUnsafe m n).setCode w ctx code').Linked a b ↔
      s.Linked a b ∨ (a = m ∧ b = n) := h.linked_addLinkUnsafe hlock
  have hcalls : ((s.addLinkUnsafe m n).setCode w ctx code').calls = s.calls := by rw [heq]; rfl
  apply Threads.of h
  . intro k
    rw [hcalls]
    apply ClientCall.of (h.threads.client k)
    . rw [heq]
      exact fun _ hid => hid
    . rw [heq]
      exact fun _ hc => hc
  . intro v ctx' code'' hr
    rw [hcalls]
    rcases running_addLink code' hr with ⟨rfl, rfl, rfl⟩ | ⟨hv, hr⟩
    . rw [hcall]
      exact .inr hlocal
    . refine .inl ⟨hr, rfl, h.extends_addLink code' hlock hm hn ?_⟩
      exact fun hid => hv (h.running_inj hr hrunning hid)
  . intro th t dep hc
    rw [hcalls] at hc
    obtain ⟨hlink, honly, hunf⟩ := h.threads.store th t dep hc
    have hfired : ((s.addLinkUnsafe m n).setCode w ctx code').Fired dep ↔ s.Fired dep := by
      rw [heq]
      rfl
    refine ⟨(hlinked _ _).mpr (.inl hlink), ?_, fun hf => hunf (hfired.mp hf)⟩
    intro a ha
    rcases (hlinked a _).mp ha with ha | ⟨-, rfl⟩
    . exact honly a ha
    . -- the task whose call is not over is not in the map yet
      rcases hn with ⟨id, hid, hstored⟩ | ⟨⟨k, hk, -⟩, -⟩
      . cases hid
        rw [(h.placed.located t.id (.storing th)).mp ⟨t, dep, hc, rfl⟩] at hstored
        cases hstored
      . cases hk
  . intro v hc
    rw [hcalls] at hc
    have hv : v ≠ w := by
      rintro rfl
      exact hc hcall
    have hsame : ((s.addLinkUnsafe m n).setCode w ctx code').running v = s.running v := by
      rw [heq]
      exact Function.update_of_ne hv _ _
    rw [hsame]
    exact h.threads.idle v hc

theorem locked_addLink (h : Inv s) (code' : Code) (hrunning : s.running w = some (ctx, code))
    (hcode : code ≠ .firing)
    : Locked ((s.addLinkUnsafe m n).setCode w ctx code') := by
  obtain ⟨graph, links, heq⟩ := addLinkUnsafe_eq s m n
  refine h.locked.of ?_ ?_ (frames_addLinkUnsafe s m n) ?_ ?_ ?_
  . rw [heq]
    exact h.locked.fault
  . rw [heq]
    rfl
  . rw [heq]
    exact fun he => he
  . rw [heq]
    exact fun _ _ hl => hl
  . intro v ctx' hv
    have hne : v ≠ w := by
      rintro rfl
      rw [hrunning] at hv
      cases hv
      exact hcode rfl
    rw [heq]
    exact (Function.update_of_ne hne _ _).trans hv

theorem addLink (h : Inv s) (code' : Code) (hlock : s.lock = none)
    (hrunning : s.running w = some (ctx, code)) (hcode : code ≠ .firing)
    (hcall : s.calls (.worker w) = none) (hm : s.Owned ctx.id m) (hunfired : ¬ s.Fired m)
    (hn : (∃ id, n = .task id ∧ s.history.place id = .stored) ∨ s.Owned ctx.id n ∧ ¬ s.Fired n)
    (hlocal : ((s.addLinkUnsafe m n).setCode w ctx code').Local ctx none code')
    (hchain : ∀ rest cDependent next, code' ≠ .chain rest cDependent next)
    : Inv ((s.addLinkUnsafe m n).setCode w ctx code') where
  placed := by
    obtain ⟨graph, links, heq⟩ := addLinkUnsafe_eq s m n
    rw [heq]
    refine Placed.setCode ?_ (by exact hrunning) _
    apply h.placed.frame
  ordered := h.ordered_addLink hlock hm hunfired hn
  records := h.records_addLink code' hlock hrunning hchain
  threads := h.threads_addLink code' hlock hrunning hcall hm hn hlocal
  locked := h.locked_addLink code' hrunning hcode

/--
The consequences of a link for the plan that it belongs to.
-/
theorem building_addLink (h : Inv s) {locals : PlanLocals} {rest : List (Nat × Bool)} {k : Nat} (k' : Nat)
    (code' : Code) (hlock : s.lock = none) (hb : s.Building ctx locals rest k)
    (henter : n ≠ locals.cEnter) (hexit : n = locals.cExit → ∃ i < k', m = locals.cOperators i)
    (hops : ∀ i < k, n ≠ locals.cOperators i) (hk : k ≤ k')
    (hnew : ∀ i, k ≤ i → i < k' → ∃ a, s.OperatorLinked ctx locals i a ∧
      s.history.place a.task.id = .stored ∧ a.task.continuation = m ∧ n = locals.cExit)
    : ((s.addLinkUnsafe m n).setCode w ctx code').Building ctx locals rest k' := by
  obtain ⟨graph, links, heq⟩ := addLinkUnsafe_eq s m n
  have hlinked : ∀ a b, ((s.addLinkUnsafe m n).setCode w ctx code').Linked a b ↔
      s.Linked a b ∨ (a = m ∧ b = n) := h.linked_addLinkUnsafe hlock
  apply hb.of_links k'
  . exact fun a b hab => (hlinked a b).mpr (.inl hab)
  . rw [heq]
    exact fun _ ha => ha
  . rw [heq]
    rfl
  . rw [heq]
    rfl
  . rw [heq]
    rfl
  . rw [heq]
    exact fun _ hid => hid
  . intro a b hab
    rcases (hlinked a b).mp hab with hab | ⟨rfl, rfl⟩
    . exact .inl hab
    . exact .inr ⟨henter, hexit, hops⟩
  . rw [heq]
    exact hb.only_operators
  . exact hk
  . intro i hki hik
    obtain ⟨a, ha, hstored, rfl, rfl⟩ := hnew i hki hik
    refine ⟨a, ⟨?_, ha.origin, ha.taskId, ha.cOperator, ha.dependency, ?_, ?_, ?_⟩, ?_, ?_⟩
    . rw [heq]
      exact ha.added
    . rw [heq]
      exact ha.owned
    . rw [heq]
      exact ha.unfired
    . intro b hb'
      rcases (hlinked b _).mp hb' with hb' | ⟨-, hexit'⟩
      . exact ha.only b hb'
      . have hlink := h.recorded.continuation a ha.added ha.owned.ne_invalid
        rw [hexit'] at hlink
        exact absurd hlink (hb.exit_unlinked a.task.id)
    . rw [heq]
      exact hstored
    . exact (hlinked _ _).mpr (.inr ⟨rfl, rfl⟩)

theorem planLinkExit (h : Inv s) {locals : PlanLocals} {rest : List (Nat × Bool)} {opCont : NodeID}
    (hlock : s.lock = none) (hrunning : s.running w = some (ctx, .planLinkExit locals rest opCont))
    (hcall : s.calls (.worker w) = none)
    : Inv ((s.addLinkUnsafe opCont locals.cExit).setCode w ctx (.planOperators locals rest)) := by
  have hlocal := h.threads.code w ctx _ hrunning
  rw [hcall] at hlocal
  obtain ⟨hpos, hb, a, ha, hstored, rfl⟩ := hlocal
  apply h.addLink _ hlock hrunning (by simp) hcall ha.owned ha.unfired (.inr ⟨hb.exit, hb.exit_unfired⟩)
  . refine ⟨rfl, h.building_addLink _ _ hlock hb ?_ ?_ ?_ (Nat.sub_le _ _) ?_⟩
    . exact hb.enter_ne_exit.symm
    . intro _
      exact ⟨locals.position - 1, Nat.sub_lt hpos Nat.one_pos, ha.cOperator.symm⟩
    . intro i hi heq
      obtain ⟨b, hb', -, -⟩ := hb.operators i hi
      have hlink := h.recorded.continuation b hb'.added hb'.owned.ne_invalid
      rw [← hb'.cOperator, ← heq] at hlink
      exact hb.exit_unlinked _ hlink
    . intro i hki hik
      have : i = locals.position - 1 := by omega
      subst this
      exact ⟨a, ha, hstored, rfl, rfl⟩
  . simp

theorem planLinks (h : Inv s) {locals : PlanLocals} {producer consumer : Nat} {rest : List (Nat × Nat)}
    (hlock : s.lock = none)
    (hrunning : s.running w = some (ctx, .planLinks locals ((producer, consumer) :: rest)))
    (hcall : s.calls (.worker w) = none)
    : Inv ((s.addLinkUnsafe (locals.cOperators producer) (locals.taskIds consumer)).setCode
        w ctx (.planLinks locals rest)) := by
  obtain ⟨-, hb, done, hdone, hlinks⟩ := h.threads.code w ctx _ hrunning
  obtain ⟨operators, htask, -, hrest, hposition, hrange⟩ := hb.task
  have hlength : operators.length ≤ locals.position := by
    simpa [List.drop_eq_nil_iff] using hrest.symm
  have hmem : (producer, consumer) ∈ locals.dependents := by simp [hdone]
  obtain ⟨hproducer, hconsumer⟩ := hrange _ hmem
  obtain ⟨a, ha, -, -⟩ := hb.operators producer (hproducer.trans_le hlength)
  obtain ⟨b, hb', hstored, -⟩ := hb.operators consumer (hconsumer.trans_le hlength)
  rw [ha.cOperator, hb'.taskId]
  apply h.addLink _ hlock hrunning (by simp) hcall ha.owned ha.unfired (.inl ⟨_, rfl, hstored⟩)
  . refine ⟨rfl, h.building_addLink _ _ hlock hb ?_ ?_ ?_ le_rfl ?_, done ++ [(producer, consumer)], ?_, ?_⟩
    . intro heq
      obtain ⟨n, hn, -⟩ := hb.enter.owned
      rw [hn] at heq
      cases heq
    . intro heq
      obtain ⟨n, hn, -⟩ := hb.exit
      rw [hn] at heq
      cases heq
    . intro i hi heq
      obtain ⟨c, hc, -, -⟩ := hb.operators i hi
      obtain ⟨n, hn, -⟩ := hc.owned
      rw [hc.cOperator, hn] at heq
      cases heq
    . intro i hki hik
      omega
    . rw [hdone, List.append_assoc]
      rfl
    . intro link hlink
      apply (h.linked_addLinkUnsafe hlock _ _).mpr
      rcases List.mem_append.mp hlink with hlink | hlink
      . exact .inl (hlinks link hlink)
      . rw [List.mem_singleton.mp hlink]
        exact .inr ⟨ha.cOperator, hb'.taskId⟩
  . simp

end

end Inv

end Hustle.Scheduler
