import Hustle.Scheduler.Linking

/-!
This module shows that processing dependents keeps the invariant and that none of its assertions fails,
so every step that is allowed keeps the invariant.
-/

namespace Hustle.Scheduler

open State

variable {s s' : State}

/--
What a step may do that processes dependents: it fires nodes and takes tasks out of `tasks_`, in both
cases after everything that they were made to wait for.
-/
structure Processes (s s' : State) : Prop where
  links : s'.history.links = s.history.links
  added : s'.history.added = s.history.added
  owner : s'.history.owner = s.history.owner
  counter : s'.continuationCounter = s.continuationCounter
  named : s'.named = s.named
  started : s'.history.started = s.history.started
  calls : s'.calls = s.calls
  phase : ∀ id, (s.history.place id).phase ≠ .fresh ∧ (s.history.place id).phase ≠ .linking →
    (s'.history.place id).phase ≠ .fresh ∧ (s'.history.place id).phase ≠ .linking
  allocated : ∀ id, (s.history.place id).phase ≠ .fresh → (s'.history.place id).phase ≠ .fresh
  stored : ∀ id, s.history.place id = .stored →
    s'.history.place id = .stored ∨ ∀ m, s.Linked m (.task id) → s.Fired m

namespace Processes

theorem toExtends (h : Processes s s') (p : Nat)
    (hfires : ∀ c, s.Owned p c → s'.Fired c → s.Fired c ∨
      (∃ m, s.Linked m c) ∧ ∀ m, s.Linked m c → s.Fired m)
    : Extends s s' p where
  linked := by
    intro m n hmn
    rw [Linked, h.links]
    exact hmn
  added := by
    rw [h.added]
    exact fun _ ha => ha
  counter := h.counter.ge
  owner := by
    intro n _
    rw [h.owner]
  named := by
    rw [h.named]
    exact fun _ hc => hc
  allocated := h.allocated
  stored := h.stored
  into := by
    intro m c _ hmc
    rw [Linked, h.links] at hmc
    exact .inl hmc
  out := by
    intro c m _ hcm
    rwa [Linked, h.links] at hcm
  fires := hfires
  operators := by
    rw [h.added]
    exact fun _ ha _ _ => ha

end Processes

theorem unfired_of_store {ctx task : ScheduledTask} {dependency : NodeID} {code : Code}
    (h : s.Local ctx (some (.store task dependency)) code)
    : (∃ d, dependency = .task d) ∨ ¬ s.Fired dependency := by
  cases code with
  | lambda => exact .inl h
  | wait => exact .inl h
  | chain =>
    obtain ⟨rfl, hnext, htarget⟩ := h
    rcases htarget with ⟨hnone, -⟩ | ⟨-, -, hreserved, -⟩
    . exact absurd hnone hnext
    . exact .inr hreserved.unfired
  | planLinkExit =>
    obtain ⟨-, hb, rfl, -⟩ := h
    exact .inr hb.enter.unfired
  | planFire =>
    obtain ⟨locals, -, hb, -, rfl, -⟩ := h
    exact .inr hb.exit_unfired
  | release => cases h
  | firing => cases h
  | finished => cases h
  | plan => cases h.1
  | planOperators => cases h.1
  | planLinks => cases h.1

/--
The graph when a node begins to be processed.
-/
def State.begun (s : State) (n : NodeID) : Countdown.Graph NodeID :=
  if (s.graph.nodes n).isSome then s.graph.push n (s.graph.get n) else s.graph

namespace Inv

theorem of_processes (h : Inv s) (hstep : Processes s s') (hplaced : Placed s')
    (hordered : s'.ledger.Ordered)
    (hrunning : ∀ w ctx code, s'.running w = some (ctx, code) →
      (s.running w = some (ctx, code) ∧ Extends s s' ctx.id) ∨
      code = .firing ∧ s.calls (.worker w) = none ∧ ctx ∈ s.history.started)
    (hidle : ∀ w, s.running w ≠ none → s'.running w ≠ none)
    (hhas : ∀ task, s'.Has task → s.Has task)
    (hfired : ∀ d, s'.Fired (.task d) → s.Fired (.task d) ∨
      ∀ thread task, s.calls thread ≠ some (.store task (.task d)))
    (hlocked : Locked s')
    : Inv s' := by
  have hlocal : ∀ w ctx code, s'.running w = some (ctx, code) →
      s'.Local ctx (s'.calls (.worker w)) code := by
    intro w ctx code hr
    rw [hstep.calls]
    rcases hrunning w ctx code hr with ⟨hr, hext⟩ | ⟨rfl, hcall, -⟩
    . apply hext.localCode h.recorded (h.threads.code w ctx code hr)
      intro task dependency hcall
      have : s.history.place task.id = .storing (.worker w) :=
        (h.placed.located _ _).mp ⟨task, dependency, hcall, rfl⟩
      rw [this]
      rfl
    . exact hcall
  have hclient : ∀ k, s'.ClientCall (s'.calls (.client k)) := by
    intro k
    rw [hstep.calls]
    apply ClientCall.of (h.threads.client k) hstep.allocated
    rw [hstep.named]
    exact fun _ hc => hc
  have hlinked : ∀ m n, s'.Linked m n ↔ s.Linked m n := by
    intro m n
    rw [Linked, hstep.links]
    rfl
  refine ⟨hplaced, hordered, ?_, ⟨hclient, hlocal, ?_, ?_⟩, hlocked⟩
  . refine h.records.of hstep.added (fun m n hmn => (hlinked m n).mpr hmn) hstep.phase hhas ?_ ?_ ?_ ?_
      hstep.counter.ge ?_ ?_ ?_
    . rw [hstep.started]
      exact fun _ ht => .inl ht
    . intro w ctx code hr
      rcases hrunning w ctx code hr with ⟨hr, -⟩ | ⟨-, -, ht⟩
      . exact .inl ⟨code, hr⟩
      . rw [hstep.started]
        exact .inr ht
    . rw [hstep.started]
      exact fun _ ht => ht
    . rw [hstep.named]
      exact fun _ hc => .inl hc
    . rw [hstep.owner]
      exact fun _ _ => rfl
    . rw [hstep.calls]
      exact h.records.call_valid
    . intro w ctx rest cDependent next hr
      rcases hrunning w ctx _ hr with ⟨hr, -⟩ | ⟨hcode, -, -⟩
      . exact h.records.chain_valid w ctx rest cDependent next hr
      . cases hcode
  . intro thread task dependency hcall
    have hcall' := hcall
    rw [hstep.calls] at hcall'
    obtain ⟨hlink, honly, hunfired⟩ := h.threads.store thread task dependency hcall'
    refine ⟨(hlinked _ _).mpr hlink, fun m hm => honly m ((hlinked _ _).mp hm), ?_⟩
    have hcases : (∃ d, dependency = .task d) ∨ ¬ s'.Fired dependency := by
      cases thread with
      | client k =>
        have := hclient k
        rw [hcall] at this
        exact .inl this
      | worker w =>
        have hne := hidle w (h.threads.idle w (by simp [hcall']))
        obtain ⟨⟨ctx, code⟩, hr⟩ := Option.ne_none_iff_exists'.mp hne
        have := hlocal w ctx code hr
        rw [hcall] at this
        exact unfired_of_store this
    rcases hcases with ⟨d, rfl⟩ | hne
    . intro hf
      rcases hfired d hf with hf | hnone
      . exact hunfired hf
      . exact hnone thread task hcall'
    . exact hne
  . intro w hc
    rw [hstep.calls] at hc
    exact hidle w (h.threads.idle w hc)

theorem popFrame (h : Inv s) {m : NodeID} {frames : List (NodeID × Finset NodeID)}
    (hlock : s.lock ≠ none) (hframes : s.graph.frames = (m, ∅) :: frames)
    : Inv { s with graph := s.graph.pop m frames } := by
  have hstep : Processes s { s with graph := s.graph.pop m frames } :=
    ⟨rfl, rfl, rfl, rfl, rfl, rfl, rfl, fun _ h => h, fun _ h => h, fun _ h => .inl h⟩
  refine h.of_processes hstep ?_ (h.ordered.pop hframes) ?_ (fun _ h => h) (fun _ h => h)
    (fun _ h => .inl h) ?_
  . apply h.placed.frame
  . intro w ctx code hr
    exact .inl ⟨hr, hstep.toExtends ctx.id fun _ _ hc => .inl hc⟩
  . exact ⟨h.locked.fault, fun hl => absurd hl hlock, h.locked.scheduler, h.locked.worker⟩

/-! The dependents of a node are visited. -/

section

variable {m dependent : NodeID} {rest : Finset NodeID} {frames : List (NodeID × Finset NodeID)}

theorem fired_of_count (h : Inv s) {node : Countdown.Node NodeID}
    (hframes : s.graph.frames = (m, rest) :: frames) (hmem : dependent ∈ rest)
    (hnode : s.graph.nodes dependent = some node) (hone : node.dependencyCount = 1) (m' : NodeID)
    (hm' : s.Linked m' dependent)
    : s.Fired m' := by
  rcases h.ordered.linked_edge _ _ hm' with hf | hedge
  . exact hf
  . have hm : s.graph.Edge m dependent := h.ordered.counted.edge_of_frame hframes hmem
    have hcount := h.ordered.counted.count _ node hnode
    change {a | s.graph.Edge a dependent}.encard = _ at hcount
    rw [hone] at hcount
    obtain ⟨x, hx⟩ := Set.encard_eq_one.mp hcount
    have hm'x : m' ∈ {a | s.graph.Edge a dependent} := hedge
    have hmx : m ∈ {a | s.graph.Edge a dependent} := hm
    rw [hx] at hm'x hmx
    rw [Set.mem_singleton_iff.mp hm'x, ← Set.mem_singleton_iff.mp hmx]
    exact h.ordered.frame_fired m rest (by simp [ledger, hframes])

theorem stored_of_frame (h : Inv s) {id : Nat} (hframes : s.graph.frames = (m, rest) :: frames)
    (hmem : .task id ∈ rest)
    : ∃ task, s.tasks id = some task := by
  have hedge : s.graph.Edge m (.task id) := h.ordered.counted.edge_of_frame hframes hmem
  have hwaiting : (s.history.place id).phase = .waiting := h.ordered.not_active_of_edge hedge
  have hfired : s.Fired m := h.ordered.frame_fired m rest (by simp [ledger, hframes])
  cases hp : s.history.place id with
  | stored => exact (h.placed.located id .stored).mpr hp
  | storing thread =>
    obtain ⟨task, dependency, hcall, rfl⟩ := (h.placed.located id (.storing thread)).mpr hp
    obtain ⟨-, honly, hunfired⟩ := h.threads.store thread task dependency hcall
    have := honly m (h.ordered.edge_linked _ _ hedge)
    exact absurd (this ▸ hfired) hunfired
  | _ =>
    rw [hp] at hwaiting
    cases hwaiting

theorem visit_waiting (h : Inv s) {node : Countdown.Node NodeID}
    (hframes : s.graph.frames = (m, rest) :: frames) (hmem : dependent ∈ rest)
    (hlock : s.lock ≠ none) (hnode : s.graph.nodes dependent = some node)
    (hone : node.dependencyCount ≠ 1)
    : Inv { s with graph := s.graph.visit m dependent rest frames node } := by
  have hstep : Processes s { s with graph := s.graph.visit m dependent rest frames node } :=
    ⟨rfl, rfl, rfl, rfl, rfl, rfl, rfl, fun _ h => h, fun _ h => h, fun _ h => .inl h⟩
  refine h.of_processes hstep ?_ ?_ ?_ (fun _ h => h) (fun _ h => h) (fun _ h => .inl h) ?_
  . apply h.placed.frame
  . apply h.ordered.visit hframes hmem hnode
    . exact fun _ _ => rfl
    . intro id _
      rw [if_neg hone]
      rfl
    . exact fun _ _ => hone
  . intro w ctx code hr
    exact .inl ⟨hr, hstep.toExtends ctx.id fun _ _ hc => .inl hc⟩
  . exact ⟨h.locked.fault, fun hl => absurd hl hlock, h.locked.scheduler, h.locked.worker⟩

/--
A task that waits for nothing else is taken out of `tasks_`.
-/
theorem visit_task (h : Inv s) {node : Countdown.Node NodeID} {id : Nat} {task : ScheduledTask}
    (hframes : s.graph.frames = (m, rest) :: frames) (hmem : .task id ∈ rest) (hlock : s.lock ≠ none)
    (hemit : s.emit = none) (hnode : s.graph.nodes (.task id) = some node)
    (hone : node.dependencyCount = 1) (htask : s.tasks id = some task)
    : Inv ({ s with
        graph := s.graph.visit m (.task id) rest frames node
        tasks := Function.update s.tasks id none
        emit := some (.enqueue task) }.setPlace id (.ready none)) := by
  let s' := { s with
    graph := s.graph.visit m (.task id) rest frames node
    tasks := Function.update s.tasks id none
    emit := some (.enqueue task) }.setPlace id (.ready none)
  have hp : s.history.place id = .stored := (h.placed.located _ _).mp ⟨task, htask⟩
  have hphase : ∀ i, (s'.history.place i).phase = Function.update s.ledger.phase id .active i := by
    intro i
    exact congrFun (phase_setPlace s.history.place id (.ready none)) i
  have hstep : Processes s s' := by
    refine ⟨rfl, rfl, rfl, rfl, rfl, rfl, rfl, ?_, ?_, ?_⟩
    . intro i hi
      rw [hphase, Function.update_apply]
      split
      . simp
      . exact hi
    . intro i hi
      rw [hphase, Function.update_apply]
      split
      . simp
      . exact hi
    . intro i hi
      by_cases hid : i = id
      . subst hid
        exact .inr (h.fired_of_count hframes hmem hnode hone)
      . left
        exact (Function.update_of_ne hid _ _).trans hi
  have hordered : s'.ledger.Ordered := by
    have heq : s'.ledger = { s.ledger with
        graph := s.graph.visit m (.task id) rest frames node
        phase := Function.update s.ledger.phase id .active } := by
      simp only [ledger, hphase]
      rfl
    rw [heq]
    apply h.ordered.visit hframes hmem hnode
    . intro i hi
      exact Function.update_of_ne (by simpa using hi) _ _
    . rintro i ⟨⟩
      rw [if_pos hone, Function.update_self]
    . simp
  refine h.of_processes hstep (h.placed.release htask hemit _) hordered ?_ (fun _ h => h) ?_
    (fun _ h => .inl h) ?_
  . intro w ctx code hr
    exact .inl ⟨hr, hstep.toExtends ctx.id fun _ _ hc => .inl hc⟩
  . intro t ht
    simp only [Has, setPlace, Function.update_apply] at ht ⊢
    grind
  . exact ⟨h.locked.fault, fun hl => absurd hl hlock, h.locked.scheduler, h.locked.worker⟩

theorem visit_continuation (h : Inv s) {node : Countdown.Node NodeID} {c : Nat}
    (hframes : s.graph.frames = (m, rest) :: frames) (hmem : .continuation c ∈ rest)
    (hlock : s.lock ≠ none) (hnode : s.graph.nodes (.continuation c) = some node)
    (hone : node.dependencyCount = 1)
    : Inv ({ s with
        graph := (s.graph.visit m (.continuation c) rest frames node).push (.continuation c) node
          }.recordFired (.continuation c)) := by
  let s' := { s with
    graph := (s.graph.visit m (.continuation c) rest frames node).push (.continuation c) node
      }.recordFired (.continuation c)
  have hstep : Processes s s' :=
    ⟨rfl, rfl, rfl, rfl, rfl, rfl, rfl, fun _ h => h, fun _ h => h, fun _ h => .inl h⟩
  refine h.of_processes hstep ?_ ?_ ?_ (fun _ h => h) (fun _ h => h) ?_ ?_
  . apply h.placed.frame
  . exact h.ordered.visit_continuation hframes hmem hnode hone
  . intro w ctx code hr
    refine .inl ⟨hr, hstep.toExtends ctx.id ?_⟩
    intro d _ hd
    rcases List.mem_cons.mp hd with rfl | hd
    . right
      refine ⟨⟨m, ?_⟩, h.fired_of_count hframes hmem hnode hone⟩
      exact h.ordered.edge_linked _ _ (h.ordered.counted.edge_of_frame hframes hmem)
    . exact .inl hd
  . intro d hd
    rcases List.mem_cons.mp hd with heq | hd
    . cases heq
    . exact .inl hd
  . exact ⟨h.locked.fault, fun hl => absurd hl hlock, h.locked.scheduler, h.locked.worker⟩

theorem visit (h : Inv s) (hemit : s.emit = none) (hframes : s.graph.frames = (m, rest) :: frames)
    (hmem : dependent ∈ rest) (hlock : s.lock ≠ none)
    : Inv (s.visitDependent m rest frames dependent) := by
  have hedge : s.graph.Edge m dependent := h.ordered.counted.edge_of_frame hframes hmem
  obtain ⟨node, hnode⟩ := h.ordered.counted.target _ _ hedge
  replace hnode : s.graph.nodes dependent = some node := hnode
  have hpos : 0 < node.dependencyCount := h.ordered.counted.dependencyCount_pos hnode hedge
  simp only [visitDependent, hnode, if_neg hpos.ne']
  split
  . next hone =>
    cases dependent with
    | task id =>
      obtain ⟨task, htask⟩ := h.stored_of_frame hframes hmem
      simp only [releaseTaskByID, htask]
      exact h.visit_task hframes hmem hlock hemit hnode hone htask
    | continuation c => exact h.visit_continuation hframes hmem hlock hnode hone
  . next hone => exact h.visit_waiting hframes hmem hlock hnode hone

end

/-! A node begins to be processed. -/

theorem processDependents_of_not_edge {n : NodeID} (holder : Holder) (hcounted : s.graph.Counted)
    (hnone : ∀ a, ¬ s.graph.Edge a n)
    : s.processDependents holder n
        =
      { s with lock := some holder, graph := s.begun n }.recordFired n := by
  rw [processDependents]
  split
  . next hn => simp [begun, hn]
  . next node hn =>
    rw [if_pos ((hcounted.dependencyCount_eq_zero_iff hn).mpr hnone)]
    simp [begun, hn, Countdown.Graph.get_of_nodes hn]

section

variable {id w : Nat}

theorem ordered_complete (h : Inv s) (hlock : s.lock = none) (hactive : s.ledger.phase id = .active)
    : Ledger.Ordered { s.ledger with
        graph := s.begun (.task id)
        fired := .task id :: s.history.fired
        phase := Function.update s.ledger.phase id .fired } := by
  apply h.ordered.begin (h.locked.free hlock).1 (fun a => h.ordered.task_edge a id (.inl hactive))
  . exact fun k hk => Countdown.Graph.get_of_nodes hk
  . intro i hi
    exact Function.update_of_ne (by simpa using hi) _ _
  . rintro i ⟨⟩
    exact ⟨hactive, Function.update_self ..⟩
  . simp

theorem complete (h : Inv s) (hloop : s.loop = .complete id w) (hlock : s.lock = none)
    (hallowed : Allowed s .schedule)
    : Inv (({ s with loop := .processDependents id w }.processDependents
        .scheduler (.task id)).setPlace id (.processing w)) := by
  have hp : s.history.place id = .completed w := (h.placed.located _ _).mp (.inr hloop)
  have hactive : s.ledger.phase id = .active := by
    simp [ledger, hp, Place.phase]
  have hplaced := h.placed.step (.complete hloop hlock)
  rw [processDependents_of_not_edge (s := { s with loop := .processDependents id w }) .scheduler
    h.ordered.counted (fun a => h.ordered.task_edge a id (.inl hactive))] at hplaced ⊢
  generalize hs' : ({ s with
    loop := .processDependents id w
    lock := some .scheduler
    graph := s.begun (.task id) }.recordFired (.task id)).setPlace id (.processing w) = s'
  have hs : ({ { s with loop := .processDependents id w } with
    lock := some .scheduler
    graph := { s with loop := .processDependents id w }.begun (.task id) }.recordFired
      (.task id)).setPlace id (.processing w) = s' := hs'
  rw [hs] at hplaced ⊢
  clear hs
  have hphase : (fun i => (s'.history.place i).phase) = Function.update s.ledger.phase id .fired := by
    rw [← hs']
    exact phase_setPlace s.history.place id (.processing w)
  have hphase' : ∀ i, (s'.history.place i).phase = Function.update s.ledger.phase id .fired i :=
    congrFun hphase
  have hstep : Processes s s' := by
    refine ⟨?_, ?_, ?_, ?_, ?_, ?_, ?_, ?_, ?_, ?_⟩
    iterate 7
      rw [← hs']
      rfl
    . intro i hi
      rw [hphase', Function.update_apply]
      split
      . simp
      . exact hi
    . intro i hi
      rw [hphase', Function.update_apply]
      split
      . simp
      . exact hi
    . intro i hi
      left
      have hne : s.history.place id ≠ .stored := by simp [hp]
      rw [← hs']
      exact stored_update hne i hi
  have hfired : s'.history.fired = .task id :: s.history.fired := by
    rw [← hs']
    rfl
  refine h.of_processes hstep hplaced ?_ ?_ ?_ ?_ ?_ ?_
  . have hledger := h.ordered_complete hlock hactive
    rw [← hphase] at hledger
    rw [← hs'] at hledger ⊢
    exact hledger
  . intro v ctx code hr
    refine .inl ⟨?_, hstep.toExtends ctx.id ?_⟩
    . rwa [← hs'] at hr
    . rintro c ⟨n, rfl, -⟩ hc
      rw [Fired, hfired] at hc
      rcases List.mem_cons.mp hc with heq | hc
      . cases heq
      . exact .inl hc
  . rw [← hs']
    exact fun _ hv => hv
  . rw [← hs']
    exact fun _ ht => ht
  . intro d hd
    rw [Fired, hfired] at hd
    rcases List.mem_cons.mp hd with heq | hd
    . cases heq
      exact .inr (hallowed id w hloop)
    . exact .inl hd
  . rw [← hs']
    refine ⟨h.locked.fault, ?_, ?_, ?_⟩
    . simp [setPlace, recordFired]
    . exact fun _ => ⟨id, w, rfl⟩
    . simp [setPlace, recordFired]

/--
The entry of a plan is fired. Nothing is linked to it, so the operators are all that it releases.
-/
theorem planFire (h : Inv s) {ctx : ScheduledTask} {cEnter : NodeID}
    (hrunning : s.running w = some (ctx, .planFire cEnter)) (hcall : s.calls (.worker w) = none)
    (hlock : s.lock = none)
    : Inv ((s.setCode w ctx .firing).processDependents (.worker w) cEnter) := by
  obtain ⟨locals, rfl, hb, -, -⟩ := h.threads.code w ctx _ hrunning
  obtain ⟨n, hn, hlt, -⟩ := hb.enter.owned
  have hnone : ∀ a, ¬ s.graph.Edge a locals.cEnter := by
    intro a ha
    exact hb.enter.unlisted a (h.ordered.edge_linked _ _ ha)
  have hplaced := h.placed.step (.code (a := .code w) hrunning hcall (.planFire hlock))
  rw [processDependents_of_not_edge (s := s.setCode w ctx .firing) (.worker w) h.ordered.counted
    hnone] at hplaced ⊢
  generalize hs' : { s.setCode w ctx .firing with
    lock := some (.worker w)
    graph := s.begun locals.cEnter }.recordFired locals.cEnter = s'
  have hs : { s.setCode w ctx .firing with
    lock := some (.worker w)
    graph := (s.setCode w ctx .firing).begun locals.cEnter }.recordFired locals.cEnter = s' := hs'
  rw [hs] at hplaced ⊢
  clear hs
  have hstep : Processes s s' := by
    rw [← hs']
    exact ⟨rfl, rfl, rfl, rfl, rfl, rfl, rfl, fun _ h => h, fun _ h => h, fun _ h => .inl h⟩
  have hfired : s'.history.fired = locals.cEnter :: s.history.fired := by
    rw [← hs']
    rfl
  have hrun : s'.running w = some (ctx, .firing) := by
    rw [← hs']
    exact Function.update_self ..
  have hruns : ∀ v, v ≠ w → s'.running v = s.running v := by
    intro v hv
    rw [← hs']
    exact Function.update_of_ne hv _ _
  refine h.of_processes hstep hplaced ?_ ?_ ?_ ?_ ?_ ?_
  . have hledger : Ledger.Ordered { s.ledger with
        graph := s.begun locals.cEnter, fired := locals.cEnter :: s.history.fired } := by
      apply h.ordered.begin (h.locked.free hlock).1 hnone
      . exact fun k hk => Countdown.Graph.get_of_nodes hk
      . exact fun _ _ => rfl
      . intro i hi
        rw [hn] at hi
        cases hi
      . intro c hc
        rw [hn] at hc
        cases hc
        exact hlt
    rw [← hs']
    exact hledger
  . intro v ctx' code hr
    by_cases hv : v = w
    . subst hv
      cases hrun.symm.trans hr
      exact .inr ⟨rfl, hcall, h.records.running v ctx _ hrunning⟩
    . rw [hruns v hv] at hr
      refine .inl ⟨hr, hstep.toExtends ctx'.id ?_⟩
      intro c hc hf
      rw [Fired, hfired] at hf
      rcases List.mem_cons.mp hf with rfl | hf
      . exact absurd (h.running_inj hr hrunning (hc.inj hb.enter.owned)) hv
      . exact .inl hf
  . intro v hv
    by_cases hvw : v = w
    . subst hvw
      simp [hrun]
    . rwa [hruns v hvw]
  . intro t ht
    rw [← hs'] at ht
    simp only [Has, recordFired, State.setCode, Function.update_apply] at ht ⊢
    grind
  . intro d hd
    rw [Fired, hfired] at hd
    rcases List.mem_cons.mp hd with heq | hd
    . rw [hn] at heq
      cases heq
    . exact .inl hd
  . refine ⟨?_, ?_, ?_, ?_⟩
    . rw [← hs']
      exact h.locked.fault
    . rw [← hs']
      simp [recordFired]
    . rw [← hs']
      simp [recordFired]
    . intro v hl
      have : v = w := by
        rw [← hs'] at hl
        simpa [recordFired] using hl.symm
      subst this
      exact ⟨ctx, hrun⟩

end

theorem code {w : Nat} {ctx : ScheduledTask} {code : Code} (h : Inv s)
    (hrunning : s.running w = some (ctx, code)) (hcall : s.calls (.worker w) = none)
    (hstep : CodeStep s w ctx code s')
    : Inv s' := by
  cases hstep with
  | wait => exact h.wait hrunning hcall
  | release => exact h.release hrunning hcall
  | plan => exact h.plan hrunning hcall
  | planOperators => exact h.planOperators_nil hrunning hcall
  | planLinkExit hlock => exact h.planLinkExit hlock hrunning hcall
  | planLinks hlock => exact h.planLinks hlock hrunning hcall
  | planFire hlock => exact h.planFire hrunning hcall hlock

theorem step {a : Action} (h : Inv s) (hallowed : Allowed s a) (hstep : Step s a s') : Inv s' := by
  cases hstep with
  | quiet hquiet => exact h.quiet hquiet
  | dispatch _ hworkers hqueue => exact h.dispatch hworkers hqueue
  | popCompletion hloop hmessages => exact h.popCompletion hloop hmessages
  | complete hloop hlock => exact h.complete hloop hlock hallowed
  | emitEnqueue hemit => exact h.emitEnqueue hemit
  | popFrame _ hframes hlock => exact h.popFrame hlock hframes
  | visit hemit hframes hmem hlock => exact h.visit hemit hframes hmem hlock
  | unlockScheduler hframes hemit _ hloop => exact h.unlockScheduler hframes hemit hloop
  | unlockWorker hframes hemit _ hrunning => exact h.unlockWorker hframes hemit hrunning
  | clientAdd hcall => exact h.addTask_client hcall hallowed (.inl ⟨rfl, rfl, rfl⟩)
  | clientAddAfter hcall hzero hd hnamed =>
    exact h.addTask_client hcall hallowed
      (.inr ⟨_, _, rfl, rfl, hzero, h.allocated_of_lt hzero hd, hnamed⟩)
  | callLink hlock hcall => exact h.callLink hcall hlock hallowed
  | callEnqueue hcall => exact h.callEnqueue hcall
  | callStore hcall => exact h.callStore hcall
  | start hrunning hinbox => exact h.start hrunning hinbox
  | finish hrunning hcode hcall => exact h.finish hrunning hcode hcall
  | code hrunning hcall hcode => exact h.code hrunning hcall hcode
  | call hrunning hcall hcode => exact h.call hallowed hrunning hcall hcode

end Inv

end Hustle.Scheduler
