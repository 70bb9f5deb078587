import Hustle.Scheduler.Basic

/-!
This module contains what the order of tasks rests on: the nodes that still wait for each other, all the
links that were ever made, and the nodes that have been processed. A node is processed only after every
node that it was made to wait for.
-/

namespace Hustle.Scheduler

/--
How far a task is, as far as its node is concerned.
-/
inductive Phase where
  | fresh
  | linking
  | waiting
  | active
  | fired
  deriving DecidableEq

structure Ledger where
  graph : Countdown.Graph NodeID
  links : List (NodeID × NodeID)
  fired : List NodeID
  phase : Nat → Phase
  /-- The tasks whose continuation may have been processed before they were linked to it. -/
  late : Nat → Prop
  counter : Nat

namespace Ledger

def Linked (l : Ledger) (m n : NodeID) : Prop :=
  (m, n) ∈ l.links

def Fired (l : Ledger) (n : NodeID) : Prop :=
  n ∈ l.fired

/--
The node may list dependents.
-/
def Allocated (l : Ledger) : NodeID → Prop
  | .task id => l.phase id ≠ .fresh
  | .continuation c => c < l.counter

structure Ordered (l : Ledger) : Prop where
  counted : l.graph.Counted
  edge_linked : ∀ m n, l.graph.Edge m n → l.Linked m n
  linked_edge : ∀ m n, l.Linked m n → l.Fired m ∨ l.graph.Edge m n
  frame_fired : ∀ m rest, (m, rest) ∈ l.graph.frames → l.Fired m
  fired_edge : ∀ m n, l.Fired m → l.graph.Edge m n → ∃ rest, (m, rest) ∈ l.graph.frames
  task_edge : ∀ m id, l.phase id = .active ∨ l.phase id = .fired → ¬ l.graph.Edge m (.task id)
  continuation_edge : ∀ m c, l.Fired (.continuation c) → l.graph.Edge m (.continuation c) →
    ∃ x, m = .task x ∧ l.late x
  continuation_unfired : ∀ m c, l.Linked m (.continuation c) →
    l.Fired (.continuation c) ∨ ∃ m', l.graph.Edge m' (.continuation c)
  waiting_edge : ∀ id, l.phase id = .waiting → ∃ m, l.graph.Edge m (.task id)
  linked_task : ∀ m id, l.Linked m (.task id) → l.phase id ≠ .fresh ∧ l.phase id ≠ .linking
  linked_continuation : ∀ m c, l.Linked m (.continuation c) → c < l.counter
  source : ∀ m n, l.Linked m n → l.Allocated m
  source_linking : ∀ id c, l.Linked (.task id) (.continuation c) → l.phase id ≠ .linking
  fired_task : ∀ id, l.Fired (.task id) ↔ l.phase id = .fired
  fired_allocated : ∀ n, l.Fired n → l.Allocated n

def setPhase (l : Ledger) (id : Nat) (phase : Phase) : Ledger :=
  { l with phase := Function.update l.phase id phase }

def link (l : Ledger) (m n : NodeID) : Ledger :=
  { l with graph := l.graph.link m n, links := (m, n) :: l.links }

namespace Ordered

variable {l : Ledger} {id c : Nat} {m n : NodeID}

theorem fired_of_task (h : Ordered l) (hid : l.phase id = .active ∨ l.phase id = .fired)
    (hlink : l.Linked m (.task id))
    : l.Fired m := by
  rcases h.linked_edge _ _ hlink with hfired | hedge
  . exact hfired
  . exact absurd hedge (h.task_edge m id hid)

theorem fired_of_continuation (h : Ordered l) (hc : l.Fired (.continuation c))
    (hlate : ∀ x, m = .task x → ¬ l.late x) (hlink : l.Linked m (.continuation c))
    : l.Fired m := by
  rcases h.linked_edge _ _ hlink with hfired | hedge
  . exact hfired
  . obtain ⟨x, hx, hlx⟩ := h.continuation_edge m c hc hedge
    exact absurd hlx (hlate x hx)

theorem not_active_of_edge (h : Ordered l) (hedge : l.graph.Edge m (.task id))
    : l.phase id = .waiting := by
  have hlinked := h.linked_task m id (h.edge_linked _ _ hedge)
  cases hphase : l.phase id with
  | waiting => rfl
  | fresh => exact absurd hphase hlinked.1
  | linking => exact absurd hphase hlinked.2
  | active => exact absurd hedge (h.task_edge m id (.inl hphase))
  | fired => exact absurd hedge (h.task_edge m id (.inr hphase))

theorem mono {late : Nat → Prop} {counter : Nat} (h : Ordered l) (hcounter : l.counter ≤ counter)
    (hlate : ∀ x, l.late x → late x)
    : Ordered { l with late := late, counter := counter } := by
  have hallocated : ∀ n, l.Allocated n → ({ l with late := late, counter := counter } : Ledger).Allocated n := by
    intro n hn
    cases n with
    | task id => exact hn
    | continuation c => exact Nat.lt_of_lt_of_le hn hcounter
  exact {
    counted := h.counted
    edge_linked := h.edge_linked
    linked_edge := h.linked_edge
    frame_fired := h.frame_fired
    fired_edge := h.fired_edge
    task_edge := h.task_edge
    continuation_edge := by
      intro m c hc hedge
      obtain ⟨x, hx, hlx⟩ := h.continuation_edge m c hc hedge
      exact ⟨x, hx, hlate x hlx⟩
    continuation_unfired := h.continuation_unfired
    waiting_edge := h.waiting_edge
    linked_task := h.linked_task
    linked_continuation := fun m c hc => Nat.lt_of_lt_of_le (h.linked_continuation m c hc) hcounter
    source := fun m n hmn => hallocated m (h.source m n hmn)
    source_linking := h.source_linking
    fired_task := h.fired_task
    fired_allocated := fun n hn => hallocated n (h.fired_allocated n hn) }

/--
A task id is allocated, or a task that waits for nothing is ready to run.
-/
theorem advance {q : Phase} (h : Ordered l)
    (hq : l.phase id = .fresh ∧ q = .linking ∨ l.phase id = .linking ∧ q = .active)
    : Ordered (l.setPhase id q) := by
  have hunlinked : ∀ m, ¬ l.Linked m (.task id) := by
    intro m hlink
    have := h.linked_task m id hlink
    rcases hq with ⟨hid, -⟩ | ⟨hid, -⟩
    . exact this.1 hid
    . exact this.2 hid
  have hallocated : ∀ n, l.Allocated n → (l.setPhase id q).Allocated n := by
    intro n hn
    cases n with
    | continuation c => exact hn
    | task i =>
      simp only [Allocated, setPhase, Function.update_apply]
      split
      . rcases hq with ⟨-, rfl⟩ | ⟨-, rfl⟩ <;> simp
      . exact hn
  exact {
    counted := h.counted
    edge_linked := h.edge_linked
    linked_edge := h.linked_edge
    frame_fired := h.frame_fired
    fired_edge := h.fired_edge
    task_edge := by
      intro m i hi hedge
      have : i ≠ id := fun heq => hunlinked m (heq ▸ h.edge_linked _ _ hedge)
      simp only [setPhase, Function.update_of_ne this] at hi
      exact h.task_edge m i hi hedge
    continuation_edge := h.continuation_edge
    continuation_unfired := h.continuation_unfired
    waiting_edge := by
      intro i hi
      simp only [setPhase, Function.update_apply] at hi
      split at hi
      . rcases hq with ⟨-, rfl⟩ | ⟨-, rfl⟩ <;> cases hi
      . exact h.waiting_edge i hi
    linked_task := by
      intro m i hlink
      have : i ≠ id := fun heq => hunlinked m (heq ▸ hlink)
      simpa only [setPhase, Function.update_of_ne this] using h.linked_task m i hlink
    linked_continuation := h.linked_continuation
    source := fun m n hlink => hallocated m (h.source m n hlink)
    source_linking := by
      intro i c hlink
      simp only [setPhase, Function.update_apply]
      split
      . next heq =>
        subst heq
        rcases hq with ⟨hi, -⟩ | ⟨-, rfl⟩
        . exact absurd hi (h.source _ _ hlink)
        . simp
      . exact h.source_linking i c hlink
    fired_task := by
      intro i
      simp only [setPhase, Function.update_apply]
      refine (h.fired_task i).trans ?_
      split
      . next heq =>
        subst heq
        rcases hq with ⟨hi, rfl⟩ | ⟨hi, rfl⟩ <;> simp [hi]
      . rfl
    fired_allocated := fun n hn => hallocated n (h.fired_allocated n hn) }

theorem phase_of_ne_waiting {phase : Nat → Phase} (hphase : ∀ id, .task id ≠ n → phase id = l.phase id)
    (htask : ∀ id, n = .task id → phase id = .waiting ∧ (l.phase id = .active ∨ l.phase id = .waiting))
    (hid : phase id ≠ .waiting)
    : phase id = l.phase id := by
  apply hphase
  intro hn
  exact hid (htask id hn.symm).1

theorem phase_link_iff {phase : Nat → Phase} (hphase : ∀ id, .task id ≠ n → phase id = l.phase id)
    (htask : ∀ id, n = .task id → phase id = .waiting ∧ (l.phase id = .active ∨ l.phase id = .waiting))
    {p : Phase} (hactive : p ≠ .active) (hwaiting : p ≠ .waiting)
    : phase id = p ↔ l.phase id = p := by
  by_cases hid : NodeID.task id = n
  . obtain ⟨hnew, hold⟩ := htask id hid.symm
    rw [hnew]
    rcases hold with hold | hold <;> rw [hold]
    . exact iff_of_false hwaiting.symm hactive.symm
  . rw [hphase id hid]

/--
A new link. It may make a task that was ready wait.
-/
theorem link {phase : Nat → Phase} (h : Ordered l) (hframes : l.graph.frames = [])
    (hedge : ¬ l.graph.Edge m n) (hm : ¬ l.Fired m) (hsource : l.Allocated m)
    (hphase : ∀ id, .task id ≠ n → phase id = l.phase id)
    (htask : ∀ id, n = .task id →
      phase id = .waiting ∧ (l.phase id = .active ∨ l.phase id = .waiting))
    (hcont : ∀ c, n = .continuation c → c < l.counter ∧
      (l.Fired (.continuation c) → ∃ x, m = .task x ∧ l.late x))
    (hlinking : ∀ id c, m = .task id → n = .continuation c → l.phase id ≠ .linking)
    : Ordered { l.link m n with phase := phase } := by
  have hedges : ∀ a b, (l.graph.link m n).Edge a b ↔ l.graph.Edge a b ∨ (a = m ∧ b = n) :=
    Countdown.Graph.edge_link hframes m n
  have hlinked : ∀ a b, ({ l.link m n with phase := phase } : Ledger).Linked a b ↔
      (a = m ∧ b = n) ∨ l.Linked a b := by
    intro a b
    simp [Linked, Ledger.link]
  have hallocated : ∀ a, l.Allocated a → ({ l.link m n with phase := phase } : Ledger).Allocated a := by
    intro a ha
    cases a with
    | continuation c => exact ha
    | task id => exact fun hid => ha ((phase_link_iff hphase htask (by decide) (by decide)).mp hid)
  exact {
    counted := h.counted.link hframes hedge
    edge_linked := by
      intro a b hab
      rw [hlinked]
      rcases (hedges a b).mp hab with hab | hab
      . exact .inr (h.edge_linked a b hab)
      . exact .inl hab
    linked_edge := by
      intro a b hab
      rcases (hlinked a b).mp hab with hab | hab
      . exact .inr ((hedges a b).mpr (.inr hab))
      . rcases h.linked_edge a b hab with hfired | hedge
        . exact .inl hfired
        . exact .inr ((hedges a b).mpr (.inl hedge))
    frame_fired := h.frame_fired
    fired_edge := by
      intro a b ha hab
      rcases (hedges a b).mp hab with hab | ⟨rfl, -⟩
      . exact h.fired_edge a b ha hab
      . exact absurd ha hm
    task_edge := by
      intro a id hid hab
      change phase id = _ ∨ phase id = _ at hid
      have hne : phase id ≠ .waiting := by
        rcases hid with hid | hid <;> simp [hid]
      rcases (hedges a _).mp hab with hab | ⟨-, heq⟩
      . rw [phase_of_ne_waiting hphase htask hne] at hid
        exact h.task_edge a id hid hab
      . exact absurd (htask id heq.symm).1 hne
    continuation_edge := by
      intro a c hc hab
      rcases (hedges a _).mp hab with hab | ⟨rfl, heq⟩
      . exact h.continuation_edge a c hc hab
      . exact (hcont c heq.symm).2 hc
    continuation_unfired := by
      intro a c hac
      rcases (hlinked a _).mp hac with hac | hac
      . exact .inr ⟨a, (hedges a _).mpr (.inr hac)⟩
      . rcases h.continuation_unfired a c hac with hfired | ⟨m', hm'⟩
        . exact .inl hfired
        . exact .inr ⟨m', (hedges m' _).mpr (.inl hm')⟩
    waiting_edge := by
      intro id hid
      by_cases hn : NodeID.task id = n
      . exact ⟨m, (hedges m _).mpr (.inr ⟨rfl, hn⟩)⟩
      . change phase id = _ at hid
        rw [hphase id hn] at hid
        obtain ⟨m', hm'⟩ := h.waiting_edge id hid
        exact ⟨m', (hedges m' _).mpr (.inl hm')⟩
    linked_task := by
      intro a id ha
      by_cases hn : NodeID.task id = n
      . have := (htask id hn.symm).1
        change phase id ≠ _ ∧ phase id ≠ _
        simp [this]
      . rcases (hlinked a _).mp ha with ⟨-, heq⟩ | ha
        . exact absurd heq hn
        . change phase id ≠ _ ∧ phase id ≠ _
          rw [hphase id hn]
          exact h.linked_task a id ha
    linked_continuation := by
      intro a c ha
      rcases (hlinked a _).mp ha with ⟨-, heq⟩ | ha
      . exact (hcont c heq.symm).1
      . exact h.linked_continuation a c ha
    source := by
      intro a b hab
      rcases (hlinked a b).mp hab with ⟨rfl, -⟩ | hab
      . exact hallocated _ hsource
      . exact hallocated _ (h.source a b hab)
    source_linking := by
      intro id c hlink hid
      have hid' := (phase_link_iff hphase htask (by decide) (by decide)).mp hid
      rcases (hlinked _ _).mp hlink with ⟨hm', hn'⟩ | hlink
      . exact hlinking id c hm'.symm hn'.symm hid'
      . exact h.source_linking id c hlink hid'
    fired_task := by
      intro id
      exact (h.fired_task id).trans (phase_link_iff hphase htask (by decide) (by decide)).symm
    fired_allocated := fun a ha => hallocated a (h.fired_allocated a ha) }

theorem link_nodes (h : Ordered l) (hframes : l.graph.frames = [])
    (hedge : ¬ l.graph.Edge m n) (hm : ¬ l.Fired m) (hsource : l.Allocated m)
    (htask : ∀ id, n = .task id → l.phase id = .waiting)
    (hcont : ∀ c, n = .continuation c → c < l.counter ∧
      (l.Fired (.continuation c) → ∃ x, m = .task x ∧ l.late x))
    (hlinking : ∀ id c, m = .task id → n = .continuation c → l.phase id ≠ .linking)
    : Ordered (l.link m n) :=
  h.link hframes hedge hm hsource (fun _ _ => rfl)
    (fun id hid => ⟨htask id hid, .inr (htask id hid)⟩) hcont hlinking

section

open Countdown

/--
Processing dependents takes edges away from nodes that are fired, activates tasks that are no longer
waited for and fires nodes that are no longer waited for.
-/
theorem process {graph : Graph NodeID} {fired : List NodeID} {phase : Nat → Phase} (h : Ordered l)
    (hcounted : graph.Counted)
    (hsub : ∀ a b, graph.Edge a b → l.graph.Edge a b)
    (hlost : ∀ a b, l.graph.Edge a b → a ∈ fired ∨ graph.Edge a b)
    (hmono : ∀ a, a ∈ l.fired → a ∈ fired)
    (hframe : ∀ a rest, (a, rest) ∈ graph.frames → a ∈ fired)
    (hfired : ∀ a b, a ∈ fired → graph.Edge a b → ∃ rest, (a, rest) ∈ graph.frames)
    (hphase : ∀ id, phase id = l.phase id ∨
      l.phase id = .waiting ∧ phase id = .active ∧ (∀ a, ¬ graph.Edge a (.task id)) ∨
      l.phase id = .active ∧ phase id = .fired)
    (hcont : ∀ c, .continuation c ∈ fired → .continuation c ∈ l.fired ∨
      c < l.counter ∧ ∀ a, ¬ graph.Edge a (.continuation c))
    (hunfired : ∀ a c, l.graph.Edge a (.continuation c) →
      .continuation c ∈ fired ∨ ∃ a', graph.Edge a' (.continuation c))
    (hwaiting : ∀ a id, phase id = .waiting → l.graph.Edge a (.task id) →
      ∃ a', graph.Edge a' (.task id))
    (htask : ∀ id, .task id ∈ fired ↔ phase id = .fired)
    : Ordered { l with graph := graph, fired := fired, phase := phase } := by
  have hallocated : ∀ a, l.Allocated a →
      ({ l with graph := graph, fired := fired, phase := phase } : Ledger).Allocated a := by
    intro a ha
    cases a with
    | continuation c => exact ha
    | task id =>
      change phase id ≠ _
      rcases hphase id with heq | ⟨-, heq, -⟩ | ⟨-, heq⟩
      . rw [heq]
        exact ha
      . simp [heq]
      . simp [heq]
  exact {
    counted := hcounted
    edge_linked := fun a b hab => h.edge_linked a b (hsub a b hab)
    linked_edge := by
      intro a b hab
      rcases h.linked_edge a b hab with ha | hedge
      . exact .inl (hmono a ha)
      . exact hlost a b hedge
    frame_fired := hframe
    fired_edge := hfired
    task_edge := by
      intro a id hid hab
      change phase id = _ ∨ phase id = _ at hid
      rcases hphase id with heq | ⟨-, -, hnone⟩ | ⟨hactive, -⟩
      . rw [heq] at hid
        exact h.task_edge a id hid (hsub _ _ hab)
      . exact hnone a hab
      . exact h.task_edge a id (.inl hactive) (hsub _ _ hab)
    continuation_edge := by
      intro a c hc hab
      rcases hcont c hc with hold | hnone
      . exact h.continuation_edge a c hold (hsub _ _ hab)
      . exact absurd hab (hnone.2 a)
    continuation_unfired := by
      intro a c hac
      rcases h.continuation_unfired a c hac with hc | ⟨m', hm'⟩
      . exact .inl (hmono _ hc)
      . exact hunfired m' c hm'
    waiting_edge := by
      intro id hid
      change phase id = _ at hid
      have hold : l.phase id = .waiting := by
        rcases hphase id with heq | ⟨-, heq, -⟩ | ⟨-, heq⟩
        . rw [← heq, hid]
        . rw [heq] at hid
          cases hid
        . rw [heq] at hid
          cases hid
      obtain ⟨m', hm'⟩ := h.waiting_edge id hold
      exact hwaiting m' id hid hm'
    linked_task := by
      intro a id ha
      change phase id ≠ _ ∧ phase id ≠ _
      rcases hphase id with heq | ⟨-, heq, -⟩ | ⟨-, heq⟩
      . rw [heq]
        exact h.linked_task a id ha
      . simp [heq]
      . simp [heq]
    linked_continuation := h.linked_continuation
    source := fun a b hab => hallocated a (h.source a b hab)
    source_linking := by
      intro id c hlink
      change phase id ≠ _
      rcases hphase id with heq | ⟨-, heq, -⟩ | ⟨-, heq⟩
      . rw [heq]
        exact h.source_linking id c hlink
      . simp [heq]
      . simp [heq]
    fired_task := htask
    fired_allocated := by
      intro a ha
      cases a with
      | task id =>
        have := (htask id).mp ha
        change phase id ≠ _
        simp [this]
      | continuation c =>
        rcases hcont c ha with hold | hnew
        . exact hallocated _ (h.fired_allocated _ hold)
        . exact hnew.1 }

variable {rest : Finset NodeID} {frames : List (NodeID × Finset NodeID)} {node : Node NodeID}

/--
The node `n` is still waited for after it has been counted down, unless its count was one.
-/
theorem edge_visit_iff (h : Ordered l) (hframes : l.graph.frames = (m, rest) :: frames)
    (hmem : n ∈ rest) (hn : l.graph.nodes n = some node)
    : (∃ m', (l.graph.visit m n rest frames node).Edge m' n) ↔ node.dependencyCount ≠ 1 := by
  have hcounted := h.counted.visit hframes hmem hn
  have hpos := h.counted.dependencyCount_pos hn (h.counted.edge_of_frame hframes hmem)
  have hnode : (l.graph.visit m n rest frames node).nodes n
      = some { node with dependencyCount := node.dependencyCount - 1 } := by
    simp [Graph.visit, Graph.setFrames, Graph.decDependency]
  have hzero := hcounted.dependencyCount_eq_zero_iff hnode
  constructor
  . rintro ⟨m', hm'⟩ hone
    exact hzero.mp (by simp [hone]) m' hm'
  . intro hne
    by_contra hall
    have := hzero.mpr fun m' hm' => hall ⟨m', hm'⟩
    change node.dependencyCount - 1 = 0 at this
    omega

theorem frame_visit (hframes : l.graph.frames = (m, rest) :: frames) (a : NodeID)
    : (∃ r, (a, r) ∈ (l.graph.visit m n rest frames node).frames) ↔
      ∃ r, (a, r) ∈ l.graph.frames := by
  simp only [hframes, Graph.visit, Graph.setFrames, List.mem_cons, Prod.mk.injEq]
  grind

/--
A dependent is counted down, and still waits for others or is a task that becomes active.
-/
theorem visit {phase : Nat → Phase} (h : Ordered l)
    (hframes : l.graph.frames = (m, rest) :: frames) (hmem : n ∈ rest)
    (hn : l.graph.nodes n = some node) (hphase : ∀ id, .task id ≠ n → phase id = l.phase id)
    (htask : ∀ id, n = .task id →
      phase id = if node.dependencyCount = 1 then .active else l.phase id)
    (hcont : ∀ c, n = .continuation c → node.dependencyCount ≠ 1)
    : Ordered { l with graph := l.graph.visit m n rest frames node, phase := phase } := by
  have hedges := h.counted.edge_visit hframes hn
  have hwait := h.edge_visit_iff hframes hmem hn
  have hmfired : m ∈ l.fired := h.frame_fired m rest (by simp [hframes])
  have hwaiting : ∀ id, n = .task id → l.phase id = .waiting := by
    intro id hid
    subst hid
    exact h.not_active_of_edge (h.counted.edge_of_frame hframes hmem)
  apply h.process (h.counted.visit hframes hmem hn)
  . intro a b hab
    exact ((hedges a b).mp hab).1
  . intro a b hab
    by_cases heq : a = m ∧ b = n
    . rw [heq.1]
      exact .inl hmfired
    . exact .inr ((hedges a b).mpr ⟨hab, heq⟩)
  . exact fun _ ha => ha
  . intro a r hr
    obtain ⟨r', hr'⟩ := (frame_visit hframes a).mp ⟨r, hr⟩
    exact h.frame_fired a r' hr'
  . intro a b ha hab
    exact (frame_visit hframes a).mpr (h.fired_edge a b ha ((hedges a b).mp hab).1)
  . intro id
    by_cases hid : NodeID.task id = n
    . have := htask id hid.symm
      split at this
      . next hone =>
        refine .inr (.inl ⟨hwaiting id hid.symm, this, ?_⟩)
        intro a ha
        exact hwait.mp ⟨a, hid ▸ ha⟩ hone
      . exact .inl this
    . exact .inl (hphase id hid)
  . exact fun _ hc => .inl hc
  . intro a c hac
    right
    by_cases hnc : n = .continuation c
    . obtain ⟨a', ha'⟩ := hwait.mpr (hcont c hnc)
      exact ⟨a', hnc ▸ ha'⟩
    . exact ⟨a, (hedges _ _).mpr ⟨hac, fun heq => hnc heq.2.symm⟩⟩
  . intro a id hid ha
    by_cases hnid : n = .task id
    . have := htask id hnid
      split at this
      . rw [this] at hid
        cases hid
      . next hone =>
        obtain ⟨a', ha'⟩ := hwait.mpr hone
        exact ⟨a', hnid ▸ ha'⟩
    . exact ⟨a, (hedges _ _).mpr ⟨ha, fun heq => hnid heq.2.symm⟩⟩
  . intro id
    refine (h.fired_task id).trans ?_
    by_cases hid : NodeID.task id = n
    . have := htask id hid.symm
      rw [hwaiting id hid.symm] at this ⊢
      split at this <;> simp [this]
    . rw [hphase id hid]

/--
A continuation that is counted down and waits for nothing else is processed next.
-/
theorem visit_continuation (h : Ordered l) (hframes : l.graph.frames = (m, rest) :: frames)
    (hmem : .continuation c ∈ rest) (hn : l.graph.nodes (.continuation c) = some node)
    (hone : node.dependencyCount = 1)
    : Ordered { l with
        graph := (l.graph.visit m (.continuation c) rest frames node).push (.continuation c) node
        fired := .continuation c :: l.fired } := by
  have hedges := h.counted.edge_visit hframes hn
  have hwait := h.edge_visit_iff hframes hmem hn
  have hmedge := h.counted.edge_of_frame hframes hmem
  have hmfired : m ∈ l.fired := h.frame_fired m rest (by simp [hframes])
  have hnone : ∀ a, ¬ (l.graph.visit m (.continuation c) rest frames node).Edge a (.continuation c) := by
    intro a ha
    exact hwait.mp ⟨a, ha⟩ hone
  have hnode : (l.graph.visit m (.continuation c) rest frames node).nodes (.continuation c)
      = some { node with dependencyCount := 0 } := by
    simp [Graph.visit, Graph.setFrames, Graph.decDependency, hone]
  have hpush : (l.graph.visit m (.continuation c) rest frames node).push (.continuation c) node
      = (l.graph.visit m (.continuation c) rest frames node).push (.continuation c)
          { node with dependencyCount := 0 } := rfl
  have hedges' : ∀ a b,
      ((l.graph.visit m (.continuation c) rest frames node).push (.continuation c) node).Edge a b ↔
        l.graph.Edge a b ∧ ¬ (a = m ∧ b = .continuation c) := by
    intro a b
    rw [hpush, Graph.edge_push hnode, hedges]
  have hframe' : ∀ r, (.continuation c, r) ∉ l.graph.frames := by
    intro r hr
    obtain ⟨k, hk, hzero, -⟩ := h.counted.frame _ r hr
    exact (h.counted.dependencyCount_eq_zero_iff hk).mp hzero m hmedge
  rw [hpush] at hedges' ⊢
  apply h.process
  . apply (h.counted.visit hframes hmem hn).push hnode rfl
    intro r hr
    obtain ⟨r', hr'⟩ := (frame_visit hframes _).mp ⟨r, hr⟩
    exact hframe' r' hr'
  . intro a b hab
    exact ((hedges' a b).mp hab).1
  . intro a b hab
    by_cases heq : a = m ∧ b = .continuation c
    . rw [heq.1]
      exact .inl (List.mem_cons_of_mem _ hmfired)
    . exact .inr ((hedges' a b).mpr ⟨hab, heq⟩)
  . exact fun _ ha => List.mem_cons_of_mem _ ha
  . intro a r hr
    rcases List.mem_cons.mp hr with heq | hr
    . cases heq
      exact List.mem_cons_self
    . obtain ⟨r', hr'⟩ := (frame_visit hframes a).mp ⟨r, hr⟩
      exact List.mem_cons_of_mem _ (h.frame_fired a r' hr')
  . intro a b ha hab
    rcases List.mem_cons.mp ha with rfl | ha
    . exact ⟨_, List.mem_cons_self⟩
    . obtain ⟨r, hr⟩ := (frame_visit hframes a).mpr (h.fired_edge a b ha ((hedges' a b).mp hab).1)
      exact ⟨r, List.mem_cons_of_mem _ hr⟩
  . exact fun _ => .inl rfl
  . intro c' hc'
    rcases List.mem_cons.mp hc' with heq | hc'
    . cases heq
      refine .inr ⟨h.linked_continuation m c (h.edge_linked _ _ hmedge), ?_⟩
      intro a ha
      exact hnone a ((hedges a _).mpr ((hedges' a _).mp ha))
    . exact .inl hc'
  . intro a c' hac
    by_cases hc : c' = c
    . subst hc
      exact .inl List.mem_cons_self
    . exact .inr ⟨a, (hedges' _ _).mpr ⟨hac, fun heq => hc (by simpa using heq.2)⟩⟩
  . intro a id hid ha
    exact ⟨a, (hedges' _ _).mpr ⟨ha, by simp⟩⟩
  . intro id
    simp only [List.mem_cons, reduceCtorEq, false_or]
    exact h.fired_task id

theorem pop (h : Ordered l) (hframes : l.graph.frames = (m, ∅) :: frames)
    : Ordered { l with graph := l.graph.pop m frames } := by
  have hedges := Graph.edge_pop hframes
  apply h.process (h.counted.pop hframes)
  . exact fun a b hab => (hedges a b).mp hab
  . exact fun a b hab => .inr ((hedges a b).mpr hab)
  . exact fun _ ha => ha
  . intro a r hr
    exact h.frame_fired a r (by rw [hframes]; exact List.mem_cons_of_mem _ hr)
  . intro a b ha hab
    obtain ⟨r, hr⟩ := h.fired_edge a b ha ((hedges a b).mp hab)
    rw [hframes] at hr
    rcases List.mem_cons.mp hr with heq | hr
    . cases heq
      obtain ⟨k, -, -, hrest⟩ := (hedges _ _).mp hab
      exact absurd (hrest ∅ (by simp [hframes])) (Finset.notMem_empty b)
    . exact ⟨r, hr⟩
  . exact fun _ => .inl rfl
  . exact fun _ hc => .inl hc
  . exact fun a c hac => .inr ⟨a, (hedges _ _).mpr hac⟩
  . exact fun a id _ ha => ⟨a, (hedges _ _).mpr ha⟩
  . exact h.fired_task

/--
A node that nothing is waited for is processed: a task that finished, or the entry of a plan.
-/
theorem begin {phase : Nat → Phase} (h : Ordered l) (hframes : l.graph.frames = [])
    (hnone : ∀ a, ¬ l.graph.Edge a n) (hnode : ∀ k, l.graph.nodes n = some k → node = k)
    (hphase : ∀ id, .task id ≠ n → phase id = l.phase id)
    (htask : ∀ id, n = .task id → l.phase id = .active ∧ phase id = .fired)
    (hcont : ∀ c, n = .continuation c → c < l.counter)
    : Ordered { l with
        graph := if (l.graph.nodes n).isSome then l.graph.push n node else l.graph
        fired := n :: l.fired
        phase := phase } := by
  have hedges : ∀ a b, (if (l.graph.nodes n).isSome then l.graph.push n node else l.graph).Edge a b ↔
      l.graph.Edge a b := by
    intro a b
    cases hk : l.graph.nodes n with
    | none => rfl
    | some k =>
      have := hnode k hk
      subst this
      exact Graph.edge_push hk a b
  have hframe : ∀ a r,
      (a, r) ∈ (if (l.graph.nodes n).isSome then l.graph.push n node else l.graph).frames → a = n := by
    intro a r hr
    split at hr
    . simp only [Graph.push, hframes, List.mem_singleton, Prod.mk.injEq] at hr
      exact hr.1
    . rw [hframes] at hr
      cases hr
  apply h.process
  . cases hk : l.graph.nodes n with
    | none => exact h.counted
    | some k =>
      have := hnode k hk
      subst this
      exact h.counted.push hk ((h.counted.dependencyCount_eq_zero_iff hk).mpr hnone) (by simp [hframes])
  . exact fun a b hab => (hedges a b).mp hab
  . exact fun a b hab => .inr ((hedges a b).mpr hab)
  . exact fun _ ha => List.mem_cons_of_mem _ ha
  . intro a r hr
    rw [hframe a r hr]
    exact List.mem_cons_self
  . intro a b ha hab
    have hold := (hedges a b).mp hab
    rcases List.mem_cons.mp ha with rfl | ha
    . obtain ⟨k, hk, -, -⟩ := hold
      exact ⟨node.dependents, by simp [hk, Graph.push]⟩
    . obtain ⟨r, hr⟩ := h.fired_edge a b ha hold
      rw [hframes] at hr
      cases hr
  . intro id
    by_cases hid : NodeID.task id = n
    . exact .inr (.inr (htask id hid.symm))
    . exact .inl (hphase id hid)
  . intro c hc
    rcases List.mem_cons.mp hc with heq | hc
    . exact .inr ⟨hcont c heq.symm, fun a ha => hnone a (heq ▸ (hedges a _).mp ha)⟩
    . exact .inl hc
  . exact fun a c hac => .inr ⟨a, (hedges _ _).mpr hac⟩
  . exact fun a id _ ha => ⟨a, (hedges _ _).mpr ha⟩
  . intro id
    by_cases hid : NodeID.task id = n
    . have := htask id hid.symm
      simp [hid, this.2]
    . rw [List.mem_cons, hphase id hid]
      have := h.fired_task id
      simp only [Fired] at this
      simp [hid, this]

end

end Ordered

end Ledger

end Hustle.Scheduler
