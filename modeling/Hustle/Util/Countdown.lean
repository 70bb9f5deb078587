import Mathlib.Data.Set.Card
import Mathlib.Data.Finset.Insert
import Mathlib.Logic.Function.Basic

/-!
This module contains graphs whose nodes list the nodes that depend on them and count the nodes that they
depend on. A node is processed by counting down its dependents one by one, and a dependent whose count
becomes zero may be processed in between. The nodes that are being processed form a stack of frames.
-/

namespace Countdown

variable {α : Type u}

structure Node (α : Type u) where
  dependents : Finset α
  dependencyCount : Nat

/--
The nodes, and for every node that is being processed the dependents it has not counted down yet. The
innermost node comes first.
-/
structure Graph (α : Type u) where
  nodes : α → Option (Node α)
  frames : List (α × Finset α)

def empty : Graph α where
  nodes := fun _ => none
  frames := []

namespace Graph

/--
Looking a node up in this way creates it.
-/
def get (g : Graph α) (n : α) : Node α :=
  (g.nodes n).getD { dependents := ∅, dependencyCount := 0 }

def push (g : Graph α) (n : α) (node : Node α) : Graph α :=
  { g with frames := (n, node.dependents) :: g.frames }

def setFrames (g : Graph α) (frames : List (α × Finset α)) : Graph α :=
  { g with frames := frames }

/--
Node `n` waits for `m`, and `m` has not counted it down yet.
-/
def Edge (g : Graph α) (m n : α) : Prop :=
  ∃ node, g.nodes m = some node ∧ n ∈ node.dependents ∧ ∀ rest, (m, rest) ∈ g.frames → n ∈ rest

structure Counted (g : Graph α) : Prop where
  count : ∀ n node, g.nodes n = some node → {m | g.Edge m n}.encard = node.dependencyCount
  target : ∀ m n, g.Edge m n → ∃ node, g.nodes n = some node
  nodup : (g.frames.map Prod.fst).Nodup
  frame : ∀ m rest, (m, rest) ∈ g.frames →
    ∃ node, g.nodes m = some node ∧ node.dependencyCount = 0 ∧ rest ⊆ node.dependents

theorem counted_empty : (empty : Graph α).Counted where
  count := by simp [empty]
  target := by simp [Edge, empty]
  nodup := by simp [empty]
  frame := by simp [empty]

theorem get_of_nodes {g : Graph α} {n : α} {node : Node α} (h : g.nodes n = some node)
    : g.get n = node := by
  simp [get, h]

theorem edge_iff_get (g : Graph α) (m n : α)
    : g.Edge m n ↔ n ∈ (g.get m).dependents ∧ ∀ rest, (m, rest) ∈ g.frames → n ∈ rest := by
  constructor
  . rintro ⟨node, hnode, hn, hrest⟩
    rw [get_of_nodes hnode]
    exact ⟨hn, hrest⟩
  . rintro ⟨hn, hrest⟩
    cases hm : g.nodes m with
    | none => simp [get, hm] at hn
    | some node =>
      rw [get_of_nodes hm] at hn
      exact ⟨node, hm, hn, hrest⟩

theorem Counted.count_get {g : Graph α} (hg : g.Counted) (n : α)
    : {m | g.Edge m n}.encard = (g.get n).dependencyCount := by
  cases hn : g.nodes n with
  | some node => rw [get_of_nodes hn, hg.count n node hn]
  | none =>
    have : {m | g.Edge m n} = ∅ := by
      apply Set.eq_empty_of_forall_notMem
      intro m hm
      obtain ⟨node, hnode⟩ := hg.target m n hm
      rw [hn] at hnode
      cases hnode
    simp [this, get, hn]

theorem Counted.dependencyCount_eq_zero_iff {g : Graph α} (hg : g.Counted) {n : α} {node : Node α}
    (hn : g.nodes n = some node)
    : node.dependencyCount = 0 ↔ ∀ m, ¬ g.Edge m n := by
  have := hg.count n node hn
  constructor
  . intro h m hm
    rw [h] at this
    have hempty := Set.encard_eq_zero.mp this
    have : m ∈ {m | g.Edge m n} := hm
    rw [hempty] at this
    exact this
  . intro h
    have hempty : {m | g.Edge m n} = ∅ := Set.eq_empty_of_forall_notMem h
    rw [hempty, Set.encard_empty] at this
    exact_mod_cast this.symm

theorem Counted.dependencyCount_pos {g : Graph α} (hg : g.Counted) {m n : α} {node : Node α}
    (hn : g.nodes n = some node) (hedge : g.Edge m n)
    : 0 < node.dependencyCount := by
  apply Nat.pos_of_ne_zero
  intro h
  exact (hg.dependencyCount_eq_zero_iff hn).mp h m hedge

theorem edge_push {g : Graph α} {n : α} {node : Node α} (hn : g.nodes n = some node) (a b : α)
    : (g.push n node).Edge a b ↔ g.Edge a b := by
  simp only [Edge, push, List.mem_cons, Prod.mk.injEq]
  constructor
  . rintro ⟨k, hk, hb, hrest⟩
    exact ⟨k, hk, hb, fun rest hmem => hrest rest (.inr hmem)⟩
  . rintro ⟨k, hk, hb, hrest⟩
    refine ⟨k, hk, hb, ?_⟩
    rintro rest (⟨rfl, rfl⟩ | hmem)
    . rw [hn] at hk
      cases hk
      exact hb
    . exact hrest rest hmem

theorem Counted.push {g : Graph α} (hg : g.Counted) {n : α} {node : Node α}
    (hn : g.nodes n = some node) (hcount : node.dependencyCount = 0)
    (hframe : ∀ rest, (n, rest) ∉ g.frames)
    : (g.push n node).Counted where
  count := by
    intro a k ha
    simp only [edge_push hn]
    exact hg.count a k ha
  target := by
    intro a b hab
    exact hg.target a b ((edge_push hn a b).mp hab)
  nodup := by
    simp only [Graph.push, List.map_cons, List.nodup_cons]
    refine ⟨?_, hg.nodup⟩
    intro hmem
    obtain ⟨⟨_, rest⟩, hrest, rfl⟩ := List.mem_map.mp hmem
    exact hframe rest hrest
  frame := by
    intro m rest hmem
    rcases List.mem_cons.mp hmem with heq | hmem
    . cases heq
      exact ⟨node, hn, hcount, subset_rfl⟩
    . exact hg.frame m rest hmem

theorem Counted.edge_of_frame {g : Graph α} {m n : α} {rest : Finset α}
    {frames : List (α × Finset α)} (hg : g.Counted) (hframes : g.frames = (m, rest) :: frames)
    (hn : n ∈ rest)
    : g.Edge m n := by
  obtain ⟨k, hk, -, hsub⟩ := hg.frame m rest (by simp [hframes])
  refine ⟨k, hk, hsub hn, ?_⟩
  intro rest' hmem
  rw [hframes] at hmem
  rcases List.mem_cons.mp hmem with heq | hmem
  . cases heq
    exact hn
  . have := hg.nodup
    rw [hframes, List.map_cons, List.nodup_cons] at this
    exact absurd (List.mem_map_of_mem hmem) this.1

variable [DecidableEq α]

def set (g : Graph α) (n : α) (node : Node α) : Graph α :=
  { g with nodes := Function.update g.nodes n (some node) }

def hasDependent (g : Graph α) (m n : α) : Bool :=
  decide (n ∈ (g.get m).dependents)

def addDependent (g : Graph α) (m n : α) : Graph α :=
  g.set m { g.get m with dependents := insert n (g.get m).dependents }

def incDependency (g : Graph α) (n : α) : Graph α :=
  g.set n { g.get n with dependencyCount := (g.get n).dependencyCount + 1 }

def link (g : Graph α) (m n : α) : Graph α :=
  (g.addDependent m n).incDependency n

def decDependency (g : Graph α) (n : α) (node : Node α) : Graph α :=
  g.set n { node with dependencyCount := node.dependencyCount - 1 }

def erase (g : Graph α) (n : α) : Graph α :=
  { g with nodes := Function.update g.nodes n none }

@[simp]
theorem nodes_set (g : Graph α) (n m : α) (node : Node α)
    : (g.set n node).nodes m = if m = n then some node else g.nodes m := by
  simp only [set, Function.update_apply]

@[simp]
theorem frames_set (g : Graph α) (n : α) (node : Node α) : (g.set n node).frames = g.frames := rfl

@[simp]
theorem frames_link (g : Graph α) (m n : α) : (g.link m n).frames = g.frames := rfl

theorem dependents_set_count (g : Graph α) (n : α) (k : Nat) (m : α)
    : ((g.set n { g.get n with dependencyCount := k }).get m).dependents = (g.get m).dependents := by
  by_cases h : m = n
  . subst h
    simp [get]
  . simp [get, h]

theorem hasDependent_iff {g : Graph α} (hframes : g.frames = []) (m n : α)
    : g.hasDependent m n = true ↔ g.Edge m n := by
  simp [hasDependent, edge_iff_get, hframes]

theorem dependents_link (g : Graph α) (m n a : α)
    : ((g.link m n).get a).dependents
        =
      if a = m then insert n (g.get m).dependents else (g.get a).dependents := by
  simp only [link, incDependency]
  rw [dependents_set_count]
  simp only [addDependent, get, nodes_set]
  split <;> rfl

theorem edge_link {g : Graph α} (hframes : g.frames = []) (m n a b : α)
    : (g.link m n).Edge a b ↔ g.Edge a b ∨ (a = m ∧ b = n) := by
  simp only [edge_iff_get, dependents_link, frames_link, hframes, List.not_mem_nil, false_implies,
    implies_true, and_true]
  split
  . next h =>
    subst h
    rw [Finset.mem_insert]
    tauto
  . next h => tauto

theorem dependencyCount_link (g : Graph α) (m n a : α) (node : Node α)
    (h : (g.link m n).nodes a = some node)
    : node.dependencyCount = (g.get a).dependencyCount + (if a = n then 1 else 0) := by
  simp only [link, incDependency, addDependent, nodes_set] at h
  split at h
  . next ha =>
    subst ha
    cases h
    simp only [get, nodes_set]
    split
    . next hm => simp [hm]
    . simp
  . split at h
    . next hm =>
      subst hm
      cases h
      simp_all
    . next hn _ => simp [hn, get_of_nodes h]

theorem Counted.link {g : Graph α} (hg : g.Counted) (hframes : g.frames = []) {m n : α}
    (hedge : ¬ g.Edge m n)
    : (g.link m n).Counted where
  count := by
    intro a node ha
    rw [dependencyCount_link g m n a node ha]
    simp only [edge_link hframes]
    split
    . next h =>
      subst h
      have : {x | g.Edge x a ∨ x = m ∧ a = a} = insert m {x | g.Edge x a} := by
        ext x
        simp [or_comm]
      have hnot : m ∉ {x | g.Edge x a} := hedge
      rw [this, Set.encard_insert_of_notMem hnot, hg.count_get]
      simp
    . next h => simp [h, hg.count_get]
  target := by
    intro a b hab
    rw [edge_link hframes] at hab
    simp only [Graph.link, incDependency, addDependent, nodes_set]
    rcases hab with hab | ⟨-, rfl⟩
    . obtain ⟨node, hnode⟩ := hg.target a b hab
      simp only [hnode]
      split
      . exact ⟨_, rfl⟩
      . split
        . exact ⟨_, rfl⟩
        . exact ⟨_, rfl⟩
    . simp
  nodup := by simp [hframes]
  frame := by simp [hframes]

section

variable {g : Graph α} {m n : α} {rest : Finset α} {frames : List (α × Finset α)} {node : Node α}

def visit (g : Graph α) (m n : α) (rest : Finset α) (frames : List (α × Finset α)) (node : Node α)
    : Graph α :=
  (g.decDependency n node).setFrames ((m, rest.erase n) :: frames)

theorem Counted.edge_visit (hg : g.Counted) (hframes : g.frames = (m, rest) :: frames)
    (hn : g.nodes n = some node) (a b : α)
    : (g.visit m n rest frames node).Edge a b ↔ g.Edge a b ∧ ¬ (a = m ∧ b = n) := by
  have hnodup := hg.nodup
  rw [hframes, List.map_cons, List.nodup_cons] at hnodup
  have hdep : ((g.decDependency n node).get a).dependents = (g.get a).dependents := by
    simp only [decDependency, get, nodes_set]
    split
    . next h =>
      subst h
      simp [hn]
    . rfl
  rw [edge_iff_get, edge_iff_get]
  have hget : (g.visit m n rest frames node).get a = (g.decDependency n node).get a := rfl
  rw [hget, hdep, hframes]
  have hsub : a = m → b ∈ (g.get a).dependents → ∀ r, (m, r) ∈ frames → b ∈ r := by
    intro _ _ r hr
    exact absurd (List.mem_map_of_mem hr) hnodup.1
  simp only [visit, setFrames, List.mem_cons, Prod.mk.injEq]
  constructor
  . rintro ⟨hb, hrest⟩
    refine ⟨⟨hb, ?_⟩, ?_⟩
    . rintro r (⟨rfl, rfl⟩ | hr)
      . exact Finset.mem_of_mem_erase (hrest _ (.inl ⟨rfl, rfl⟩))
      . exact hrest r (.inr hr)
    . rintro ⟨rfl, rfl⟩
      have := hrest _ (.inl ⟨rfl, rfl⟩)
      simp at this
  . rintro ⟨⟨hb, hrest⟩, hne⟩
    refine ⟨hb, ?_⟩
    rintro r (⟨rfl, rfl⟩ | hr)
    . apply Finset.mem_erase_of_ne_of_mem
      . intro h
        exact hne ⟨rfl, h⟩
      . exact hrest _ (.inl ⟨rfl, rfl⟩)
    . exact hrest r (.inr hr)

theorem Counted.visit (hg : g.Counted) (hframes : g.frames = (m, rest) :: frames) (hmem : n ∈ rest)
    (hn : g.nodes n = some node)
    : (g.visit m n rest frames node).Counted where
  count := by
    intro a k ha
    simp only [hg.edge_visit hframes hn]
    simp only [Graph.visit, setFrames, decDependency, nodes_set] at ha
    split at ha
    . next h =>
      subst h
      cases ha
      have hset : {x | g.Edge x a ∧ ¬ (x = m ∧ a = a)} = {x | g.Edge x a} \ {m} := by
        ext x
        simp
      have hcount := hg.count a node hn
      have hedge : m ∈ {x | g.Edge x a} := hg.edge_of_frame hframes hmem
      have hpos := hg.dependencyCount_pos hn hedge
      have hadd := Set.encard_sdiff_singleton_add_one hedge
      rw [hset]
      rw [hcount] at hadd
      obtain ⟨k, hk⟩ : ∃ k, node.dependencyCount = k + 1 := ⟨_, (Nat.succ_pred_eq_of_pos hpos).symm⟩
      rw [hk] at hadd ⊢
      push_cast at hadd
      rw [Nat.add_sub_cancel]
      exact (ENat.add_left_injective_of_ne_top (by simp)) hadd
    . next h =>
      have : ∀ x, ¬ (x = m ∧ a = n) := fun x hx => h hx.2
      simp only [this, not_false_eq_true, and_true]
      exact hg.count a k ha
  target := by
    intro a b hab
    rw [hg.edge_visit hframes hn] at hab
    obtain ⟨k, hk⟩ := hg.target a b hab.1
    simp only [Graph.visit, setFrames, decDependency, nodes_set]
    split
    . exact ⟨_, rfl⟩
    . exact ⟨k, hk⟩
  nodup := by
    have := hg.nodup
    rw [hframes] at this
    exact this
  frame := by
    have hlift : ∀ a r, (a, r) ∈ g.frames →
        ∃ k, (g.visit m n rest frames node).nodes a = some k ∧ k.dependencyCount = 0 ∧
          r ⊆ k.dependents := by
      intro a r hr
      obtain ⟨k, hk, hzero, hsub⟩ := hg.frame a r hr
      simp only [Graph.visit, setFrames, decDependency, nodes_set]
      split
      . next h =>
        subst h
        rw [hn] at hk
        cases hk
        exact ⟨_, rfl, by simp [hzero], hsub⟩
      . exact ⟨k, hk, hzero, hsub⟩
    intro a r hr
    rcases List.mem_cons.mp hr with heq | hr
    . cases heq
      obtain ⟨k, hk, hzero, hsub⟩ := hlift m rest (by simp [hframes])
      exact ⟨k, hk, hzero, (Finset.erase_subset _ _).trans hsub⟩
    . exact hlift a r (by simp [hframes, hr])

/--
The innermost node has counted down all its dependents, so it is removed.
-/
def pop (g : Graph α) (m : α) (frames : List (α × Finset α)) : Graph α :=
  (g.erase m).setFrames frames

theorem edge_pop (hframes : g.frames = (m, ∅) :: frames) (a b : α)
    : (g.pop m frames).Edge a b ↔ g.Edge a b := by
  simp only [Edge, pop, setFrames, erase, Function.update_apply, hframes, List.mem_cons,
    Prod.mk.injEq]
  constructor
  . rintro ⟨k, hk, hb, hrest⟩
    split at hk
    . cases hk
    . next h =>
      refine ⟨k, hk, hb, ?_⟩
      rintro r (⟨h', -⟩ | hr)
      . exact absurd h' h
      . exact hrest r hr
  . rintro ⟨k, hk, hb, hrest⟩
    have hne : a ≠ m := by
      intro h
      exact absurd (hrest ∅ (.inl ⟨h, rfl⟩)) (Finset.notMem_empty b)
    simp only [hne, if_false]
    exact ⟨k, hk, hb, fun r hr => hrest r (.inr hr)⟩

theorem Counted.pop (hg : g.Counted) (hframes : g.frames = (m, ∅) :: frames)
    : (g.pop m frames).Counted where
  count := by
    intro a k ha
    simp only [edge_pop hframes]
    simp only [Graph.pop, setFrames, erase, Function.update_apply] at ha
    split at ha
    . cases ha
    . exact hg.count a k ha
  target := by
    intro a b hab
    rw [edge_pop hframes] at hab
    obtain ⟨k, hk⟩ := hg.target a b hab
    obtain ⟨k', hk', hzero, -⟩ := hg.frame m ∅ (by simp [hframes])
    have hne : b ≠ m := by
      intro h
      subst h
      exact (hg.dependencyCount_eq_zero_iff hk').mp hzero a hab
    simp only [Graph.pop, setFrames, erase, Function.update_apply, hne, if_false]
    exact ⟨k, hk⟩
  nodup := by
    have := hg.nodup
    rw [hframes, List.map_cons, List.nodup_cons] at this
    exact this.2
  frame := by
    intro a r hr
    obtain ⟨k, hk, hzero, hsub⟩ := hg.frame a r (by rw [hframes]; exact List.mem_cons_of_mem _ hr)
    have hne : a ≠ m := by
      intro h
      subst h
      have := hg.nodup
      rw [hframes, List.map_cons, List.nodup_cons] at this
      exact this.1 (List.mem_map.mpr ⟨(a, r), hr, rfl⟩)
    simp only [Graph.pop, setFrames, erase, Function.update_apply, hne, if_false]
    exact ⟨k, hk, hzero, hsub⟩

end

end Graph

end Countdown
