import Hustle.Util.Parents
import Mathlib.Data.List.Nodup
import Mathlib.Logic.Function.Basic

/-!
This module contains the disjoint sets of `utils/disjoint_set_forest.h`. A path compression sets the rank of the
root to a value that is not the height of the tree, so nothing here rests on the ranks.
-/

namespace Hustle.Optimizer

structure Node where
  rank : Nat
  parent : Nat
  deriving DecidableEq, Repr

namespace Node

def parentOf (nodes : List Node) (i : Nat) : Nat :=
  (nodes[i]?.map parent).getD i

def rankOf (nodes : List Node) (i : Nat) : Nat :=
  (nodes[i]?.map rank).getD 0

def setParent (nodes : List Node) (i parent : Nat) : List Node :=
  nodes.modify i fun node => { node with parent }

def setRank (nodes : List Node) (i rank : Nat) : List Node :=
  nodes.modify i fun node => { node with rank }

/--
The loop of `compress_path`: the nodes on the way to the root, and the largest rank of them.
-/
def compressNodes (root : Nat) : Nat → List Node → Nat → Nat → List Node × Nat
  | 0, nodes, _, maxRank => (nodes, maxRank)
  | fuel + 1, nodes, nodeId, maxRank =>
    if nodeId = root then
      (nodes, maxRank)
    else
      compressNodes root fuel (setParent nodes nodeId root) (parentOf nodes nodeId)
        (max maxRank (rankOf nodes nodeId))

def compressPath (nodes : List Node) (leaf root : Nat) : List Node :=
  let (nodes, maxRank) := compressNodes root nodes.length nodes leaf 0
  setRank nodes root (maxRank + 1)

end Node

/--
The position of an element in `elements` is its entry of `elements_map_`.
-/
structure DisjointSetForest (α : Type) where
  nodes : List Node
  elements : List α
  deriving DecidableEq, Repr

namespace DisjointSetForest

section

variable {α : Type} [DecidableEq α]

def empty : DisjointSetForest α where
  nodes := []
  elements := []

def makeSet (forest : DisjointSetForest α) (element : α) : DisjointSetForest α :=
  if element ∈ forest.elements then
    forest
  else
    { nodes := forest.nodes ++ [⟨0, forest.nodes.length⟩], elements := forest.elements ++ [element] }

def nodeId (forest : DisjointSetForest α) (element : α) : Nat :=
  forest.elements.idxOf element

def find (forest : DisjointSetForest α) (element : α) : Nat × DisjointSetForest α :=
  let rootId := Parents.climb (Node.parentOf forest.nodes) forest.nodes.length (forest.nodeId element)
  (rootId, { forest with nodes := Node.compressPath forest.nodes (forest.nodeId element) rootId })

def merge (forest : DisjointSetForest α) (element₁ element₂ : α) : DisjointSetForest α :=
  let (root₁, forest) := forest.find element₁
  let (root₂, forest) := forest.find element₂
  if root₁ = root₂ then
    forest
  else if Node.rankOf forest.nodes root₂ < Node.rankOf forest.nodes root₁ then
    { forest with nodes := Node.setParent forest.nodes root₂ root₁ }
  else if Node.rankOf forest.nodes root₁ < Node.rankOf forest.nodes root₂ then
    { forest with nodes := Node.setParent forest.nodes root₁ root₂ }
  else
    { forest with
      nodes := Node.setRank (Node.setParent forest.nodes root₁ root₂) root₂
        (Node.rankOf forest.nodes root₂ + 1) }

/--
The way up from the node `i` ends at the root `rep i`.
-/
structure Partitions (forest : DisjointSetForest α) (rep : Nat → Nat) : Prop where
  nodup : forest.elements.Nodup
  length : forest.nodes.length = forest.elements.length
  bound : ∀ i < forest.nodes.length, Node.parentOf forest.nodes i < forest.nodes.length
  reaches : ∀ i < forest.nodes.length, Parents.Reaches (Node.parentOf forest.nodes) i (rep i)

end

end DisjointSetForest

namespace Node

variable {nodes : List Node} {i parent rank : Nat}

@[simp]
theorem length_setParent : (setParent nodes i parent).length = nodes.length := by
  simp [setParent]

@[simp]
theorem length_setRank : (setRank nodes i rank).length = nodes.length := by
  simp [setRank]

theorem parentOf_setParent (hi : i < nodes.length)
    : parentOf (setParent nodes i parent) = Function.update (parentOf nodes) i parent := by
  funext j
  by_cases hji : j = i
  . subst hji
    simp [parentOf, setParent, List.getElem?_eq_getElem hi]
  . have : i ≠ j := fun h => hji h.symm
    simp [parentOf, setParent, this, Function.update_of_ne hji]

@[simp]
theorem parentOf_setRank : parentOf (setRank nodes i rank) = parentOf nodes := by
  funext j
  simp only [parentOf, setRank, List.getElem?_modify]
  cases nodes[j]? with
  | none => rfl
  | some node =>
    by_cases hij : i = j <;> simp [hij]

theorem compressNodes_reaches {root fuel leaf maxRank : Nat} (hleaf : leaf < nodes.length)
    (hroot : Parents.Reaches (parentOf nodes) leaf root)
    (hbound : ∀ j < nodes.length, parentOf nodes j < nodes.length)
    : (compressNodes root fuel nodes leaf maxRank).1.length = nodes.length ∧
      (∀ j < nodes.length, parentOf (compressNodes root fuel nodes leaf maxRank).1 j < nodes.length) ∧
      ∀ j s, Parents.Reaches (parentOf nodes) j s →
        Parents.Reaches (parentOf (compressNodes root fuel nodes leaf maxRank).1) j s := by
  induction fuel generalizing nodes leaf maxRank with
  | zero => exact ⟨rfl, hbound, fun _ _ h => h⟩
  | succ fuel ih =>
    rw [compressNodes]
    split
    . exact ⟨rfl, hbound, fun _ _ h => h⟩
    . next hne =>
      have hlt : root < nodes.length := @Parents.Reaches.closed _ _ _ _ (· < nodes.length) hbound hroot hleaf
      have hparent := @parentOf_setParent nodes leaf root hleaf
      have hkeep : ∀ j s, Parents.Reaches (parentOf nodes) j s →
          Parents.Reaches (parentOf (setParent nodes leaf root)) j s := by
        intro j s h
        rw [hparent]
        exact hroot.redirect h
      have hup : Parents.Reaches (parentOf nodes) (parentOf nodes leaf) root := by
        cases hroot with
        | root h => exact absurd rfl hne
        | step h => exact h
      have := @ih (setParent nodes leaf root) (parentOf nodes leaf) (max maxRank (rankOf nodes leaf))
        (by simpa using hbound leaf hleaf) (hkeep _ _ hup) (by
          intro j hj
          rw [length_setParent] at hj ⊢
          rw [hparent, Function.update_apply]
          split
          . exact hlt
          . exact hbound j hj)
      simp only [length_setParent] at this
      exact ⟨this.1, this.2.1, fun j s h => this.2.2 j s (hkeep j s h)⟩

end Node

namespace DisjointSetForest

variable {α : Type} [DecidableEq α] {forest : DisjointSetForest α} {rep : Nat → Nat} {element : α}

theorem Partitions.nodeId_lt (h : forest.Partitions rep) (hmem : element ∈ forest.elements)
    : forest.nodeId element < forest.nodes.length := by
  rw [h.length]
  exact List.idxOf_lt_length_of_mem hmem

omit [DecidableEq α] in
theorem Partitions.rep_lt (h : forest.Partitions rep) {i : Nat} (hi : i < forest.nodes.length)
    : rep i < forest.nodes.length :=
  @Parents.Reaches.closed _ _ _ _ (· < forest.nodes.length) h.bound (h.reaches i hi) hi

omit [DecidableEq α] in
theorem Partitions.rep_rep (h : forest.Partitions rep) {i : Nat} (hi : i < forest.nodes.length)
    : rep (rep i) = rep i :=
  (h.reaches _ (h.rep_lt hi)).eq_of_isRoot (h.reaches i hi).isRoot

theorem find_fst (h : forest.Partitions rep) (hmem : element ∈ forest.elements)
    : (forest.find element).1 = rep (forest.nodeId element) :=
  Parents.climb_eq_of_reaches h.bound (h.nodeId_lt hmem) (h.reaches _ (h.nodeId_lt hmem))

@[simp]
theorem find_elements : (forest.find element).2.elements = forest.elements := rfl

@[simp]
theorem find_nodeId (element' : α)
    : (forest.find element).2.nodeId element' = forest.nodeId element' := rfl

/--
`find` changes the parents only, and the sets stay as they are.
-/
theorem find_partitions (h : forest.Partitions rep) (hmem : element ∈ forest.elements)
    : (forest.find element).2.Partitions rep ∧
      (forest.find element).2.nodes.length = forest.nodes.length := by
  have hnode := h.nodeId_lt hmem
  have hroot := h.reaches _ hnode
  rw [← find_fst h hmem] at hroot
  obtain ⟨hlen, hbound, hkeep⟩ :=
    @Node.compressNodes_reaches forest.nodes _ forest.nodes.length _ 0 hnode hroot h.bound
  have hlen' : (forest.find element).2.nodes.length = forest.nodes.length := by
    rw [← hlen]
    exact Node.length_setRank
  have hparent : Node.parentOf (forest.find element).2.nodes
      = Node.parentOf (Node.compressNodes (forest.find element).1 forest.nodes.length forest.nodes
          (forest.nodeId element) 0).1 :=
    Node.parentOf_setRank
  refine ⟨⟨h.nodup, ?_, ?_, ?_⟩, hlen'⟩
  . rw [hlen', find_elements, h.length]
  . rw [hlen', hparent]
    exact hbound
  . rw [hlen', hparent]
    intro i hi
    exact hkeep i _ (h.reaches i hi)

omit [DecidableEq α] in
theorem Partitions.link (h : forest.Partitions rep) {a b : Nat} (ha : a < forest.nodes.length)
    (hb : b < forest.nodes.length) (hra : rep a = a) (hrb : rep b = b) (hne : a ≠ b)
    {nodes : List Node} (hlen : nodes.length = forest.nodes.length)
    (hparent : Node.parentOf nodes = Function.update (Node.parentOf forest.nodes) a b)
    : ({ forest with nodes } : DisjointSetForest α).Partitions fun i =>
        if rep i = a then b else rep i := by
  have hroot : ∀ r < forest.nodes.length, rep r = r → Node.parentOf forest.nodes r = r := by
    intro r hr heq
    have := (h.reaches r hr).isRoot
    rwa [heq] at this
  refine ⟨h.nodup, hlen.trans h.length, ?_, ?_⟩
  . intro i hi
    rw [hparent, Function.update_apply, hlen]
    split
    . exact hb
    . exact h.bound i (hlen ▸ hi)
  . intro i hi
    rw [hparent]
    exact (h.reaches i (hlen ▸ hi)).link (hroot a ha hra) (hroot b hb hrb) hne

/--
`merge` moves one of the two sets to the root of the other. Which one it is depends on the ranks.
-/
theorem merge_partitions {x y : α} (h : forest.Partitions rep) (hx : x ∈ forest.elements)
    (hy : y ∈ forest.elements) (hne : rep (forest.nodeId x) ≠ rep (forest.nodeId y))
    : ∃ a b, (a = rep (forest.nodeId x) ∧ b = rep (forest.nodeId y) ∨
          a = rep (forest.nodeId y) ∧ b = rep (forest.nodeId x)) ∧
        (forest.merge x y).Partitions (fun i => if rep i = a then b else rep i) ∧
        (forest.merge x y).nodes.length = forest.nodes.length ∧
        (forest.merge x y).elements = forest.elements := by
  obtain ⟨h₁, hlen₁⟩ := find_partitions h hx
  have hy' : y ∈ (forest.find x).2.elements := hy
  obtain ⟨h₂, hlen₂⟩ := find_partitions h₁ hy'
  have hroot₁ := find_fst h hx
  have hroot₂ := find_fst h₁ hy'
  rw [find_nodeId] at hroot₂
  have hlt₁ : rep (forest.nodeId x) < ((forest.find x).2.find y).2.nodes.length := by
    rw [hlen₂, hlen₁]
    exact h.rep_lt (h.nodeId_lt hx)
  have hlt₂ : rep (forest.nodeId y) < ((forest.find x).2.find y).2.nodes.length := by
    rw [hlen₂, hlen₁]
    exact h.rep_lt (h.nodeId_lt hy)
  have hrep₁ := h.rep_rep (h.nodeId_lt hx)
  have hrep₂ := h.rep_rep (h.nodeId_lt hy)
  rw [merge]
  simp only [hroot₁, hroot₂, if_neg hne]
  split
  . refine ⟨_, _, .inr ⟨rfl, rfl⟩, ?_, by simp [hlen₂, hlen₁], rfl⟩
    exact h₂.link hlt₂ hlt₁ hrep₂ hrep₁ hne.symm (by simp) (Node.parentOf_setParent hlt₂)
  . split
    . refine ⟨_, _, .inl ⟨rfl, rfl⟩, ?_, by simp [hlen₂, hlen₁], rfl⟩
      exact h₂.link hlt₁ hlt₂ hrep₁ hrep₂ hne (by simp) (Node.parentOf_setParent hlt₁)
    . refine ⟨_, _, .inl ⟨rfl, rfl⟩, ?_, by simp [hlen₂, hlen₁], rfl⟩
      apply h₂.link hlt₁ hlt₂ hrep₁ hrep₂ hne (by simp)
      rw [Node.parentOf_setRank]
      exact Node.parentOf_setParent hlt₁

theorem find_merge_partitions {x y : α} (h : forest.Partitions rep) (hx : x ∈ forest.elements)
    (hy : y ∈ forest.elements) (hne : rep (forest.nodeId x) ≠ rep (forest.nodeId y))
    : ∃ a b forest',
        (a = rep (forest.nodeId x) ∧ b = rep (forest.nodeId y) ∨
          a = rep (forest.nodeId y) ∧ b = rep (forest.nodeId x)) ∧
        (((forest.find x).2.find y).2.merge x y).find x = (b, forest') ∧
        forest'.Partitions (fun i => if rep i = a then b else rep i) ∧
        forest'.nodes.length = forest.nodes.length ∧ forest'.elements = forest.elements := by
  obtain ⟨h₁, hlen₁⟩ := find_partitions h hx
  have hy₁ : y ∈ (forest.find x).2.elements := hy
  obtain ⟨h₂, hlen₂⟩ := find_partitions h₁ hy₁
  obtain ⟨a, b, hab, h₃, hlen₃, helem₃⟩ := merge_partitions h₂ (x := x) (y := y) hx hy hne
  simp only [find_nodeId] at hab
  have hx₃ : x ∈ (((forest.find x).2.find y).2.merge x y).elements := helem₃ ▸ hx
  obtain ⟨h₄, hlen₄⟩ := find_partitions h₃ hx₃
  have hnode : (((forest.find x).2.find y).2.merge x y).nodeId x = forest.nodeId x := by
    rw [nodeId, helem₃]
    rfl
  have hroot := find_fst h₃ hx₃
  refine ⟨a, b, _, hab, Prod.ext ?_ rfl, h₄, by rw [hlen₄, hlen₃, hlen₂, hlen₁], ?_⟩
  rotate_left
  . rw [find_elements, helem₃]
    rfl
  rw [hroot, hnode]
  rcases hab with ⟨rfl, rfl⟩ | ⟨rfl, rfl⟩
  . rw [if_pos rfl]
  . rw [if_neg hne]

/-! `makeSet` adds sets of one element. -/

omit [DecidableEq α] in
theorem empty_partitions : (empty : DisjointSetForest α).Partitions id :=
  ⟨List.nodup_nil, rfl, by simp [empty], by simp [empty]⟩

theorem mem_makeSet {x : α}
    : x ∈ (forest.makeSet element).elements ↔ x ∈ forest.elements ∨ x = element := by
  rw [makeSet]
  split
  . next h =>
    constructor
    . exact .inl
    . rintro (hx | rfl)
      . exact hx
      . exact h
  . simp

theorem parentOf_concat (nodes : List Node)
    : Node.parentOf (nodes ++ [⟨0, nodes.length⟩]) = Node.parentOf nodes := by
  funext i
  by_cases hi : i < nodes.length
  . simp [Node.parentOf, List.getElem?_append_left hi]
  . by_cases hi' : i = nodes.length
    . subst hi'
      simp [Node.parentOf]
    . have hlast : (nodes ++ [(⟨0, nodes.length⟩ : Node)])[i]? = none := by
        apply List.getElem?_eq_none
        rw [List.length_append, List.length_singleton]
        omega
      simp [Node.parentOf, hlast, Nat.le_of_not_lt hi]

theorem makeSet_of_mem (h : element ∈ forest.elements) : forest.makeSet element = forest :=
  if_pos h

theorem makeSet_partitions (h : forest.Partitions rep) (hmem : element ∉ forest.elements)
    : (forest.makeSet element).Partitions (Function.update rep forest.nodes.length forest.nodes.length) := by
  rw [makeSet, if_neg hmem]
  have hlast : Node.parentOf forest.nodes forest.nodes.length = forest.nodes.length := by
    simp [Node.parentOf]
  refine ⟨?_, by simp [h.length], ?_, ?_⟩
  . rw [List.nodup_append]
    refine ⟨h.nodup, List.nodup_singleton _, ?_⟩
    rintro a ha b hb rfl
    rw [List.mem_singleton.mp hb] at ha
    exact hmem ha
  . intro i hi
    rw [List.length_append, List.length_singleton] at hi ⊢
    rw [parentOf_concat]
    by_cases heq : i = forest.nodes.length
    . rw [heq, hlast]
      exact Nat.lt_succ_self _
    . exact Nat.lt_succ_of_lt (h.bound i (by omega))
  . intro i hi
    rw [List.length_append, List.length_singleton] at hi
    rw [parentOf_concat]
    by_cases heq : i = forest.nodes.length
    . rw [heq, Function.update_self]
      exact .root hlast
    . rw [Function.update_of_ne heq]
      exact h.reaches i (by omega)

theorem makeSets_partitions (xs : List α) (h : forest.Partitions id)
    : (xs.foldl makeSet forest).Partitions id ∧
      ∀ x, x ∈ (xs.foldl makeSet forest).elements ↔ x ∈ forest.elements ∨ x ∈ xs := by
  induction xs generalizing forest with
  | nil => exact ⟨h, by simp⟩
  | cons y ys ih =>
    have hstep : (forest.makeSet y).Partitions id := by
      by_cases hmem : y ∈ forest.elements
      . rwa [makeSet_of_mem hmem]
      . have := makeSet_partitions h hmem
        rwa [show Function.update (id : Nat → Nat) _ forest.nodes.length = id from Function.update_eq_self _ id] at this
    obtain ⟨hpart, hmem⟩ := ih hstep
    refine ⟨hpart, ?_⟩
    intro x
    rw [List.foldl_cons, hmem, mem_makeSet, List.mem_cons, or_assoc]

end DisjointSetForest

end Hustle.Optimizer
