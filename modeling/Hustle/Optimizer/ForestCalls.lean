import Hustle.Optimizer.DisjointSetForest
import Hustle.Util.ClassNames

/-!
This module contains sequences of calls to a disjoint set forest. The loops that follow the parents have steps to
spare or fail, and so does an access to a node that does not exist.
-/

namespace Hustle.Optimizer

namespace Node

/--
The loop of `find`.
-/
def rootLoop (nodes : List Node) : Nat → Nat → Option Nat
  | 0, _ => none
  | fuel + 1, rootId => do
    let node ← nodes[rootId]?
    if node.parent = rootId then return rootId else rootLoop nodes fuel node.parent

/--
The loop of `compress_path`.
-/
def compressLoop (root : Nat) : Nat → List Node → Nat → Nat → Option (List Node × Nat)
  | 0, _, _, _ => none
  | fuel + 1, nodes, nodeId, maxRank =>
    if nodeId = root then
      some (nodes, maxRank)
    else do
      let node ← nodes[nodeId]?
      compressLoop root fuel (setParent nodes nodeId root) node.parent (max maxRank node.rank)

end Node

inductive ForestCall (α : Type) where
  | makeSet (element : α)
  | find (element : α)
  | merge (element₁ element₂ : α)
  | isConnected (element₁ element₂ : α)
  deriving DecidableEq, Repr

namespace ForestCall

variable {α : Type}

def arguments : ForestCall α → List α
  | makeSet _ => []
  | find x => [x]
  | merge x y => [x, y]
  | isConnected x y => [x, y]

def added : ForestCall α → List α
  | makeSet x => [x]
  | _ => []

/--
Every call is about elements that were added.
-/
def Legal (elements : List α) : List (ForestCall α) → Prop
  | [] => True
  | call :: calls => (∀ x ∈ call.arguments, x ∈ elements) ∧ Legal (call.added ++ elements) calls

instance decidableLegal [DecidableEq α] : (elements : List α) → (calls : List (ForestCall α))
    → Decidable (Legal elements calls)
  | _, [] => isTrue trivial
  | elements, call :: calls =>
    have := decidableLegal (call.added ++ elements) calls
    inferInstanceAs (Decidable ((∀ x ∈ call.arguments, x ∈ elements) ∧ Legal (call.added ++ elements) calls))

def Merged (calls : List (ForestCall α)) (x y : α) : Prop :=
  merge x y ∈ calls

end ForestCall

namespace DisjointSetForest

section

variable {α : Type} [DecidableEq α]

/--
`find`, in whose loops there are `fuel` steps to spare.
-/
def findWith (fuel : Nat) (forest : DisjointSetForest α) (element : α) : Option (Nat × DisjointSetForest α) :=
  if element ∈ forest.elements then do
    let nodeId := forest.nodeId element
    let rootId ← Node.rootLoop forest.nodes fuel nodeId
    let (nodes, maxRank) ← Node.compressLoop rootId fuel forest.nodes nodeId 0
    return (rootId, { forest with nodes := Node.setRank nodes rootId (maxRank + 1) })
  else
    none

def mergeWith (fuel : Nat) (forest : DisjointSetForest α) (element₁ element₂ : α) : Option (DisjointSetForest α) := do
  let (root₁, forest) ← forest.findWith fuel element₁
  let (root₂, forest) ← forest.findWith fuel element₂
  if root₁ = root₂ then
    return forest
  else
    let n₁ ← forest.nodes[root₁]?
    let n₂ ← forest.nodes[root₂]?
    if n₂.rank < n₁.rank then
      return { forest with nodes := Node.setParent forest.nodes root₂ root₁ }
    else if n₁.rank < n₂.rank then
      return { forest with nodes := Node.setParent forest.nodes root₁ root₂ }
    else
      return { forest with nodes := Node.setRank (Node.setParent forest.nodes root₁ root₂) root₂ (n₂.rank + 1) }

def isConnectedWith (fuel : Nat) (forest : DisjointSetForest α) (element₁ element₂ : α)
    : Option (Bool × DisjointSetForest α) := do
  let (root₁, forest) ← forest.findWith fuel element₁
  let (root₂, forest) ← forest.findWith fuel element₂
  return (root₁ = root₂, forest)

def call (fuel : Nat) (forest : DisjointSetForest α) : ForestCall α → Option (DisjointSetForest α)
  | .makeSet x => some (forest.makeSet x)
  | .find x => (forest.findWith fuel x).map Prod.snd
  | .merge x y => forest.mergeWith fuel x y
  | .isConnected x y => (forest.isConnectedWith fuel x y).map Prod.snd

def run (fuel : Nat) (forest : DisjointSetForest α) (calls : List (ForestCall α)) : Option (DisjointSetForest α) :=
  calls.foldlM (call fuel) forest

/--
Following the parents from a node never leads back to it, unless it is a root.
-/
def Acyclic (forest : DisjointSetForest α) : Prop :=
  ∀ i < forest.nodes.length, ∀ k, 0 < k → (Node.parentOf forest.nodes)^[k] i = i → Node.parentOf forest.nodes i = i

end

end DisjointSetForest

namespace Node

variable {nodes : List Node} {i r root k fuel fuel' : Nat}

theorem parentOf_of_getElem? {node : Node} (h : nodes[i]? = some node) : parentOf nodes i = node.parent := by
  simp [parentOf, h]

theorem rankOf_of_getElem? {node : Node} (h : nodes[i]? = some node) : rankOf nodes i = node.rank := by
  simp [rankOf, h]

/--
The loop of `find` ends at the root.
-/
theorem rootLoop_eq_some (hbound : ∀ j < nodes.length, parentOf nodes j < nodes.length) (hi : i < nodes.length)
    (hroot : parentOf nodes r = r) (hk : (parentOf nodes)^[k] i = r) (hfuel : k < fuel)
    : rootLoop nodes fuel i = some r := by
  induction k generalizing i fuel with
  | zero =>
    obtain ⟨fuel, rfl⟩ := Nat.exists_eq_add_one_of_ne_zero (Nat.ne_of_gt hfuel)
    have hnode := List.getElem?_eq_getElem hi
    have hparent := parentOf_of_getElem? hnode
    have hroot' : i = r := hk
    subst hroot'
    rw [hroot] at hparent
    simp [rootLoop, hnode, ← hparent]
  | succ k ih =>
    obtain ⟨fuel, rfl⟩ := Nat.exists_eq_add_one_of_ne_zero (Nat.ne_of_gt (Nat.zero_lt_of_lt hfuel))
    have hnode := List.getElem?_eq_getElem hi
    have hparent := parentOf_of_getElem? hnode
    simp only [rootLoop, hnode, Option.bind_eq_bind, Option.bind_some, ← hparent]
    split
    . next hself =>
      rw [Function.iterate_fixed hself] at hk
      rw [hk]
      rfl
    . exact ih (hbound i hi) hk (Nat.lt_of_succ_lt_succ hfuel)

/--
The loop of `compress_path` ends at the root, too. A node it has attached to the root is no longer way from it.
-/
theorem compressLoop_eq_some {maxRank : Nat} (hlt : root < nodes.length)
    (hbound : ∀ j < nodes.length, parentOf nodes j < nodes.length) (hi : i < nodes.length)
    (hroot : parentOf nodes root = root) (hk : (parentOf nodes)^[k] i = root) (hfuel : k < fuel) (hfuel' : k ≤ fuel')
    : compressLoop root fuel nodes i maxRank = some (compressNodes root fuel' nodes i maxRank) := by
  induction k generalizing nodes i maxRank fuel fuel' with
  | zero =>
    obtain ⟨fuel, rfl⟩ := Nat.exists_eq_add_one_of_ne_zero (Nat.ne_of_gt hfuel)
    have hroot' : i = root := hk
    subst hroot'
    rw [compressLoop, if_pos rfl]
    cases fuel' with
    | zero => rfl
    | succ fuel' => rw [compressNodes, if_pos rfl]
  | succ k ih =>
    obtain ⟨fuel, rfl⟩ := Nat.exists_eq_add_one_of_ne_zero (Nat.ne_of_gt (Nat.zero_lt_of_lt hfuel))
    obtain ⟨fuel', rfl⟩ := Nat.exists_eq_add_one_of_ne_zero (Nat.ne_of_gt (Nat.zero_lt_of_lt hfuel'))
    rw [compressLoop, compressNodes]
    split
    . rfl
    . next hne =>
      have hnode := List.getElem?_eq_getElem hi
      have hparent := @parentOf_setParent nodes i root hi
      simp only [hnode, Option.bind_eq_bind, Option.bind_some, ← parentOf_of_getElem? hnode,
        ← rankOf_of_getElem? hnode]
      apply ih
      . rwa [length_setParent]
      . intro j hj
        rw [length_setParent] at hj ⊢
        rw [hparent, Function.update_apply]
        split
        . exact hlt
        . exact hbound j hj
      . rw [length_setParent]
        exact hbound i hi
      . rw [hparent, Function.update_of_ne (Ne.symm hne), hroot]
      . rw [hparent]
        exact Parents.iterate_redirect hroot hk
      . exact Nat.lt_of_succ_lt_succ hfuel
      . exact Nat.le_of_succ_le_succ hfuel'

end Node

namespace DisjointSetForest

variable {α : Type} [DecidableEq α] {forest : DisjointSetForest α} {rep : Nat → Nat} {fuel : Nat} {x y : α}

omit [DecidableEq α] in
theorem Partitions.iterate_eq (h : forest.Partitions rep) {i : Nat} (hi : i < forest.nodes.length)
    : (Node.parentOf forest.nodes)^[forest.nodes.length] i = rep i := by
  rw [← Parents.climb_eq_iterate]
  exact Parents.climb_eq_of_reaches h.bound hi (h.reaches i hi)

omit [DecidableEq α] in
theorem Partitions.acyclic (h : forest.Partitions rep) : forest.Acyclic := by
  intro i hi k hk hcycle
  exact (h.reaches i hi).eq_of_iterate hk hcycle

/--
`find` terminates: there are not more steps than nodes.
-/
theorem findWith_eq_some (h : forest.Partitions rep) (hx : x ∈ forest.elements) (hfuel : forest.nodes.length < fuel)
    : forest.findWith fuel x = some (forest.find x) := by
  have hnode := h.nodeId_lt hx
  have hsteps := h.iterate_eq hnode
  have hroot := (h.reaches _ hnode).isRoot
  have hloop := Node.rootLoop_eq_some h.bound hnode hroot hsteps hfuel
  have hcompress := @Node.compressLoop_eq_some _ _ _ _ _ forest.nodes.length 0 (h.rep_lt hnode) h.bound hnode hroot
    hsteps hfuel (Nat.le_refl _)
  have hfind := find_fst h hx
  simp only [findWith, if_pos hx, hloop, hcompress, Option.bind_eq_bind, Option.bind_some]
  rw [← hfind]
  rfl

theorem mergeWith_eq_some (h : forest.Partitions rep) (hx : x ∈ forest.elements) (hy : y ∈ forest.elements)
    (hfuel : forest.nodes.length < fuel)
    : forest.mergeWith fuel x y = some (forest.merge x y) := by
  obtain ⟨h₁, hlen₁⟩ := find_partitions h hx
  have hy₁ : y ∈ (forest.find x).2.elements := hy
  obtain ⟨h₂, hlen₂⟩ := find_partitions h₁ hy₁
  have hroot₁ : (forest.find x).1 < ((forest.find x).2.find y).2.nodes.length := by
    rw [find_fst h hx, hlen₂, hlen₁]
    exact h.rep_lt (h.nodeId_lt hx)
  have hroot₂ : ((forest.find x).2.find y).1 < ((forest.find x).2.find y).2.nodes.length := by
    rw [find_fst h₁ hy₁, hlen₂]
    exact h₁.rep_lt (h₁.nodeId_lt hy₁)
  have hn₁ := List.getElem?_eq_getElem hroot₁
  have hn₂ := List.getElem?_eq_getElem hroot₂
  have hfind₂ := findWith_eq_some h₁ hy₁ (hlen₁.symm ▸ hfuel)
  simp only [mergeWith, merge, findWith_eq_some h hx hfuel, hfind₂, Option.bind_eq_bind, Option.bind_some, hn₁, hn₂,
    Node.rankOf_of_getElem? hn₁, Node.rankOf_of_getElem? hn₂]
  split
  . rfl
  . split
    . rfl
    . split <;> rfl

theorem isConnectedWith_eq_some (h : forest.Partitions rep) (hx : x ∈ forest.elements) (hy : y ∈ forest.elements)
    (hfuel : forest.nodes.length < fuel)
    : forest.isConnectedWith fuel x y
        =
      some (decide (rep (forest.nodeId x) = rep (forest.nodeId y)), ((forest.find x).2.find y).2) := by
  obtain ⟨h₁, hlen₁⟩ := find_partitions h hx
  have hy₁ : y ∈ (forest.find x).2.elements := hy
  have hfind₂ := findWith_eq_some h₁ hy₁ (hlen₁.symm ▸ hfuel)
  have hroot₂ := find_fst h₁ hy₁
  rw [find_nodeId] at hroot₂
  simp only [isConnectedWith, findWith_eq_some h hx hfuel, hfind₂, Option.bind_eq_bind, Option.bind_some,
    find_fst h hx, hroot₂]
  rfl

theorem merge_of_eq (h : forest.Partitions rep) (hx : x ∈ forest.elements) (hy : y ∈ forest.elements)
    (heq : rep (forest.nodeId x) = rep (forest.nodeId y))
    : forest.merge x y = ((forest.find x).2.find y).2 := by
  have hroot₂ := find_fst (find_partitions h hx).1 (show y ∈ (forest.find x).2.elements from hy)
  rw [find_nodeId] at hroot₂
  simp only [merge, find_fst h hx, hroot₂, if_pos heq]

theorem merge_shape (h : forest.Partitions rep) (hx : x ∈ forest.elements) (hy : y ∈ forest.elements)
    : (forest.merge x y).elements = forest.elements ∧ (forest.merge x y).nodes.length = forest.nodes.length := by
  by_cases heq : rep (forest.nodeId x) = rep (forest.nodeId y)
  . obtain ⟨hpart₁, hlen₁⟩ := find_partitions h hx
    have hlen₂ := (find_partitions hpart₁ (show y ∈ (forest.find x).2.elements from hy)).2
    rw [merge_of_eq h hx hy heq]
    exact ⟨rfl, hlen₂.trans hlen₁⟩
  . obtain ⟨_, _, _, _, hlen, helements⟩ := merge_partitions h hx hy heq
    exact ⟨helements, hlen⟩

/-! The classes. -/

/--
The class of an element: the root of its tree, or the element itself if it has not been added.
-/
def nameOf (forest : DisjointSetForest α) (rep : Nat → Nat) (x : α) : Nat ⊕ α :=
  if x ∈ forest.elements then .inl (rep (forest.nodeId x)) else .inr x

/--
The trees are the classes of the closure of `r`.
-/
def Tracks (forest : DisjointSetForest α) (r : α → α → Prop) : Prop :=
  ∃ rep, forest.Partitions rep ∧ ClassNames.Names r (forest.nameOf rep)

variable {r : α → α → Prop}

theorem nameOf_of_mem (h : x ∈ forest.elements) : forest.nameOf rep x = .inl (rep (forest.nodeId x)) :=
  if_pos h

theorem nameOf_of_not_mem (h : x ∉ forest.elements) : forest.nameOf rep x = .inr x :=
  if_neg h

theorem empty_tracks : (empty : DisjointSetForest α).Tracks fun _ _ => False := by
  refine ⟨id, empty_partitions, ClassNames.names_of_injective ?_⟩
  intro x y h
  rw [nameOf_of_not_mem (by simp [empty]), nameOf_of_not_mem (by simp [empty])] at h
  exact Sum.inr.inj h

theorem nameOf_makeSet (hpart : forest.Partitions rep) (hx : x ∉ forest.elements) (y : α)
    : (forest.makeSet x).nameOf (Function.update rep forest.nodes.length forest.nodes.length) y
        =
      if y = x then .inl forest.nodes.length else forest.nameOf rep y := by
  have helements : (forest.makeSet x).elements = forest.elements ++ [x] := by rw [makeSet, if_neg hx]
  split
  . next heq =>
    subst heq
    have hid : (forest.makeSet y).nodeId y = forest.nodes.length := by
      rw [nodeId, helements, List.idxOf_append_of_notMem hx, List.idxOf_cons_self, hpart.length, Nat.add_zero]
    rw [nameOf_of_mem (mem_makeSet.mpr (.inr rfl)), hid, Function.update_self]
  . next hne =>
    by_cases hy : y ∈ forest.elements
    . have hid : (forest.makeSet x).nodeId y = forest.nodeId y := by
        rw [nodeId, helements, List.idxOf_append_of_mem hy]
        rfl
      have hlt := Nat.ne_of_lt (hpart.nodeId_lt hy)
      rw [nameOf_of_mem (mem_makeSet.mpr (.inl hy)), nameOf_of_mem hy, hid, Function.update_of_ne hlt]
    . have hnot : y ∉ (forest.makeSet x).elements := by
        rw [mem_makeSet]
        rintro (hmem | heq)
        . exact hy hmem
        . exact hne heq
      rw [nameOf_of_not_mem hnot, nameOf_of_not_mem hy]

theorem Tracks.makeSet (h : forest.Tracks r) (x : α) : (forest.makeSet x).Tracks r := by
  by_cases hx : x ∈ forest.elements
  . rwa [makeSet_of_mem hx]
  . obtain ⟨rep, hpart, hnames⟩ := h
    refine ⟨_, makeSet_partitions hpart hx, ?_⟩
    have halone : ∀ y, forest.nameOf rep y = forest.nameOf rep x → y = x := by
      intro y heq
      rw [nameOf_of_not_mem hx] at heq
      by_cases hy : y ∈ forest.elements
      . rw [nameOf_of_mem hy] at heq
        exact absurd heq Sum.inl_ne_inr
      . rw [nameOf_of_not_mem hy] at heq
        exact Sum.inr.inj heq
    have hfresh : ∀ y, y ≠ x → forest.nameOf rep y ≠ .inl forest.nodes.length := by
      intro y _ heq
      by_cases hy : y ∈ forest.elements
      . rw [nameOf_of_mem hy] at heq
        exact Nat.ne_of_lt (hpart.rep_lt (hpart.nodeId_lt hy)) (Sum.inl.inj heq)
      . rw [nameOf_of_not_mem hy] at heq
        exact absurd heq Sum.inr_ne_inl
    apply (hnames.rename_alone halone hfresh).congr
    intro y z
    rw [nameOf_makeSet hpart hx, nameOf_makeSet hpart hx]

theorem Tracks.find (h : forest.Tracks r) (hx : x ∈ forest.elements) : (forest.find x).2.Tracks r := by
  obtain ⟨rep, hpart, hnames⟩ := h
  exact ⟨rep, (find_partitions hpart hx).1, hnames⟩

theorem Tracks.merge (h : forest.Tracks r) (hx : x ∈ forest.elements) (hy : y ∈ forest.elements)
    : (forest.merge x y).Tracks (ClassNames.link r x y) := by
  obtain ⟨rep, hpart, hnames⟩ := h
  by_cases heq : rep (forest.nodeId x) = rep (forest.nodeId y)
  . rw [merge_of_eq hpart hx hy heq]
    have hpart₁ := (find_partitions hpart hx).1
    refine ⟨rep, (find_partitions hpart₁ (show y ∈ (forest.find x).2.elements from hy)).1, ?_⟩
    apply ClassNames.Names.link_of_eq hnames
    rw [nameOf_of_mem hx, nameOf_of_mem hy, heq]
  . obtain ⟨a, b, hab, hmerged, -, helements⟩ := merge_partitions hpart hx hy heq
    refine ⟨_, hmerged, hnames.link ?_⟩
    have hname : ∀ z, (forest.merge x y).nameOf (fun i => if rep i = a then b else rep i) z
        = if forest.nameOf rep z = .inl a then .inl b else forest.nameOf rep z := by
      intro z
      have hid : (forest.merge x y).nodeId z = forest.nodeId z := by
        rw [nodeId, helements]
        rfl
      by_cases hz : z ∈ forest.elements
      . rw [nameOf_of_mem hz, nameOf_of_mem (helements.symm ▸ hz), hid]
        by_cases hrep : rep (forest.nodeId z) = a
        . rw [if_pos hrep, if_pos (congrArg Sum.inl hrep)]
        . rw [if_neg hrep, if_neg fun h => hrep (Sum.inl.inj h)]
      . rw [nameOf_of_not_mem hz, nameOf_of_not_mem (helements.symm ▸ hz), if_neg Sum.inr_ne_inl]
    intro z z'
    rw [hname, hname, ClassNames.rename_eq_iff, nameOf_of_mem hx, nameOf_of_mem hy]
    rcases hab with ⟨rfl, rfl⟩ | ⟨rfl, rfl⟩
    . rfl
    . apply or_congr_right
      exact and_congr or_comm or_comm

/-! Calls. -/

def after (forest : DisjointSetForest α) : ForestCall α → DisjointSetForest α
  | .makeSet x => forest.makeSet x
  | .find x => (forest.find x).2
  | .merge x y => forest.merge x y
  | .isConnected x y => ((forest.find x).2.find y).2

/--
The spec of a call.
-/
theorem Tracks.call (h : forest.Tracks r) {c : ForestCall α} (hargs : ∀ x ∈ c.arguments, x ∈ forest.elements)
    : (∀ fuel > forest.nodes.length, forest.call fuel c = some (forest.after c)) ∧
        (forest.after c).Tracks (fun x y => r x y ∨ c = .merge x y) ∧
        (∀ x, x ∈ (forest.after c).elements ↔ x ∈ forest.elements ∨ c = .makeSet x) ∧
        (forest.after c).nodes.length ≤ forest.nodes.length + 1 := by
  obtain ⟨rep, hpart, hnames⟩ := id h
  cases c with
  | makeSet x =>
    refine ⟨fun _ _ => rfl, ?_, ?_, ?_⟩
    . obtain ⟨rep', hpart', hnames'⟩ := h.makeSet x
      exact ⟨rep', hpart', hnames'.congr_rel fun _ _ => by simp⟩
    . intro y
      rw [after, mem_makeSet, ForestCall.makeSet.injEq, eq_comm (a := x)]
    . rw [after, DisjointSetForest.makeSet]
      split
      . exact Nat.le_succ _
      . simp
  | find x =>
    have hx : x ∈ forest.elements := hargs x (by simp [ForestCall.arguments])
    obtain ⟨rep', hpart', hnames'⟩ := h.find hx
    refine ⟨?_, ⟨rep', hpart', hnames'.congr_rel fun _ _ => by simp⟩, fun y => by simp [after], ?_⟩
    . intro fuel hfuel
      rw [DisjointSetForest.call, findWith_eq_some hpart hx hfuel]
      rfl
    . rw [after, (find_partitions hpart hx).2]
      exact Nat.le_succ _
  | merge x y =>
    have hx : x ∈ forest.elements := hargs x (by simp [ForestCall.arguments])
    have hy : y ∈ forest.elements := hargs y (by simp [ForestCall.arguments])
    obtain ⟨helements, hlen⟩ := merge_shape hpart hx hy
    obtain ⟨rep', hpart', hnames'⟩ := h.merge hx hy
    refine ⟨?_, ⟨rep', hpart', hnames'.congr_rel ?_⟩, fun z => by simp [after, helements], ?_⟩
    . intro fuel hfuel
      exact mergeWith_eq_some hpart hx hy hfuel
    . intro z z'
      rw [ClassNames.link, ForestCall.merge.injEq, eq_comm (a := x), eq_comm (a := y)]
    . rw [after, hlen]
      exact Nat.le_succ _
  | isConnected x y =>
    have hx : x ∈ forest.elements := hargs x (by simp [ForestCall.arguments])
    have hy : y ∈ forest.elements := hargs y (by simp [ForestCall.arguments])
    have hy₁ : y ∈ (forest.find x).2.elements := hy
    obtain ⟨hpart₁, hlen₁⟩ := find_partitions hpart hx
    obtain ⟨rep', hpart', hnames'⟩ := (h.find hx).find hy₁
    refine ⟨?_, ⟨rep', hpart', hnames'.congr_rel fun _ _ => by simp⟩, fun z => by simp [after], ?_⟩
    . intro fuel hfuel
      rw [DisjointSetForest.call, isConnectedWith_eq_some hpart hx hy hfuel]
      rfl
    . rw [after, (find_partitions hpart₁ hy₁).2, hlen₁]
      exact Nat.le_succ _

theorem Tracks.run (h : forest.Tracks r) {elements : List α} (helements : ∀ x ∈ elements, x ∈ forest.elements)
    {calls : List (ForestCall α)} (hlegal : ForestCall.Legal elements calls)
    : (∀ fuel > forest.nodes.length + calls.length, forest.run fuel calls = some (calls.foldl after forest)) ∧
        (calls.foldl after forest).Tracks (fun x y => r x y ∨ ForestCall.Merged calls x y) ∧
        (∀ x, x ∈ (calls.foldl after forest).elements ↔ x ∈ forest.elements ∨ .makeSet x ∈ calls) ∧
        (calls.foldl after forest).nodes.length ≤ forest.nodes.length + calls.length := by
  induction calls generalizing forest r elements with
  | nil =>
    refine ⟨fun _ _ => rfl, ?_, by simp, Nat.le_refl _⟩
    obtain ⟨rep, hpart, hnames⟩ := h
    exact ⟨rep, hpart, hnames.congr_rel fun _ _ => by simp [ForestCall.Merged]⟩
  | cons c calls ih =>
    obtain ⟨hargs, hlegal⟩ := hlegal
    obtain ⟨hcall, htracks, hadded, hlen⟩ := h.call fun x hx => helements x (hargs x hx)
    obtain ⟨hrun, ⟨rep, hpart, hnames⟩, hmem, hlength⟩ := ih htracks (by
      intro x hx
      rw [hadded]
      rcases List.mem_append.mp hx with hx | hx
      . cases c with
        | makeSet y => exact .inr (by rw [List.mem_singleton.mp hx])
        | find | merge | isConnected => cases hx
      . exact .inl (helements x hx)) hlegal
    rw [List.foldl_cons, List.length_cons]
    refine ⟨?_, ⟨rep, hpart, hnames.congr_rel ?_⟩, ?_, by omega⟩
    . intro fuel hfuel
      rw [DisjointSetForest.run, List.foldlM_cons, hcall fuel (by omega)]
      exact hrun fuel (by omega)
    . intro x y
      rw [ForestCall.Merged, ForestCall.Merged, List.mem_cons, or_assoc, eq_comm (a := c)]
    . intro x
      rw [hmem, hadded, List.mem_cons, or_assoc, eq_comm (a := c)]

/--
After any calls the trees are the classes of the merges so far. The ranks only say which root stays one, and the paths
that `find` compresses lead to the root they have led to before.
-/
theorem run_maintains {calls : List (ForestCall α)} (h : ForestCall.Legal [] calls)
    : ∃ forest : DisjointSetForest α,
        (∀ fuel > calls.length, empty.run fuel calls = some forest) ∧ forest.Acyclic ∧
          (∀ x, x ∈ forest.elements ↔ .makeSet x ∈ calls) ∧
            ∀ a b, .makeSet a ∈ calls → .makeSet b ∈ calls →
              ∃ connected forest',
                (∀ fuel > calls.length, forest.isConnectedWith fuel a b = some (connected, forest')) ∧
                  (connected = true ↔ Relation.EqvGen (ForestCall.Merged calls) a b) := by
  obtain ⟨hrun, ⟨rep, hpart, hnames⟩, hmem, hlength⟩ := (@empty_tracks α _).run (by simp) h
  have hempty : (empty : DisjointSetForest α).nodes.length = 0 := rfl
  rw [hempty, Nat.zero_add] at hrun hlength
  have hadded : ∀ x, x ∈ (calls.foldl after (empty : DisjointSetForest α)).elements ↔ .makeSet x ∈ calls := by
    intro x
    rw [hmem]
    simp [empty]
  refine ⟨_, hrun, hpart.acyclic, hadded, ?_⟩
  intro a b ha hb
  rw [← hadded] at ha hb
  refine ⟨_, _, fun fuel hfuel => isConnectedWith_eq_some hpart ha hb (by omega), ?_⟩
  have hname := (hnames.congr_rel fun x y => by rw [false_or]) a b
  rw [nameOf_of_mem ha, nameOf_of_mem hb, Sum.inl.injEq] at hname
  rw [decide_eq_true_iff]
  exact hname

/--
The call `find 1` finds a root and sets its rank from 2 to 1.
-/
def rankCalls : List (ForestCall Nat) :=
  [.makeSet 0, .makeSet 1, .makeSet 2, .merge 0 1, .find 1, .merge 2 0, .isConnected 0 2]

example : ((empty.run 8 (rankCalls.take 4)).map fun forest => Node.rankOf forest.nodes 1) = some 2 ∧
    ((empty.run 8 (rankCalls.take 5)).map fun forest => Node.rankOf forest.nodes 1) = some 1 := by decide

theorem run_maintains_rankCalls
    : ForestCall.Legal [] rankCalls ∧
        ∃ forest : DisjointSetForest Nat,
          (∀ fuel > rankCalls.length, empty.run fuel rankCalls = some forest) ∧ forest.Acyclic ∧
            (∀ x, x ∈ forest.elements ↔ .makeSet x ∈ rankCalls) ∧
              ∀ a b, .makeSet a ∈ rankCalls → .makeSet b ∈ rankCalls →
                ∃ connected forest',
                  (∀ fuel > rankCalls.length, forest.isConnectedWith fuel a b = some (connected, forest')) ∧
                    (connected = true ↔ Relation.EqvGen (ForestCall.Merged rankCalls) a b) :=
  ⟨by decide, run_maintains (by decide)⟩

end DisjointSetForest

end Hustle.Optimizer
