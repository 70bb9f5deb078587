import Mathlib.Data.List.AList

/-!
This module contains singly linked lists in a heap: a header with pointers to the first and the last
node and a count, appending a node through the pointer to the last one, and a loop that walks a list,
hands every value to a function and frees the nodes.
-/

namespace SList

abbrev Ptr := Nat

structure Node (α : Type u) where
  val : α
  next : Option Ptr
  deriving DecidableEq

abbrev Heap (α : Type u) := AList fun _ : Ptr => Node α

structure Header where
  head : Option Ptr
  tail : Option Ptr
  currSize : Nat
  deriving DecidableEq

namespace Header

def empty : Header := ⟨none, none, 0⟩

end Header

variable {α σ : Type u}

/--
Let the node at `p` point to `next`, none if there is no such node.
-/
def link (heap : Heap α) (p : Ptr) (next : Option Ptr) : Option (Heap α) := do
  let node ← heap.lookup p
  return heap.insert p { node with next := next }

/--
Append the node at `p`, whose own link is already null.
-/
def push (heap : Heap α) (l : Header) (p : Ptr) : Option (Heap α × Header) := do
  let heap ←
    match l.tail with
    | some tail => link heap tail (some p)
    | none => some heap
  let head :=
    match l.head with
    | some head => some head
    | none => some p
  return (heap, ⟨head, some p, l.currSize + 1⟩)

/--
Walk the list that starts at `head` and free its nodes if asked to, none if the list leaves the heap
or does not end after `fuel` nodes.
-/
def drain (f : σ → α → σ) (free : Bool) : Nat → Heap α → Option Ptr → σ → Option (Heap α × σ)
  | _, heap, none, s => some (heap, s)
  | 0, _, some _, _ => none
  | fuel + 1, heap, some p, s => do
    let node ← heap.lookup p
    drain f free fuel (if free then heap.erase p else heap) node.next (f s node.val)

/--
The nodes from `head` on are `cells`, the last of which points to `stop`.
-/
def Chain (heap : Heap α) : Option Ptr → List (Ptr × α) → Option Ptr → Prop
  | head, [], stop => head = stop
  | head, (p, v) :: cells, stop =>
    head = some p ∧ ∃ next, heap.lookup p = some ⟨v, next⟩ ∧ Chain heap next cells stop

def ptrs (cells : List (Ptr × α)) : List Ptr :=
  cells.map Prod.fst

@[simp]
theorem ptrs_nil : ptrs ([] : List (Ptr × α)) = [] := rfl

@[simp]
theorem ptrs_cons (p : Ptr) (v : α) (cells : List (Ptr × α))
    : ptrs ((p, v) :: cells) = p :: ptrs cells := rfl

@[simp]
theorem ptrs_append (cells cells' : List (Ptr × α))
    : ptrs (cells ++ cells') = ptrs cells ++ ptrs cells' := List.map_append

/--
The list with the given header consists of the nodes `cells`, and its three fields agree.
-/
structure Repr (heap : Heap α) (l : Header) (cells : List (Ptr × α)) : Prop where
  chain : Chain heap l.head cells none
  tail_eq : l.tail = (ptrs cells).getLast?
  currSize_eq : l.currSize = cells.length
  nodup : (ptrs cells).Nodup

theorem empty_repr (heap : Heap α) : Repr heap Header.empty [] where
  chain := rfl
  tail_eq := rfl
  currSize_eq := rfl
  nodup := List.nodup_nil

theorem Repr.eq_empty {heap : Heap α} {l : Header} (h : Repr heap l []) : l = Header.empty := by
  cases l with
  | mk head tail currSize =>
    have hhead := h.chain
    have htail := h.tail_eq
    have hsize := h.currSize_eq
    simp only [Chain] at hhead
    simp only [ptrs_nil, List.getLast?_nil] at htail
    simp only [List.length_nil] at hsize
    rw [hhead, htail, hsize]
    rfl

theorem Chain.congr {heap heap' : Heap α} {head stop : Option Ptr} {cells : List (Ptr × α)}
    (h : Chain heap head cells stop) (heq : ∀ p ∈ ptrs cells, heap'.lookup p = heap.lookup p)
    : Chain heap' head cells stop := by
  induction cells generalizing head with
  | nil => exact h
  | cons cell cells ih =>
    obtain ⟨p, v⟩ := cell
    obtain ⟨hhead, next, hnode, hrest⟩ := h
    refine ⟨hhead, next, ?_, ih hrest ?_⟩
    . rw [heq p (by simp), hnode]
    . intro p' hp'
      exact heq p' (by simp [hp'])

theorem Repr.congr {heap heap' : Heap α} {l : Header} {cells : List (Ptr × α)}
    (h : Repr heap l cells) (heq : ∀ p ∈ ptrs cells, heap'.lookup p = heap.lookup p)
    : Repr heap' l cells where
  chain := h.chain.congr heq
  tail_eq := h.tail_eq
  currSize_eq := h.currSize_eq
  nodup := h.nodup

theorem Chain.append {heap : Heap α} {head mid stop : Option Ptr} {cells cells' : List (Ptr × α)}
    (h : Chain heap head cells mid) (h' : Chain heap mid cells' stop)
    : Chain heap head (cells ++ cells') stop := by
  induction cells generalizing head with
  | nil =>
    rw [show head = mid from h]
    exact h'
  | cons cell cells ih =>
    obtain ⟨hhead, next, hnode, hrest⟩ := h
    exact ⟨hhead, next, hnode, ih hrest⟩

theorem Chain.split {heap : Heap α} {head stop : Option Ptr} {cells cells' : List (Ptr × α)}
    (h : Chain heap head (cells ++ cells') stop)
    : ∃ mid, Chain heap head cells mid ∧ Chain heap mid cells' stop := by
  induction cells generalizing head with
  | nil => exact ⟨head, rfl, h⟩
  | cons cell cells ih =>
    obtain ⟨hhead, next, hnode, hrest⟩ := h
    obtain ⟨mid, hleft, hright⟩ := ih hrest
    exact ⟨mid, ⟨hhead, next, hnode, hleft⟩, hright⟩

theorem Chain.mem {heap : Heap α} {head stop : Option Ptr} {cells : List (Ptr × α)}
    (h : Chain heap head cells stop)
    : ∀ p ∈ ptrs cells, p ∈ heap := by
  induction cells generalizing head with
  | nil => simp
  | cons cell cells ih =>
    obtain ⟨-, next, hnode, hrest⟩ := h
    intro p hp
    rw [ptrs_cons, List.mem_cons] at hp
    cases hp with
    | inl hp =>
      rw [hp, ← AList.lookup_isSome, hnode]
      rfl
    | inr hp => exact ih hrest p hp

/--
Appending a node that is not yet in the list. Nothing but the last node of the list changes.
-/
theorem Repr.push {heap : Heap α} {l : Header} {cells : List (Ptr × α)} (h : Repr heap l cells)
    {p : Ptr} {v : α} (hp : heap.lookup p = some ⟨v, none⟩) (hfresh : p ∉ ptrs cells)
    : ∃ heap' l', push heap l p = some (heap', l') ∧
        Repr heap' l' (cells ++ [(p, v)]) ∧
        (∀ p', p' ∉ ptrs cells → heap'.lookup p' = heap.lookup p') ∧
        (∀ p', p' ∈ heap' ↔ p' ∈ heap) := by
  have hnodup : (ptrs (cells ++ [(p, v)])).Nodup := by
    rw [ptrs_append, List.nodup_append_comm]
    exact List.nodup_cons.mpr ⟨hfresh, h.nodup⟩
  unfold SList.push
  cases hcells : cells.reverse with
  | nil =>
    have hnil : cells = [] := List.reverse_eq_nil_iff.mp hcells
    subst hnil
    rw [h.eq_empty]
    refine ⟨heap, ⟨some p, some p, 1⟩, rfl, ?_, by simp, by simp⟩
    constructor
    . exact ⟨rfl, none, hp, rfl⟩
    . rfl
    . rfl
    . exact hnodup
  | cons cell rest =>
    obtain ⟨q, w⟩ := cell
    have hsnoc : cells = rest.reverse ++ [(q, w)] := by
      rw [← List.reverse_reverse cells, hcells, List.reverse_cons]
    have htail : l.tail = some q := by
      rw [h.tail_eq, hsnoc]
      simp
    have hchain := h.chain
    rw [hsnoc] at hchain
    obtain ⟨mid, hleft, hmid, next, hnode, hnext⟩ := hchain.split
    have hqp : p ≠ q := by
      intro hpq
      apply hfresh
      rw [hsnoc]
      simp [hpq]
    have hhead : ∃ head, l.head = some head := by
      cases hrest : rest.reverse with
      | nil =>
        rw [hrest] at hleft
        exact ⟨q, by rw [show l.head = mid from hleft, hmid]⟩
      | cons cell' _ =>
        rw [hrest] at hleft
        exact ⟨cell'.1, hleft.1⟩
    obtain ⟨head, hhead⟩ := hhead
    have hq : ∀ p', p' ≠ q → (heap.insert q ⟨w, some p⟩).lookup p' = heap.lookup p' := by
      intro p' hne
      rw [AList.lookup_insert_ne hne]
    have hrest : ∀ p' ∈ ptrs rest.reverse, p' ≠ q := by
      have hdis := h.nodup
      rw [hsnoc] at hdis
      rw [ptrs_append, List.nodup_append_comm] at hdis
      intro p' hp' hne
      rw [hne] at hp'
      exact (List.nodup_cons.mp hdis).1 hp'
    rw [htail, hhead]
    simp only [link, hnode, Option.bind_eq_bind, Option.bind_some, Option.pure_def]
    refine ⟨_, _, rfl, ?_, ?_, ?_⟩
    . constructor
      . rw [hsnoc, List.append_assoc]
        apply Chain.append
        . rw [← hhead]
          refine hleft.congr ?_
          intro p' hp'
          exact hq p' (hrest p' hp')
        . refine ⟨hmid, some p, AList.lookup_insert heap, rfl, none, ?_, rfl⟩
          rw [hq p hqp, hp]
      . simp
      . simp [h.currSize_eq]
      . exact hnodup
    . intro p' hp'
      apply hq
      intro hne
      apply hp'
      rw [hsnoc, hne]
      simp
    . intro p'
      rw [AList.mem_insert]
      constructor
      . intro hmem
        cases hmem with
        | inl heq =>
          rw [heq, ← AList.lookup_isSome, hnode]
          rfl
        | inr hmem => exact hmem
      . intro hmem
        exact Or.inr hmem

theorem Chain.drain {heap : Heap α} {head : Option Ptr} {cells : List (Ptr × α)}
    (h : Chain heap head cells none) (hnodup : (ptrs cells).Nodup) (f : σ → α → σ) (free : Bool) (s : σ)
    {fuel : Nat} (hfuel : cells.length ≤ fuel)
    : ∃ heap', drain f free fuel heap head s = some (heap', (cells.map Prod.snd).foldl f s) ∧
        ∀ p, p ∉ ptrs cells → heap'.lookup p = heap.lookup p := by
  induction cells generalizing heap head s fuel with
  | nil =>
    rw [show head = none from h]
    refine ⟨heap, ?_, by simp⟩
    cases fuel <;> rfl
  | cons cell cells ih =>
    obtain ⟨p, v⟩ := cell
    obtain ⟨hhead, next, hnode, hrest⟩ := h
    obtain ⟨hfresh, hnodup'⟩ := List.nodup_cons.mp hnodup
    have hkeep : ∀ p', p' ≠ p → (if free then heap.erase p else heap).lookup p' = heap.lookup p' := by
      intro p' hne
      split
      . rw [AList.lookup_erase_ne hne]
      . rfl
    cases fuel with
    | zero => simp at hfuel
    | succ fuel =>
      have hrest' : Chain (if free then heap.erase p else heap) next cells none := by
        refine hrest.congr ?_
        intro p' hp'
        apply hkeep
        intro hne
        rw [hne] at hp'
        exact hfresh hp'
      obtain ⟨heap', heq, hlookup⟩ := ih hrest' hnodup' (f s v) (by simpa using hfuel)
      rw [hhead]
      simp only [SList.drain, hnode, Option.bind_eq_bind, Option.bind_some]
      refine ⟨heap', heq, ?_⟩
      intro p' hp'
      rw [ptrs_cons, List.mem_cons, not_or] at hp'
      rw [hlookup p' hp'.2, hkeep p' hp'.1]

theorem Repr.length_le {heap : Heap α} {l : Header} {cells : List (Ptr × α)} (h : Repr heap l cells)
    : cells.length ≤ heap.keys.length := by
  have hsub : ptrs cells ⊆ heap.keys := by
    intro p hp
    exact AList.mem_keys.mpr (h.chain.mem p hp)
  have := (List.subperm_of_subset h.nodup hsub).length_le
  simpa [ptrs] using this

end SList
