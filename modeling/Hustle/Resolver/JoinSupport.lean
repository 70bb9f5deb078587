import Hustle.Resolver.SelectResolver
import Hustle.Util.Multigraph

/-!
This module contains what `CheckJoinSupport` says about the joins of a query: it recognizes the queries
whose join predicates all share a table and those whose join predicates form a path.
-/

namespace Hustle.Resolver

open Multigraph

namespace JoinPredicate

def leftTable (p : JoinPredicate) : Option TableName := p.leftCol.table

def rightTable (p : JoinPredicate) : Option TableName := p.rightCol.table

/--
The predicate is between two different tables.
-/
def BetweenTables (p : JoinPredicate) : Prop :=
  p.leftTable.isSome ∧ p.rightTable.isSome ∧ p.leftTable ≠ p.rightTable

instance (p : JoinPredicate) : Decidable p.BetweenTables :=
  inferInstanceAs (Decidable (_ ∧ _ ∧ _))

end JoinPredicate

open JoinPredicate

namespace SelectResolver

def ofPredicates (predicates : List JoinPredicate) : SelectResolver :=
  predicates.foldl addJoinPredicate new

structure Found (s : SelectResolver) (predicates : List JoinPredicate) : Prop where
  predicates_eq : s.predicates = predicates
  graph_eq : ∀ table, s.joinGraph.get table = incidences leftTable rightTable predicates (some table)
  mem_keys : ∀ table, table ∈ s.joinGraph.keys ↔ ∃ p ∈ predicates, Incident leftTable rightTable p table

theorem get_insert (m : Map TableName (List JoinPredicate)) (t t' : TableName) (ps : List JoinPredicate)
    : Map.get (m.insert t ps) t' = if t' = t then ps else m.get t' := by
  unfold Map.get
  rw [Map.lookup_insert_eq]
  split <;> rfl

theorem mem_keys_insert (m : Map TableName (List JoinPredicate)) (t t' : TableName)
    (ps : List JoinPredicate)
    : t' ∈ AList.keys (m.insert t ps) ↔ t' = t ∨ t' ∈ m.keys := by
  rw [← AList.mem_keys, AList.mem_insert, AList.mem_keys]

theorem Found.addJoinPredicate {s : SelectResolver} {predicates : List JoinPredicate}
    (h : s.Found predicates) {p : JoinPredicate} (hright : p.rightTable.isSome)
    : (s.addJoinPredicate p).Found (predicates ++ [p]) := by
  obtain ⟨right, hright⟩ := Option.isSome_iff_exists.mp hright
  have hright' : p.rightCol.table = some right := hright
  have hcomm : ∀ a b : TableName, some a = some b ↔ b = a := by
    intro a b
    rw [Option.some.injEq, eq_comm]
  unfold SelectResolver.addJoinPredicate
  rw [hright']
  dsimp only
  cases hleft : p.leftCol.table with
  | none =>
    have hleft' : p.leftTable = none := hleft
    constructor
    . simp [h.predicates_eq]
    . intro table
      simp only [addToGraph, get_insert, h.graph_eq, incidences_concat, hright, hleft',
        hcomm, reduceCtorEq, ↓reduceIte, List.append_nil]
      split
      . next heq => rw [heq]
      . simp
    . intro table
      simp only [addToGraph, mem_keys_insert, h.mem_keys, List.mem_append, List.mem_singleton, or_and_right,
        exists_or, exists_eq_left, Incident, hright, hleft', hcomm, reduceCtorEq, false_or]
      exact or_comm
  | some left =>
    have hleft' : p.leftTable = some left := hleft
    constructor
    . simp [addToGraph, h.predicates_eq]
    . intro table
      simp only [addToGraph, get_insert, h.graph_eq, incidences_concat, hright, hleft',
        hcomm]
      by_cases htr : table = right
      . by_cases htl : table = left
        . subst htr htl
          simp
        . have hrl : ¬right = left := fun heq => htl (htr.trans heq)
          simp [htr, hrl]
      . by_cases htl : table = left
        . have hlr : ¬left = right := fun heq => htr (htl.trans heq)
          simp [htl, hlr]
        . simp [htr, htl]
    . intro table
      simp only [addToGraph, mem_keys_insert, h.mem_keys, List.mem_append, List.mem_singleton, or_and_right,
        exists_or, exists_eq_left, Incident, hright, hleft', hcomm]
      constructor
      . rintro (hl | hr | hold)
        . exact Or.inr (Or.inl hl)
        . exact Or.inr (Or.inr hr)
        . exact Or.inl hold
      . rintro (hold | hl | hr)
        . exact Or.inr (Or.inr hold)
        . exact Or.inl hl
        . exact Or.inr (Or.inl hr)

theorem Found.foldl {s : SelectResolver} {found : List JoinPredicate} (hs : s.Found found)
    {predicates : List JoinPredicate} (h : ∀ p ∈ predicates, p.rightTable.isSome)
    : (predicates.foldl SelectResolver.addJoinPredicate s).Found (found ++ predicates) := by
  induction predicates generalizing s found with
  | nil => simpa using hs
  | cons p predicates ih =>
    have hp := hs.addJoinPredicate (h p List.mem_cons_self)
    have := ih hp fun q hq => h q (List.mem_cons_of_mem p hq)
    simpa using this

theorem found_nil {s : SelectResolver} (hpredicates : s.predicates = []) (hgraph : s.joinGraph = ∅)
    : s.Found [] where
  predicates_eq := hpredicates
  graph_eq := by
    intro table
    rw [hgraph]
    rfl
  mem_keys := by simp [hgraph]

theorem ofPredicates_found {predicates : List JoinPredicate}
    (h : ∀ p ∈ predicates, p.rightTable.isSome)
    : (ofPredicates predicates).Found predicates :=
  (found_nil (s := new) rfl rfl).foldl h

/--
The state of the walk: it has come along `visited` to `table` with the predicates `ordered`, and `curr` is
the only predicate of these tables that it has not taken yet.
-/
structure WalkInv (predicates : List JoinPredicate) (curr : JoinPredicate) (table : TableName)
    (visited : List TableName) (ordered : List JoinPredicate) : Prop where
  traces : Traces leftTable rightTable ((visited ++ [table]).map some) ordered
  nodup : (visited ++ [table]).Nodup
  closed : ∀ t ∈ visited, ∀ p ∈ predicates, Incident leftTable rightTable p (some t) → p ∈ ordered
  here : ∀ p ∈ predicates, Incident leftTable rightTable p (some table) → p ∈ ordered ∨ p = curr
  subset : ∀ p ∈ ordered, p ∈ predicates
  curr_mem : curr ∈ predicates
  curr_incident : Incident leftTable rightTable curr (some table)
  curr_fresh : curr ∉ ordered
  curr_ne : curr.leftTable ≠ curr.rightTable

theorem otherTable_eq {p : JoinPredicate} {table : TableName} (hleft : p.leftTable.isSome)
    (hright : p.rightTable.isSome) (hp : Incident leftTable rightTable p (some table))
    (hne : p.leftTable ≠ p.rightTable)
    : ∃ next,
        otherTable p table = .ok next ∧
        Joins leftTable rightTable p (some table) (some next) ∧
        next ≠ table := by
  obtain ⟨left, hleft⟩ := Option.isSome_iff_exists.mp hleft
  obtain ⟨right, hright⟩ := Option.isSome_iff_exists.mp hright
  have hleft' : p.leftCol.table = some left := hleft
  have hright' : p.rightCol.table = some right := hright
  unfold otherTable
  rw [hleft', hright']
  dsimp only
  by_cases htable : left = table
  . subst htable
    refine ⟨right, by rw [if_pos rfl], Or.inl ⟨hleft, hright⟩, ?_⟩
    rintro rfl
    exact hne (hleft.trans hright.symm)
  . refine ⟨left, by rw [if_neg htable], Or.inr ⟨hleft, ?_⟩, htable⟩
    rcases hp with hp | hp
    . rw [hleft] at hp
      exact absurd (Option.some.inj hp) htable
    . exact hp

section

variable {predicates : List JoinPredicate} {curr : JoinPredicate} {table next : TableName}
  {visited : List TableName} {ordered : List JoinPredicate}

theorem WalkInv.next_fresh (h : WalkInv predicates curr table visited ordered)
    (hnext : Joins leftTable rightTable curr (some table) (some next)) (hne : next ≠ table)
    : next ∉ visited ++ [table] := by
  intro hmem
  rcases List.mem_append.mp hmem with hmem | hmem
  . exact h.curr_fresh (h.closed next hmem curr h.curr_mem hnext.incident.2)
  . exact hne (List.mem_singleton.mp hmem)

theorem WalkInv.traces_next (h : WalkInv predicates curr table visited ordered)
    (hnext : Joins leftTable rightTable curr (some table) (some next))
    : Traces leftTable rightTable ((visited ++ [table] ++ [next]).map some) (ordered ++ [curr]) := by
  have htraces := h.traces
  rw [List.map_append, List.map_singleton] at htraces
  simpa using htraces.concat hnext

theorem WalkInv.nodup_next (h : WalkInv predicates curr table visited ordered)
    (hnext : Joins leftTable rightTable curr (some table) (some next)) (hne : next ≠ table)
    : (visited ++ [table] ++ [next]).Nodup := by
  have hfresh := h.next_fresh hnext hne
  rw [List.nodup_append]
  refine ⟨h.nodup, List.nodup_singleton next, ?_⟩
  intro t ht t' ht' heq
  rw [List.mem_singleton.mp ht'] at heq
  exact hfresh (heq ▸ ht)

theorem WalkInv.subset_next (h : WalkInv predicates curr table visited ordered)
    : ∀ p ∈ ordered ++ [curr], p ∈ predicates := by
  intro p hp
  rcases List.mem_append.mp hp with hp | hp
  . exact h.subset p hp
  . rw [List.mem_singleton.mp hp]
    exact h.curr_mem

theorem WalkInv.closed_next (h : WalkInv predicates curr table visited ordered) {t : TableName}
    (ht : t ∈ visited ++ [table]) {p : JoinPredicate} (hp : p ∈ predicates)
    (hinc : Incident leftTable rightTable p (some t))
    : p ∈ ordered ++ [curr] := by
  rw [List.mem_append, List.mem_singleton]
  rcases List.mem_append.mp ht with ht | ht
  . exact Or.inl (h.closed t ht p hp hinc)
  . rw [List.mem_singleton.mp ht] at hinc
    exact h.here p hp hinc

theorem eq_or_eq_of_length_le_two {α : Type} {l : List α} (hl : l.length ≤ 2) {a b c : α} (ha : a ∈ l)
    (hb : b ∈ l) (hab : a ≠ b) (hc : c ∈ l)
    : c = a ∨ c = b := by
  match l, hl with
  | [], _ => simp at ha
  | [x], _ =>
    rw [List.mem_singleton] at ha hb
    exact absurd (ha.trans hb.symm) hab
  | [x, y], _ =>
    simp only [List.mem_cons, List.not_mem_nil, or_false] at ha hb hc
    grind

theorem WalkInv.step (h : WalkInv predicates curr table visited ordered)
    (hnext : Joins leftTable rightTable curr (some table) (some next)) (hne : next ≠ table)
    (hlen : (incidences leftTable rightTable predicates (some next)).length ≤ 2) {p : JoinPredicate}
    (hp : p ∈ incidences leftTable rightTable predicates (some next)) (hpc : p ≠ curr)
    : WalkInv predicates p next (visited ++ [table]) (ordered ++ [curr]) := by
  have hfresh := h.next_fresh hnext hne
  have hcurr : curr ∈ incidences leftTable rightTable predicates (some next) :=
    mem_incidences.mpr ⟨h.curr_mem, hnext.incident.2⟩
  obtain ⟨hpmem, hpinc⟩ := mem_incidences.mp hp
  constructor
  . exact h.traces_next hnext
  . exact h.nodup_next hnext hne
  . intro t ht q hq hinc
    exact h.closed_next ht hq hinc
  . intro q hq hinc
    rcases eq_or_eq_of_length_le_two hlen hcurr hp hpc.symm (mem_incidences.mpr ⟨hq, hinc⟩) with heq | heq
    . left
      simp [heq]
    . exact Or.inr heq
  . exact h.subset_next
  . exact hpmem
  . exact hpinc
  . intro hmem
    rcases List.mem_append.mp hmem with hmem | hmem
    . have hback := h.traces.mem_of_incident hmem hpinc
      exact hfresh (by simpa using hback)
    . exact hpc (List.mem_singleton.mp hmem)
  . intro hloop
    have hends : p.leftTable = some next ∧ p.rightTable = some next := by
      rcases hpinc with hleft | hright
      . exact ⟨hleft, hloop ▸ hleft⟩
      . exact ⟨hloop ▸ hright, hright⟩
    have := three_le_incidences_of_loop hpmem hends.1 hends.2 hcurr hpc.symm
    omega

/--
`ordered` are the predicates in the order of a path.
-/
def InPathOrder (predicates ordered : List JoinPredicate) : Prop :=
  ordered.Perm predicates ∧
  ∃ tables : List (Option TableName), Traces leftTable rightTable tables ordered ∧ tables.Nodup

theorem InPathOrder.isPath (h : InPathOrder predicates ordered)
    : IsPath leftTable rightTable predicates := by
  obtain ⟨hperm, tables, htraces, hnodup⟩ := h
  exact ⟨tables, ordered, hperm, htraces, hnodup⟩

theorem WalkInv.inPathOrder (h : WalkInv predicates curr table visited ordered)
    (hnext : Joins leftTable rightTable curr (some table) (some next)) (hne : next ≠ table)
    (hlen : (ordered ++ [curr]).length = predicates.length)
    : InPathOrder predicates (ordered ++ [curr]) := by
  have htraces := h.traces_next hnext
  have hnodup : ((visited ++ [table] ++ [next]).map some).Nodup :=
    (h.nodup_next hnext hne).map (Option.some_injective _)
  have hsub : (ordered ++ [curr]).Subperm predicates :=
    (htraces.edges_nodup hnodup).subperm h.subset_next
  exact ⟨hsub.perm_of_length_le hlen.ge, _, htraces, hnodup⟩

theorem WalkInv.not_isPath (h : WalkInv predicates curr table visited ordered)
    (hnext : Joins leftTable rightTable curr (some table) (some next))
    (hstuck : ∀ p ∈ incidences leftTable rightTable predicates (some next), p = curr)
    (hlen : (ordered ++ [curr]).length < predicates.length)
    : ¬IsPath leftTable rightTable predicates := by
  rintro ⟨tables, path, hperm, htraces, hnodup⟩
  have hwalk := h.traces_next hnext
  have hmem : ∀ {p}, p ∈ path ↔ p ∈ predicates := hperm.mem_iff
  -- The tables that the walk has reached are connected with each other only.
  have htaken : ∀ p ∈ path, ∀ t, Incident leftTable rightTable p t →
      t ∈ (visited ++ [table] ++ [next]).map some → p ∈ ordered ++ [curr] := by
    intro p hp t hinc ht
    obtain ⟨t', ht', rfl⟩ := List.mem_map.mp ht
    rcases List.mem_append.mp ht' with ht' | ht'
    . exact h.closed_next ht' (hmem.mp hp) hinc
    . rw [List.mem_singleton.mp ht'] at hinc
      rw [hstuck p (mem_incidences.mpr ⟨hmem.mp hp, hinc⟩)]
      simp
  have hclosed : ∀ p ∈ path, ∀ t t', Joins leftTable rightTable p t t' →
      t ∈ (visited ++ [table] ++ [next]).map some →
      t' ∈ (visited ++ [table] ++ [next]).map some := by
    intro p hp t t' hjoins ht
    exact hwalk.mem_of_incident (htaken p hp t hjoins.incident.1 ht) hjoins.incident.2
  have hall := htraces.subset_of_closed hclosed
    (htraces.mem_of_incident (hmem.mpr h.curr_mem) h.curr_incident) (by simp)
  have hsub : path ⊆ ordered ++ [curr] := by
    intro p hp
    have hinc : Incident leftTable rightTable p p.leftTable := Or.inl rfl
    exact htaken p hp _ hinc (hall _ (htraces.mem_of_incident hp hinc))
  have := ((htraces.edges_nodup hnodup).subperm hsub).length_le
  have := hperm.length_eq
  omega

/--
One table of the walk, where `next` says how it goes on from the next table.
-/
theorem walkPath_step {s : SelectResolver} (hs : s.Found predicates)
    (hsome : ∀ p ∈ predicates, p.leftTable.isSome ∧ p.rightTable.isSome) {n : Nat}
    (h : WalkInv predicates curr table visited ordered) (hlen : ordered.length + (n + 1) = predicates.length)
    (hrest : ∀ p next, WalkInv predicates p next (visited ++ [table]) (ordered ++ [curr]) →
      InPathOrder predicates (ordered ++ [curr]) ∨ 0 < n →
      ∃ result,
        walkPath s.joinGraph n p next (visited ++ [table]) (ordered ++ [curr]) = .ok result ∧
        (∀ path, result = some path → InPathOrder predicates path) ∧
        (result = none → ¬IsPath leftTable rightTable predicates))
    : ∃ result,
        walkPath s.joinGraph (n + 1) curr table visited ordered = .ok result ∧
        (∀ path, result = some path → InPathOrder predicates path) ∧
        (result = none → ¬IsPath leftTable rightTable predicates) := by
  obtain ⟨hleft, hright⟩ := hsome curr h.curr_mem
  obtain ⟨next, hother, hnext, hne⟩ := otherTable_eq hleft hright h.curr_incident h.curr_ne
  have hfresh : table ∉ visited := by
    intro hmem
    exact (List.nodup_append.mp h.nodup).2.2 table hmem table (by simp) rfl
  have hdone : n = 0 → InPathOrder predicates (ordered ++ [curr]) := by
    intro hn
    apply h.inPathOrder hnext hne
    simp
    omega
  unfold walkPath
  rw [if_neg hfresh, hother]
  simp only [ok_bind, hs.graph_eq]
  by_cases htwo : 2 < (incidences leftTable rightTable predicates (some next)).length
  . rw [if_pos htwo]
    refine ⟨none, rfl, by simp, ?_⟩
    rintro - ⟨tables, path, hperm, htraces, hnodup⟩
    have := htraces.incidences_le_two hnodup (some next)
    rw [length_incidences_perm hperm] at this
    omega
  . rw [if_neg htwo]
    split
    . next p hp =>
      have hmem := List.mem_of_find?_eq_some hp
      have hpc : p ≠ curr := by simpa using List.find?_some hp
      apply hrest
      . exact h.step hnext hne (by omega) hmem hpc
      . by_cases hn : n = 0
        . exact Or.inl (hdone hn)
        . exact Or.inr (by omega)
    . next hnone =>
      have hstuck : ∀ p ∈ incidences leftTable rightTable predicates (some next), p = curr := by
        simpa using hnone
      by_cases hn : 0 < n
      . rw [if_pos hn]
        refine ⟨none, rfl, by simp, fun _ => h.not_isPath hnext hstuck ?_⟩
        simp
        omega
      . rw [if_neg hn]
        refine ⟨_, rfl, ?_, by simp⟩
        intro path hpath
        rw [← Option.some.inj hpath]
        exact hdone (by omega)

theorem walkPath_spec {s : SelectResolver} (hs : s.Found predicates)
    (hsome : ∀ p ∈ predicates, p.leftTable.isSome ∧ p.rightTable.isSome) (n : Nat)
    (h : WalkInv predicates curr table visited ordered) (hlen : ordered.length + (n + 1) = predicates.length)
    : ∃ result,
        walkPath s.joinGraph (n + 1) curr table visited ordered = .ok result ∧
        (∀ path, result = some path → InPathOrder predicates path) ∧
        (result = none → ¬IsPath leftTable rightTable predicates) := by
  induction n generalizing curr table visited ordered with
  | zero =>
    apply walkPath_step hs hsome h hlen
    intro p next _ hdone
    refine ⟨_, rfl, ?_, by simp⟩
    intro path hpath
    rw [← Option.some.inj hpath]
    exact hdone.resolve_right (by omega)
  | succ n ih =>
    apply walkPath_step hs hsome h hlen
    intro p next hinv _
    apply ih hinv
    simp
    omega

theorem startOfPath_some {joinGraph : Map TableName (List JoinPredicate)} {tables : List TableName}
    {start : TableName × JoinPredicate} (h : startOfPath joinGraph tables = some start)
    : start.1 ∈ tables ∧ joinGraph.get start.1 = [start.2] := by
  unfold startOfPath at h
  induction tables using List.reverseRecOn with
  | nil => simp at h
  | append_singleton tables t ih =>
    rw [List.foldl_concat] at h
    split at h
    . next p hp =>
      rw [← Option.some.inj h]
      exact ⟨by simp, hp⟩
    . obtain ⟨hmem, hget⟩ := ih h
      exact ⟨List.mem_append_left _ hmem, hget⟩

theorem startOfPath_none {joinGraph : Map TableName (List JoinPredicate)} {tables : List TableName}
    (h : startOfPath joinGraph tables = none)
    : ∀ t ∈ tables, (joinGraph.get t).length ≠ 1 := by
  unfold startOfPath at h
  induction tables using List.reverseRecOn with
  | nil => simp
  | append_singleton tables t ih =>
    rw [List.foldl_concat] at h
    split at h
    . simp at h
    . next hp =>
      intro t' ht'
      rcases List.mem_append.mp ht' with ht' | ht'
      . exact ih h t' ht'
      . rw [List.mem_singleton.mp ht']
        intro hlen
        obtain ⟨p, hp'⟩ := List.length_eq_one_iff.mp hlen
        exact hp p hp'

theorem WalkInv.start {s : SelectResolver} (hs : s.Found predicates) {p : JoinPredicate}
    (hget : s.joinGraph.get table = [p])
    : WalkInv predicates p table [] [] := by
  rw [hs.graph_eq] at hget
  have hp : p ∈ incidences leftTable rightTable predicates (some table) := by simp [hget]
  obtain ⟨hmem, hinc⟩ := mem_incidences.mp hp
  constructor
  . trivial
  . exact List.nodup_singleton table
  . simp
  . intro q hq hqinc
    have hq' : q ∈ incidences leftTable rightTable predicates (some table) :=
      mem_incidences.mpr ⟨hq, hqinc⟩
    rw [hget, List.mem_singleton] at hq'
    exact Or.inr hq'
  . simp
  . exact hmem
  . exact hinc
  . simp
  . intro hloop
    have hends : p.leftTable = some table ∧ p.rightTable = some table := by
      rcases hinc with hleft | hright
      . exact ⟨hleft, hloop ▸ hleft⟩
      . exact ⟨hloop ▸ hright, hright⟩
    have := two_le_incidences_of_loop hmem hends.1 hends.2
    rw [hget] at this
    simp at this

theorem exists_start_of_isPath {s : SelectResolver} (hs : s.Found predicates)
    (hsome : ∀ p ∈ predicates, p.leftTable.isSome ∧ p.rightTable.isSome) (hne : predicates ≠ [])
    (h : IsPath leftTable rightTable predicates)
    : ∃ t ∈ s.joinGraph.keys, (s.joinGraph.get t).length = 1 := by
  obtain ⟨tables, path, hperm, htraces, hnodup⟩ := h
  have hpos : 0 < path.length := by
    rw [hperm.length_eq]
    exact List.length_pos_iff.mpr hne
  cases tables with
  | nil => exact htraces.elim
  | cons v tables =>
    have hone := htraces.incidences_head hnodup
    rw [Nat.min_eq_left hpos] at hone
    obtain ⟨p, hp⟩ := List.length_eq_one_iff.mp hone
    have hp' : p ∈ incidences leftTable rightTable path v := by simp [hp]
    obtain ⟨hmem, hinc⟩ := mem_incidences.mp hp'
    have hv : v.isSome := by
      have := hsome p (hperm.mem_iff.mp hmem)
      rcases hinc with rfl | rfl
      . exact this.1
      . exact this.2
    obtain ⟨t, rfl⟩ := Option.isSome_iff_exists.mp hv
    refine ⟨t, (hs.mem_keys t).mpr ⟨p, hperm.mem_iff.mp hmem, hinc⟩, ?_⟩
    rw [hs.graph_eq, ← length_incidences_perm hperm, hone]

/--
What `CheckJoinSupport` does: there is a table with as many predicates as there are, or the predicates
form a path, or they are not supported.
-/
theorem Found.checkJoinSupport {s : SelectResolver} (hs : s.Found predicates)
    (hsome : ∀ p ∈ predicates, p.leftTable.isSome ∧ p.rightTable.isSome) (hne : predicates ≠ [])
    (hash : HashOrder TableName)
    : ((∃ t ∈ s.joinGraph.keys, (s.joinGraph.get t).length = predicates.length) ∧
        s.checkJoinSupport hash = .ok (true, { s with joinType := .star })) ∨
      (¬(∃ t ∈ s.joinGraph.keys, (s.joinGraph.get t).length = predicates.length) ∧
        ((∃ path, InPathOrder predicates path ∧
          s.checkJoinSupport hash = .ok (true, { s with predicates := path, joinType := .linear })) ∨
        ¬IsPath leftTable rightTable predicates ∧
          s.checkJoinSupport hash = .ok (false, { s with joinType := .other }))) := by
  have hmem : ∀ {t}, t ∈ hash.order s.joinGraph.keys ↔ t ∈ s.joinGraph.keys :=
    (hash.perm s.joinGraph.keys).mem_iff
  have hany : (hash.order s.joinGraph.keys).any
        (fun t => decide ((s.joinGraph.get t).length = predicates.length)) = true
      ↔ ∃ t ∈ s.joinGraph.keys, (s.joinGraph.get t).length = predicates.length := by
    simp only [List.any_eq_true, decide_eq_true_eq, hmem]
  unfold SelectResolver.checkJoinSupport
  dsimp only
  rw [hs.predicates_eq]
  by_cases hstar : ∃ t ∈ s.joinGraph.keys, (s.joinGraph.get t).length = predicates.length
  . left
    rw [if_pos (hany.mpr hstar)]
    exact ⟨hstar, rfl⟩
  . right
    refine ⟨hstar, ?_⟩
    rw [if_neg (fun h => hstar (hany.mp h))]
    cases hstart : startOfPath s.joinGraph (hash.order s.joinGraph.keys) with
    | none =>
      right
      refine ⟨?_, rfl⟩
      intro hpath
      obtain ⟨t, ht, hone⟩ := exists_start_of_isPath hs hsome hne hpath
      exact startOfPath_none hstart t (hmem.mpr ht) hone
    | some start =>
      obtain ⟨m, hm⟩ := Nat.exists_eq_succ_of_ne_zero (mt List.length_eq_zero_iff.mp hne)
      obtain ⟨result, hwalk, hpath, hnone⟩ := walkPath_spec hs hsome m
        (WalkInv.start hs (startOfPath_some hstart).2) (by simp [hm])
      rw [Nat.succ_eq_add_one] at hm
      dsimp only
      rw [hm, hwalk]
      cases result with
      | none => exact Or.inr ⟨hnone rfl, rfl⟩
      | some path => exact Or.inl ⟨path, hpath path rfl, rfl⟩

theorem Found.checkJoinSupport_nil {s : SelectResolver} (hs : s.Found []) (hash : HashOrder TableName)
    : s.checkJoinSupport hash = .ok (false, { s with joinType := .other }) := by
  have hkeys : s.joinGraph.keys = [] := by
    apply List.eq_nil_iff_forall_not_mem.mpr
    intro t ht
    simpa using (hs.mem_keys t).mp ht
  have horder : hash.order s.joinGraph.keys = [] := by
    have := hash.perm s.joinGraph.keys
    rw [hkeys] at this ⊢
    exact this.eq_nil
  simp [SelectResolver.checkJoinSupport, horder, startOfPath]

theorem Found.exists_length_eq_iff {s : SelectResolver} (hs : s.Found predicates) (hne : predicates ≠ [])
    (hbetween : ∀ p ∈ predicates, p.BetweenTables)
    : (∃ t ∈ s.joinGraph.keys, (s.joinGraph.get t).length = predicates.length)
        ↔
      IsStar leftTable rightTable predicates := by
  have hlength := length_incidences_eq_iff fun p hp => (hbetween p hp).2.2
  constructor
  . rintro ⟨t, -, hlen⟩
    rw [hs.graph_eq] at hlen
    exact ⟨some t, (hlength (some t)).mp hlen⟩
  . rintro ⟨v, hv⟩
    obtain ⟨p, hp⟩ := List.exists_mem_of_ne_nil predicates hne
    have hsome : v.isSome := by
      rcases hv p hp with rfl | rfl
      . exact (hbetween p hp).1
      . exact (hbetween p hp).2.1
    obtain ⟨t, rfl⟩ := Option.isSome_iff_exists.mp hsome
    refine ⟨t, (hs.mem_keys t).mpr ⟨p, hp, hv p hp⟩, ?_⟩
    rw [hs.graph_eq]
    exact (hlength (some t)).mpr hv

end

/--
The answer of `CheckJoinSupport` for a list of join predicates.
-/
structure Classified (predicates : List JoinPredicate) (supported : Bool) (s : SelectResolver) : Prop where
  star_iff : s.joinType = .star ↔ IsStar leftTable rightTable predicates
  linear_iff : ¬IsStar leftTable rightTable predicates →
    (s.joinType = .linear ↔ IsPath leftTable rightTable predicates)
  star : s.joinType = .star → supported = true ∧ s.predicates = predicates
  linear : s.joinType = .linear → supported = true ∧ InPathOrder predicates s.predicates
  other : ¬IsStar leftTable rightTable predicates → ¬IsPath leftTable rightTable predicates →
    supported = false ∧ s.predicates = predicates

/--
`CheckJoinSupport` recognizes stars and paths.
-/
theorem checkJoinSupport_classified (hash : HashOrder TableName) {predicates : List JoinPredicate}
    (hne : predicates ≠ []) (hbetween : ∀ p ∈ predicates, p.BetweenTables)
    : ∃ supported s,
        (ofPredicates predicates).checkJoinSupport hash = .ok (supported, s) ∧
        Classified predicates supported s := by
  have hfound := ofPredicates_found fun p hp => (hbetween p hp).2.1
  have hstar := hfound.exists_length_eq_iff hne hbetween
  have hsome : ∀ p ∈ predicates, p.leftTable.isSome ∧ p.rightTable.isSome :=
    fun p hp => ⟨(hbetween p hp).1, (hbetween p hp).2.1⟩
  rcases hfound.checkJoinSupport hsome hne hash with
    ⟨hyes, heq⟩ | ⟨hno, ⟨path, hpath, heq⟩ | ⟨hnot, heq⟩⟩
  . rw [hstar] at hyes
    refine ⟨_, _, heq, ?_⟩
    constructor
    . simp [hyes]
    . exact fun hno => absurd hyes hno
    . simp [hfound.predicates_eq]
    . simp
    . exact fun hno => absurd hyes hno
  . rw [hstar] at hno
    refine ⟨_, _, heq, ?_⟩
    constructor
    . simp [hno]
    . simp [hpath.isPath]
    . simp
    . simp [hpath]
    . exact fun _ hnot => absurd hpath.isPath hnot
  . rw [hstar] at hno
    refine ⟨_, _, heq, ?_⟩
    constructor
    . simp [hno]
    . simp [hnot]
    . simp
    . simp
    . simp [hfound.predicates_eq]

/--
The predicate that two tables have the same value in a column of the given name.
-/
def equalOn (left right : TableName) (colName : String) : JoinPredicate :=
  ⟨⟨some left, colName⟩, .equal, ⟨some right, colName⟩⟩

theorem checkJoinSupport_classified_of_path
    : ∃ supported s,
        (ofPredicates [
            equalOn ⟨"b", by decide⟩ ⟨"c", by decide⟩ "x",
            equalOn ⟨"a", by decide⟩ ⟨"b", by decide⟩ "y",
            equalOn ⟨"d", by decide⟩ ⟨"c", by decide⟩ "z"
          ]).checkJoinSupport (.listed _) = .ok (supported, s) ∧
        Classified [
            equalOn ⟨"b", by decide⟩ ⟨"c", by decide⟩ "x",
            equalOn ⟨"a", by decide⟩ ⟨"b", by decide⟩ "y",
            equalOn ⟨"d", by decide⟩ ⟨"c", by decide⟩ "z"
          ] supported s :=
  checkJoinSupport_classified _ (by decide) (by decide)

end SelectResolver

end Hustle.Resolver
