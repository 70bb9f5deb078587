import Mathlib.Data.List.Perm.Basic
import Mathlib.Order.Defs.LinearOrder
import Mathlib.Data.List.Nodup
import Mathlib.Data.List.Sort

/-!
This module contains sorting by several keys. A list is sorted by one key after the other, the last one first, and every
sort is stable. The result is in the lexicographic order of the keys.
-/

namespace LexSort

section

variable {α : Type u} {κ : Type v} {V : Type w} [LinearOrder V]

/--
The strict order of the values, ascending or descending.
-/
def Lt (desc : Bool) (v w : V) : Prop :=
  if desc then w < v else v < w

theorem Lt.ne {desc : Bool} {v w : V} (h : Lt desc v w) : v ≠ w := by
  cases desc with
  | false => exact ne_of_lt h
  | true => exact (ne_of_lt h).symm

theorem Lt.asymm {desc : Bool} {v w : V} (h : Lt desc v w) : ¬Lt desc w v := by
  cases desc with
  | false => exact lt_asymm h
  | true => exact lt_asymm h

theorem Lt.swap {desc desc' : Bool} {v w : V} (h : Lt desc v w) (hne : desc' ≠ desc) : Lt desc' w v := by
  cases desc <;> cases desc' <;> first | exact h | exact absurd rfl hne

/--
The lexicographic order of the keys.
-/
def Lex (val : κ → α → V) : List (κ × Bool) → α → α → Prop
  | [], _, _ => True
  | (k, desc) :: ks, x, y => Lt desc (val k x) (val k y) ∨ (val k x = val k y ∧ Lex val ks x y)

/--
The indices of a column of values in its stable order.
-/
structure Stable (desc : Bool) (col : List V) (indices : List Nat) : Prop where
  perm : indices.Perm (List.range col.length)
  sorted : indices.Pairwise fun i j => ∀ v w, col[i]? = some v → col[j]? = some w →
    Lt desc v w ∨ (v = w ∧ i < j)

variable {val : κ → α → V} {ks ks' : List (κ × Bool)} {x y : α}

theorem Lex.of_append (h : Lex val (ks ++ ks') x y) : Lex val ks x y := by
  induction ks with
  | nil => trivial
  | cons k ks ih =>
    rcases h with h | ⟨heq, h⟩
    . exact .inl h
    . exact .inr ⟨heq, ih h⟩

theorem Lex.congr {x' y' : α} (hx : ∀ k ∈ ks, val k.1 x = val k.1 x') (hy : ∀ k ∈ ks, val k.1 y = val k.1 y')
    (h : Lex val ks x y)
    : Lex val ks x' y' := by
  induction ks with
  | nil => trivial
  | cons k ks ih =>
    rw [Lex, hx k (by simp), hy k (by simp)] at h
    apply h.imp_right
    rintro ⟨heq, hlex⟩
    refine ⟨heq, ih ?_ ?_ hlex⟩
    . exact fun k' hk' => hx k' (by simp [hk'])
    . exact fun k' hk' => hy k' (by simp [hk'])

theorem lex_append_iff (h : ∀ k ∈ ks, val k.1 x = val k.1 y) : Lex val (ks ++ ks') x y ↔ Lex val ks' x y := by
  induction ks with
  | nil => rfl
  | cons k ks ih =>
    have heq := h k (by simp)
    rw [List.cons_append, Lex, ih fun k' hk' => h k' (by simp [hk'])]
    constructor
    . rintro (hlt | ⟨-, hlex⟩)
      . exact absurd heq hlt.ne
      . exact hlex
    . exact fun hlex => .inr ⟨heq, hlex⟩

theorem forall₂_of_mapM {l : List α} {indices : List Nat} {out : List α}
    (hout : indices.mapM (fun i => l[i]?) = some out)
    : List.Forall₂ (fun i x => l[i]? = some x) indices out := by
  induction indices generalizing out with
  | nil =>
    cases hout
    exact .nil
  | cons i indices ih =>
    rw [List.mapM_cons] at hout
    obtain ⟨x, hx, hout⟩ := Option.bind_eq_some_iff.mp hout
    obtain ⟨xs, hxs, hout⟩ := Option.bind_eq_some_iff.mp hout
    cases hout
    exact .cons hx (ih hxs)

theorem exists_of_forall₂ {β : Type v} {P : β → α → Prop} {is : List β} {xs : List α} (h : List.Forall₂ P is xs)
    {x : α} (hx : x ∈ xs)
    : ∃ i ∈ is, P i x := by
  induction h with
  | nil => cases hx
  | cons hix _ ih =>
    rcases List.mem_cons.mp hx with rfl | hx
    . exact ⟨_, by simp, hix⟩
    . obtain ⟨i, hi, hix⟩ := ih hx
      exact ⟨i, by simp [hi], hix⟩

theorem pairwise_of_forall₂ {β : Type v} {P : β → α → Prop} {R : β → β → Prop} {S : α → α → Prop} {is : List β}
    {xs : List α} (h : List.Forall₂ P is xs) (hR : is.Pairwise R)
    (hS : ∀ i j x y, P i x → P j y → R i j → S x y)
    : xs.Pairwise S := by
  induction h with
  | nil => exact .nil
  | cons hix htail ih =>
    rw [List.pairwise_cons] at hR ⊢
    refine ⟨?_, ih hR.2⟩
    intro y hy
    obtain ⟨j, hj, hjy⟩ := exists_of_forall₂ htail hy
    exact hS _ _ _ _ hix hjy (hR.1 j hj)

theorem pairwise_lex_of_stable {l : List α} (hl : l.Pairwise (Lex val ks)) {k : κ} {desc : Bool} {indices : List Nat}
    (h : Stable desc (l.map (val k)) indices) {out : List α} (hout : indices.mapM (fun i => l[i]?) = some out)
    : out.Pairwise (Lex val ((k, desc) :: ks)) := by
  have hrows := forall₂_of_mapM hout
  refine pairwise_of_forall₂ hrows h.sorted ?_
  intro i j x y hx hy hij
  rcases hij (val k x) (val k y) (by rw [List.getElem?_map, hx]; rfl) (by rw [List.getElem?_map, hy]; rfl) with
    hlt | ⟨heq, hlt⟩
  . exact .inl hlt
  . obtain ⟨hi, rfl⟩ := List.getElem?_eq_some_iff.mp hx
    obtain ⟨hj, rfl⟩ := List.getElem?_eq_some_iff.mp hy
    exact .inr ⟨heq, List.pairwise_iff_getElem.mp hl i j hi hj hlt⟩

theorem eq_of_stable_const {l : List α} {k : κ} (hl : ∀ x ∈ l, ∀ y ∈ l, val k x = val k y) {desc : Bool}
    {indices : List Nat} (h : Stable desc (l.map (val k)) indices) {out : List α}
    (hout : indices.mapM (fun i => l[i]?) = some out)
    : out = l := by
  have hperm := h.perm
  rw [List.length_map] at hperm
  have hsorted : indices.Pairwise (· < ·) := by
    apply h.sorted.imp_of_mem
    intro i j hi hj hij
    have hi := List.mem_range.mp (hperm.mem_iff.mp hi)
    have hj := List.mem_range.mp (hperm.mem_iff.mp hj)
    rcases hij (val k l[i]) (val k l[j]) (by simp [hi]) (by simp [hj]) with hlt | ⟨-, hlt⟩
    . exact absurd (hl _ (List.getElem_mem hi) _ (List.getElem_mem hj)) hlt.ne
    . exact hlt
  have hindices : indices = List.range l.length :=
    hperm.eq_of_pairwise (fun i j _ _ hij hji => absurd hji (Nat.lt_asymm hij)) hsorted List.pairwise_lt_range
  have hrows := forall₂_of_mapM hout
  rw [hindices, List.forall₂_iff_get] at hrows
  obtain ⟨hlen, hrows⟩ := hrows
  rw [List.length_range] at hlen
  apply List.ext_getElem hlen.symm
  intro i hi hi'
  have hrow := hrows i (by simpa using hi') hi
  simp only [List.get_eq_getElem, List.getElem_range] at hrow
  rw [List.getElem?_eq_getElem hi'] at hrow
  exact (Option.some.inj hrow).symm

/-! Keys that come back. -/

variable [DecidableEq κ]

/--
The keys without those that have come before.
-/
def reduce : List (κ × Bool) → List (κ × Bool)
  | [] => []
  | k :: ks => k :: (reduce ks).filter fun k' => k'.1 ≠ k.1

theorem lex_filter_iff {k : κ} (h : val k x = val k y)
    : Lex val (ks.filter fun k' => k'.1 ≠ k) x y ↔ Lex val ks x y := by
  induction ks with
  | nil => rfl
  | cons k' ks ih =>
    rw [List.filter_cons]
    by_cases hk : k'.1 = k
    . rw [if_neg (by simpa using hk), ih]
      have heq : ∀ k'' ∈ [k'], val k''.1 x = val k''.1 y := by simp [hk, h]
      exact (lex_append_iff heq).symm
    . rw [if_pos (by simpa using hk), Lex, Lex, ih]

theorem lex_reduce_iff : Lex val (reduce ks) x y ↔ Lex val ks x y := by
  induction ks with
  | nil => rfl
  | cons k ks ih =>
    rw [reduce, Lex, Lex]
    apply or_congr_right
    apply and_congr_right
    intro heq
    rw [lex_filter_iff heq, ih]

theorem nodup_reduce (ks : List (κ × Bool)) : ((reduce ks).map Prod.fst).Nodup := by
  induction ks with
  | nil => exact List.nodup_nil
  | cons k ks ih =>
    rw [reduce, List.map_cons, List.nodup_cons]
    constructor
    . intro hmem
      obtain ⟨k', hk', heq⟩ := List.mem_map.mp hmem
      have hne := (List.mem_filter.mp hk').2
      simp [heq] at hne
    . exact ih.sublist (List.filter_sublist.map _)

theorem Lex.of_prefix (h : Lex val ks' x y) (hks : reduce ks <+: reduce ks') : Lex val ks x y := by
  obtain ⟨rest, hrest⟩ := hks
  rw [← lex_reduce_iff] at h ⊢
  rw [← hrest] at h
  exact h.of_append

theorem exists_of_not_prefix {β : Type v} {l l' : List β} (h : ¬l <+: l')
    : ∃ p k t, l = p ++ k :: t ∧ (l' = p ∨ ∃ k' t', l' = p ++ k' :: t' ∧ k ≠ k') := by
  induction l generalizing l' with
  | nil => exact absurd l'.nil_prefix h
  | cons k l ih =>
    cases l' with
    | nil => exact ⟨[], k, l, rfl, .inl rfl⟩
    | cons k' l' =>
      by_cases hk : k = k'
      . obtain ⟨p, q, t, hl, hl'⟩ := ih fun hpre => h (List.cons_prefix_cons.mpr ⟨hk, hpre⟩)
        subst hk
        refine ⟨k :: p, q, t, by rw [hl]; rfl, ?_⟩
        rcases hl' with hl' | ⟨q', t', hl', hne⟩
        . exact .inl (by rw [hl'])
        . exact .inr ⟨q', t', by rw [hl']; rfl, hne⟩
      . exact ⟨[], k, l, rfl, .inr ⟨k', l', rfl, hk⟩⟩

theorem exists_lt {s : Set V} (hs : s.Nontrivial) (desc : Bool) : ∃ v ∈ s, ∃ w ∈ s, Lt desc v w := by
  obtain ⟨v, hv, w, hw, hlt⟩ := hs.exists_lt
  cases desc with
  | false => exact ⟨v, hv, w, hw, hlt⟩
  | true => exact ⟨w, hw, v, hv, hlt⟩

theorem exists_mem_reduce {k : κ × Bool} (hk : k ∈ ks) : ∃ k' ∈ reduce ks, k'.1 = k.1 := by
  induction ks with
  | nil => cases hk
  | cons q ks ih =>
    by_cases heq : k.1 = q.1
    . exact ⟨q, by simp [reduce], heq.symm⟩
    . have hk : k ∈ ks := by
        rcases List.mem_cons.mp hk with rfl | hk
        . exact absurd rfl heq
        . exact hk
      obtain ⟨k', hk', hfst⟩ := ih hk
      refine ⟨k', ?_, hfst⟩
      rw [reduce, List.mem_cons, List.mem_filter]
      exact .inr ⟨hk', by simpa [hfst] using heq⟩

theorem not_lex_of_lt {p t : List (κ × Bool)} {k : κ} {desc : Bool} (hks : reduce ks = p ++ (k, desc) :: t)
    (hp : ∀ q ∈ p, val q.1 x = val q.1 y) (h : Lt desc (val k y) (val k x))
    : ¬Lex val ks x y := by
  rw [← lex_reduce_iff, hks, lex_append_iff hp, Lex]
  rintro (hlt | ⟨heq, -⟩)
  . exact h.asymm hlt
  . exact h.ne heq.symm

theorem ne_of_mem_of_reduce_eq {p t : List (κ × Bool)} {k q : κ × Bool} (hks : reduce ks = p ++ k :: t) (hq : q ∈ p)
    : q.1 ≠ k.1 := by
  have hnodup := nodup_reduce ks
  rw [hks, List.map_append, List.nodup_append] at hnodup
  exact hnodup.2.2 _ (List.mem_map_of_mem hq) _ (by simp)

/--
If the one list of keys does not begin with the other, there are two elements that it does not sort by the other.
-/
theorem exists_not_lex {values : κ → Set V} (hvalues : ∀ k, (values k).Nontrivial) (h : ¬reduce ks <+: reduce ks')
    : ∃ x y : κ → V, (∀ k, x k ∈ values k) ∧ (∀ k, y k ∈ values k) ∧ ¬Lex (fun k x => x k) ks x y ∧
      ((∀ k ∈ ks', x k.1 = y k.1) ∨ ¬Lex (fun k x => x k) ks' y x) := by
  obtain ⟨p, ⟨k, desc⟩, t, hks, hks'⟩ := exists_of_not_prefix h
  obtain ⟨w, hw, v, hv, hwv⟩ := exists_lt (hvalues k) desc
  choose z hz using fun k => (hvalues k).nonempty
  have hmem : ∀ (f : κ → V) (k : κ) (u : V), (∀ k, f k ∈ values k) → u ∈ values k →
      ∀ k', Function.update f k u k' ∈ values k' := by
    intro f k u hf hu k'
    rw [Function.update_apply]
    split
    . next heq => exact heq ▸ hu
    . exact hf k'
  rcases hks' with hks' | ⟨⟨k', desc'⟩, t', hks', hne⟩
  -- The first difference is behind the last key: the sort leaves both elements where they are.
  . refine ⟨Function.update z k v, Function.update z k w, hmem z k v hz hv, hmem z k w hz hw, ?_, .inl ?_⟩
    . apply not_lex_of_lt hks
      . intro q hq
        simp [ne_of_mem_of_reduce_eq hks hq]
      . simpa using hwv
    . intro q hq
      obtain ⟨q', hq', hfst⟩ := exists_mem_reduce hq
      have hne := ne_of_mem_of_reduce_eq hks (hks' ▸ hq')
      simp [← hfst, hne]
  . by_cases hk : k' = k
    -- One key in two directions.
    . subst hk
      have hdesc : desc' ≠ desc := fun heq => hne (by rw [heq])
      refine ⟨Function.update z k' v, Function.update z k' w, hmem z k' v hz hv, hmem z k' w hz hw, ?_, .inr ?_⟩
      . apply not_lex_of_lt hks
        . intro q hq
          simp [ne_of_mem_of_reduce_eq hks hq]
        . simpa using hwv
      . apply not_lex_of_lt hks'
        . intro q hq
          simp [ne_of_mem_of_reduce_eq hks hq]
        . simpa using hwv.swap hdesc
    -- Two keys, on which the elements are in opposite orders.
    . obtain ⟨v', hv', w', hw', hvw'⟩ := exists_lt (hvalues k') desc'
      refine ⟨Function.update (Function.update z k v) k' v', Function.update (Function.update z k w) k' w',
        hmem _ k' v' (hmem z k v hz hv) hv', hmem _ k' w' (hmem z k w hz hw) hw', ?_, .inr ?_⟩
      . apply not_lex_of_lt hks
        . intro q hq
          simp [ne_of_mem_of_reduce_eq hks hq, ne_of_mem_of_reduce_eq hks' hq]
        . simpa [Function.update_of_ne (Ne.symm hk)] using hwv
      . apply not_lex_of_lt hks'
        . intro q hq
          simp [ne_of_mem_of_reduce_eq hks hq, ne_of_mem_of_reduce_eq hks' hq]
        . simpa using hvw'

/-! A stable sort. -/

instance (desc : Bool) (v w : V) : Decidable (Lt desc v w) :=
  inferInstanceAs (Decidable (if desc then w < v else v < w))

theorem Lt.trans {desc : Bool} {u v w : V} (huv : Lt desc u v) (hvw : Lt desc v w) : Lt desc u w := by
  cases desc with
  | false => exact lt_trans huv hvw
  | true => exact lt_trans hvw huv

theorem Lt.trichotomy (desc : Bool) (v w : V) : Lt desc v w ∨ v = w ∨ Lt desc w v := by
  cases desc with
  | false => exact lt_trichotomy v w
  | true => exact (lt_trichotomy v w).elim (fun h => .inr (.inr h)) fun h => h.elim (fun h => .inr (.inl h)) .inl

/--
Values with their indices: equal values stay in the order of the indices.
-/
def indexedLe (desc : Bool) (x y : V × Nat) : Bool :=
  decide (Lt desc x.1 y.1 ∨ (x.1 = y.1 ∧ x.2 ≤ y.2))

def stableIndices (desc : Bool) (col : List V) : List Nat :=
  (col.zipIdx.mergeSort (indexedLe desc)).map Prod.snd

theorem indexedLe_trans (desc : Bool) (x y z : V × Nat) (hxy : indexedLe desc x y) (hyz : indexedLe desc y z)
    : indexedLe desc x z := by
  rw [indexedLe, decide_eq_true_iff] at *
  rcases hxy with hxy | ⟨hxy, hle⟩
  . rcases hyz with hyz | ⟨hyz, -⟩
    . exact .inl (hxy.trans hyz)
    . exact .inl (hyz ▸ hxy)
  . rcases hyz with hyz | ⟨hyz, hle'⟩
    . exact .inl (hxy ▸ hyz)
    . exact .inr ⟨hxy.trans hyz, hle.trans hle'⟩

theorem indexedLe_total (desc : Bool) (x y : V × Nat) : indexedLe desc x y || indexedLe desc y x := by
  rw [Bool.or_eq_true, indexedLe, indexedLe, decide_eq_true_iff, decide_eq_true_iff]
  rcases Lt.trichotomy desc x.1 y.1 with h | h | h
  . exact .inl (.inl h)
  . rcases Nat.le_total x.2 y.2 with hle | hle
    . exact .inl (.inr ⟨h, hle⟩)
    . exact .inr (.inr ⟨h.symm, hle⟩)
  . exact .inr (.inl h)

theorem stable_stableIndices (desc : Bool) (col : List V) : Stable desc col (stableIndices desc col) := by
  have hperm := List.mergeSort_perm col.zipIdx (indexedLe desc)
  have hindices : (stableIndices desc col).Perm (List.range col.length) := by
    have hmap := hperm.map Prod.snd
    rwa [List.zipIdx_map_snd, ← List.range_eq_range'] at hmap
  constructor
  . exact hindices
  . have hle := List.pairwise_mergeSort (indexedLe_trans desc) (indexedLe_total desc) col.zipIdx
    have hne := List.pairwise_map.mp (hindices.nodup_iff.mpr List.nodup_range)
    rw [stableIndices, List.pairwise_map]
    apply (hle.and hne).imp_of_mem
    rintro ⟨v, i⟩ ⟨w, j⟩ hi hj ⟨hij, hneq⟩ v' w' hv' hw'
    have hv := List.mem_zipIdx_iff_getElem?.mp (hperm.mem_iff.mp hi)
    have hw := List.mem_zipIdx_iff_getElem?.mp (hperm.mem_iff.mp hj)
    cases hv.symm.trans hv'
    cases hw.symm.trans hw'
    rcases decide_eq_true_iff.mp hij with hlt | ⟨heq, hle⟩
    . exact .inl hlt
    . exact .inr ⟨heq, Nat.lt_of_le_of_ne hle hneq⟩

end

end LexSort
