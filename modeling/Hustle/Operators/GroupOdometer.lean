import Hustle.Operators.Aggregate

/-!
This module contains the loop of `Aggregate::ComputeAggregates` that goes through the combinations of the distinct
values of the group columns, with the vectors that it writes to.
-/

namespace Hustle.Operators

open Storage (castInt)

namespace Aggregate

/--
The variables of the loop. An entry of `group_id_vec_` is `none` until it is written.
-/
structure GroupLoop where
  groupId : List Nat
  groupIdVec : List (Option (List Nat))
  groupAggIndexMap : List (Nat × Nat)
  aggIndex : Nat
  deriving DecidableEq, Repr

/--
`++v` for an `int`.
-/
def increment (v : Nat) : Option Nat :=
  if (v + 1 : Int) ≤ Storage.maxInt then some (v + 1) else none

/--
`group_id[index] == max_unique_values[index]`
-/
def atMaximum (maxUniqueValues : List Int) (groupId : List Nat) (index : Nat) : Option Bool := do
  let id ← groupId[index]?
  let maximum ← maxUniqueValues[index]?
  return (id : Int) = maximum

/--
The inner loop, from the column `index` on. It ends with the flag `exit` if the first column is at its maximum.
-/
def carry (maxUniqueValues : List Int) : List Nat → Nat → Option (List Nat × Bool)
  | groupId, 0 => do
    let exit ← atMaximum maxUniqueValues groupId 0
    return (groupId, exit)
  | groupId, index + 1 => do
    let reset ← atMaximum maxUniqueValues groupId (index + 1)
    if reset then
      let groupId := groupId.set (index + 1) 0
      let id ← groupId[index]?
      let next ← increment id
      carry maxUniqueValues (groupId.set index next) index
    else
      return (groupId, false)

def writeGroup (s : GroupLoop) : Option GroupLoop :=
  if s.aggIndex < s.groupIdVec.length then do
    let key ← groupKey s.groupId
    let aggIndex ← increment s.aggIndex
    return {
      groupId := s.groupId
      groupIdVec := s.groupIdVec.set s.aggIndex (some s.groupId)
      groupAggIndexMap := (key, s.aggIndex) :: s.groupAggIndexMap
      aggIndex
    }
  else
    none

/--
The increment of the combination, with the flag `exit`. Without columns the loop is left at once.
-/
def nextGroup (maxUniqueValues : List Int) (groupId : List Nat) : Option (List Nat × Bool) :=
  match maxUniqueValues.length with
  | 0 => some (groupId, true)
  | last + 1 => do
    let id ← groupId[last]?
    let id ← increment id
    carry maxUniqueValues (groupId.set last id) last

def groupStep (maxUniqueValues : List Int) (s : GroupLoop) : Option (GroupLoop × Bool) := do
  let s ← writeGroup s
  let (groupId, exit) ← nextGroup maxUniqueValues s.groupId
  return ({ s with groupId }, exit)

/--
The outer loop. It fails if it does not end within `fuel` iterations.
-/
def groupLoop (maxUniqueValues : List Int) : Nat → GroupLoop → Option GroupLoop
  | 0, _ => none
  | fuel + 1, s => do
    let (s, exit) ← groupStep maxUniqueValues s
    if exit then return s else groupLoop maxUniqueValues fuel s

/--
`num_aggs_`, which is a `size_t`.
-/
def numAggs (maxUniqueValues : List Int) : Nat :=
  (maxUniqueValues.foldl (fun numAggs maximum => numAggs * maximum % 2 ^ 64) (1 : Int)).toNat

/--
The enumeration of the groups. `counts` are the numbers of the distinct values of the group columns.
-/
def enumerateGroups (fuel : Nat) (counts : List Nat) : Option GroupLoop :=
  let maxUniqueValues := counts.map fun (count : Nat) => castInt count
  groupLoop maxUniqueValues fuel {
    groupId := counts.map fun _ => 0
    groupIdVec := List.replicate (numAggs maxUniqueValues) none
    groupAggIndexMap := []
    aggIndex := 0
  }

/--
The loop ends, and `group_id_vec_` has all combinations in lexicographic order, each of them once.
-/
def EnumeratesGroups (counts : List Nat) : Prop :=
  ∃ fuel s, ∃ values : List (List Nat), enumerateGroups fuel counts = some s ∧ s.groupIdVec = values.map some ∧
    values.Pairwise (List.Lex (· < ·)) ∧ ∀ groupId, groupId ∈ values ↔ Odometer.Below counts groupId

/-! One iteration. -/

theorem increment_eq_some {v : Nat} (h : (v + 1 : Int) ≤ Storage.maxInt) : increment v = some (v + 1) :=
  if_pos h

section

variable {maxUniqueValues : List Int} {groupId : List Nat} {index d bound : Nat}

theorem atMaximum_eq_some (hd : groupId[index]? = some d) (hmax : maxUniqueValues[index]? = some (bound : Int))
    : atMaximum maxUniqueValues groupId index = some (decide (d = bound)) := by
  simp [atMaximum, hd, hmax]

theorem carry_of_ne (hd : groupId[index]? = some d) (hmax : maxUniqueValues[index]? = some (bound : Int))
    (hne : d ≠ bound)
    : carry maxUniqueValues groupId index = some (groupId, false) := by
  have hat := atMaximum_eq_some hd hmax
  rw [decide_eq_false hne] at hat
  cases index with
  | zero => rw [carry, hat]; rfl
  | succ index => rw [carry, hat]; rfl

theorem carry_zero (hd : groupId[0]? = some d) (hmax : maxUniqueValues[0]? = some (d : Int))
    : carry maxUniqueValues groupId 0 = some (groupId, true) := by
  have hat := atMaximum_eq_some hd hmax
  rw [decide_eq_true rfl] at hat
  rw [carry, hat]
  rfl

theorem carry_succ {e : Nat} (hd : groupId[index + 1]? = some d) (hmax : maxUniqueValues[index + 1]? = some (d : Int))
    (he : groupId[index]? = some e) (hint : (e + 1 : Int) ≤ Storage.maxInt)
    : carry maxUniqueValues groupId (index + 1)
        =
      carry maxUniqueValues ((groupId.set (index + 1) 0).set index (e + 1)) index := by
  have hset : (groupId.set (index + 1) 0)[index]? = some e := by
    rw [List.getElem?_set_ne (Nat.succ_ne_self index), he]
  have hat := atMaximum_eq_some hd hmax
  rw [decide_eq_true rfl] at hat
  have hnext := increment_eq_some hint
  rw [carry, hat, Option.bind_eq_bind, Option.bind_some, if_pos rfl]
  dsimp only
  rw [hset, Option.bind_eq_bind, Option.bind_some, hnext, Option.bind_some]

end

/--
The step of the inner loop from the column of `bound` to the one of `b`.
-/
theorem carry_concat {bounds digits : List Nat} {b e : Nat} (hlen : bounds.length = digits.length)
    (hint : (e + 1 : Int) ≤ Storage.maxInt) (bound : Nat) (rest : List Nat)
    : carry ((bounds ++ [b] ++ bound :: rest).map Int.ofNat) (digits ++ [e] ++ bound :: Odometer.zero rest)
          (digits ++ [e]).length
        =
      carry ((bounds ++ b :: bound :: rest).map Int.ofNat) (digits ++ (e + 1) :: Odometer.zero (bound :: rest))
        digits.length := by
  rw [List.length_append, List.length_singleton]
  rw [@carry_succ _ _ _ bound e (by simp) (by simp [← hlen]) (by simp) hint]
  congr 1
  . simp
  . simp [Odometer.zero]

section

variable {bounds digits digits' : List Nat}

/--
The columns from `bound` on have been reset. The inner loop goes on to the next combination of the columns before.
-/
theorem carry_eq_some (hbelow : Odometer.Below bounds digits) (hmax : ∀ b ∈ bounds, (b : Int) ≤ Storage.maxInt)
    (hnext : Odometer.next bounds digits = some digits') (bound : Nat) (rest : List Nat)
    : carry ((bounds ++ bound :: rest).map Int.ofNat) (digits ++ bound :: Odometer.zero rest) digits.length
        =
      some (digits' ++ Odometer.zero (bound :: rest), false) := by
  induction digits using List.reverseRecOn generalizing bounds digits' bound rest with
  | nil =>
    rw [List.length_eq_zero_iff.mp hbelow.length_eq] at hnext
    cases hnext
  | append_singleton digits e ih =>
    rcases List.eq_nil_or_concat' bounds with rfl | ⟨bounds, b, rfl⟩
    . cases hnext
    . have hlen : bounds.length = digits.length := by simpa using hbelow.length_eq
      obtain ⟨hbelow, hlt⟩ := (Odometer.below_concat hlen).mp hbelow
      have hb := hmax b (by simp)
      rw [carry_concat hlen (by omega)]
      rw [Odometer.next_concat hlen] at hnext
      split at hnext
      . next heq =>
        obtain ⟨digits₁, hnext₁, rfl⟩ := Option.map_eq_some_iff.mp hnext
        rw [heq, ih hbelow (fun c hc => hmax c (by simp [hc])) hnext₁ b (bound :: rest)]
        simp [Odometer.zero]
      . next hne =>
        cases hnext
        rw [@carry_of_ne _ _ _ (e + 1) b (by simp) (by simp [← hlen]) hne]
        simp [Odometer.zero]

theorem carry_eq_exit (hbelow : Odometer.Below bounds digits) (hmax : ∀ b ∈ bounds, (b : Int) ≤ Storage.maxInt)
    (hnext : Odometer.next bounds digits = none) (bound : Nat) (rest : List Nat)
    : ∃ out, carry ((bounds ++ bound :: rest).map Int.ofNat) (digits ++ bound :: Odometer.zero rest) digits.length
        =
      some (out, true) := by
  induction digits using List.reverseRecOn generalizing bounds bound rest with
  | nil =>
    rw [List.length_eq_zero_iff.mp hbelow.length_eq]
    exact ⟨_, @carry_zero _ _ bound (by simp) (by simp)⟩
  | append_singleton digits e ih =>
    rcases List.eq_nil_or_concat' bounds with rfl | ⟨bounds, b, rfl⟩
    . exact absurd hbelow.length_eq (by simp)
    . have hlen : bounds.length = digits.length := by simpa using hbelow.length_eq
      obtain ⟨hbelow, hlt⟩ := (Odometer.below_concat hlen).mp hbelow
      have hb := hmax b (by simp)
      rw [carry_concat hlen (by omega)]
      rw [Odometer.next_concat hlen] at hnext
      split at hnext
      . next heq =>
        rw [heq]
        exact ih hbelow (fun c hc => hmax c (by simp [hc])) (Option.map_eq_none_iff.mp hnext) b (bound :: rest)
      . cases hnext

end

section

variable {counts groupId groupId' : List Nat}

theorem nextGroup_concat {bounds digits : List Nat} {b d : Nat} (hlen : bounds.length = digits.length)
    (hd : (d + 1 : Int) ≤ Storage.maxInt)
    : nextGroup ((bounds ++ [b]).map Int.ofNat) (digits ++ [d])
        =
      carry ((bounds ++ [b]).map Int.ofNat) (digits ++ [d + 1]) digits.length := by
  have hlength : ((bounds ++ [b]).map Int.ofNat).length = digits.length + 1 := by simp [hlen]
  have hlast : (digits ++ [d])[digits.length]? = some d := by simp
  have hset : (digits ++ [d]).set digits.length (d + 1) = digits ++ [d + 1] := by simp
  have hnext := increment_eq_some hd
  unfold nextGroup
  rw [hlength]
  dsimp only
  rw [hlast, Option.bind_eq_bind, Option.bind_some, hnext, Option.bind_some, hset]

theorem nextGroup_eq_some (hbelow : Odometer.Below counts groupId) (hmax : ∀ c ∈ counts, (c : Int) ≤ Storage.maxInt)
    (hnext : Odometer.next counts groupId = some groupId')
    : nextGroup (counts.map Int.ofNat) groupId = some (groupId', false) := by
  rcases List.eq_nil_or_concat' counts with rfl | ⟨bounds, b, rfl⟩
  . cases hnext
  . rcases List.eq_nil_or_concat' groupId with rfl | ⟨digits, d, rfl⟩
    . exact absurd hbelow.length_eq (by simp)
    . have hlen : bounds.length = digits.length := by simpa using hbelow.length_eq
      obtain ⟨hbelow, hlt⟩ := (Odometer.below_concat hlen).mp hbelow
      have hb := hmax b (by simp)
      rw [nextGroup_concat hlen (by omega)]
      rw [Odometer.next_concat hlen] at hnext
      split at hnext
      . next heq =>
        obtain ⟨digits', hnext', rfl⟩ := Option.map_eq_some_iff.mp hnext
        rw [heq]
        exact carry_eq_some hbelow (fun c hc => hmax c (by simp [hc])) hnext' b []
      . next hne =>
        cases hnext
        exact @carry_of_ne _ _ _ (d + 1) b (by simp) (by simp [← hlen]) hne

theorem nextGroup_eq_exit (hbelow : Odometer.Below counts groupId) (hmax : ∀ c ∈ counts, (c : Int) ≤ Storage.maxInt)
    (hnext : Odometer.next counts groupId = none)
    : ∃ out, nextGroup (counts.map Int.ofNat) groupId = some (out, true) := by
  rcases List.eq_nil_or_concat' counts with rfl | ⟨bounds, b, rfl⟩
  . exact ⟨groupId, rfl⟩
  . rcases List.eq_nil_or_concat' groupId with rfl | ⟨digits, d, rfl⟩
    . exact absurd hbelow.length_eq (by simp)
    . have hlen : bounds.length = digits.length := by simpa using hbelow.length_eq
      obtain ⟨hbelow, hlt⟩ := (Odometer.below_concat hlen).mp hbelow
      have hb := hmax b (by simp)
      rw [nextGroup_concat hlen (by omega)]
      rw [Odometer.next_concat hlen] at hnext
      split at hnext
      . next heq =>
        rw [heq]
        exact carry_eq_exit hbelow (fun c hc => hmax c (by simp [hc])) (Option.map_eq_none_iff.mp hnext) b []
      . cases hnext

end

/-! All iterations. -/

section

variable {counts : List Nat} {s s' : GroupLoop}

theorem writeGroup_eq_some_iff
    : writeGroup s = some s' ↔
        s.aggIndex < s.groupIdVec.length ∧ (s.aggIndex + 1 : Int) ≤ Storage.maxInt ∧
          ∃ key, groupKey s.groupId = some key ∧
            s' = ⟨s.groupId, s.groupIdVec.set s.aggIndex (some s.groupId),
              (key, s.aggIndex) :: s.groupAggIndexMap, s.aggIndex + 1⟩ := by
  unfold writeGroup
  split
  . next hroom =>
    simp only [hroom, true_and, Option.bind_eq_bind, Option.bind_eq_some_iff, increment]
    constructor
    . rintro ⟨key, hkey, index, hindex, h⟩
      split at hindex
      . next hint =>
        cases hindex
        cases h
        exact ⟨hint, key, hkey, rfl⟩
      . cases hindex
    . rintro ⟨hint, key, hkey, rfl⟩
      exact ⟨key, hkey, s.aggIndex + 1, if_pos hint, rfl⟩
  . next hroom => simp [hroom]

/--
The state after the body has written the key `key` and the loop has gone on to `groupId`.
-/
def GroupLoop.next (s : GroupLoop) (key : Nat) (groupId : List Nat) : GroupLoop where
  groupId := groupId
  groupIdVec := s.groupIdVec.set s.aggIndex (some s.groupId)
  groupAggIndexMap := (key, s.aggIndex) :: s.groupAggIndexMap
  aggIndex := s.aggIndex + 1

theorem groupStep_eq_some_iff {maxUniqueValues : List Int} {exit : Bool}
    : groupStep maxUniqueValues s = some (s', exit) ↔
        s.aggIndex < s.groupIdVec.length ∧ (s.aggIndex + 1 : Int) ≤ Storage.maxInt ∧
          ∃ key groupId, groupKey s.groupId = some key ∧
            nextGroup maxUniqueValues s.groupId = some (groupId, exit) ∧ s' = s.next key groupId := by
  unfold groupStep
  rw [Option.bind_eq_bind, Option.bind_eq_some_iff]
  constructor
  . rintro ⟨s₁, hwrite, h⟩
    obtain ⟨⟨groupId, exit'⟩, hnext, h⟩ := Option.bind_eq_some_iff.mp h
    obtain ⟨hroom, hint, key, hkey, rfl⟩ := writeGroup_eq_some_iff.mp hwrite
    cases h
    exact ⟨hroom, hint, key, groupId, hkey, hnext, rfl⟩
  . rintro ⟨hroom, hint, key, groupId, hkey, hnext, rfl⟩
    refine ⟨_, writeGroup_eq_some_iff.mpr ⟨hroom, hint, key, hkey, rfl⟩, ?_⟩
    rw [Option.bind_eq_bind, hnext, Option.bind_some]
    rfl

theorem groupLoop_eq_some (hmax : ∀ c ∈ counts, (c : Int) ≤ Storage.maxInt) {n : Nat} {values written : List (List Nat)}
    (hbelow : Odometer.Below counts s.groupId) (hwalk : Odometer.walk counts n s.groupId = some values)
    (hkeys : ∀ x ∈ values, (groupKey x).isSome) (hvec : s.groupIdVec = written.map some ++ values.map fun _ => none)
    (hindex : s.aggIndex = written.length) (hint : (written.length + values.length : Int) ≤ Storage.maxInt)
    : ∃ s', groupLoop (counts.map Int.ofNat) n s = some s' ∧ s'.groupIdVec = (written ++ values).map some := by
  induction n generalizing s values written with
  | zero => cases hwalk
  | succ n ih =>
    rw [Odometer.walk] at hwalk
    cases hnext : Odometer.next counts s.groupId with
    | none =>
      simp only [hnext] at hwalk
      cases hwalk
      rw [List.length_singleton] at hint
      obtain ⟨key, hkey⟩ := Option.isSome_iff_exists.mp (hkeys s.groupId (by simp))
      obtain ⟨out, hout⟩ := nextGroup_eq_exit hbelow hmax hnext
      have hstep := groupStep_eq_some_iff.mpr ⟨by simp [hvec, hindex], by omega, key, out, hkey, hout, rfl⟩
      refine ⟨s.next key out, by rw [groupLoop, hstep]; rfl, ?_⟩
      simp [GroupLoop.next, hvec, hindex]
    | some groupId =>
      simp only [hnext] at hwalk
      obtain ⟨values', hwalk', rfl⟩ := Option.map_eq_some_iff.mp hwalk
      rw [List.length_cons] at hint
      obtain ⟨key, hkey⟩ := Option.isSome_iff_exists.mp (hkeys s.groupId (by simp))
      have hout := nextGroup_eq_some hbelow hmax hnext
      have hstep := groupStep_eq_some_iff.mpr ⟨by simp [hvec, hindex], by omega, key, groupId, hkey, hout, rfl⟩
      obtain ⟨s', hloop, hvec'⟩ := @ih (s.next key groupId) values' (written ++ [s.groupId])
        (Odometer.next_eq_some hbelow hnext).1 hwalk' (fun x hx => hkeys x (by simp [hx]))
        (by simp [GroupLoop.next, hvec, hindex]) (by simp [GroupLoop.next, hindex])
        (by rw [List.length_append, List.length_singleton]; omega)
      refine ⟨s', ?_, by rw [hvec']; simp⟩
      rw [groupLoop, hstep]
      exact hloop

/--
An entry that has been written has a number below the next one, and the key of its combination is an `int`.
-/
structure Numbered (s : GroupLoop) : Prop where
  index_le : (s.aggIndex : Int) ≤ Storage.maxInt
  entries : ∀ i groupId, s.groupIdVec[i]? = some (some groupId) → i < s.aggIndex ∧ (groupKey groupId).isSome

theorem Numbered.groupStep {maxUniqueValues : List Int} {exit : Bool} (h : Numbered s)
    (hstep : groupStep maxUniqueValues s = some (s', exit))
    : Numbered s' := by
  obtain ⟨hroom, hint, key, groupId, hkey, -, rfl⟩ := groupStep_eq_some_iff.mp hstep
  refine ⟨by exact_mod_cast hint, ?_⟩
  intro i entry hget
  simp only [GroupLoop.next, List.getElem?_set] at hget ⊢
  split at hget
  . next heq =>
    cases hget
    exact ⟨by omega, by rw [hkey]; rfl⟩
  . obtain ⟨hlt, hsome⟩ := h.entries i entry hget
    exact ⟨by omega, hsome⟩

theorem Numbered.groupLoop {maxUniqueValues : List Int} {fuel : Nat} (h : Numbered s)
    (hloop : groupLoop maxUniqueValues fuel s = some s')
    : Numbered s' ∧ s'.groupIdVec.length = s.groupIdVec.length ∧ 0 < s.groupIdVec.length := by
  induction fuel generalizing s with
  | zero => cases hloop
  | succ fuel ih =>
    rw [Aggregate.groupLoop] at hloop
    obtain ⟨⟨s₁, exit⟩, hstep, hloop⟩ := Option.bind_eq_some_iff.mp hloop
    have hnumbered := h.groupStep hstep
    obtain ⟨hroom, -, key, groupId, -, -, rfl⟩ := groupStep_eq_some_iff.mp hstep
    have hlen : (s.next key groupId).groupIdVec.length = s.groupIdVec.length := List.length_set
    dsimp only at hloop
    split at hloop
    . cases hloop
      exact ⟨hnumbered, hlen, Nat.zero_lt_of_lt hroom⟩
    . obtain ⟨hdone, hlength, -⟩ := ih hnumbered hloop
      exact ⟨hdone, hlength.trans hlen, Nat.zero_lt_of_lt hroom⟩

theorem castInt_map (hmax : ∀ c ∈ counts, (c : Int) ≤ Storage.maxInt)
    : counts.map (fun (count : Nat) => castInt count) = counts.map Int.ofNat := by
  apply List.map_congr_left
  intro c hc
  exact Storage.castInt_of_le (Int.natCast_nonneg c) (hmax c hc)

/--
The product does not wrap if it is an `int`.
-/
theorem foldl_mul_mod (counts : List Nat) (m : Nat)
    : (counts.map Int.ofNat).foldl (fun numAggs maximum => numAggs * maximum % 2 ^ 64) ((m : Int) % 2 ^ 64)
        =
      ((m * counts.prod : Nat) : Int) % 2 ^ 64 := by
  induction counts generalizing m with
  | nil => simp
  | cons c counts ih =>
    rw [List.map_cons, List.foldl_cons, List.prod_cons, ← Nat.mul_assoc, ← ih]
    congr 1
    rw [Int.ofNat_eq_natCast, Nat.cast_mul, Int.mul_emod, Int.emod_emod, ← Int.mul_emod]

theorem numAggs_eq (h : (counts.prod : Int) ≤ Storage.maxInt) : numAggs (counts.map Int.ofNat) = counts.prod := by
  have hprod := foldl_mul_mod counts 1
  have hone : ((1 : Nat) : Int) % 2 ^ 64 = 1 := by norm_num
  unfold Storage.maxInt at h
  rw [hone, Nat.one_mul, Int.emod_eq_of_lt (by omega) (by omega)] at hprod
  rw [numAggs, hprod, Int.toNat_natCast]

theorem groupKey_isSome_iff {groupId : List Nat}
    : (groupKey groupId).isSome ↔ (groupId.zipIdx.map fun x => x.1 * 10 ^ x.2).sum < 2 ^ 31 ∧ groupId.length ≤ 309 := by
  unfold groupKey
  dsimp only
  split
  . next h =>
    constructor
    . intro hsome
      cases hsome
    . intro hlt
      omega
  . next h =>
    simp only [Option.isSome_some, true_iff]
    omega

theorem keySum_le {groupId last : List Nat} (h : List.Forall₂ (· ≤ ·) groupId last) (start : Nat)
    : ((groupId.zipIdx start).map fun x => x.1 * 10 ^ x.2).sum ≤ ((last.zipIdx start).map fun x => x.1 * 10 ^ x.2).sum := by
  induction h generalizing start with
  | nil => exact Nat.le_refl _
  | cons hd _ ih =>
    simp only [List.zipIdx_cons, List.map_cons, List.sum_cons]
    exact Nat.add_le_add (Nat.mul_le_mul_right _ hd) (ih (start + 1))

theorem forall₂_last {groupId : List Nat} (h : Odometer.Below counts groupId)
    : List.Forall₂ (· ≤ ·) groupId (counts.map (· - 1)) := by
  induction h with
  | nil => exact .nil
  | cons hd _ ih => exact .cons (Nat.le_sub_one_of_lt hd) ih

theorem last_below (h : ∀ c ∈ counts, 0 < c) : Odometer.Below counts (counts.map (· - 1)) := by
  induction counts with
  | nil => exact .nil
  | cons c counts ih =>
    exact .cons (Nat.sub_one_lt_of_lt (h c (by simp))) (ih fun b hb => h b (by simp [hb]))

theorem groupKeys_iff (h : ∀ c ∈ counts, 0 < c)
    : (∀ groupId, Odometer.Below counts groupId → (groupKey groupId).isSome) ↔
        (groupKey (counts.map (· - 1))).isSome := by
  constructor
  . intro hkeys
    exact hkeys _ (last_below h)
  . intro hlast groupId hbelow
    rw [groupKey_isSome_iff] at hlast ⊢
    have hle := forall₂_last hbelow
    have hsum := keySum_le hle 0
    rw [hle.length_eq]
    exact ⟨Nat.lt_of_le_of_lt hsum hlast.1, hlast.2⟩

theorem le_prod (h : ∀ c ∈ counts, 0 < c) {c : Nat} (hc : c ∈ counts) : c ≤ counts.prod := by
  have hne : counts.prod ≠ 0 := List.prod_ne_zero fun hzero => Nat.lt_irrefl 0 (h 0 hzero)
  exact Nat.le_of_dvd (Nat.pos_of_ne_zero hne) (List.dvd_prod hc)

theorem Numbered.length_le {values : List (List Nat)} (h : Numbered s) (hvec : s.groupIdVec = values.map some)
    : (values.length : Int) ≤ Storage.maxInt := by
  rcases List.eq_nil_or_concat' values with rfl | ⟨values, x, rfl⟩
  . decide
  . have hlast : s.groupIdVec[values.length]? = some (some x) := by simp [hvec]
    have hlt := (h.entries _ x hlast).1
    have hindex := h.index_le
    rw [List.length_append, List.length_singleton]
    omega

theorem enumerateGroups_of_walk (hpos : ∀ c ∈ counts, 0 < c) (hprod : (counts.prod : Int) ≤ Storage.maxInt)
    {values : List (List Nat)} (hwalk : Odometer.walk counts counts.prod (Odometer.zero counts) = some values)
    (hkeys : ∀ x ∈ values, (groupKey x).isSome)
    : ∃ s, enumerateGroups counts.prod counts = some s ∧ s.groupIdVec = values.map some := by
  have hmax : ∀ c ∈ counts, (c : Int) ≤ Storage.maxInt := by
    intro c hc
    exact Int.le_trans (by exact_mod_cast le_prod hpos hc) hprod
  have hlength : values.length = counts.prod := by
    obtain ⟨values', hwalk', -, hlength, -⟩ := Odometer.walk_zero hpos
    cases hwalk.symm.trans hwalk'
    exact hlength
  rw [enumerateGroups, castInt_map hmax, numAggs_eq hprod]
  apply @groupLoop_eq_some _ _ hmax _ _ [] (Odometer.zero_below hpos) hwalk hkeys
  . simp [List.map_const', hlength]
  . rfl
  . rw [hlength]
    simpa using hprod

/--
The list of combinations that the model of `Aggregate` works with is the vector that the loop of the source writes.
-/
theorem enumerateGroups_of_groupIdVec {groupCols : List GroupColumn} {values : List (List Nat)}
    (h : groupIdVec groupCols = some values) (hkeys : ∀ x ∈ values, (groupKey x).isSome)
    : ∃ fuel s, enumerateGroups fuel (groupCols.map fun col => col.uniqueValues.length) = some s ∧
        s.groupIdVec = values.map some := by
  unfold groupIdVec at h
  dsimp only at h
  split at h
  . cases h
  . next hprod =>
    have hpos : ∀ c ∈ groupCols.map fun col => col.uniqueValues.length, 0 < c := by
      intro c hc
      apply Nat.pos_of_ne_zero
      rintro rfl
      rw [List.prod_eq_zero hc] at h
      cases h
    have hint : (((groupCols.map fun col => col.uniqueValues.length).prod : Nat) : Int) ≤ Storage.maxInt := by
      unfold Storage.maxInt
      omega
    exact ⟨_, enumerateGroups_of_walk hpos hint h hkeys⟩

/--
The loop enumerates the groups if there are any, and if their numbers and keys are `int`s. Without a group there is
no place for the combination that the loop starts with.
-/
theorem enumeratesGroups_iff (counts : List Nat)
    : EnumeratesGroups counts ↔
        (∀ c ∈ counts, 0 < c) ∧ (counts.prod : Int) ≤ Storage.maxInt ∧ (groupKey (counts.map (· - 1))).isSome := by
  constructor
  . rintro ⟨fuel, s, values, hrun, hvec, hsorted, hmem⟩
    have hstart : Numbered ⟨counts.map fun _ => 0,
        List.replicate (numAggs (counts.map fun (count : Nat) => castInt count)) none, [], 0⟩ := by
      refine ⟨show ((0 : Nat) : Int) ≤ Storage.maxInt by decide, ?_⟩
      intro i groupId hget
      rw [List.getElem?_replicate] at hget
      split at hget
      . cases hget
      . cases hget
    obtain ⟨hnumbered, hlength, hroom⟩ := hstart.groupLoop hrun
    have hne : 0 < values.length := by
      rw [← hlength, hvec, List.length_map] at hroom
      exact hroom
    have hpos : ∀ c ∈ counts, 0 < c := by
      have hbelow := (hmem values[0]).mp (List.getElem_mem hne)
      intro c hc
      obtain ⟨i, hi, rfl⟩ := List.mem_iff_getElem.mp hc
      exact Nat.zero_lt_of_lt (hbelow.get hi (hbelow.length_eq ▸ hi))
    have hkeys : ∀ groupId, Odometer.Below counts groupId → (groupKey groupId).isSome := by
      intro groupId hbelow
      obtain ⟨i, hi⟩ := List.mem_iff_getElem?.mp ((hmem groupId).mpr hbelow)
      exact (hnumbered.entries i groupId (by rw [hvec, List.getElem?_map, hi]; rfl)).2
    obtain ⟨all, -, hnodup, hcount, hall⟩ := Odometer.walk_zero hpos
    have hvalues : values.Nodup := by
      apply hsorted.imp
      rintro x y hlex rfl
      exact List.lex_irrefl Nat.lt_irrefl x hlex
    have hperm : values.Perm all := by
      rw [List.perm_ext_iff_of_nodup hvalues hnodup]
      intro x
      rw [hmem, hall]
    refine ⟨hpos, ?_, (groupKeys_iff hpos).mp hkeys⟩
    rw [← hcount, ← hperm.length_eq]
    exact hnumbered.length_le hvec
  . rintro ⟨hpos, hprod, hlast⟩
    obtain ⟨values, hwalk, -, -, hmem⟩ := Odometer.walk_zero hpos
    have hkeys := (groupKeys_iff hpos).mpr hlast
    obtain ⟨s, hrun, hvec⟩ := enumerateGroups_of_walk hpos hprod hwalk fun x hx => hkeys x ((hmem x).mp hx)
    exact ⟨_, s, values, hrun, hvec, Odometer.walk_pairwise hpos hwalk, hmem⟩

end

example : (enumerateGroups 4 [2, 1, 2]).map (·.groupIdVec)
    = some [some [0, 0, 0], some [0, 0, 1], some [1, 0, 0], some [1, 0, 1]] := by decide

/--
A group column of an empty input has no values.
-/
theorem not_enumeratesGroups_empty : ¬ ∀ counts, EnumeratesGroups counts := by
  intro h
  obtain ⟨fuel, s, -, hrun, -⟩ := h [0]
  cases fuel with
  | zero => cases hrun
  | succ fuel =>
    have hnone : groupStep [0] ⟨[0], [], [], 0⟩ = none := rfl
    have hloop : groupLoop [0] (fuel + 1) ⟨[0], [], [], 0⟩ = none := by rw [groupLoop, hnone]; rfl
    cases hloop.symm.trans hrun

end Aggregate

end Hustle.Operators
