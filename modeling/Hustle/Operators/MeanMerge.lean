import Hustle.Operators.HashGroups
import Mathlib.Algebra.Order.Ring.Int
import Mathlib.Algebra.Order.Field.Rat
import Mathlib.Tactic.LinearCombination
import Mathlib.Tactic.Ring

/-!
This module contains how the second phase of a hash aggregate merges the maps of a mean. The count of a key that is in
the global map already goes to the sum of the values.
-/

namespace Hustle.Operators

open Accumulate

namespace HashAggregate

/--
What a task has for a key: the sum of the values and their number.
-/
structure KeyShare where
  key : BitVec 64
  value : BitVec 64
  count : BitVec 64

def sharesOf (shares : List KeyShare) (k : BitVec 64) : List KeyShare :=
  shares.filter fun x => x.key = k

/--
The counts of all shares of a key but the first one are added to the value.
-/
def mergedValue : List KeyShare → Option (BitVec 64)
  | [] => none
  | x :: xs => some (x.value + (xs.map fun y => y.value + y.count).sum)

def mergedCount : List KeyShare → Option (BitVec 64)
  | [] => none
  | x :: _ => some x.count

/--
What is in the global maps after some shares have been merged.
-/
def Merged (shares : List KeyShare) (globals : HashMap × HashMap) : Prop :=
  ∀ k, globals.1.lookup k = mergedValue (sharesOf shares k) ∧ globals.2.lookup k = mergedCount (sharesOf shares k)

theorem sharesOf_append_singleton (shares : List KeyShare) (x : KeyShare) (k : BitVec 64)
    : sharesOf (shares ++ [x]) k = if x.key = k then sharesOf shares k ++ [x] else sharesOf shares k := by
  by_cases h : x.key = k <;> simp [sharesOf, h]

theorem mergedValue_append (xs : List KeyShare) (x y : KeyShare)
    : mergedValue (x :: xs ++ [y]) = (mergedValue (x :: xs)).map fun v => y.value + y.count + v := by
  simp only [mergedValue, List.cons_append, List.map_append, List.map_cons, List.map_nil, List.sum_append,
    List.sum_cons, List.sum_nil, Option.map_some, Option.some.injEq, add_zero]
  rw [← BitVec.add_assoc, BitVec.add_comm]

def mergeShare (globals : HashMap × HashMap) (x : KeyShare) : HashMap × HashMap :=
  match globals.2.lookup x.key with
  | none => (upsert (· + ·) x.key x.value globals.1, upsert (· + ·) x.key x.count globals.2)
  | some _ => (upsert (· + ·) x.key (x.value + x.count) globals.1, globals.2)

theorem Merged.step {shares : List KeyShare} {globals : HashMap × HashMap} (h : Merged shares globals) (x : KeyShare)
    : Merged (shares ++ [x]) (mergeShare globals x) := by
  intro k
  unfold mergeShare
  rw [sharesOf_append_singleton]
  obtain ⟨hvalue, hcount⟩ := h k
  cases hshares : sharesOf shares x.key with
  | nil =>
    have hnone : globals.2.lookup x.key = none := by rw [(h x.key).2, hshares]; rfl
    have hnone' : globals.1.lookup x.key = none := by rw [(h x.key).1, hshares]; rfl
    simp only [hnone, lookup_upsert]
    by_cases hk : x.key = k
    . subst hk
      simp [hnone', hshares, mergedValue, mergedCount]
    . simp [hk, Ne.symm hk, hvalue, hcount]
  | cons y ys =>
    have hsome : globals.2.lookup x.key = some y.count := by rw [(h x.key).2, hshares]; rfl
    have hsome' := (h x.key).1
    rw [hshares] at hsome'
    simp only [hsome, lookup_upsert]
    by_cases hk : x.key = k
    . subst hk
      rw [if_pos rfl, if_pos rfl, hshares, mergedValue_append, hsome', hsome]
      exact ⟨rfl, rfl⟩
    . simp [hk, Ne.symm hk, hvalue, hcount]

def localShares (m : LocalMaps) : List KeyShare :=
  m.countMap.map fun e => ⟨e.1, (m.valueMap.lookup e.1).getD 0, e.2⟩

theorem foldl_mergeShare_merged {shares : List KeyShare} {globals : HashMap × HashMap} (h : Merged shares globals)
    (xs : List KeyShare)
    : Merged (shares ++ xs) (xs.foldl mergeShare globals) := by
  induction xs generalizing shares globals with
  | nil => simpa using h
  | cons x xs ih =>
    have := ih (h.step x)
    rwa [List.append_assoc, List.singleton_append] at this

def mergeEntry (m : LocalMaps) (globals : HashMap × HashMap) (e : BitVec 64 × BitVec 64)
    : Option (HashMap × HashMap) := do
  let value ← m.valueMap.lookup e.1
  match globals.2.lookup e.1 with
  | none => return (upsert (· + ·) e.1 value globals.1, upsert (· + ·) e.1 e.2 globals.2)
  | some _ => return (upsert (· + ·) e.1 (value + e.2) globals.1, globals.2)

theorem globalMeanMaps_eq (maps : List LocalMaps)
    : globalMeanMaps maps = maps.foldlM (fun globals m => m.countMap.foldlM (mergeEntry m) globals) ([], []) :=
  rfl

theorem mergeEntry_eq {m : LocalMaps} {e : BitVec 64 × BitVec 64} (h : (m.valueMap.lookup e.1).isSome)
    (globals : HashMap × HashMap)
    : mergeEntry m globals e = some (mergeShare globals ⟨e.1, (m.valueMap.lookup e.1).getD 0, e.2⟩) := by
  obtain ⟨value, hvalue⟩ := Option.isSome_iff_exists.mp h
  simp only [mergeEntry, mergeShare, hvalue, Option.bind_eq_bind, Option.bind_some, Option.getD_some]
  cases globals.2.lookup e.1 <;> rfl

theorem foldlM_mergeEntry_eq {m : LocalMaps} {es : List (BitVec 64 × BitVec 64)}
    (h : ∀ k ∈ keys es, (m.valueMap.lookup k).isSome) (globals : HashMap × HashMap)
    : es.foldlM (mergeEntry m) globals
        =
      some ((es.map fun e => ⟨e.1, (m.valueMap.lookup e.1).getD 0, e.2⟩).foldl mergeShare globals) := by
  induction es generalizing globals with
  | nil => rfl
  | cons e es ih =>
    rw [List.foldlM_cons, mergeEntry_eq (h e.1 (by simp [keys]))]
    exact ih (fun k hk => h k (List.mem_cons_of_mem _ hk)) _

theorem globalMeanMaps_merged {maps : List LocalMaps}
    (hkeys : ∀ m ∈ maps, ∀ k ∈ keys m.countMap, (m.valueMap.lookup k).isSome)
    : ∃ globals, globalMeanMaps maps = some globals ∧ Merged (maps.flatMap localShares) globals := by
  have hfold : ∀ globals : HashMap × HashMap,
      maps.foldlM (fun globals m => m.countMap.foldlM (mergeEntry m) globals) globals
        = some ((maps.flatMap localShares).foldl mergeShare globals) := by
    induction maps with
    | nil => exact fun _ => rfl
    | cons m maps ih =>
      intro globals
      rw [List.foldlM_cons, foldlM_mergeEntry_eq (hkeys m (by simp)), Option.bind_eq_bind, Option.bind_some,
        ih (fun m' hm' => hkeys m' (by simp [hm'])), List.flatMap_cons, List.foldl_append]
      rfl
  have hempty : Merged [] ([], []) := fun k => ⟨rfl, rfl⟩
  refine ⟨_, (globalMeanMaps_eq maps).trans (hfold _), ?_⟩
  exact foldl_mergeShare_merged hempty _

/-! The maps of the tasks. -/

section

variable (hash : Value → BitVec 64) (key : Nat → List Value) (value : Nat → BitVec 64)

/--
The tuples whose group has the hash `k`.
-/
def tuplesOf (xs : List (Nat × (Nat × Nat))) (k : BitVec 64) : List (Nat × (Nat × Nat)) :=
  xs.filter fun x => groupHash hash (key x.1) = k

def totalOf (xs : List (Nat × (Nat × Nat))) (k : BitVec 64) : Int :=
  ((tuplesOf hash key xs k).map fun x => (value x.1).toInt).sum

end

variable {hash : Value → BitVec 64} {key : Nat → List Value} {value : Nat → BitVec 64}

theorem totalOf_append (xs ys : List (Nat × (Nat × Nat))) (k : BitVec 64)
    : totalOf hash key value (xs ++ ys) k = totalOf hash key value xs k + totalOf hash key value ys k := by
  simp [totalOf, tuplesOf]

theorem totalOf_one (xs : List (Nat × (Nat × Nat))) (k : BitVec 64)
    : totalOf hash key (fun _ => 1) xs k = (tuplesOf hash key xs k).length := by
  have hone : (1 : BitVec 64).toInt = 1 := by decide
  simp only [totalOf, hone, List.map_const', List.sum_replicate, nsmul_eq_mul, mul_one]

theorem sumOf_valueEntry (xs : List (Nat × (Nat × Nat))) (k : BitVec 64)
    : sumOf (xs.map (valueEntry hash key value)) k = BitVec.ofInt 64 (totalOf hash key value xs k) := by
  induction xs with
  | nil => rfl
  | cons x xs ih =>
    have hsum : sumOf ((x :: xs).map (valueEntry hash key value)) k
        = sumOf [valueEntry hash key value x] k + sumOf (xs.map (valueEntry hash key value)) k :=
      sumOf_append [valueEntry hash key value x] _ k
    have htotal : totalOf hash key value (x :: xs) k
        = totalOf hash key value [x] k + totalOf hash key value xs k := totalOf_append [x] xs k
    rw [hsum, htotal, ih, BitVec.ofInt_add, valueEntry, sumOf_singleton]
    congr 1
    by_cases hk : groupHash hash (key x.1) = k
    . simp [totalOf, tuplesOf, hk]
    . simp [totalOf, tuplesOf, hk]

def shareOf (hash : Value → BitVec 64) (key : Nat → List Value) (value : Nat → BitVec 64)
    (part : List (Nat × (Nat × Nat))) (k : BitVec 64) : KeyShare :=
  ⟨k, BitVec.ofInt 64 (totalOf hash key value part k), BitVec.ofInt 64 (tuplesOf hash key part k).length⟩

theorem mem_keys_valueEntry {part : List (Nat × (Nat × Nat))} {k : BitVec 64}
    : k ∈ keys (part.map (valueEntry hash key value)) ↔ tuplesOf hash key part k ≠ [] := by
  simp only [keys, valueEntry, List.map_map, List.mem_map, Function.comp_apply, tuplesOf, ne_eq,
    List.filter_eq_nil_iff, decide_eq_true_eq]
  push Not
  rfl

theorem sharesOf_localShares (part : List (Nat × (Nat × Nat))) (k : BitVec 64)
    : sharesOf (localShares (addEntries hash key value .mean ⟨[], [], []⟩ part)) k
        =
      if tuplesOf hash key part k = [] then [] else [shareOf hash key value part k] := by
  have hvalues := Totals.nil.upserts (part.map (valueEntry hash key value))
  have hcounts := Totals.nil.upserts (part.map (valueEntry hash key fun _ => 1))
  rw [List.nil_append] at hvalues hcounts
  have hshares : sharesOf (localShares (addEntries hash key value .mean ⟨[], [], []⟩ part)) k
      = ((upserts (· + ·) [] (part.map (valueEntry hash key fun _ => 1))).filter fun e => e.1 = k).map fun e =>
          ⟨e.1, ((upserts (· + ·) [] (part.map (valueEntry hash key value))).lookup e.1).getD 0, e.2⟩ := by
    rw [sharesOf, localShares, List.filter_map]
    rfl
  rw [hshares, filter_eq_lookup hcounts.nodup]
  by_cases htuples : tuplesOf hash key part k = []
  . have hnone : (upserts (· + ·) [] (part.map (valueEntry hash key fun _ => 1))).lookup k = none := by
      rw [lookup_eq_none_iff, hcounts.mem_keys, mem_keys_valueEntry, not_not]
      exact htuples
    rw [hnone, if_pos htuples]
    rfl
  . obtain ⟨count, hcount⟩ := exists_of_mem_keys ((hcounts.mem_keys k).mpr (mem_keys_valueEntry.mpr htuples))
    obtain ⟨v, hv⟩ := exists_of_mem_keys ((hvalues.mem_keys k).mpr (mem_keys_valueEntry.mpr htuples))
    rw [lookup_eq_some hcounts.nodup hcount, if_neg htuples]
    simp only [Option.map_some, Option.toList_some, List.map_cons, List.map_nil,
      lookup_eq_some hvalues.nodup hv, Option.getD_some]
    rw [hcounts.value k count hcount, hvalues.value k v hv, sumOf_valueEntry, sumOf_valueEntry, totalOf_one]
    rfl

theorem isSome_lookup_valueMap {part : List (Nat × (Nat × Nat))} {k : BitVec 64}
    (hk : k ∈ keys (addEntries hash key value .mean ⟨[], [], []⟩ part).countMap)
    : ((addEntries hash key value .mean ⟨[], [], []⟩ part).valueMap.lookup k).isSome := by
  have hvalues := Totals.nil.upserts (part.map (valueEntry hash key value))
  have hcounts := Totals.nil.upserts (part.map (valueEntry hash key fun _ => 1))
  rw [List.nil_append] at hvalues hcounts
  have hmem := mem_keys_valueEntry.mp ((hcounts.mem_keys k).mp hk)
  obtain ⟨v, hv⟩ := exists_of_mem_keys ((hvalues.mem_keys k).mpr (mem_keys_valueEntry.mpr hmem))
  rw [addEntries]
  rw [lookup_eq_some hvalues.nodup hv]
  rfl

def partsOf (hash : Value → BitVec 64) (key : Nat → List Value) (parts : List (List (Nat × (Nat × Nat))))
    (k : BitVec 64) : List (List (Nat × (Nat × Nat))) :=
  parts.filter fun part => tuplesOf hash key part k ≠ []

theorem sharesOf_flatMap (parts : List (List (Nat × (Nat × Nat)))) (k : BitVec 64)
    : sharesOf ((parts.map (addEntries hash key value .mean ⟨[], [], []⟩)).flatMap localShares) k
        =
      (partsOf hash key parts k).map fun part => shareOf hash key value part k := by
  induction parts with
  | nil => rfl
  | cons part parts ih =>
    have happend : ∀ xs ys : List KeyShare, sharesOf (xs ++ ys) k = sharesOf xs k ++ sharesOf ys k := by
      intro xs ys
      rw [sharesOf, List.filter_append]
      rfl
    rw [List.map_cons, List.flatMap_cons, happend, ih, sharesOf_localShares, partsOf, partsOf, List.filter_cons]
    by_cases htuples : tuplesOf hash key part k = []
    . simp [htuples]
    . simp [htuples]

theorem sum_partsOf (parts : List (List (Nat × (Nat × Nat)))) (k : BitVec 64)
    : ((partsOf hash key parts k).map fun part => totalOf hash key value part k).sum
        =
      totalOf hash key value parts.flatten k := by
  induction parts with
  | nil => rfl
  | cons part parts ih =>
    rw [List.flatten_cons, totalOf_append, ← ih, partsOf, partsOf, List.filter_cons]
    by_cases htuples : tuplesOf hash key part k = []
    . have hzero : totalOf hash key value part k = 0 := by rw [totalOf, htuples]; rfl
      simp [htuples, hzero]
    . simp [htuples]

theorem sum_numbers_nonneg (parts : List (List (Nat × (Nat × Nat)))) (k : BitVec 64)
    : 0 ≤ (parts.map fun part => totalOf hash key (fun _ => 1) part k).sum := by
  induction parts with
  | nil => exact le_rfl
  | cons part parts ih =>
    rw [List.map_cons, List.sum_cons, totalOf_one]
    omega

theorem sum_shareOf (parts : List (List (Nat × (Nat × Nat)))) (k : BitVec 64)
    : ((parts.map fun part => shareOf hash key value part k).map fun y => y.value + y.count).sum
        =
      BitVec.ofInt 64 ((parts.map fun part => totalOf hash key value part k).sum +
        (parts.map fun part => totalOf hash key (fun _ => 1) part k).sum) := by
  induction parts with
  | nil => rfl
  | cons part parts ih =>
    rw [List.map_cons, List.map_cons, List.sum_cons, ih, List.map_cons, List.map_cons, List.sum_cons, List.sum_cons,
      shareOf, ← totalOf_one, ← BitVec.ofInt_add, ← BitVec.ofInt_add]
    congr 1
    ring

theorem merged_quotient_iff {total number first : Int} (hfirst : 0 < first) (hle : first ≤ number)
    (hnumber : number < 2 ^ 63) (htotal : -2 ^ 63 ≤ total ∧ total < 2 ^ 63)
    : (((BitVec.ofInt 64 (total + (number - first))).toInt : ℚ) / ((BitVec.ofInt 64 first).toInt : ℚ)
          = (total : ℚ) / (number : ℚ)) ↔ number = first ∨ total = -number := by
  have hcount : (BitVec.ofInt 64 first).toInt = first := by
    rw [BitVec.toInt_ofInt, Int.bmod_eq_of_le (by omega) (by omega)]
  have hq : (first : ℚ) ≠ 0 := by exact_mod_cast hfirst.ne'
  have hq' : (number : ℚ) ≠ 0 := by exact_mod_cast (show number ≠ 0 by omega)
  rw [hcount, div_eq_div_iff hq hq', BitVec.toInt_ofInt]
  norm_cast
  by_cases hfits : total + (number - first) < 2 ^ 63
  . rw [Int.bmod_eq_of_le (by omega) (by omega)]
    constructor
    . intro h
      have hfactor : (number - first) * (total + number) = 0 := by linear_combination h
      rcases mul_eq_zero.mp hfactor with h | h <;> omega
    . rintro (rfl | rfl) <;> ring
  . -- the sum of the values is positive, what is divided is negative
    have hwrap : (total + (number - first)).bmod (2 ^ 64) < 0 := by
      rw [Int.bmod_def]
      split <;> omega
    constructor
    . intro h
      have hneg : (total + (number - first)).bmod (2 ^ 64) * number < 0 := mul_neg_of_neg_of_pos hwrap (by omega)
      have hpos : 0 ≤ total * first := mul_nonneg (by omega) (by omega)
      omega
    . intro h
      omega

theorem lookup_map_snd (m : HashMap) (f : BitVec 64 × BitVec 64 → BitVec 64) (k : BitVec 64)
    : (m.map fun e => (e.1, f e)).lookup k = (m.lookup k).map fun v => f (k, v) := by
  induction m with
  | nil => rfl
  | cons e m ih =>
    rw [List.map_cons, List.lookup_cons, List.lookup_cons]
    by_cases h : k = e.1
    . subst h
      simp
    . rw [beq_false_of_ne h]
      exact ih

theorem secondPhaseAggregate_mean (divide : BitVec 64 → BitVec 64 → BitVec 64) {maps : List LocalMaps}
    {globals : HashMap × HashMap} (hglobals : globalMeanMaps maps = some globals)
    (hkeys : ∀ k, (globals.2.lookup k).isSome → (globals.1.lookup k).isSome)
    : ∃ m, secondPhaseAggregate divide .mean maps = some m ∧
        ∀ k v c, globals.1.lookup k = some v → globals.2.lookup k = some c → m.lookup k = some (divide v c) := by
  have hmap : globals.2.mapM (fun e => do
      let value ← globals.1.lookup e.1
      return (e.1, divide value e.2))
      = some (globals.2.map fun e => (e.1, divide ((globals.1.lookup e.1).getD 0) e.2)) := by
    apply Run.mapM_eq_some
    intro e he
    have hsome : (globals.2.lookup e.1).isSome := by
      rw [Option.isSome_iff_ne_none, Ne, lookup_eq_none_iff, not_not]
      exact mem_keys_of_mem he
    obtain ⟨v, hv⟩ := Option.isSome_iff_exists.mp (hkeys e.1 hsome)
    rw [hv]
    rfl
  refine ⟨globals.2.map fun e => (e.1, divide ((globals.1.lookup e.1).getD 0) e.2), ?_, ?_⟩
  . simp only [secondPhaseAggregate, hglobals, Option.bind_eq_bind, Option.bind_some]
    exact hmap
  . intro k v c hv hc
    rw [lookup_map_snd, hc, Option.map_some, hv, Option.getD_some]

theorem exists_globalMeanMaps (hash : Value → BitVec 64) (key : Nat → List Value) (value : Nat → BitVec 64)
    (parts : List (List (Nat × (Nat × Nat))))
    : ∃ values counts,
        globalMeanMaps (parts.map (addEntries hash key value .mean ⟨[], [], []⟩)) = some (values, counts) ∧
        (∀ k,
          values.lookup k
            = mergedValue ((partsOf hash key parts k).map fun part => shareOf hash key value part k) ∧
          counts.lookup k
            = mergedCount ((partsOf hash key parts k).map fun part => shareOf hash key value part k)) ∧
        ∀ k, (counts.lookup k).isSome → (values.lookup k).isSome := by
  have hlocal : ∀ m ∈ parts.map (addEntries hash key value .mean ⟨[], [], []⟩), ∀ k ∈ keys m.countMap,
      (m.valueMap.lookup k).isSome := by
    intro m hm k hk
    obtain ⟨part, -, rfl⟩ := List.mem_map.mp hm
    exact isSome_lookup_valueMap hk
  obtain ⟨⟨values, counts⟩, hglobals, hmerged⟩ := globalMeanMaps_merged hlocal
  simp only [Merged, sharesOf_flatMap] at hmerged
  refine ⟨values, counts, hglobals, hmerged, ?_⟩
  intro k hk
  rw [(hmerged k).1]
  rw [(hmerged k).2] at hk
  cases hparts : partsOf hash key parts k with
  | nil =>
    rw [hparts] at hk
    cases hk
  | cons part rest => rfl

/--
Every key that occurs is given the quotient of the sum of all its values and their number.
-/
def MeansExact (hash : Value → BitVec 64) (key : Nat → List Value) (value : Nat → BitVec 64)
    (parts : List (List (Nat × (Nat × Nat)))) : Prop :=
  ∃ values counts, globalMeanMaps (parts.map (addEntries hash key value .mean ⟨[], [], []⟩)) = some (values, counts) ∧
    (∀ divide, ∃ m,
      secondPhaseAggregate divide .mean (parts.map (addEntries hash key value .mean ⟨[], [], []⟩)) = some m ∧
      ∀ k v c, values.lookup k = some v → counts.lookup k = some c → m.lookup k = some (divide v c)) ∧
    ∀ k, tuplesOf hash key parts.flatten k ≠ [] →
      ∃ v c, values.lookup k = some v ∧ counts.lookup k = some c ∧
        (v.toInt : ℚ) / (c.toInt : ℚ)
          =
        (totalOf hash key value parts.flatten k : ℚ) / ((tuplesOf hash key parts.flatten k).length : ℚ)

/--
What the global maps have for a key that occurs.
-/
theorem merged_of_tuples {parts : List (List (Nat × (Nat × Nat)))} {k : BitVec 64}
    (hk : tuplesOf hash key parts.flatten k ≠ [])
    : ∃ first : Int, 0 < first ∧ first ≤ (tuplesOf hash key parts.flatten k).length ∧
        ((partsOf hash key parts k).length = 1 ↔ ((tuplesOf hash key parts.flatten k).length : Int) = first) ∧
        mergedCount ((partsOf hash key parts k).map fun part => shareOf hash key value part k)
          = some (BitVec.ofInt 64 first) ∧
        mergedValue ((partsOf hash key parts k).map fun part => shareOf hash key value part k)
          = some (BitVec.ofInt 64 (totalOf hash key value parts.flatten k +
              ((tuplesOf hash key parts.flatten k).length - first))) := by
  have hnumber := @sum_partsOf hash key (fun _ => 1) parts k
  have htotal := @sum_partsOf hash key value parts k
  rw [totalOf_one] at hnumber
  have hpos : ∀ part ∈ partsOf hash key parts k, 0 < totalOf hash key (fun _ => 1) part k := by
    intro part hpart
    have := List.length_pos_iff.mpr (of_decide_eq_true (List.mem_filter.mp hpart).2)
    rw [totalOf_one]
    omega
  cases hparts : partsOf hash key parts k with
  | nil =>
    rw [hparts] at hnumber
    have := List.length_pos_iff.mpr hk
    simp only [List.map_nil, List.sum_nil] at hnumber
    omega
  | cons part rest =>
    rw [hparts] at hnumber htotal hpos
    rw [List.map_cons, List.sum_cons] at hnumber htotal
    have hfirst := hpos part (by simp)
    have hrest := @sum_numbers_nonneg hash key rest k
    refine ⟨totalOf hash key (fun _ => 1) part k, hfirst, by omega, ?_, ?_, ?_⟩
    . cases rest with
      | nil =>
        simp only [List.map_nil, List.sum_nil] at hnumber
        simp only [List.length_singleton, true_iff]
        omega
      | cons part' rest' =>
        have hpos' := hpos part' (by simp)
        have hrest' := @sum_numbers_nonneg hash key rest' k
        rw [List.map_cons, List.sum_cons] at hnumber
        simp only [List.length_cons]
        omega
    . rw [List.map_cons, mergedCount, shareOf, totalOf_one]
    . rw [List.map_cons, mergedValue, sum_shareOf, shareOf, ← BitVec.ofInt_add]
      congr 2
      omega

/--
The merge of the maps of any number of tasks, whose sums are 64-bit integers, gives every key its mean if and only if
every key was seen by one task only, or the sum of its values is the negative of their number.
-/
theorem meansExact_iff (hash : Value → BitVec 64) (key : Nat → List Value) (value : Nat → BitVec 64)
    (parts : List (List (Nat × (Nat × Nat))))
    (htotal : ∀ k, -2 ^ 63 ≤ totalOf hash key value parts.flatten k ∧ totalOf hash key value parts.flatten k < 2 ^ 63)
    (hnumber : parts.flatten.length < 2 ^ 63)
    : MeansExact hash key value parts ↔
        ∀ k, tuplesOf hash key parts.flatten k ≠ [] → (partsOf hash key parts k).length = 1 ∨
          totalOf hash key value parts.flatten k = -((tuplesOf hash key parts.flatten k).length : Int) := by
  obtain ⟨values, counts, hglobals, hmerged, hkeys⟩ := exists_globalMeanMaps hash key value parts
  have hexact : ∀ k, tuplesOf hash key parts.flatten k ≠ [] →
      ((∃ v c, values.lookup k = some v ∧ counts.lookup k = some c ∧
        (v.toInt : ℚ) / (c.toInt : ℚ)
          = (totalOf hash key value parts.flatten k : ℚ) / ((tuplesOf hash key parts.flatten k).length : ℚ)) ↔
      (partsOf hash key parts k).length = 1 ∨
        totalOf hash key value parts.flatten k = -((tuplesOf hash key parts.flatten k).length : Int)) := by
    intro k hk
    obtain ⟨first, hpos, hle, hone, hcount, hvalue⟩ := @merged_of_tuples hash key value parts k hk
    have hlength : ((tuplesOf hash key parts.flatten k).length : Int) < 2 ^ 63 := by
      have : (tuplesOf hash key parts.flatten k).length ≤ parts.flatten.length := List.length_filter_le _ _
      omega
    rw [(hmerged k).1, (hmerged k).2, hcount, hvalue, hone]
    have hquotient := merged_quotient_iff hpos hle hlength (htotal k)
    rw [← hquotient, Int.cast_natCast]
    constructor
    . rintro ⟨v, c, hv, hc, h⟩
      cases hv
      cases hc
      exact h
    . intro h
      exact ⟨_, _, rfl, rfl, h⟩
  constructor
  . rintro ⟨values', counts', hglobals', -, h⟩ k hk
    rw [hglobals, Option.some.injEq, Prod.mk.injEq] at hglobals'
    obtain ⟨rfl, rfl⟩ := hglobals'
    exact (hexact k hk).mp (h k hk)
  . intro h
    exact ⟨values, counts, hglobals, fun divide => secondPhaseAggregate_mean divide hglobals hkeys,
      fun k hk => (hexact k hk).mpr (h k hk)⟩

def integerHash : Value → BitVec 64
  | .int64 value => value
  | .string _ => 0

def twoParts : List (List (Nat × (Nat × Nat))) :=
  [[(0, (0, 0)), (1, (0, 1))], [(2, (1, 0))]]

/--
The number of the task of a tuple in `twoParts`.
-/
def partKey (n : Nat) : List Value :=
  [.int64 (BitVec.ofNat 64 (n / 2))]

theorem tuplesOf_twoParts {k : BitVec 64} (h : k ≠ groupHash integerHash (partKey 0))
    (h' : k ≠ groupHash integerHash (partKey 2))
    : tuplesOf integerHash partKey twoParts.flatten k = [] := by
  rw [tuplesOf, List.filter_eq_nil_iff]
  intro x hx
  have hx : x ∈ [(0, (0, 0)), (1, (0, 1)), (2, (1, 0))] := hx
  simp only [List.mem_cons, List.not_mem_nil, or_false] at hx
  rw [decide_eq_true_eq]
  rcases hx with rfl | rfl | rfl
  . exact h.symm
  . exact h.symm
  . exact h'.symm

/--
The tuples of a task are a group.
-/
theorem meansExact_iff_twoParts
    : MeansExact integerHash partKey (fun n => BitVec.ofNat 64 (4 * n)) twoParts := by
  apply (meansExact_iff integerHash partKey (fun n => BitVec.ofNat 64 (4 * n)) twoParts ?_ (by decide)).mpr
  . intro k hk
    by_cases h : k = groupHash integerHash (partKey 0)
    . rw [h]
      decide
    . by_cases h' : k = groupHash integerHash (partKey 2)
      . rw [h']
        decide
      . exact absurd (tuplesOf_twoParts h h') hk
  . intro k
    by_cases h : k = groupHash integerHash (partKey 0)
    . rw [h]
      decide
    . by_cases h' : k = groupHash integerHash (partKey 2)
      . rw [h']
        decide
      . rw [totalOf, tuplesOf_twoParts h h']
        decide

/--
Both tasks have tuples of the only group, whose values are 0, 4 and 8. The quotient is 13 / 2.
-/
theorem not_meansExact_twoParts
    : ¬ MeansExact integerHash (fun _ => [.int64 0]) (fun n => BitVec.ofNat 64 (4 * n)) twoParts := by
  rintro ⟨values, counts, hglobals, -, h⟩
  have hmaps : globalMeanMaps (twoParts.map (addEntries integerHash (fun _ => [.int64 0])
      (fun n => BitVec.ofNat 64 (4 * n)) .mean ⟨[], [], []⟩))
      = some ([(groupHash integerHash [.int64 0], 13)], [(groupHash integerHash [.int64 0], 2)]) := by
    decide
  rw [hmaps, Option.some.injEq, Prod.mk.injEq] at hglobals
  obtain ⟨rfl, rfl⟩ := hglobals
  obtain ⟨v, c, hv, hc, hmean⟩ := h (groupHash integerHash [.int64 0]) (by decide)
  rw [List.lookup_cons_self, Option.some.injEq] at hv hc
  have htotal : totalOf integerHash (fun _ => [.int64 0]) (fun n => BitVec.ofNat 64 (4 * n)) twoParts.flatten
      (groupHash integerHash [.int64 0]) = 12 := by decide
  have hnumber : (tuplesOf integerHash (fun _ => [.int64 0]) twoParts.flatten
      (groupHash integerHash [.int64 0])).length = 3 := by decide
  have hvalue : (13 : BitVec 64).toInt = 13 := by decide
  have hcount : (2 : BitVec 64).toInt = 2 := by decide
  rw [← hv, ← hc, htotal, hnumber, hvalue, hcount] at hmean
  norm_num at hmean

end HashAggregate

end Hustle.Operators
