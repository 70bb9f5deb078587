import Hustle.Util.Run
import Mathlib.Logic.Function.Basic

/-!
This module contains calls that share a cache. A call has a key; if there is an answer for the key it is returned,
otherwise the call computes one and leaves it in the cache. Calls that mean different things may have the same key.
-/

namespace Memo

variable {Call : Type u} {Key : Type v} {Out : Type w} [DecidableEq Key] (key : Call → Key)
  (compute : Call → Option Out)

def call (cache : Key → Option Out) (c : Call) : Option (Out × (Key → Option Out)) :=
  match cache (key c) with
  | some out => some (out, cache)
  | none => (compute c).map fun out => (out, Function.update cache (key c) (some out))

def step (cache : Key → Option Out) (c : Call) : Option (Key → Option Out) :=
  (call key compute cache c).map Prod.snd

/--
The call returns an answer that is right for it.
-/
def Answers (right : Call → Out → Prop) (cache : Key → Option Out) (c : Call) (cache' : Key → Option Out) : Prop :=
  ∃ out, call key compute cache c = some (out, cache') ∧ right c out

/--
The answer that all calls with the key will get.
-/
def answer (cache : Key → Option Out) (calls : List Call) (k : Key) : Option Out :=
  (cache k).or ((calls.find? fun c => key c = k).bind compute)

variable {key} {compute}

theorem call_of_cached {cache : Key → Option Out} {c : Call} {out : Out} (h : cache (key c) = some out)
    : call key compute cache c = some (out, cache) := by
  rw [call, h]

theorem call_of_not_cached {cache : Key → Option Out} {c : Call} (h : cache (key c) = none)
    : call key compute cache c
        =
      (compute c).map fun out => (out, Function.update cache (key c) (some out)) := by
  rw [call, h]

theorem map_fst_call (cache : Key → Option Out) (c : Call) (calls : List Call)
    : (call key compute cache c).map Prod.fst = answer key compute cache (c :: calls) (key c) := by
  unfold answer
  cases h : cache (key c) with
  | some out =>
    rw [call_of_cached h]
    rfl
  | none =>
    rw [call_of_not_cached h, List.find?_cons_of_pos (by simp), Option.map_map, Option.none_or, Option.bind_some]
    exact Option.map_id'

theorem answer_call {cache cache' : Key → Option Out} {c : Call} {out : Out}
    (h : call key compute cache c = some (out, cache')) (calls : List Call) (k : Key)
    : answer key compute cache' calls k = answer key compute cache (c :: calls) k := by
  unfold answer
  cases hcached : cache (key c) with
  | some out' =>
    rw [call_of_cached hcached] at h
    cases h
    by_cases hk : key c = k
    . rw [← hk, hcached, Option.some_or, Option.some_or]
    . rw [List.find?_cons_of_neg (by simpa using hk)]
  | none =>
    rw [call_of_not_cached hcached, Option.map_eq_some_iff] at h
    obtain ⟨out', hout, heq⟩ := h
    cases heq
    by_cases hk : key c = k
    . subst hk
      rw [Function.update_self, List.find?_cons_of_pos (by simp), hcached, Option.bind_some, hout, Option.some_or,
        Option.none_or]
    . rw [Function.update_of_ne (Ne.symm hk), List.find?_cons_of_neg (by simpa using hk)]

theorem always_iff_answer {right : Call → Out → Prop} {cache : Key → Option Out} {calls : List Call}
    : Run.Always (step key compute) (fun _ => True) (Answers key compute right) cache calls ↔
        ∀ c ∈ calls, ∃ out, answer key compute cache calls (key c) = some out ∧ right c out := by
  induction calls generalizing cache with
  | nil => simp [Run.Always]
  | cons c calls ih =>
    rw [Run.Always]
    constructor
    . rintro ⟨-, cache', -, ⟨out, hcall, hright⟩, hrest⟩ c' hc'
      rcases List.mem_cons.mp hc' with rfl | hc'
      . refine ⟨out, ?_, hright⟩
        rw [← map_fst_call, hcall, Option.map_some]
      . rw [← answer_call hcall]
        exact ih.mp hrest c' hc'
    . intro h
      obtain ⟨out, hanswer, hright⟩ := h c List.mem_cons_self
      rw [← map_fst_call, Option.map_eq_some_iff] at hanswer
      obtain ⟨⟨out', cache'⟩, hcall, rfl⟩ := hanswer
      refine ⟨trivial, cache', by rw [step, hcall, Option.map_some], ⟨out', hcall, hright⟩, ih.mpr ?_⟩
      intro c' hc'
      rw [answer_call hcall]
      exact h c' (List.mem_cons_of_mem _ hc')

theorem always_iff {right : Call → Out → Prop} {calls : List Call}
    : Run.Always (step key compute) (fun _ => True) (Answers key compute right) (fun _ => none) calls ↔
        ∀ c ∈ calls, ∀ first, (calls.find? fun c' => key c' = key c) = some first →
          ∃ out, compute first = some out ∧ right c out := by
  rw [always_iff_answer]
  constructor
  . intro h c hc first hfirst
    obtain ⟨out, hanswer, hright⟩ := h c hc
    rw [answer, hfirst, Option.none_or, Option.bind_some] at hanswer
    exact ⟨out, hanswer, hright⟩
  . intro h c hc
    have hfound : (calls.find? fun c' => key c' = key c).isSome := by
      rw [List.find?_isSome]
      exact ⟨c, hc, by simp⟩
    obtain ⟨first, hfirst⟩ := Option.isSome_iff_exists.mp hfound
    obtain ⟨out, hout, hright⟩ := h c hc first hfirst
    refine ⟨out, ?_, hright⟩
    rw [answer, hfirst, Option.none_or, Option.bind_some, hout]

end Memo
