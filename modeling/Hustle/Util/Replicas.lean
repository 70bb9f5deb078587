import Mathlib.Data.List.AList

/-!
This module contains replicas that are kept under keys, and the replay of events each of which is for one of them. What
becomes of a replica only depends on its own events and their order.
-/

namespace Replicas

section

variable {κ ρ : Type u} {α : Type v} [DecidableEq κ] (step : ρ → α → Option ρ)

/--
Replay an event at the replica it is for.
-/
def applyAt (replicas : AList fun _ : κ => ρ) (event : κ × α) : Option (AList fun _ : κ => ρ) := do
  let r ← replicas.lookup event.1
  let r ← step r event.2
  return replicas.insert event.1 r

def eventsAt (k : κ) (events : List (κ × α)) : List α :=
  events.filterMap fun event => if event.1 = k then some event.2 else none

variable {step} {replicas : AList fun _ : κ => ρ} {events : List (κ × α)}

theorem eventsAt_cons (k : κ) (event : κ × α) (events : List (κ × α))
    : eventsAt k (event :: events)
        =
      if event.1 = k then event.2 :: eventsAt k events else eventsAt k events := by
  unfold eventsAt
  rw [List.filterMap_cons]
  split
  . next h => rw [if_neg (by simpa using h)]
  . next a h =>
    split at h
    . next hk =>
      rw [if_pos hk, Option.some.inj h]
    . simp at h

theorem eventsAt_append (k : κ) (events events' : List (κ × α))
    : eventsAt k (events ++ events') = eventsAt k events ++ eventsAt k events' :=
  List.filterMap_append

theorem eventsAt_map (k k' : κ) (as : List α)
    : eventsAt k (as.map fun a => (k', a)) = if k' = k then as else [] := by
  induction as with
  | nil => simp [eventsAt]
  | cons a as ih =>
    rw [List.map_cons, eventsAt_cons, ih]
    split <;> rfl

/--
If every replica can replay its own events, then all events can be replayed, and every replica ends up as if there were
no others.
-/
theorem foldlM_applyAt
    (h : ∀ k ∈ events.map Prod.fst,
      ∃ r r', replicas.lookup k = some r ∧ (eventsAt k events).foldlM step r = some r')
    : ∃ replicas',
        events.foldlM (applyAt step) replicas = some replicas' ∧
        ∀ k r, replicas.lookup k = some r →
          ∃ r', replicas'.lookup k = some r' ∧ (eventsAt k events).foldlM step r = some r' := by
  induction events generalizing replicas with
  | nil => exact ⟨replicas, rfl, fun k r hr => ⟨r, hr, rfl⟩⟩
  | cons event events ih =>
    obtain ⟨k₀, a⟩ := event
    obtain ⟨r₀, r₀', hr₀, hrun₀⟩ := h k₀ (by simp)
    rw [eventsAt_cons, if_pos rfl, List.foldlM_cons] at hrun₀
    obtain ⟨r₁, hr₁, hrest⟩ := Option.bind_eq_some_iff.mp hrun₀
    have hfirst : applyAt step replicas (k₀, a) = some (replicas.insert k₀ r₁) := by
      simp [applyAt, hr₀, hr₁]
    -- The other replicas have the same events left.
    have hother : ∀ k r, k ≠ k₀ → replicas.lookup k = some r
        → (replicas.insert k₀ r₁).lookup k = some r ∧ eventsAt k ((k₀, a) :: events) = eventsAt k events := by
      intro k r hne hr
      refine ⟨?_, ?_⟩
      . rw [AList.lookup_insert_ne hne, hr]
      . rw [eventsAt_cons, if_neg (Ne.symm hne)]
    obtain ⟨replicas', hrun, hfinal⟩ := @ih (replicas.insert k₀ r₁) <| by
      intro k hk
      by_cases hne : k = k₀
      . subst hne
        exact ⟨r₁, r₀', AList.lookup_insert _, hrest⟩
      . obtain ⟨r, r', hr, hrun⟩ := h k (by simp [hk])
        obtain ⟨hr', hevents⟩ := hother k r hne hr
        exact ⟨r, r', hr', hevents ▸ hrun⟩
    refine ⟨replicas', ?_, ?_⟩
    . rw [List.foldlM_cons, hfirst]
      exact hrun
    . intro k r hr
      by_cases hne : k = k₀
      . subst hne
        obtain ⟨r', hr', hrun'⟩ := hfinal k r₁ (AList.lookup_insert _)
        refine ⟨r', hr', ?_⟩
        rw [hr₀] at hr
        cases hr
        rw [eventsAt_cons, if_pos rfl, List.foldlM_cons, hr₁]
        exact hrun'
      . obtain ⟨hr', hevents⟩ := hother k r hne hr
        rw [hevents]
        exact hfinal k r hr'

end

end Replicas
