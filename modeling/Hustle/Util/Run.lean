import Mathlib.Data.List.Basic

/-!
This module contains runs of a state machine whose steps may fail, conditions that every step of a run
meets in the state it is taken in, and the rule that turns an invariant of such steps into a property
of whole runs.
-/

namespace Run

variable {σ : Type u} {α : Type v} (step : σ → α → Option σ)

/--
Every step of the run satisfies `ok` in the state before it.
-/
def Meets (ok : σ → α → Prop) : σ → List α → Prop
  | _, [] => True
  | s, a :: as => ok s a ∧ ∀ s', step s a = some s' → Meets ok s' as

/--
No step of the run fails, every state of it satisfies `p` and every step of it `q`.
-/
def Always (p : σ → Prop) (q : σ → α → σ → Prop) : σ → List α → Prop
  | s, [] => p s
  | s, a :: as => p s ∧ ∃ s', step s a = some s' ∧ q s a s' ∧ Always p q s' as

/--
Every state that is reached satisfies `p` and every step `q`. A step that fails ends the run.
-/
def Throughout (p : σ → Prop) (q : σ → α → Prop) : σ → List α → Prop
  | s, [] => p s
  | s, a :: as => p s ∧ q s a ∧ ∀ s', step s a = some s' → Throughout p q s' as

instance instDecidableMeets (ok : σ → α → Prop) [∀ s a, Decidable (ok s a)] (s : σ) (as : List α)
    : Decidable (Meets step ok s as) :=
  match as with
  | [] => .isTrue trivial
  | a :: as =>
    match hs : step s a with
    | none => decidable_of_iff (ok s a) <| by simp [Meets, hs]
    | some s' =>
      have := instDecidableMeets ok s' as
      decidable_of_iff (ok s a ∧ Meets step ok s' as) <| by simp [Meets, hs]

variable {step}

theorem always_of_meets {inv p : σ → Prop} {ok : σ → α → Prop} {q : σ → α → σ → Prop}
    (hp : ∀ s, inv s → p s)
    (hstep : ∀ s a, inv s → ok s a → ∃ s', step s a = some s' ∧ q s a s' ∧ inv s')
    {s : σ} {as : List α} (hinv : inv s) (hok : Meets step ok s as)
    : Always step p q s as := by
  induction as generalizing s with
  | nil => exact hp s hinv
  | cons a as ih =>
    obtain ⟨s', heq, hq, hinv'⟩ := hstep s a hinv hok.1
    exact ⟨hp s hinv, s', heq, hq, ih hinv' (hok.2 s' heq)⟩

theorem throughout_of_meets {inv p : σ → Prop} {ok q : σ → α → Prop}
    (hp : ∀ s, inv s → p s) (hq : ∀ s a, inv s → ok s a → q s a)
    (hstep : ∀ s a s', inv s → ok s a → step s a = some s' → inv s')
    {s : σ} {as : List α} (hinv : inv s) (hok : Meets step ok s as)
    : Throughout step p q s as := by
  induction as generalizing s with
  | nil => exact hp s hinv
  | cons a as ih =>
    refine ⟨hp s hinv, hq s a hinv hok.1, ?_⟩
    intro s' hs'
    exact ih (hstep s a s' hinv hok.1 hs') (hok.2 s' hs')

/--
If a step meets a condition exactly if it keeps the invariant and has a property, then all steps of a run do exactly if
all of them meet the condition.
-/
theorem throughout_iff_meets {inv : σ → Prop} {ok q : σ → α → Prop}
    (hstep : ∀ s a, inv s → (ok s a ↔ q s a ∧ ∀ s', step s a = some s' → inv s'))
    {s : σ} {as : List α} (hinv : inv s)
    : Throughout step inv q s as ↔ Meets step ok s as := by
  induction as generalizing s with
  | nil => exact ⟨fun _ => trivial, fun _ => hinv⟩
  | cons a as ih =>
    have hiff := hstep s a hinv
    constructor
    . rintro ⟨-, hq, hrest⟩
      have hinv' : ∀ s', step s a = some s' → inv s' := by
        intro s' hs'
        cases as with
        | nil => exact hrest s' hs'
        | cons b as => exact (hrest s' hs').1
      exact ⟨hiff.mpr ⟨hq, hinv'⟩, fun s' hs' => (ih (hinv' s' hs')).mp (hrest s' hs')⟩
    . rintro ⟨hok, hrest⟩
      obtain ⟨hq, hinv'⟩ := hiff.mp hok
      exact ⟨hinv, hq, fun s' hs' => (ih (hinv' s' hs')).mpr (hrest s' hs')⟩

theorem throughout_iff_meets_of {inv p : σ → Prop} {ok q : σ → α → Prop} {wellFormed : α → Prop}
    (hp : ∀ s, inv s → p s)
    (hinv : ∀ s a s', inv s → wellFormed a → ok s a → step s a = some s' → inv s')
    (hstep : ∀ s a, inv s → wellFormed a → (ok s a ↔ q s a ∧ ∀ s', step s a = some s' → p s'))
    {s : σ} {as : List α} (hs : inv s) (has : ∀ a ∈ as, wellFormed a)
    : Throughout step p q s as ↔ Meets step ok s as := by
  induction as generalizing s with
  | nil => exact ⟨fun _ => trivial, fun _ => hp s hs⟩
  | cons a as ih =>
    have ha := has a List.mem_cons_self
    have has' : ∀ a ∈ as, wellFormed a := fun a' ha' => has a' (List.mem_cons_of_mem a ha')
    constructor
    . rintro ⟨-, hq, hrest⟩
      have hp' : ∀ s', step s a = some s' → p s' := by
        intro s' hs'
        cases as with
        | nil => exact hrest s' hs'
        | cons b as => exact (hrest s' hs').1
      have hok := (hstep s a hs ha).mpr ⟨hq, hp'⟩
      exact ⟨hok, fun s' hs' => (ih (hinv s a s' hs ha hok hs') has').mp (hrest s' hs')⟩
    . rintro ⟨hok, hrest⟩
      exact ⟨hp s hs, ((hstep s a hs ha).mp hok).1, fun s' hs' =>
        (ih (hinv s a s' hs ha hok hs') has').mpr (hrest s' hs')⟩

theorem foldlM_map {τ : Type w} {step' : τ → α → Option τ} (f : σ → τ)
    (hstep : ∀ s a s', step s a = some s' → step' (f s) a = some (f s')) {s s' : σ} {as : List α}
    (h : as.foldlM step s = some s')
    : as.foldlM step' (f s) = some (f s') := by
  induction as generalizing s with
  | nil =>
    cases h
    rfl
  | cons a as ih =>
    rw [List.foldlM_cons] at h ⊢
    obtain ⟨s₁, hs₁, hrest⟩ := Option.bind_eq_some_iff.mp h
    exact Option.bind_eq_some_iff.mpr ⟨f s₁, hstep s a s₁ hs₁, ih hrest⟩

theorem Always.foldlM {p : σ → Prop} {q : σ → α → σ → Prop} {s : σ} {as : List α}
    (h : Always step p q s as)
    : ∃ s', as.foldlM step s = some s' ∧ p s' := by
  induction as generalizing s with
  | nil => exact ⟨s, rfl, h⟩
  | cons a as ih =>
    obtain ⟨-, s₁, heq, -, hrest⟩ := h
    obtain ⟨s', heq', hp⟩ := ih hrest
    refine ⟨s', ?_, hp⟩
    rw [List.foldlM_cons, heq]
    exact heq'

/--
An invariant of the steps that satisfy `ok` holds in the last state of a run whose steps all do.
-/
theorem Meets.invariant {inv : σ → Prop} {ok : σ → α → Prop}
    (hstep : ∀ s a s', inv s → ok s a → step s a = some s' → inv s')
    {s s' : σ} {as : List α} (hok : Meets step ok s as) (hinv : inv s)
    (hrun : as.foldlM step s = some s')
    : inv s' := by
  induction as generalizing s with
  | nil =>
    cases hrun
    exact hinv
  | cons a as ih =>
    rw [List.foldlM_cons] at hrun
    obtain ⟨s₁, heq, hrest⟩ := Option.bind_eq_some_iff.mp hrun
    exact ih (hok.2 s₁ heq) (hstep s a s₁ hinv hok.1 heq) hrest

theorem Meets.and_forall {ok : σ → α → Prop} {p : α → Prop} {s : σ} {as : List α}
    (hok : Meets step ok s as) (hp : ∀ a ∈ as, p a)
    : Meets step (fun s a => ok s a ∧ p a) s as := by
  induction as generalizing s with
  | nil => trivial
  | cons a as ih =>
    refine ⟨⟨hok.1, hp a List.mem_cons_self⟩, ?_⟩
    intro s' hs'
    exact ih (hok.2 s' hs') fun b hb => hp b (List.mem_cons_of_mem _ hb)

theorem meets_true (step : σ → α → Option σ) (s : σ) (as : List α)
    : Meets step (fun _ _ => True) s as := by
  induction as generalizing s with
  | nil => trivial
  | cons a as ih => exact ⟨trivial, fun s' _ => ih s'⟩

/--
In an order of different tasks in which `a` comes before `b`, `a` has been done when `b` is next.
-/
theorem mem_before_of_sublist {a b : α} {tasks before after : List α} (hsub : [a, b].Sublist tasks)
    (hnodup : tasks.Nodup) (hsplit : tasks = before ++ b :: after)
    : a ∈ before := by
  rw [hsplit] at hsub hnodup
  have hlast : b ∉ after := (List.nodup_cons.mp (List.nodup_append.mp hnodup).2.1).1
  obtain ⟨front, back, heq, hfront, hback⟩ := List.sublist_append_iff.mp hsub
  cases front with
  | nil =>
    rw [List.nil_append] at heq
    rw [← heq] at hback
    cases hback with
    | cons _ h => exact absurd (h.subset (by simp)) hlast
    | cons_cons _ h => exact absurd (h.subset (by simp)) hlast
  | cons c front =>
    rw [List.cons_append, List.cons.injEq] at heq
    rw [heq.1]
    exact hfront.subset List.mem_cons_self

theorem mapM_eq_some {α β : Type} {f : α → Option β} {g : α → β} {l : List α} (h : ∀ x ∈ l, f x = some (g x))
    : l.mapM f = some (l.map g) := by
  induction l with
  | nil => rfl
  | cons x l ih =>
    simp [h x (by simp), ih fun y hy => h y (by simp [hy])]

theorem mapM_id_map_some {α : Type} (l : List α) : (l.map some).mapM id = some l := by
  induction l with
  | nil => rfl
  | cons x l ih => simp [ih]

theorem length_mapM {α β : Type} {f : α → Option β} {l : List α} {out : List β} (h : l.mapM f = some out)
    : out.length = l.length := by
  induction l generalizing out with
  | nil =>
    cases h
    rfl
  | cons x l ih =>
    rw [List.mapM_cons] at h
    obtain ⟨y, -, h⟩ := Option.bind_eq_some_iff.mp h
    obtain ⟨ys, hys, h⟩ := Option.bind_eq_some_iff.mp h
    cases h
    rw [List.length_cons, List.length_cons, ih hys]

theorem getElem?_mapM {α β : Type} {f : α → Option β} {l : List α} {out : List β} (h : l.mapM f = some out) {i : Nat}
    {x : α} (hx : l[i]? = some x)
    : ∃ y, f x = some y ∧ out[i]? = some y := by
  induction l generalizing out i with
  | nil => simp at hx
  | cons x' l ih =>
    rw [List.mapM_cons] at h
    obtain ⟨y, hy, h⟩ := Option.bind_eq_some_iff.mp h
    obtain ⟨ys, hys, h⟩ := Option.bind_eq_some_iff.mp h
    cases h
    cases i with
    | zero =>
      cases hx
      exact ⟨y, hy, rfl⟩
    | succ i => exact ih hys hx

theorem mapM_range {α β : Type} (l : List α) (f : α → Option β)
    : (List.range l.length).mapM (fun i => l[i]?.bind f) = l.mapM f := by
  have hmap : (List.range l.length).map (fun i => l[i]?) = l.map some := by
    apply List.ext_getElem
    . simp
    . intro i hi hi'
      simp at hi'
      simp [hi']
  have h := congrArg (List.mapM fun x => Option.bind x f) hmap
  rw [List.mapM_map, List.mapM_map] at h
  exact h

/-! Loops over stages. In every stage there is a step for each item, and it leaves the other items alone. -/

section Stages

variable {ι : Type w} {inv : σ → Prop} {P : Nat → ι → σ → Prop} {items : List ι}

theorem foldlM_stage {step : σ → ι → Option σ} {j : Nat} (hnodup : items.Nodup)
    (hstep : ∀ s i, i ∈ items → inv s → P j i s →
      ∃ s', step s i = some s' ∧ inv s' ∧ P (j + 1) i s' ∧ ∀ i' k, i' ≠ i → P k i' s → P k i' s')
    {s : σ} (hinv : inv s) (hP : ∀ i ∈ items, P j i s)
    : ∃ s', items.foldlM step s = some s' ∧ inv s' ∧ (∀ i ∈ items, P (j + 1) i s') ∧
        ∀ i' k, i' ∉ items → P k i' s → P k i' s' := by
  induction items generalizing s with
  | nil => exact ⟨s, rfl, hinv, by simp, fun _ _ _ h => h⟩
  | cons i items ih =>
    rw [List.nodup_cons] at hnodup
    obtain ⟨s₁, hs₁, hinv₁, hi, hkeep₁⟩ := hstep s i (by simp) hinv (hP i (by simp))
    have hP₁ : ∀ i' ∈ items, P j i' s₁ := by
      intro i' hi'
      apply hkeep₁ i' j _ (hP i' (by simp [hi']))
      rintro rfl
      exact hnodup.1 hi'
    obtain ⟨s', hs', hinv', hitems, hkeep⟩ :=
      ih hnodup.2 (fun s i' hi' => hstep s i' (by simp [hi'])) hinv₁ hP₁
    refine ⟨s', ?_, hinv', ?_, ?_⟩
    . rw [List.foldlM_cons, hs₁]
      exact hs'
    . intro i' hi'
      rcases List.mem_cons.mp hi' with rfl | hi'
      . exact hkeep _ _ hnodup.1 hi
      . exact hitems i' hi'
    . intro i' k hi' h
      rw [List.mem_cons, not_or] at hi'
      exact hkeep i' k hi'.2 (hkeep₁ i' k hi'.1 h)

theorem foldlM_stages {step : Nat → σ → ι → Option σ} {n : Nat} (hnodup : items.Nodup)
    (hstep : ∀ s j i, j < n → i ∈ items → inv s → P j i s →
      ∃ s', step j s i = some s' ∧ inv s' ∧ P (j + 1) i s' ∧ ∀ i' k, i' ≠ i → P k i' s → P k i' s')
    {s : σ} (hinv : inv s) (hP : ∀ i ∈ items, P 0 i s)
    : ∃ s', (List.range n).foldlM (fun s j => items.foldlM (step j) s) s = some s' ∧ inv s' ∧
        (∀ i ∈ items, P n i s') ∧ ∀ i' k, i' ∉ items → P k i' s → P k i' s' := by
  induction n with
  | zero => exact ⟨s, rfl, hinv, hP, fun _ _ _ h => h⟩
  | succ n ih =>
    obtain ⟨s₁, hs₁, hinv₁, hP₁, hkeep₁⟩ := ih (fun s j i hj => hstep s j i (by omega))
    obtain ⟨s', hs', hinv', hP', hkeep⟩ :=
      foldlM_stage hnodup (fun s i => hstep s n i (by omega)) hinv₁ hP₁
    refine ⟨s', ?_, hinv', hP', ?_⟩
    . rw [List.range_succ, List.foldlM_append, hs₁]
      simp [hs']
    . intro i' k hi' h
      exact hkeep i' k hi' (hkeep₁ i' k hi' h)

end Stages

end Run
