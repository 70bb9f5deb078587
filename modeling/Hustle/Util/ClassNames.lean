import Mathlib.Logic.Relation

/-!
This module contains names for the classes of the smallest equivalence relation over a relation, and how the names
change when two elements are related.
-/

namespace ClassNames

variable {V : Type u} {W : Type v} {W' : Type w}

/--
Two elements have the same name if they are related by the reflexive, symmetric and transitive closure.
-/
def Names (r : V → V → Prop) (name : V → W) : Prop :=
  ∀ x y, name x = name y ↔ Relation.EqvGen r x y

def link (r : V → V → Prop) (a b x y : V) : Prop :=
  r x y ∨ x = a ∧ y = b

variable {r : V → V → Prop} {name : V → W} {name' : V → W'} {a b : V}

theorem names_of_injective (h : Function.Injective name) : Names (fun _ _ => False) name := by
  intro x y
  constructor
  . intro heq
    rw [h heq]
    exact .refl y
  . intro hrel
    induction hrel with
    | rel _ _ h => cases h
    | refl _ => rfl
    | symm _ _ _ ih => exact ih.symm
    | trans _ _ _ _ _ ih ih' => exact ih.trans ih'

theorem Names.congr (h : Names r name) (heq : ∀ x y, name' x = name' y ↔ name x = name y) : Names r name' := by
  intro x y
  rw [heq, h]

theorem Names.congr_rel {s : V → V → Prop} (h : Names r name) (hrel : ∀ x y, r x y ↔ s x y) : Names s name := by
  have : r = s := by
    funext x y
    exact propext (hrel x y)
  rwa [← this]

theorem eqvGen_link {x y : V} (h : Relation.EqvGen r x y) : Relation.EqvGen (link r a b) x y :=
  h.mono fun _ _ h => .inl h

/--
The names of `a` and `b` become one.
-/
theorem Names.link (h : Names r name)
    (hlink : ∀ x y, name' x = name' y ↔
      name x = name y ∨ (name x = name a ∨ name x = name b) ∧ (name y = name a ∨ name y = name b))
    : Names (link r a b) name' := by
  have hab : Relation.EqvGen (ClassNames.link r a b) a b := .rel a b (.inr ⟨rfl, rfl⟩)
  have hclass : ∀ x, name x = name a ∨ name x = name b → Relation.EqvGen (ClassNames.link r a b) x b := by
    rintro x (hx | hx)
    . exact .trans x a b (eqvGen_link ((h x a).mp hx)) hab
    . exact eqvGen_link ((h x b).mp hx)
  intro x y
  constructor
  . intro heq
    rcases (hlink x y).mp heq with heq | ⟨hx, hy⟩
    . exact eqvGen_link ((h x y).mp heq)
    . exact .trans x b y (hclass x hx) (.symm y b (hclass y hy))
  . intro hrel
    induction hrel with
    | rel x y hxy =>
      rw [hlink]
      rcases hxy with hxy | ⟨rfl, rfl⟩
      . exact .inl ((h x y).mpr (.rel x y hxy))
      . exact .inr ⟨.inl rfl, .inr rfl⟩
    | refl _ => rfl
    | symm _ _ _ ih => exact ih.symm
    | trans _ _ _ _ _ ih ih' => exact ih.trans ih'

theorem Names.link_of_eq (h : Names r name) (hab : name a = name b) : Names (ClassNames.link r a b) name := by
  apply h.link
  intro x y
  rw [hab]
  constructor
  . exact .inl
  . rintro (heq | ⟨hx | hx, hy | hy⟩)
    . exact heq
    all_goals exact hx.trans hy.symm

theorem Names.rename_alone [DecidableEq V] (h : Names r name) {x : V} {p : W}
    (halone : ∀ y, name y = name x → y = x) (hfresh : ∀ y, y ≠ x → name y ≠ p)
    : Names r fun y => if y = x then p else name y := by
  apply h.congr
  intro y z
  by_cases hy : y = x
  . subst hy
    rw [if_pos rfl]
    by_cases hz : z = y
    . rw [if_pos hz, hz]
      exact iff_of_true rfl rfl
    . rw [if_neg hz]
      exact iff_of_false (Ne.symm (hfresh z hz)) fun heq => hz (halone z heq.symm)
  . rw [if_neg hy]
    by_cases hz : z = x
    . subst hz
      rw [if_pos rfl]
      exact iff_of_false (hfresh y hy) fun heq => hy (halone y heq)
    . rw [if_neg hz]

theorem rename_eq_iff [DecidableEq W] {u v p q : W}
    : (if u = p then q else u) = (if v = p then q else v) ↔ u = v ∨ (u = p ∨ u = q) ∧ (v = p ∨ v = q) := by
  split
  . next hu =>
    split
    . next hv => simp [hu, hv]
    . next hv =>
      subst hu
      constructor
      . rintro rfl
        exact .inr ⟨.inl rfl, .inr rfl⟩
      . rintro (heq | ⟨-, hv' | hv'⟩)
        . exact absurd heq.symm hv
        . exact absurd hv' hv
        . exact hv'.symm
  . next hu =>
    split
    . next hv =>
      subst hv
      constructor
      . rintro rfl
        exact .inr ⟨.inr rfl, .inl rfl⟩
      . rintro (heq | ⟨hu' | hu', -⟩)
        . exact absurd heq hu
        . exact absurd hu' hu
        . exact hu'
    . next hv =>
      simp only [hu, hv, false_or]
      constructor
      . exact .inl
      . rintro (heq | ⟨rfl, rfl⟩)
        . exact heq
        . rfl

end ClassNames
