import Hustle.Util.Multigraph
import Mathlib.Logic.Relation

/-!
This module contains the vertices that the edges of an undirected multigraph connect, and cycles. A list of
edges has a cycle exactly if one of them has ends that the edges before it connect already.
-/

namespace Multigraph

section

variable {V : Type u} {E : Type v} (src dst : E → V)

/--
There is a way from one vertex to the other along the edges.
-/
def Connects (es : List E) : V → V → Prop :=
  Relation.EqvGen fun v w => ∃ e ∈ es, src e = v ∧ dst e = w

/--
One edge has ends that the other edges connect.
-/
def Cyclic (es : List E) : Prop :=
  ∃ e rest, es.Perm (e :: rest) ∧ Connects src dst rest (src e) (dst e)

/--
There are edges, and they connect all vertices that they meet.
-/
def Connected (es : List E) : Prop :=
  es ≠ [] ∧ ∀ e ∈ es, ∀ e' ∈ es, Connects src dst es (src e) (src e')

end

section

variable {V : Type u} {E : Type v} {src dst : E → V} {es es' : List E} {e : E} {v w : V}

theorem Connects.mono (h : Connects src dst es v w) (hsub : es ⊆ es')
    : Connects src dst es' v w := by
  apply Relation.EqvGen.mono _ v w h
  rintro a b ⟨e, he, hends⟩
  exact ⟨e, hsub he, hends⟩

theorem connects_of_mem (he : e ∈ es) : Connects src dst es (src e) (dst e) :=
  .rel _ _ ⟨e, he, rfl, rfl⟩

theorem connects_cons_iff
    : Connects src dst (e :: es) v w
        ↔
      Connects src dst es v w ∨ (Connects src dst es v (src e) ∧ Connects src dst es (dst e) w) ∨
        (Connects src dst es v (dst e) ∧ Connects src dst es (src e) w) := by
  constructor
  . intro h
    induction h with
    | rel a b hab =>
      obtain ⟨e', he', rfl, rfl⟩ := hab
      rcases List.mem_cons.mp he' with rfl | he'
      . exact .inr (.inl ⟨.refl _, .refl _⟩)
      . exact .inl (connects_of_mem he')
    | refl a => exact .inl (.refl a)
    | symm a b _ ih =>
      rcases ih with h | ⟨h, h'⟩ | ⟨h, h'⟩
      . exact .inl (.symm _ _ h)
      . exact .inr (.inr ⟨.symm _ _ h', .symm _ _ h⟩)
      . exact .inr (.inl ⟨.symm _ _ h', .symm _ _ h⟩)
    | trans a b c _ _ ih ih' =>
      -- of two ways over the edge, the part between the first and the last use of it is left out
      rcases ih with h | ⟨h₁, h₂⟩ | ⟨h₁, h₂⟩ <;> rcases ih' with h' | ⟨h'₁, h'₂⟩ | ⟨h'₁, h'₂⟩
      . exact .inl (.trans _ _ _ h h')
      . exact .inr (.inl ⟨.trans _ _ _ h h'₁, h'₂⟩)
      . exact .inr (.inr ⟨.trans _ _ _ h h'₁, h'₂⟩)
      . exact .inr (.inl ⟨h₁, .trans _ _ _ h₂ h'⟩)
      . exact .inr (.inl ⟨h₁, h'₂⟩)
      . exact .inl (.trans _ _ _ h₁ h'₂)
      . exact .inr (.inr ⟨h₁, .trans _ _ _ h₂ h'⟩)
      . exact .inl (.trans _ _ _ h₁ h'₂)
      . exact .inr (.inr ⟨h₁, h'₂⟩)
  . have hsub : es ⊆ e :: es := List.subset_cons_self e es
    have hedge : Connects src dst (e :: es) (src e) (dst e) := connects_of_mem (by simp)
    rintro (h | ⟨h, h'⟩ | ⟨h, h'⟩)
    . exact h.mono hsub
    . exact .trans _ _ _ (h.mono hsub) (.trans _ _ _ hedge (h'.mono hsub))
    . exact .trans _ _ _ (h.mono hsub) (.trans _ _ _ (.symm _ _ hedge) (h'.mono hsub))

theorem Connects.eq_of_isolated (h : Connects src dst es v w)
    (hv : ∀ e ∈ es, ¬Incident src dst e v)
    : w = v := by
  have hboth : ∀ a b, Connects src dst es a b → (a = v ↔ b = v) := by
    intro a b hab
    induction hab with
    | rel a b hab =>
      obtain ⟨e, he, rfl, rfl⟩ := hab
      have := hv e he
      simp only [Incident, not_or] at this
      simp [this.1, this.2]
    | refl a => rfl
    | symm a b _ ih => exact ih.symm
    | trans a b c _ _ ih ih' => exact ih.trans ih'
  exact (hboth v w h).mp rfl

theorem not_cyclic_nil : ¬Cyclic src dst [] := by
  rintro ⟨e, rest, hperm, -⟩
  simpa using hperm.length_eq

theorem cyclic_perm (hperm : es.Perm es') : Cyclic src dst es ↔ Cyclic src dst es' := by
  constructor
  . rintro ⟨e, rest, h, hcon⟩
    exact ⟨e, rest, hperm.symm.trans h, hcon⟩
  . rintro ⟨e, rest, h, hcon⟩
    exact ⟨e, rest, hperm.trans h, hcon⟩

theorem Cyclic.append (h : Cyclic src dst es) (es' : List E) : Cyclic src dst (es ++ es') := by
  obtain ⟨e, rest, hperm, hcon⟩ := h
  exact ⟨e, rest ++ es', hperm.append_right es', hcon.mono (List.subset_append_left _ _)⟩

theorem cyclic_of_connects {post : List E} (h : Connects src dst es (src e) (dst e))
    : Cyclic src dst (es ++ e :: post) :=
  ⟨e, es ++ post, List.perm_middle, h.mono (List.subset_append_left _ _)⟩

/--
If the new edge were on a cycle with another edge, that edge could be exchanged for it, and the edges before it
would connect its ends.
-/
theorem not_cyclic_concat (h : ¬Cyclic src dst es) (hcon : ¬Connects src dst es (src e) (dst e))
    : ¬Cyclic src dst (es ++ [e]) := by
  rintro ⟨f, rest, hperm, hrest⟩
  have hperm : (e :: es).Perm (f :: rest) := (List.perm_append_singleton e es).symm.trans hperm
  rcases List.mem_cons.mp (hperm.mem_iff.mpr (List.mem_cons_self : f ∈ f :: rest)) with rfl | hf
  . have := (List.perm_cons f).mp hperm
    exact hcon (hrest.mono this.symm.subset)
  . obtain ⟨before, after, hsplit⟩ := List.append_of_mem hf
    let others := before ++ after
    have hes : (f :: others).Perm es := hsplit ▸ List.perm_middle.symm
    have hrest' : rest.Perm (e :: others) := by
      apply (List.perm_cons f).mp
      calc f :: rest
        _ |>.Perm (e :: es) := hperm.symm
        _ |>.Perm (e :: f :: others) := hes.symm.cons e
        _ |>.Perm (f :: e :: others) := .swap f e others
    have hothers : ¬Connects src dst others (src f) (dst f) :=
      fun hcon => h ⟨f, others, hes.symm, hcon⟩
    have hmono : ∀ a b, Connects src dst others a b → Connects src dst es a b :=
      fun a b hab => hab.mono fun x hx => hes.mem_iff.mp (List.mem_cons_of_mem f hx)
    have hedge : Connects src dst es (src f) (dst f) := connects_of_mem hf
    rcases connects_cons_iff.mp (hrest.mono hrest'.subset) with hcon' | ⟨h₁, h₂⟩ | ⟨h₁, h₂⟩
    . exact hothers hcon'
    . apply hcon
      exact .trans _ _ _ (.symm _ _ (hmono _ _ h₁))
        (.trans _ _ _ hedge (.symm _ _ (hmono _ _ h₂)))
    . apply hcon
      exact .trans _ _ _ (hmono _ _ h₂) (.trans _ _ _ (.symm _ _ hedge) (hmono _ _ h₁))

end

end Multigraph
