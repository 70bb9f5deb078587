import Mathlib.Data.List.Nodup
import Mathlib.Data.List.Perm.Basic

/-!
This module contains undirected multigraphs that are given by a list of edges, and what it means that
their edges form a path.
-/

namespace Multigraph

section

variable {V : Type u} {E : Type v} (src dst : E → V)

def Incident (e : E) (v : V) : Prop :=
  src e = v ∨ dst e = v

def Joins (e : E) (v w : V) : Prop :=
  (src e = v ∧ dst e = w) ∨ (src e = w ∧ dst e = v)

/--
The edges `es` lead from one vertex of `vs` to the next one.
-/
def Traces : List V → List E → Prop
  | [_], [] => True
  | v :: w :: vs, e :: es => Joins src dst e v w ∧ Traces (w :: vs) es
  | _, _ => False

/--
All edges share a vertex.
-/
def IsStar (es : List E) : Prop :=
  ∃ v, ∀ e ∈ es, Incident src dst e v

/--
The edges form one path that does not meet a vertex twice.
-/
def IsPath (es : List E) : Prop :=
  ∃ vs path, path.Perm es ∧ Traces src dst vs path ∧ vs.Nodup

instance [DecidableEq V] (e : E) (v : V) : Decidable (Incident src dst e v) :=
  inferInstanceAs (Decidable (_ ∨ _))

instance [DecidableEq V] (e : E) (v w : V) : Decidable (Joins src dst e v w) :=
  inferInstanceAs (Decidable (_ ∨ _))

instance instDecidableTraces [DecidableEq V] : ∀ vs es, Decidable (Traces src dst vs es)
  | [_], [] => .isTrue trivial
  | _ :: w :: vs, _ :: es =>
    have := instDecidableTraces (w :: vs) es
    inferInstanceAs (Decidable (_ ∧ _))
  | [], _ => .isFalse id
  | [_], _ :: _ => .isFalse id
  | _ :: _ :: _, [] => .isFalse id

/--
The edges that are attached to a vertex, once for every end that is attached.
-/
def incidences [DecidableEq V] (es : List E) (v : V) : List E :=
  es.flatMap fun e => (if dst e = v then [e] else []) ++ (if src e = v then [e] else [])

end

section

variable {V : Type u} {E : Type v} {src dst : E → V} {vs : List V} {es : List E}

theorem Joins.incident {e : E} {v w : V} (h : Joins src dst e v w)
    : Incident src dst e v ∧ Incident src dst e w := by
  rcases h with ⟨hsrc, hdst⟩ | ⟨hsrc, hdst⟩
  . exact ⟨Or.inl hsrc, Or.inr hdst⟩
  . exact ⟨Or.inr hdst, Or.inl hsrc⟩

theorem Joins.src_ne_dst {e : E} {v w : V} (h : Joins src dst e v w) (hne : v ≠ w) : src e ≠ dst e := by
  rcases h with ⟨rfl, rfl⟩ | ⟨rfl, rfl⟩
  . exact hne
  . exact hne.symm

theorem Joins.eq_or_eq {e : E} {v w u : V} (h : Joins src dst e v w) (hu : Incident src dst e u)
    : u = v ∨ u = w := by
  rcases h with ⟨rfl, rfl⟩ | ⟨rfl, rfl⟩
  . rcases hu with rfl | rfl
    . exact Or.inl rfl
    . exact Or.inr rfl
  . rcases hu with rfl | rfl
    . exact Or.inr rfl
    . exact Or.inl rfl

theorem Traces.concat {v w : V} {e : E} (h : Traces src dst (vs ++ [v]) es) (he : Joins src dst e v w)
    : Traces src dst (vs ++ [v] ++ [w]) (es ++ [e]) := by
  induction vs generalizing es with
  | nil =>
    cases es with
    | nil => exact ⟨he, trivial⟩
    | cons e' es => exact h.elim
  | cons u vs ih =>
    cases vs with
    | nil =>
      cases es with
      | nil => exact h.elim
      | cons e' es =>
        obtain ⟨he', hes⟩ := h
        exact ⟨he', ih hes⟩
    | cons u' vs =>
      cases es with
      | nil => exact h.elim
      | cons e' es =>
        obtain ⟨he', hes⟩ := h
        exact ⟨he', ih hes⟩

theorem Traces.mem_of_incident (h : Traces src dst vs es) {e : E} (he : e ∈ es) {v : V}
    (hv : Incident src dst e v)
    : v ∈ vs := by
  induction vs generalizing es with
  | nil => exact h.elim
  | cons u vs ih =>
    cases vs with
    | nil =>
      cases es with
      | nil => simp at he
      | cons e' es => exact h.elim
    | cons w vs =>
      cases es with
      | nil => exact h.elim
      | cons e' es =>
        obtain ⟨he', hes⟩ := h
        cases List.mem_cons.mp he with
        | inl heq =>
          subst heq
          rcases he'.eq_or_eq hv with rfl | rfl
          . simp
          . simp
        | inr hmem => exact List.mem_cons_of_mem u (ih hes hmem)

theorem Traces.exists_incident (h : Traces src dst vs es) (hne : es ≠ []) {v : V} (hv : v ∈ vs)
    : ∃ e ∈ es, Incident src dst e v := by
  induction vs generalizing es with
  | nil => exact h.elim
  | cons u vs ih =>
    cases vs with
    | nil =>
      cases es with
      | nil => exact absurd rfl hne
      | cons e' es => exact h.elim
    | cons w vs =>
      cases es with
      | nil => exact h.elim
      | cons e es =>
        obtain ⟨he, hes⟩ := h
        rcases List.mem_cons.mp hv with rfl | hv
        . exact ⟨e, List.mem_cons_self, he.incident.1⟩
        . by_cases hnil : es = []
          . subst hnil
            cases vs with
            | nil =>
              rw [List.mem_singleton.mp hv]
              exact ⟨e, List.mem_cons_self, he.incident.2⟩
            | cons w' vs => exact hes.elim
          . obtain ⟨e', he', hincident⟩ := ih hes hnil hv
            exact ⟨e', List.mem_cons_of_mem e he', hincident⟩

theorem Traces.subset_of_closed (h : Traces src dst vs es) {p : V → Prop}
    (hclosed : ∀ e ∈ es, ∀ v w, Joins src dst e v w → p v → p w) {v : V} (hv : v ∈ vs) (hp : p v)
    : ∀ w ∈ vs, p w := by
  induction vs generalizing es v with
  | nil => exact h.elim
  | cons u vs ih =>
    cases vs with
    | nil =>
      rw [List.mem_singleton] at hv
      subst hv
      simpa using hp
    | cons u' vs =>
      cases es with
      | nil => exact h.elim
      | cons e es =>
        obtain ⟨he, hes⟩ := h
        have hrest : ∀ e' ∈ es, ∀ v w, Joins src dst e' v w → p v → p w :=
          fun e' he' => hclosed e' (List.mem_cons_of_mem e he')
        have hback : Joins src dst e u' u := he.symm
        have htail : ∀ w ∈ u' :: vs, p w := by
          cases List.mem_cons.mp hv with
          | inl heq =>
            subst heq
            exact ih hes hrest List.mem_cons_self (hclosed e List.mem_cons_self _ _ he hp)
          | inr hmem => exact ih hes hrest hmem hp
        intro w hw
        cases List.mem_cons.mp hw with
        | inl heq =>
          subst heq
          exact hclosed e List.mem_cons_self _ _ hback (htail u' List.mem_cons_self)
        | inr hmem => exact htail w hmem

theorem Traces.edges_nodup {vs : List V} {es : List E} (h : Traces src dst vs es) (hnodup : vs.Nodup)
    : es.Nodup := by
  induction vs generalizing es with
  | nil => exact h.elim
  | cons u vs ih =>
    cases vs with
    | nil =>
      cases es with
      | nil => exact List.nodup_nil
      | cons e es => exact h.elim
    | cons w vs =>
      cases es with
      | nil => exact h.elim
      | cons e es =>
        obtain ⟨he, hes⟩ := h
        obtain ⟨hnot, hnodup'⟩ := List.nodup_cons.mp hnodup
        refine List.nodup_cons.mpr ⟨?_, ih hes hnodup'⟩
        intro hmem
        exact hnot (hes.mem_of_incident hmem he.incident.1)

variable [DecidableEq V]

theorem mem_incidences {e : E} {v : V}
    : e ∈ incidences src dst es v ↔ e ∈ es ∧ Incident src dst e v := by
  unfold incidences Incident
  rw [List.mem_flatMap]
  constructor
  . rintro ⟨e', he', hmem⟩
    rw [List.mem_append] at hmem
    rcases hmem with hmem | hmem
    . split at hmem
      . next hdst =>
        rw [List.mem_singleton] at hmem
        subst hmem
        exact ⟨he', Or.inr hdst⟩
      . simp at hmem
    . split at hmem
      . next hsrc =>
        rw [List.mem_singleton] at hmem
        subst hmem
        exact ⟨he', Or.inl hsrc⟩
      . simp at hmem
  . rintro ⟨he, hsrc | hdst⟩
    . exact ⟨e, he, by simp [hsrc]⟩
    . exact ⟨e, he, by simp [hdst]⟩

@[simp]
theorem incidences_nil (v : V) : incidences src dst [] v = [] := rfl

theorem incidences_cons (e : E) (es : List E) (v : V)
    : incidences src dst (e :: es) v
        =
      (if dst e = v then [e] else []) ++ (if src e = v then [e] else []) ++ incidences src dst es v := by
  simp [incidences]

theorem incidences_concat (es : List E) (e : E) (v : V)
    : incidences src dst (es ++ [e]) v
        =
      incidences src dst es v ++ ((if dst e = v then [e] else []) ++ (if src e = v then [e] else [])) := by
  simp [incidences]

theorem incidences_eq_nil {v : V} (h : ∀ e ∈ es, ¬Incident src dst e v)
    : incidences src dst es v = [] := by
  apply List.eq_nil_iff_forall_not_mem.mpr
  intro e he
  rw [mem_incidences] at he
  exact h e he.1 he.2

theorem length_incidences_perm {es' : List E} (h : es.Perm es') (v : V)
    : (incidences src dst es v).length = (incidences src dst es' v).length :=
  (h.flatMap_right _).length_eq

theorem length_incidences_cons {e : E} (hne : src e ≠ dst e) (es : List E) (v : V)
    : (incidences src dst (e :: es) v).length
        =
      (if Incident src dst e v then 1 else 0) + (incidences src dst es v).length := by
  rw [incidences_cons, List.length_append]
  congr 1
  unfold Incident
  by_cases hsrc : src e = v
  . have hdst : ¬dst e = v := fun hdst => hne (hsrc.trans hdst.symm)
    simp [hsrc, hdst]
  . by_cases hdst : dst e = v
    . simp [hsrc, hdst]
    . simp [hsrc, hdst]

theorem length_incidences_le (hne : ∀ e ∈ es, src e ≠ dst e) (v : V)
    : (incidences src dst es v).length ≤ es.length := by
  induction es with
  | nil => simp
  | cons e es ih =>
    have := ih fun e' he' => hne e' (List.mem_cons_of_mem e he')
    rw [length_incidences_cons (hne e List.mem_cons_self), List.length_cons]
    split <;> omega

theorem length_incidences_eq_iff (hne : ∀ e ∈ es, src e ≠ dst e) (v : V)
    : (incidences src dst es v).length = es.length ↔ ∀ e ∈ es, Incident src dst e v := by
  induction es with
  | nil => simp
  | cons e es ih =>
    have hne' : ∀ e' ∈ es, src e' ≠ dst e' := fun e' he' => hne e' (List.mem_cons_of_mem e he')
    have hle := length_incidences_le hne' v
    rw [length_incidences_cons (hne e List.mem_cons_self), List.length_cons, List.forall_mem_cons,
      ← ih hne']
    by_cases he : Incident src dst e v
    . simp only [he, ↓reduceIte, true_and]
      omega
    . simp only [he, ↓reduceIte, false_and, iff_false]
      omega

theorem Traces.incidences_head {v : V} (h : Traces src dst (v :: vs) es) (hnodup : (v :: vs).Nodup)
    : (incidences src dst es v).length = min 1 es.length := by
  cases vs with
  | nil =>
    cases es with
    | nil => rfl
    | cons e es => exact h.elim
  | cons w vs =>
    cases es with
    | nil => exact h.elim
    | cons e es =>
      obtain ⟨he, hes⟩ := h
      have hnot := (List.nodup_cons.mp hnodup).1
      have hne : src e ≠ dst e := he.src_ne_dst (by rintro rfl; simp at hnot)
      have hrest : incidences src dst es v = [] :=
        incidences_eq_nil fun e' he' hv => hnot (hes.mem_of_incident he' hv)
      rw [length_incidences_cons hne, if_pos he.incident.1, hrest]
      simp

theorem Traces.incidences_le_two (h : Traces src dst vs es) (hnodup : vs.Nodup) (v : V)
    : (incidences src dst es v).length ≤ 2 := by
  induction vs generalizing es with
  | nil => exact h.elim
  | cons u vs ih =>
    cases vs with
    | nil =>
      cases es with
      | nil => simp
      | cons e es => exact h.elim
    | cons w vs =>
      cases es with
      | nil => exact h.elim
      | cons e es =>
        obtain ⟨he, hes⟩ := h
        have hnodup' := (List.nodup_cons.mp hnodup).2
        have hnot := (List.nodup_cons.mp hnodup).1
        have hne : src e ≠ dst e := he.src_ne_dst (by rintro rfl; simp at hnot)
        rw [length_incidences_cons hne]
        by_cases hv : Incident src dst e v
        . rw [if_pos hv]
          rcases he.eq_or_eq hv with rfl | rfl
          . have := incidences_eq_nil fun e' he' hv => hnot (hes.mem_of_incident he' hv)
            simp [this]
          . have := hes.incidences_head hnodup'
            omega
        . have := ih hes hnodup'
          rw [if_neg hv]
          omega

theorem two_le_incidences_of_loop {e : E} {v : V} (he : e ∈ es) (hsrc : src e = v) (hdst : dst e = v)
    : 2 ≤ (incidences src dst es v).length := by
  induction es with
  | nil => simp at he
  | cons x es ih =>
    rw [incidences_cons, List.length_append]
    cases List.mem_cons.mp he with
    | inl heq =>
      subst heq
      simp [hsrc, hdst]
    | inr hmem =>
      have := ih hmem
      omega

theorem three_le_incidences_of_loop {e e' : E} {v : V} (he : e ∈ es) (hsrc : src e = v) (hdst : dst e = v)
    (he' : e' ∈ incidences src dst es v) (hne : e' ≠ e)
    : 3 ≤ (incidences src dst es v).length := by
  induction es with
  | nil => simp at he
  | cons x es ih =>
    rw [incidences_cons] at he' ⊢
    rw [List.length_append]
    cases List.mem_append.mp he' with
    | inl hfirst =>
      have hx : e' = x := by
        have hmem : e' ∈ incidences src dst [x] v := by simpa [incidences] using hfirst
        simpa using (mem_incidences.mp hmem).1
      have hmem : e ∈ es := by
        cases List.mem_cons.mp he with
        | inl heq => exact absurd (hx.trans heq.symm) hne
        | inr hmem => exact hmem
      have := List.length_pos_of_mem hfirst
      have := two_le_incidences_of_loop hmem hsrc hdst
      omega
    | inr hrest =>
      cases List.mem_cons.mp he with
      | inl heq =>
        subst heq
        have := List.length_pos_of_mem hrest
        simp only [hsrc, hdst, ↓reduceIte, List.length_append, List.length_cons, List.length_nil]
        omega
      | inr hmem =>
        have := ih hmem hrest
        omega

end

end Multigraph
