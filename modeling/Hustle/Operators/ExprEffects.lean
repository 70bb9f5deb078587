import Hustle.Operators.ExprValues

/-!
This module contains when the evaluation of an expression has no side effect. The values of an operator are written over
those of its left operand if one operand is a result, and the array of the left operand is that of a column if the
operators down to it have all been written there.
-/

namespace Hustle.Resolver

def ArithOperator.value (op : ArithOperator) (left right : BitVec 64) : BitVec 64 :=
  match op with
  | .plus => left + right
  | .minus => left - right
  | .star => left * right
  | .slash => left.sdiv right

/--
The one quotient that does not fit into 64 bits.
-/
def ArithOperator.Overflows (op : ArithOperator) (left right : BitVec 64) : Prop :=
  op = .slash ∧ left = BitVec.intMin 64 ∧ right = -1

instance (op : ArithOperator) (left right : BitVec 64) : Decidable (op.Overflows left right) :=
  inferInstanceAs (Decidable (op = .slash ∧ left = BitVec.intMin 64 ∧ right = -1))

namespace ExprReference

def treeValue (value : ColumnReference → BitVec 64) : ExprReference → BitVec 64
  | .null => 0
  | .column ref => value ref
  | .arith op left right => op.value (left.treeValue value) (right.treeValue value)

def DivisorsNonzero (value : ColumnReference → BitVec 64) : ExprReference → Prop
  | .arith op left right =>
    left.DivisorsNonzero value ∧ right.DivisorsNonzero value ∧ (op = .slash → right.treeValue value ≠ 0)
  | _ => True

/--
The column whose array has the value, none for a new array.
-/
def target : ExprReference → Option ColumnReference
  | .null => none
  | .column ref => some ref
  | .arith _ left right => if left.isArith || right.isArith then left.target else none

/--
No quotient overflows, and what is written over the values of a column are the values of that column.
-/
def Undisturbed (value : ColumnReference → BitVec 64) : ExprReference → Prop
  | .arith op left right =>
    left.Undisturbed value ∧ right.Undisturbed value ∧
      ¬op.Overflows (left.treeValue value) (right.treeValue value) ∧
      ∀ ref, (arith op left right).target = some ref → (arith op left right).treeValue value = value ref
  | _ => True

theorem target_eq_none {e : ExprReference} (hwrites : e.writesColumn = false) (harith : e.isArith = true)
    : e.target = none := by
  induction e with
  | null => rfl
  | column ref => cases harith
  | arith op left right ihl _ =>
    simp only [writesColumn, Bool.or_eq_false_iff, Bool.and_eq_false_imp] at hwrites
    obtain ⟨⟨hwl, -⟩, hshape⟩ := hwrites
    rw [target]
    split
    . next hres =>
      apply ihl hwl
      by_contra hfalse
      rw [Bool.not_eq_true] at hfalse
      rw [hfalse, hshape (by simp [hfalse])] at hres
      cases hres
    . rfl

def QuotientsFit (value : ColumnReference → BitVec 64) : ExprReference → Prop
  | .arith op left right =>
    left.QuotientsFit value ∧ right.QuotientsFit value ∧
      ¬op.Overflows (left.treeValue value) (right.treeValue value)
  | _ => True

theorem Undisturbed.of_writesColumn {value : ColumnReference → BitVec 64} {e : ExprReference}
    (hwrites : e.writesColumn = false) (hfit : e.QuotientsFit value)
    : e.Undisturbed value := by
  induction e with
  | null => trivial
  | column ref => trivial
  | arith op left right ihl ihr =>
    have htarget : (arith op left right).target = none := target_eq_none hwrites rfl
    simp only [writesColumn, Bool.or_eq_false_iff] at hwrites
    refine ⟨ihl hwrites.1.1 hfit.1, ihr hwrites.1.2 hfit.2.1, hfit.2.2, ?_⟩
    intro ref href
    rw [htarget] at href
    cases href

end ExprReference

end Hustle.Resolver

namespace Hustle.Operators.Expression

open HashAggregate (Keeps)
open Resolver

/--
The arrays of `base` are as they were after every step.
-/
def KeepsThroughout (base : Heap) (chunkId : Nat) : List ExprElem → EvalState → Prop
  | [], s => Keeps base s.heap
  | elem :: elems, s => Keeps base s.heap ∧
    ∀ s', evalElem chunkId s elem = .ok s' → KeepsThroughout base chunkId elems s'

variable {Row : Type} {base : Heap} {chunkId : Nat} {elems elems' : List ExprElem} {s : EvalState}

theorem KeepsThroughout.keeps (h : KeepsThroughout base chunkId elems s) : Keeps base s.heap := by
  cases elems with
  | nil => exact h
  | cons elem elems => exact h.1

theorem keepsThroughout_append
    : KeepsThroughout base chunkId (elems ++ elems') s ↔
        KeepsThroughout base chunkId elems s ∧
          ∀ s', elems.foldlM (evalElem chunkId) s = .ok s' → KeepsThroughout base chunkId elems' s' := by
  induction elems generalizing s with
  | nil =>
    constructor
    . intro h
      refine ⟨h.keeps, ?_⟩
      intro s' hs'
      cases hs'
      exact h
    . exact fun h => h.2 s rfl
  | cons elem elems ih =>
    simp only [List.cons_append, KeepsThroughout, ih, List.foldlM_cons]
    constructor
    . rintro ⟨hkeeps, h⟩
      refine ⟨⟨hkeeps, fun s' hs' => (h s' hs').1⟩, ?_⟩
      intro s'' hs''
      obtain ⟨s', hs', hs''⟩ := bind_eq_ok hs''
      exact (h s' hs').2 s'' hs''
    . rintro ⟨⟨hkeeps, h⟩, h'⟩
      refine ⟨hkeeps, fun s' hs' => ⟨h s' hs', ?_⟩⟩
      intro s'' hs''
      apply h'
      rw [hs']
      exact hs''

theorem KeepsThroughout.keeps_of_run {s' : EvalState} (h : KeepsThroughout base chunkId elems s)
    (hrun : elems.foldlM (evalElem chunkId) s = .ok s')
    : Keeps base s'.heap := by
  rw [← List.append_nil elems] at h
  exact (keepsThroughout_append.mp h).2 s' hrun

theorem executeRow_eq {op : ArithOperator} {left right : BitVec 64} (hdiv : op = .slash → right ≠ 0)
    (h : ¬op.Overflows left right)
    : executeRow op left right = .ok (op.value left right) := by
  cases op with
  | slash =>
    have hright := hdiv rfl
    have hover : ¬(left = BitVec.intMin 64 ∧ right = -1) := fun hover => h ⟨rfl, hover⟩
    rw [executeRow, if_neg (not_or.mpr ⟨hright, hover⟩)]
    rfl
  | _ => rfl

theorem not_overflows_of_executeRow {op : ArithOperator} {left right value : BitVec 64}
    (h : executeRow op left right = .ok value)
    : ¬op.Overflows left right := by
  rintro ⟨rfl, hover⟩
  rw [executeRow, if_pos (.inr hover)] at h
  cases h

theorem executeRow_of_executeRows {α : Type} {op : ArithOperator} {rows : List α} {left right : α → BitVec 64}
    {values : List (BitVec 64)} (h : executeRows op (rows.map left) (rows.map right) = .ok values)
    : ∀ k ∈ rows, ∃ value, executeRow op (left k) (right k) = .ok value := by
  induction rows generalizing values with
  | nil => exact fun k hk => nomatch hk
  | cons k rows ih =>
    rw [List.map_cons, List.map_cons, executeRows] at h
    obtain ⟨value, hvalue, h⟩ := bind_eq_ok h
    obtain ⟨values', hvalues, -⟩ := bind_eq_ok h
    intro j hj
    rcases List.mem_cons.mp hj with rfl | hj
    . exact ⟨value, hvalue⟩
    . exact ih hvalues j hj

theorem evalElem_arith {heap : Heap} {ptr₁ ptr₂ : ArrayPtr} {lefts rights values : List (BitVec 64)}
    (hleft : heap[ptr₁]? = some (.int64 lefts)) (hright : heap[ptr₂]? = some (.int64 rights)) {op : ArithOperator}
    (hrows : executeRows op lefts rights = .ok values) (isResult₁ isResult₂ : Bool) (stack : List OpElem)
    : evalElem chunkId ⟨heap, ⟨isResult₂, ptr₂⟩ :: ⟨isResult₁, ptr₁⟩ :: stack⟩ (.arith op) = .ok
        (if isResult₁ || isResult₂ then ⟨heap.set ptr₁ (.int64 values), ⟨true, ptr₁⟩ :: stack⟩
        else ⟨heap ++ [.int64 values], ⟨true, heap.length⟩ :: stack⟩) := by
  simp only [evalElem, executeBlock, hleft, hright, hrows]
  cases isResult₁ <;> cases isResult₂ <;> rfl

theorem executeRows_of_evalElem {heap : Heap} {ptr₁ ptr₂ : ArrayPtr} {lefts rights : List (BitVec 64)}
    (hleft : heap[ptr₁]? = some (.int64 lefts)) (hright : heap[ptr₂]? = some (.int64 rights)) {op : ArithOperator}
    {isResult₁ isResult₂ : Bool} {stack : List OpElem}
    (h : evalElem chunkId ⟨heap, ⟨isResult₂, ptr₂⟩ :: ⟨isResult₁, ptr₁⟩ :: stack⟩ (.arith op) = .ok s)
    : ∃ values, executeRows op lefts rights = .ok values := by
  simp only [evalElem, executeBlock, hleft, hright] at h
  obtain ⟨_, h, -⟩ := bind_eq_ok h
  obtain ⟨values, hrows, -⟩ := bind_eq_ok h
  exact ⟨values, hrows⟩

theorem snoc_of_step {s' : EvalState} {op : ArithOperator}
    (hrun : elems.foldlM (evalElem chunkId) s = .ok s') (hthrough : KeepsThroughout base chunkId elems s)
    {s'' : EvalState} (hstep : evalElem chunkId s' (.arith op) = .ok s'') (hkeeps : Keeps base s''.heap)
    : (elems ++ [ExprElem.arith op]).foldlM (evalElem chunkId) s = .ok s'' ∧
        KeepsThroughout base chunkId (elems ++ [.arith op]) s := by
  constructor
  . rw [List.foldlM_append, hrun]
    change evalElem chunkId s' (.arith op) >>= pure = _
    rw [hstep]
    rfl
  . refine keepsThroughout_append.mpr ⟨hthrough, ?_⟩
    intro s₁ hs₁
    cases hrun.symm.trans hs₁
    refine ⟨hthrough.keeps_of_run hrun, ?_⟩
    intro s₂ hs₂
    cases hstep.symm.trans hs₂
    exact hkeeps

section

variable {materializeColumn : ColumnReference → Except EvalError (List ArrayPtr)} {rows : List Row}
  {value : ColumnReference → Row → BitVec 64} {e : ExprReference} {heap : Heap}

def HoldsRows (base : Heap) (chunkId : Nat) (rows : List Row) (value : ColumnReference → Row → BitVec 64)
    (materializeColumn : ColumnReference → Except EvalError (List ArrayPtr)) (ref : ColumnReference) : Prop :=
  ∃ chunks ptr, materializeColumn ref = .ok chunks ∧ chunks[chunkId]? = some ptr ∧
    base[ptr]? = some (.int64 (rows.map (value ref)))

theorem HoldsRows.keeps {ref : ColumnReference} (h : HoldsRows base chunkId rows value materializeColumn ref)
    (hkeeps : Keeps base heap)
    : HoldsRows heap chunkId rows value materializeColumn ref := by
  obtain ⟨chunks, ptr, hmat, hptr, hbase⟩ := h
  exact ⟨chunks, ptr, hmat, hptr, (hkeeps ptr (List.getElem?_eq_some_iff.mp hbase).1).trans hbase⟩

/--
An undisturbed expression is evaluated to the values of its tree, in a new array or in that of its target.
-/
theorem foldlM_of_undisturbed (hcomplete : e.Complete)
    (hcols : ∀ ref ∈ exprColumns e, HoldsRows base chunkId rows value materializeColumn ref)
    (hdiv : ∀ ρ ∈ rows, e.DivisorsNonzero fun ref => value ref ρ)
    (hund : ∀ ρ ∈ rows, e.Undisturbed fun ref => value ref ρ)
    (helems : convertPostfix materializeColumn e = .ok elems) (hkeeps : Keeps base heap) (stack : List OpElem)
    : ∃ heap' ptr, elems.foldlM (evalElem chunkId) ⟨heap, stack⟩ = .ok ⟨heap', ⟨e.isArith, ptr⟩ :: stack⟩ ∧
        Keeps heap heap' ∧ KeepsThroughout base chunkId elems ⟨heap, stack⟩ ∧
        heap'[ptr]? = some (.int64 (rows.map fun ρ => e.treeValue fun ref => value ref ρ)) ∧
        (e.target = none → heap.length ≤ ptr) ∧
        ∀ ref, e.target = some ref → base[ptr]? = some (.int64 (rows.map (value ref))) := by
  induction e generalizing heap elems stack with
  | null => exact hcomplete.elim
  | column ref =>
    obtain ⟨chunks, ptr, hmat, hptr, hbase⟩ := hcols ref (by simp [exprColumns])
    rw [convertPostfix, hmat] at helems
    cases helems
    have hstep : evalElem chunkId ⟨heap, stack⟩ (.column chunks) = .ok ⟨heap, ⟨false, ptr⟩ :: stack⟩ := by
      simp only [evalElem, hptr]
      rfl
    have hheap := (hkeeps ptr (List.getElem?_eq_some_iff.mp hbase).1).trans hbase
    refine ⟨heap, ptr, ?_, .refl heap, ⟨hkeeps, ?_⟩, hheap, by simp [ExprReference.target], ?_⟩
    . rw [List.foldlM_cons, hstep]
      rfl
    . intro s' hs'
      cases hstep.symm.trans hs'
      exact hkeeps
    . intro ref' href'
      cases href'
      exact hbase
  | arith op left right ihl ihr =>
    obtain ⟨lefts, hl, helems⟩ := bind_eq_ok helems
    obtain ⟨rights, hr, helems⟩ := bind_eq_ok helems
    cases helems
    obtain ⟨heap₁, ptr₁, hrun₁, hkeeps₁, hthrough₁, hget₁, hnew₁, hcol₁⟩ := ihl hcomplete.1
      (fun ref href => hcols ref (by simp [exprColumns, href])) (fun ρ hρ => (hdiv ρ hρ).1)
      (fun ρ hρ => (hund ρ hρ).1) hl hkeeps stack
    obtain ⟨heap₂, ptr₂, hrun₂, hkeeps₂, hthrough₂, hget₂, -, -⟩ := ihr hcomplete.2
      (fun ref href => hcols ref (by simp [exprColumns, href])) (fun ρ hρ => (hdiv ρ hρ).2.1)
      (fun ρ hρ => (hund ρ hρ).2.1) hr (hkeeps.trans hkeeps₁) (⟨left.isArith, ptr₁⟩ :: stack)
    have hbase₂ := (hkeeps.trans hkeeps₁).trans hkeeps₂
    have hlen := (hkeeps₁.trans hkeeps₂).length_le
    have hget₁' := (hkeeps₂ ptr₁ (List.getElem?_eq_some_iff.mp hget₁).1).trans hget₁
    have hlt₁ := (List.getElem?_eq_some_iff.mp hget₁').1
    have hrows := executeRows_eq fun ρ hρ => executeRow_eq (hdiv ρ hρ).2.2 (hund ρ hρ).2.2.1
    have hrun : (lefts ++ rights).foldlM (evalElem chunkId) ⟨heap, stack⟩
        = .ok ⟨heap₂, ⟨right.isArith, ptr₂⟩ :: ⟨left.isArith, ptr₁⟩ :: stack⟩ := by
      rw [List.foldlM_append, hrun₁]
      exact hrun₂
    have hthrough : KeepsThroughout base chunkId (lefts ++ rights) ⟨heap, stack⟩ := by
      refine keepsThroughout_append.mpr ⟨hthrough₁, ?_⟩
      intro s' hs'
      cases hrun₁.symm.trans hs'
      exact hthrough₂
    have hstep := @evalElem_arith chunkId _ _ _ _ _ _ hget₁' hget₂ _ hrows left.isArith right.isArith stack
    by_cases hresult : (left.isArith || right.isArith) = true
    . rw [if_pos hresult] at hstep
      have htarget : (ExprReference.arith op left right).target = left.target := if_pos hresult
      have hset : Keeps heap (heap₂.set ptr₁ (.int64 (rows.map fun ρ =>
          (ExprReference.arith op left right).treeValue fun ref => value ref ρ))) := by
        cases hleft : left.target with
        | none => exact (hkeeps₁.trans hkeeps₂).set (hnew₁ hleft) _
        | some ref =>
          -- the values of the column are written over it
          have hvalues : (rows.map fun ρ => (ExprReference.arith op left right).treeValue fun ref => value ref ρ)
              = rows.map (value ref) := by
            apply List.map_congr_left
            intro ρ hρ
            exact (hund ρ hρ).2.2.2 ref (htarget.trans hleft)
          have hcol := hcol₁ ref hleft
          have hheap := (hbase₂ ptr₁ (List.getElem?_eq_some_iff.mp hcol).1).trans hcol
          obtain ⟨_, hheap⟩ := List.getElem?_eq_some_iff.mp hheap
          rw [hvalues, ← hheap, List.set_getElem_self]
          exact hkeeps₁.trans hkeeps₂
      obtain ⟨hrun', hthrough'⟩ := snoc_of_step hrun hthrough hstep (hkeeps.trans hset)
      refine ⟨_, ptr₁, hrun', hset, hthrough', ?_, ?_, ?_⟩
      . rw [List.getElem?_set_self hlt₁]
        rfl
      . exact fun hnone => hnew₁ (htarget.symm.trans hnone)
      . exact fun ref href => hcol₁ ref (htarget.symm.trans href)
    . rw [if_neg hresult] at hstep
      have happend := (hkeeps₁.trans hkeeps₂).trans (.append heap₂ [.int64 (rows.map fun ρ =>
        (ExprReference.arith op left right).treeValue fun ref => value ref ρ)])
      obtain ⟨hrun', hthrough'⟩ := snoc_of_step hrun hthrough hstep (hkeeps.trans happend)
      have htarget : (ExprReference.arith op left right).target = none := if_neg hresult
      refine ⟨_, heap₂.length, hrun', happend, hthrough', ?_, fun _ => hlen, ?_⟩
      . rw [List.getElem?_concat_length]
        rfl
      . intro ref href
        rw [htarget] at href
        cases href

/--
An expression that can be evaluated without a change of the arrays is undisturbed.
-/
theorem undisturbed_of_run (hcomplete : e.Complete)
    (hcols : ∀ ref ∈ exprColumns e, HoldsRows base chunkId rows value materializeColumn ref)
    (hdiv : ∀ ρ ∈ rows, e.DivisorsNonzero fun ref => value ref ρ)
    (helems : convertPostfix materializeColumn e = .ok elems) (hkeeps : Keeps base heap) {stack : List OpElem}
    (hrun : elems.foldlM (evalElem chunkId) ⟨heap, stack⟩ = .ok s)
    (hthrough : KeepsThroughout base chunkId elems ⟨heap, stack⟩)
    : ∀ ρ ∈ rows, e.Undisturbed fun ref => value ref ρ := by
  induction e generalizing heap elems stack s with
  | null => exact hcomplete.elim
  | column ref => exact fun _ _ => trivial
  | arith op left right ihl ihr =>
    obtain ⟨lefts, hl, helems⟩ := bind_eq_ok helems
    obtain ⟨rights, hr, helems⟩ := bind_eq_ok helems
    cases helems
    have hcolsl : ∀ ref ∈ exprColumns left, HoldsRows base chunkId rows value materializeColumn ref :=
      fun ref href => hcols ref (by simp [exprColumns, href])
    have hcolsr : ∀ ref ∈ exprColumns right, HoldsRows base chunkId rows value materializeColumn ref :=
      fun ref href => hcols ref (by simp [exprColumns, href])
    have hdivl : ∀ ρ ∈ rows, left.DivisorsNonzero fun ref => value ref ρ := fun ρ hρ => (hdiv ρ hρ).1
    have hdivr : ∀ ρ ∈ rows, right.DivisorsNonzero fun ref => value ref ρ := fun ρ hρ => (hdiv ρ hρ).2.1
    rw [List.foldlM_append] at hrun
    obtain ⟨s₂, hrun, hstep⟩ := bind_eq_ok hrun
    rw [List.foldlM_append] at hrun
    obtain ⟨s₁, hrun₁, hrun₂⟩ := bind_eq_ok hrun
    rw [keepsThroughout_append, keepsThroughout_append] at hthrough
    obtain ⟨⟨hthrough₁, hthrough₂⟩, hthrough₃⟩ := hthrough
    -- The operands are undisturbed, so they are evaluated as they should be.
    have hundl := ihl hcomplete.1 hcolsl hdivl hl hkeeps hrun₁ hthrough₁
    obtain ⟨heap₁, ptr₁, hrun₁', hkeeps₁, -, hget₁, -, hcol₁⟩ :=
      foldlM_of_undisturbed hcomplete.1 hcolsl hdivl hundl hl hkeeps stack
    cases hrun₁.symm.trans hrun₁'
    have hundr := ihr hcomplete.2 hcolsr hdivr hr (hkeeps.trans hkeeps₁) hrun₂ (hthrough₂ _ hrun₁)
    obtain ⟨heap₂, ptr₂, hrun₂', hkeeps₂, -, hget₂, -, -⟩ :=
      foldlM_of_undisturbed hcomplete.2 hcolsr hdivr hundr hr (hkeeps.trans hkeeps₁) (⟨left.isArith, ptr₁⟩ :: stack)
    cases hrun₂.symm.trans hrun₂'
    have hget₁' := (hkeeps₂ ptr₁ (List.getElem?_eq_some_iff.mp hget₁).1).trans hget₁
    have hlt₁ := (List.getElem?_eq_some_iff.mp hget₁').1
    change evalElem chunkId _ (.arith op) >>= pure = _ at hstep
    obtain ⟨s₃, hstep, -⟩ := bind_eq_ok hstep
    obtain ⟨values, hrows⟩ := executeRows_of_evalElem hget₁' hget₂ hstep
    have hover : ∀ ρ ∈ rows, ¬op.Overflows (left.treeValue fun ref => value ref ρ)
        (right.treeValue fun ref => value ref ρ) := by
      intro ρ hρ
      obtain ⟨_, hrow⟩ := executeRow_of_executeRows hrows ρ hρ
      exact not_overflows_of_executeRow hrow
    have hrows' := executeRows_eq fun ρ hρ => executeRow_eq (hdiv ρ hρ).2.2 (hover ρ hρ)
    have hstep' := @evalElem_arith chunkId _ _ _ _ _ _ hget₁' hget₂ _ hrows' left.isArith right.isArith stack
    have hrun : (lefts ++ rights).foldlM (evalElem chunkId) ⟨heap, stack⟩
        = .ok ⟨heap₂, ⟨right.isArith, ptr₂⟩ :: ⟨left.isArith, ptr₁⟩ :: stack⟩ := by
      rw [List.foldlM_append, hrun₁]
      exact hrun₂
    have hlast := ((hthrough₃ _ hrun).2 s₃ hstep).keeps
    intro ρ hρ
    refine ⟨hundl ρ hρ, hundr ρ hρ, hover ρ hρ, ?_⟩
    intro ref href
    have hresult : (left.isArith || right.isArith) = true := by
      by_contra hnot
      have hnone : (ExprReference.arith op left right).target = none := if_neg hnot
      rw [hnone] at href
      cases href
    have hleft : left.target = some ref := (if_pos hresult).symm.trans href
    rw [if_pos hresult] at hstep'
    cases hstep.symm.trans hstep'
    have hcol := hcol₁ ref hleft
    have hbase := hlast ptr₁ (List.getElem?_eq_some_iff.mp hcol).1
    rw [hcol, List.getElem?_set_self hlt₁, Option.some.injEq, Values.int64.injEq] at hbase
    exact List.map_inj_left.mp hbase ρ hρ

/--
What is said of the evaluation of an expression in a chunk: whatever arrays have been added to the heap, for example by
the same or by other evaluations, its result has the values of the tree, and no step changes an array of the heap.
-/
def EvaluatesTree (base : Heap) (elems : List ExprElem) (chunkId : Nat) (rows : List Row)
    (value : ColumnReference → Row → BitVec 64) (e : ExprReference) : Prop :=
  ∀ heap, Keeps base heap →
    (∃ ptr heap', evaluate heap elems chunkId = .ok (ptr, heap') ∧
      heap'[ptr]? = some (.int64 (rows.map fun ρ => e.treeValue fun ref => value ref ρ))) ∧
    KeepsThroughout heap chunkId elems ⟨heap, []⟩

theorem EvaluatesTree.of_undisturbed (hcomplete : e.Complete)
    (hcols : ∀ ref ∈ exprColumns e, HoldsRows base chunkId rows value materializeColumn ref)
    (hdiv : ∀ ρ ∈ rows, e.DivisorsNonzero fun ref => value ref ρ)
    (helems : convertPostfix materializeColumn e = .ok elems)
    (hund : ∀ ρ ∈ rows, e.Undisturbed fun ref => value ref ρ)
    : EvaluatesTree base elems chunkId rows value e := by
  intro heap hkeeps
  obtain ⟨heap', ptr, hrun, -, hthrough, hget, -, -⟩ :=
    foldlM_of_undisturbed hcomplete (fun ref href => (hcols ref href).keeps hkeeps) hdiv hund helems (.refl heap) []
  refine ⟨⟨ptr, heap', ?_, hget⟩, hthrough⟩
  rw [evaluate, hrun]
  rfl

theorem EvaluatesTree.undisturbed (hcomplete : e.Complete)
    (hcols : ∀ ref ∈ exprColumns e, HoldsRows base chunkId rows value materializeColumn ref)
    (hdiv : ∀ ρ ∈ rows, e.DivisorsNonzero fun ref => value ref ρ)
    (helems : convertPostfix materializeColumn e = .ok elems) (h : EvaluatesTree base elems chunkId rows value e)
    : ∀ ρ ∈ rows, e.Undisturbed fun ref => value ref ρ := by
  obtain ⟨⟨ptr, heap', heval, -⟩, hthrough⟩ := h base (.refl base)
  rw [evaluate] at heval
  obtain ⟨s, hrun, -⟩ := bind_eq_ok heval
  exact undisturbed_of_run hcomplete hcols hdiv helems (.refl base) hrun hthrough

/--
The evaluation has the values of the tree and no side effect exactly if the expression is undisturbed in all rows.
-/
theorem evaluatesTree_iff (hcomplete : e.Complete)
    (hcols : ∀ ref ∈ exprColumns e, HoldsRows base chunkId rows value materializeColumn ref)
    (hdiv : ∀ ρ ∈ rows, e.DivisorsNonzero fun ref => value ref ρ)
    (helems : convertPostfix materializeColumn e = .ok elems)
    : EvaluatesTree base elems chunkId rows value e ↔ ∀ ρ ∈ rows, e.Undisturbed fun ref => value ref ρ :=
  ⟨fun h => h.undisturbed hcomplete hcols hdiv helems, .of_undisturbed hcomplete hcols hdiv helems⟩

end

/-! Three columns in two rows. -/

def priceRef (name : String) : ColumnReference := ⟨none, name⟩

def priceValues (name : String) : List (BitVec 64) :=
  if name = "a" then [7, -3] else if name = "b" then [2, 5] else [3, 1]

def priceHeap : Heap := [.int64 (priceValues "a"), .int64 (priceValues "b"), .int64 (priceValues "c")]

def priceColumn (ref : ColumnReference) : Except EvalError (List ArrayPtr) :=
  .ok [if ref.colName = "a" then 0 else if ref.colName = "b" then 1 else 2]

def priceValue (ref : ColumnReference) (r : Nat) : BitVec 64 := (priceValues ref.colName).getD r 0

def quotientExpr : ExprReference :=
  .arith .slash (.arith .minus (.column (priceRef "a")) (.column (priceRef "b"))) (.column (priceRef "c"))

def sumExpr : ExprReference :=
  .arith .plus (.column (priceRef "a")) (.arith .star (.column (priceRef "b")) (.column (priceRef "c")))

theorem holdsRows_price {e : ExprReference} (h : ∀ ref ∈ exprColumns e, ref.colName = "a" ∨ ref.colName = "b" ∨
      ref.colName = "c")
    : ∀ ref ∈ exprColumns e, HoldsRows priceHeap 0 [0, 1] priceValue priceColumn ref := by
  intro ref href
  rcases h ref href with hname | hname | hname
  . exact ⟨[0], 0, by rw [priceColumn, hname]; rfl, rfl, by simp only [List.map, priceValue, hname]; rfl⟩
  . exact ⟨[1], 1, by rw [priceColumn, hname]; rfl, rfl, by simp only [List.map, priceValue, hname]; rfl⟩
  . exact ⟨[2], 2, by rw [priceColumn, hname]; rfl, rfl, by simp only [List.map, priceValue, hname]; rfl⟩

theorem evaluatesTree_iff_quotientExpr
    : EvaluatesTree priceHeap [.column [0], .column [1], .arith .minus, .column [2], .arith .slash] 0 [0, 1] priceValue
        quotientExpr := by
  have hcomplete : quotientExpr.Complete := ⟨⟨trivial, trivial⟩, trivial⟩
  have hcols := @holdsRows_price quotientExpr (by decide)
  have hdivisors : ∀ r ∈ [0, 1], priceValue (priceRef "c") r ≠ 0 := by decide
  have hdiv : ∀ r ∈ [0, 1], quotientExpr.DivisorsNonzero fun ref => priceValue ref r :=
    fun r hr => ⟨⟨trivial, trivial, by simp⟩, trivial, fun _ => hdivisors r hr⟩
  have hover : ∀ r ∈ [0, 1], ¬ArithOperator.slash.Overflows
      (priceValue (priceRef "a") r - priceValue (priceRef "b") r) (priceValue (priceRef "c") r) := by
    decide
  have hfit : ∀ r ∈ [0, 1], quotientExpr.QuotientsFit fun ref => priceValue ref r :=
    fun r hr => ⟨⟨trivial, trivial, by simp [ArithOperator.Overflows]⟩, trivial, hover r hr⟩
  exact (evaluatesTree_iff hcomplete hcols hdiv rfl).mpr fun r hr => .of_writesColumn rfl (hfit r hr)

theorem not_evaluatesTree_sumExpr
    : ¬EvaluatesTree priceHeap [.column [0], .column [1], .column [2], .arith .star, .arith .plus] 0 [0, 1] priceValue
        sumExpr := by
  intro h
  have hcomplete : sumExpr.Complete := ⟨trivial, trivial, trivial⟩
  have hcols := @holdsRows_price sumExpr (by decide)
  have hdiv : ∀ r ∈ [0, 1], sumExpr.DivisorsNonzero fun ref => priceValue ref r :=
    fun r hr => ⟨trivial, ⟨trivial, trivial, by simp⟩, by simp⟩
  have hund := h.undisturbed hcomplete hcols hdiv rfl 0 (by simp)
  have hwritten : priceValue (priceRef "a") 0 + priceValue (priceRef "b") 0 * priceValue (priceRef "c") 0
      = priceValue (priceRef "a") 0 := hund.2.2.2 (priceRef "a") rfl
  exact absurd hwritten (by decide)

end Hustle.Operators.Expression
