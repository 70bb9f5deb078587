import Hustle.Operators.Expression

/-!
This module contains the relation between the expressions that the resolver accepts below an aggregate and
those that can be evaluated.
-/

namespace Hustle.Resolver

open SelectResolver (resolveAggExpr)

/--
Every node is a column or an arithmetic operator with both operands.
-/
def Expr.Supported : Expr → Prop
  | .column _ | .aggColumn _ => True
  | .arith _ left right => left.Supported ∧ right.Supported
  | _ => False

instance instDecidableSupported (e : Expr) : Decidable e.Supported :=
  match e with
  | .column _ | .aggColumn _ => .isTrue trivial
  | .arith _ left right =>
    have := instDecidableSupported left
    have := instDecidableSupported right
    inferInstanceAs (Decidable (left.Supported ∧ right.Supported))
  | .null | .aggFunction _ _ | .integer _ _ | .string _ | .and _ _ | .or _ _ | .compare _ _ _
  | .between _ _ _ | .other _ _ => .isFalse id

/--
The reference has the shape of the expression, with the same operators and columns.
-/
def ExprReference.Mirrors (catalog : Catalog) : ExprReference → Expr → Prop
  | .column ref, .column c | .column ref, .aggColumn c => ref = SelectResolver.columnRef catalog c
  | .arith op left right, .arith op' left' right' =>
    op = op' ∧ left.Mirrors catalog left' ∧ right.Mirrors catalog right'
  | _, _ => False

/--
No operator lacks an operand.
-/
def ExprReference.Complete : ExprReference → Prop
  | .null => False
  | .column _ => True
  | .arith _ left right => left.Complete ∧ right.Complete

variable {catalog : Catalog}

theorem resolveAggExpr_mirrors {e : Expr} (h : e.Supported)
    : (resolveAggExpr catalog e).Mirrors catalog e := by
  induction e with
  | column c => rfl
  | aggColumn c => rfl
  | arith op left right ihl ihr => exact ⟨rfl, ihl h.1, ihr h.2⟩
  | _ => exact h.elim

theorem ExprReference.Mirrors.complete {ref : ExprReference} {e : Expr} (h : ref.Mirrors catalog e)
    : ref.Complete := by
  induction ref generalizing e with
  | null => exact h.elim
  | column ref => trivial
  | arith op left right ihl ihr =>
    cases e with
    | arith op' left' right' => exact ⟨ihl h.2.1, ihr h.2.2⟩
    | _ => exact h.elim

theorem ExprReference.Complete.ne_null {ref : ExprReference} (h : ref.Complete) : ref ≠ .null := by
  intro hnull
  subst hnull
  exact h

end Hustle.Resolver

namespace Hustle.Operators.Expression

open Resolver
open SelectResolver (resolveAggExpr)

/-! Evaluating a complete expression leaves its result on top of the stack. -/

theorem bind_ne_error {α β : Type} {x : Except EvalError α} {f : α → Except EvalError β} {err : EvalError}
    (hx : x ≠ .error err) (hf : ∀ a, x = .ok a → f a ≠ .error err)
    : (x >>= f) ≠ .error err := by
  cases x with
  | error e =>
    intro h
    injection h with h
    exact hx (congrArg Except.error h)
  | ok a => exact hf a rfl

theorem bind_eq_ok {α β : Type} {x : Except EvalError α} {f : α → Except EvalError β} {b : β}
    (h : (x >>= f) = .ok b)
    : ∃ a, x = .ok a ∧ f a = .ok b := by
  cases x with
  | error e => cases h
  | ok a => exact ⟨a, rfl, h⟩

theorem executeRow_ne_emptyStack (op : ArithOperator) (left right : BitVec 64)
    : executeRow op left right ≠ .error .emptyStack := by
  cases op <;> simp only [executeRow, pure, Except.pure, ne_eq, reduceCtorEq, not_false_eq_true]
  split
  . intro h
    injection h with h
    cases h
  . simp

theorem executeRows_ne_emptyStack (op : ArithOperator) (lefts rights : List (BitVec 64))
    : executeRows op lefts rights ≠ .error .emptyStack := by
  induction lefts generalizing rights with
  | nil => cases rights <;> simp [executeRows, pure, Except.pure, throw, throwThe, MonadExceptOf.throw]
  | cons left lefts ih =>
    cases rights with
    | nil => simp [executeRows, throw, throwThe, MonadExceptOf.throw]
    | cons right rights =>
      apply bind_ne_error (executeRow_ne_emptyStack op left right)
      intro value _
      apply bind_ne_error (ih rights)
      intro values _
      simp [pure, Except.pure]

theorem executeBlock_ne_emptyStack (heap : Heap) (isResult : Bool) (op : ArithOperator)
    (left right : ArrayPtr)
    : executeBlock heap isResult op left right ≠ .error .emptyStack := by
  unfold executeBlock
  split
  . next lefts rights _ _ =>
    apply bind_ne_error (executeRows_ne_emptyStack op lefts rights)
    intro values _
    split <;> simp [pure, Except.pure]
  all_goals simp [throw, throwThe, MonadExceptOf.throw]

/--
The elements leave the stack as it was, with one element on top of it, unless another error comes first.
-/
def Pushes (chunkId : Nat) (elems : List ExprElem) : Prop :=
  ∀ s : EvalState,
    elems.foldlM (evalElem chunkId) s ≠ .error .emptyStack ∧
    ∀ s', elems.foldlM (evalElem chunkId) s = .ok s' → ∃ top, s'.stack = top :: s.stack

theorem pushes_column (chunkId : Nat) (chunks : List ArrayPtr) : Pushes chunkId [.column chunks] := by
  intro s
  simp only [List.foldlM_cons, List.foldlM_nil, evalElem]
  split
  . next chunk _ =>
    refine ⟨by simp [bind, Except.bind, pure, Except.pure], ?_⟩
    intro s' hs'
    injection hs' with hs'
    subst hs'
    exact ⟨⟨false, chunk⟩, rfl⟩
  . refine ⟨by simp [bind, Except.bind, throw, throwThe, MonadExceptOf.throw], ?_⟩
    intro s' hs'
    cases hs'

theorem pushes_arith {chunkId : Nat} {lefts rights : List ExprElem} (op : ArithOperator)
    (hl : Pushes chunkId lefts) (hr : Pushes chunkId rights)
    : Pushes chunkId (lefts ++ rights ++ [.arith op]) := by
  intro s
  simp only [List.foldlM_append, List.foldlM_cons, List.foldlM_nil]
  constructor
  . apply bind_ne_error
    . apply bind_ne_error (hl s).1
      intro s₁ _
      exact (hr s₁).1
    . intro s₂ hs₂
      obtain ⟨s₁, hs₁, hs₂⟩ := bind_eq_ok hs₂
      obtain ⟨left, hleft⟩ := (hl s).2 s₁ hs₁
      obtain ⟨right, hright⟩ := (hr s₁).2 s₂ hs₂
      simp only [evalElem, hright, hleft, bind_assoc]
      apply bind_ne_error (executeBlock_ne_emptyStack _ _ _ _ _)
      intro res _
      simp [pure, Except.pure, bind, Except.bind]
  . intro s' hs'
    obtain ⟨s₂, hs₂, hs'⟩ := bind_eq_ok hs'
    obtain ⟨s₁, hs₁, hs₂⟩ := bind_eq_ok hs₂
    obtain ⟨left, hleft⟩ := (hl s).2 s₁ hs₁
    obtain ⟨right, hright⟩ := (hr s₁).2 s₂ hs₂
    simp only [evalElem, hright, hleft, bind_assoc] at hs'
    obtain ⟨res, -, hs'⟩ := bind_eq_ok hs'
    cases hs'
    exact ⟨_, rfl⟩

section

variable {materializeColumn : ColumnReference → Except EvalError (List ArrayPtr)}

theorem convertPostfix_pushes {ref : ExprReference} (h : ref.Complete) {elems : List ExprElem}
    (helems : convertPostfix materializeColumn ref = .ok elems) (chunkId : Nat)
    : Pushes chunkId elems := by
  induction ref generalizing elems with
  | null => exact h.elim
  | column col =>
    obtain ⟨chunks, -, helems⟩ := bind_eq_ok helems
    cases helems
    exact pushes_column chunkId chunks
  | arith op left right ihl ihr =>
    obtain ⟨lefts, hl, helems⟩ := bind_eq_ok helems
    obtain ⟨rights, hr, helems⟩ := bind_eq_ok helems
    cases helems
    exact pushes_arith op (ihl h.1 hl) (ihr h.2 hr)

theorem evaluate_ne_emptyStack {elems : List ExprElem} {chunkId : Nat} (h : Pushes chunkId elems)
    (heap : Heap)
    : evaluate heap elems chunkId ≠ .error .emptyStack := by
  obtain ⟨hne, -⟩ := h ⟨heap, []⟩
  apply bind_ne_error hne
  intro s _
  split <;> simp [pure, Except.pure, throw, throwThe, MonadExceptOf.throw]

end

/--
The resolver rejects an expression exactly if it has a node that is not supported, what it accepts has the
shape of the expression, and evaluating it never takes an operand from an empty stack.
-/
structure AcceptedComplete (catalog : Catalog) (e : Expr) : Prop where
  rejects : resolveAggExpr catalog e = .null ↔ ¬e.Supported
  mirrors : e.Supported → (resolveAggExpr catalog e).Mirrors catalog e
  evaluates : resolveAggExpr catalog e ≠ .null →
    ∀ (materializeColumn : ColumnReference → Except EvalError (List ArrayPtr)) (elems : List ExprElem)
      (heap : Heap) (chunkId : Nat),
      convertPostfix materializeColumn (resolveAggExpr catalog e) = .ok elems →
      evaluate heap elems chunkId ≠ .error .emptyStack

theorem AcceptedComplete.of_supported {catalog : Catalog} {e : Expr} (h : e.Supported)
    : AcceptedComplete catalog e := by
  have hmirrors : (resolveAggExpr catalog e).Mirrors catalog e := resolveAggExpr_mirrors h
  refine ⟨?_, fun _ => hmirrors, ?_⟩
  . constructor
    . intro hnull
      exact absurd hnull hmirrors.complete.ne_null
    . intro hnot
      exact absurd h hnot
  . intro _ materializeColumn elems heap chunkId helems
    exact evaluate_ne_emptyStack (convertPostfix_pushes hmirrors.complete helems chunkId) heap

def columnPlusOne : Expr :=
  .arith .plus (.column ⟨0, ⟨"a", by decide⟩, 1, "x"⟩) (.integer 1 0)

end Hustle.Operators.Expression
