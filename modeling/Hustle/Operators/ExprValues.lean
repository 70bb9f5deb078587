import Hustle.Operators.AggExpr
import Hustle.Operators.HashGroups

/-!
This module contains the values of the expressions that do not write over a column. An operator writes its values
over those of its left operand unless both operands are columns, so an operator whose left operand is a column
and whose right operand is not changes the table.
-/

namespace Hustle.Resolver.ExprReference

def isArith : ExprReference → Bool
  | .arith _ _ _ => true
  | _ => false

/--
Some operator has a column to the left and another operator to the right.
-/
def writesColumn : ExprReference → Bool
  | .arith _ left right => left.writesColumn || right.writesColumn || (!left.isArith && right.isArith)
  | _ => false

end Hustle.Resolver.ExprReference

namespace Hustle.Operators

open HashAggregate (Keeps)
open Resolver

/--
The value of an expression in a tuple, if all quotients exist.
-/
def TypedTables.exprValue (db : TypedTables) (ρ : Nat → Nat) : ExprReference → Option (BitVec 64)
  | .null => none
  | .column ref =>
    match db.value ref ρ with
    | .int64 value => some value
    | .string _ => none
  | .arith op left right => do
    let left ← db.exprValue ρ left
    let right ← db.exprValue ρ right
    (Expression.executeRow op left right).toOption

namespace HashAggregate

theorem Keeps.refl (heap : Heap) : Keeps heap heap :=
  fun _ _ => rfl

theorem Keeps.length_le {heap heap' : Heap} (h : Keeps heap heap') : heap.length ≤ heap'.length := by
  by_contra hlt
  have hlen : heap'.length < heap.length := by omega
  have := h heap'.length hlen
  rw [List.getElem?_eq_none (Nat.le_refl _), List.getElem?_eq_getElem hlen] at this
  cases this

theorem Keeps.trans {heap₁ heap₂ heap₃ : Heap} (h : Keeps heap₁ heap₂) (h' : Keeps heap₂ heap₃)
    : Keeps heap₁ heap₃ := by
  intro i hi
  have := h.length_le
  rw [h' i (by omega), h i hi]

theorem Keeps.append (heap new : Heap) : Keeps heap (heap ++ new) :=
  fun _ hi => List.getElem?_append_left hi

theorem Keeps.set {heap heap' : Heap} (h : Keeps heap heap') {ptr : ArrayPtr} (hptr : heap.length ≤ ptr)
    (values : Values)
    : Keeps heap (heap'.set ptr values) := by
  intro i hi
  rw [List.getElem?_set_ne (by omega), h i hi]

end HashAggregate

namespace Expression

theorem toOption_eq_some {α : Type} {x : Except EvalError α} {a : α} (h : x.toOption = some a) : x = .ok a := by
  cases x with
  | error e => cases h
  | ok b =>
    cases h
    rfl

theorem executeRows_eq {α : Type} {op : ArithOperator} {rows : List α} {left right value : α → BitVec 64}
    (h : ∀ k ∈ rows, executeRow op (left k) (right k) = .ok (value k))
    : executeRows op (rows.map left) (rows.map right) = .ok (rows.map value) := by
  induction rows with
  | nil => rfl
  | cons k rows ih =>
    simp only [List.map_cons, executeRows, h k (by simp), ih fun j hj => h j (by simp [hj])]
    rfl

section

variable {db : TypedTables} {materializeColumn : ColumnReference → Except EvalError (List ArrayPtr)}
  {heap : Heap} {chunkId : Nat} {rows : List (Nat → Nat)}

def HasRows (db : TypedTables) (heap : Heap) (chunkId : Nat) (rows : List (Nat → Nat))
    (materializeColumn : ColumnReference → Except EvalError (List ArrayPtr)) (ref : ColumnReference) : Prop :=
  ∃ chunks ptr, materializeColumn ref = .ok chunks ∧ chunks[chunkId]? = some ptr ∧
    heap[ptr]? = some (.int64 (rows.map fun ρ => (db.exprValue ρ (.column ref)).getD 0))

theorem HasRows.keeps {heap' : Heap} {ref : ColumnReference}
    (h : HasRows db heap chunkId rows materializeColumn ref) (hkeeps : Keeps heap heap')
    : HasRows db heap' chunkId rows materializeColumn ref := by
  obtain ⟨chunks, ptr, hmat, hptr, hheap⟩ := h
  refine ⟨chunks, ptr, hmat, hptr, ?_⟩
  rw [hkeeps ptr (List.getElem?_eq_some_iff.mp hheap).1, hheap]

theorem convertPostfix_ok {e : ExprReference}
    (hcols : ∀ ref ∈ exprColumns e, ∃ chunks, materializeColumn ref = .ok chunks)
    : ∃ elems, convertPostfix materializeColumn e = .ok elems := by
  induction e with
  | null => exact ⟨[], rfl⟩
  | column ref =>
    obtain ⟨chunks, hmat⟩ := hcols ref (by simp [exprColumns])
    exact ⟨[.column chunks], by rw [convertPostfix, hmat]; rfl⟩
  | arith op left right ihl ihr =>
    obtain ⟨lefts, hl⟩ := ihl fun ref href => hcols ref (by simp [exprColumns, href])
    obtain ⟨rights, hr⟩ := ihr fun ref href => hcols ref (by simp [exprColumns, href])
    exact ⟨lefts ++ rights ++ [.arith op], by rw [convertPostfix, hl, hr]; rfl⟩

/--
The result is a new array for an operator, and all arrays that were there before are as they were.
-/
theorem foldlM_evalElem {e : ExprReference} (hcomplete : e.Complete) (hwrites : e.writesColumn = false)
    (hcols : ∀ ref ∈ exprColumns e, HasRows db heap chunkId rows materializeColumn ref)
    (hvalues : ∀ ρ ∈ rows, (db.exprValue ρ e).isSome) {elems : List ExprElem}
    (helems : convertPostfix materializeColumn e = .ok elems) (stack : List OpElem)
    : ∃ heap' ptr, elems.foldlM (evalElem chunkId) ⟨heap, stack⟩ = .ok ⟨heap', ⟨e.isArith, ptr⟩ :: stack⟩ ∧
        Keeps heap heap' ∧ heap'[ptr]? = some (.int64 (rows.map fun ρ => (db.exprValue ρ e).getD 0)) ∧
        (e.isArith → heap.length ≤ ptr) := by
  induction e generalizing heap elems stack with
  | null => exact hcomplete.elim
  | column ref =>
    obtain ⟨chunks, ptr, hmat, hptr, hheap⟩ := hcols ref (by simp [exprColumns])
    rw [convertPostfix, hmat] at helems
    cases helems
    refine ⟨heap, ptr, ?_, .refl heap, hheap, by simp [ExprReference.isArith]⟩
    simp only [List.foldlM_cons, List.foldlM_nil, evalElem, hptr]
    rfl
  | arith op left right ihl ihr =>
    obtain ⟨lefts, hl, helems⟩ := bind_eq_ok helems
    obtain ⟨rights, hr, helems⟩ := bind_eq_ok helems
    cases helems
    simp only [ExprReference.writesColumn, Bool.or_eq_false_iff, Bool.and_eq_false_imp] at hwrites
    obtain ⟨⟨hwl, hwr⟩, hshape⟩ := hwrites
    -- the operands have values wherever the quotient has one
    have hsome : ∀ ρ ∈ rows, ∃ a b v, db.exprValue ρ left = some a ∧ db.exprValue ρ right = some b ∧
        executeRow op a b = .ok v ∧ db.exprValue ρ (.arith op left right) = some v := by
      intro ρ hρ
      obtain ⟨v, hv⟩ := Option.isSome_iff_exists.mp (hvalues ρ hρ)
      have hv' := hv
      rw [TypedTables.exprValue] at hv'
      obtain ⟨a, ha, hv'⟩ := Option.bind_eq_some_iff.mp hv'
      obtain ⟨b, hb, hv'⟩ := Option.bind_eq_some_iff.mp hv'
      exact ⟨a, b, v, ha, hb, toOption_eq_some hv', hv⟩
    obtain ⟨heap₁, ptr₁, hrun₁, hkeeps₁, hget₁, hnew₁⟩ := ihl hcomplete.1 hwl
      (fun ref href => hcols ref (by simp [exprColumns, href]))
      (fun ρ hρ => by
        obtain ⟨a, b, v, ha, -⟩ := hsome ρ hρ
        rw [ha]
        rfl) hl stack
    obtain ⟨heap₂, ptr₂, hrun₂, hkeeps₂, hget₂, hnew₂⟩ := ihr hcomplete.2 hwr
      (fun ref href => (hcols ref (by simp [exprColumns, href])).keeps hkeeps₁)
      (fun ρ hρ => by
        obtain ⟨a, b, v, -, hb, -⟩ := hsome ρ hρ
        rw [hb]
        rfl) hr (⟨left.isArith, ptr₁⟩ :: stack)
    have hlt₁ : ptr₁ < heap₁.length := (List.getElem?_eq_some_iff.mp hget₁).1
    have hget₁' := (hkeeps₂ ptr₁ hlt₁).trans hget₁
    have hlt₂ : ptr₁ < heap₂.length := (List.getElem?_eq_some_iff.mp hget₁').1
    have hrows : executeRows op (rows.map fun ρ => (db.exprValue ρ left).getD 0)
        (rows.map fun ρ => (db.exprValue ρ right).getD 0)
        = .ok (rows.map fun ρ => (db.exprValue ρ (.arith op left right)).getD 0) := by
      apply executeRows_eq
      intro ρ hρ
      obtain ⟨a, b, v, ha, hb, hv, hval⟩ := hsome ρ hρ
      rw [ha, hb, hval]
      exact hv
    have hkeeps := hkeeps₁.trans hkeeps₂
    have hlen := hkeeps.length_le
    by_cases hresult : left.isArith = false ∧ right.isArith = false
    . refine ⟨heap₂ ++ [.int64 (rows.map fun ρ => (db.exprValue ρ (.arith op left right)).getD 0)],
        heap₂.length, ?_, hkeeps.trans (.append _ _), by simp, fun _ => hlen⟩
      rw [List.foldlM_append, List.foldlM_append, hrun₁]
      change (rights.foldlM (evalElem chunkId) ⟨heap₁, ⟨left.isArith, ptr₁⟩ :: stack⟩ >>= _) = _
      rw [hrun₂]
      simp only [bind, Except.bind, List.foldlM_cons, List.foldlM_nil, evalElem, executeBlock, hget₁', hget₂, hrows,
        hresult.1, hresult.2]
      rfl
    . have harith : left.isArith = true := by
        by_contra hfalse
        rw [Bool.not_eq_true] at hfalse
        exact hresult ⟨hfalse, hshape (by simp [hfalse])⟩
      refine ⟨heap₂.set ptr₁ (.int64 (rows.map fun ρ => (db.exprValue ρ (.arith op left right)).getD 0)),
        ptr₁, ?_, hkeeps.set (hnew₁ harith) _, by simp [hlt₂], fun _ => hnew₁ harith⟩
      rw [List.foldlM_append, List.foldlM_append, hrun₁]
      change (rights.foldlM (evalElem chunkId) ⟨heap₁, ⟨left.isArith, ptr₁⟩ :: stack⟩ >>= _) = _
      rw [hrun₂]
      simp only [bind, Except.bind, List.foldlM_cons, List.foldlM_nil, evalElem, executeBlock, hget₁', hget₂, hrows,
        harith]
      rfl

theorem evaluate_eq {e : ExprReference} (hcomplete : e.Complete) (hwrites : e.writesColumn = false)
    (hcols : ∀ ref ∈ exprColumns e, HasRows db heap chunkId rows materializeColumn ref)
    (hvalues : ∀ ρ ∈ rows, (db.exprValue ρ e).isSome) {elems : List ExprElem}
    (helems : convertPostfix materializeColumn e = .ok elems)
    : ∃ heap' ptr, evaluate heap elems chunkId = .ok (ptr, heap') ∧ Keeps heap heap' ∧
        heap'[ptr]? = some (.int64 (rows.map fun ρ => (db.exprValue ρ e).getD 0)) := by
  obtain ⟨heap', ptr, hrun, hkeeps, hget, -⟩ := foldlM_evalElem hcomplete hwrites hcols hvalues helems []
  refine ⟨heap', ptr, ?_, hkeeps, hget⟩
  rw [evaluate, hrun]
  rfl

end

end Expression

end Hustle.Operators
