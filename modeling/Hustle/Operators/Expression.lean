import Hustle.Resolver.SelectResolver

/-!
This module contains the evaluation of the expression below an aggregate: it is put into postfix form once
and then run on a stack for every chunk. The arrays on the stack are those of the table itself until an
operator makes a new one, so they live in a heap.
-/

namespace Hustle.Operators

open Resolver (ArithOperator ColumnReference ExprReference)

abbrev ArrayPtr := Nat

/--
The values of an `arrow::Array`.
-/
inductive Values where
  | int64 (values : List (BitVec 64))
  | string (values : List (List UInt8))
  deriving DecidableEq, Repr

abbrev Heap := List Values

inductive EvalError where
  /-- `top()` or `pop()` of an empty stack -/
  | emptyStack
  | invalidExpression
  | typeConversion
  | noCType
  /-- a chunk or a row that is not there, or a quotient that does not exist -/
  | invalidAccess
  deriving DecidableEq, Repr

inductive ExprElem where
  | column (chunks : List ArrayPtr)
  | arith (op : ArithOperator)
  deriving DecidableEq, Repr

structure OpElem where
  isResult : Bool
  chunk : ArrayPtr
  deriving DecidableEq, Repr

namespace Expression

/--
`Expression::ConvertPostfix`. All columns are materialized on the way.
-/
def convertPostfix (materializeColumn : ColumnReference → Except EvalError (List ArrayPtr))
    : ExprReference → Except EvalError (List ExprElem)
  | .null => return []
  | .column col => do
    let chunks ← materializeColumn col
    return [.column chunks]
  | .arith op left right => do
    let leftElems ← convertPostfix materializeColumn left
    let rightElems ← convertPostfix materializeColumn right
    return leftElems ++ rightElems ++ [.arith op]

def executeRow (op : ArithOperator) (left right : BitVec 64) : Except EvalError (BitVec 64) :=
  match op with
  | .plus => return left + right
  | .minus => return left - right
  | .star => return left * right
  | .slash =>
    if right = 0 ∨ (left = BitVec.intMin 64 ∧ right = -1) then
      throw .invalidAccess
    else
      return left.sdiv right

def executeRows (op : ArithOperator) : List (BitVec 64) → List (BitVec 64)
    → Except EvalError (List (BitVec 64))
  | [], [] => return []
  | left :: lefts, right :: rights => do
    let value ← executeRow op left right
    let values ← executeRows op lefts rights
    return value :: values
  | _, _ => throw .invalidAccess

/--
`Expression::ExecuteBlock`. The values go to a new array if `isResult`, otherwise they are written over
those of the left operand.
-/
def executeBlock (heap : Heap) (isResult : Bool) (op : ArithOperator) (left right : ArrayPtr)
    : Except EvalError (ArrayPtr × Heap) :=
  match heap[left]?, heap[right]? with
  | some (.int64 lefts), some (.int64 rights) => do
    let values ← executeRows op lefts rights
    if isResult then
      return (heap.length, heap ++ [.int64 values])
    else
      return (left, heap.set left (.int64 values))
  | some (.string _), some (.string _) => throw .noCType
  | some (.int64 _), some (.string _) | some (.string _), some (.int64 _) => throw .typeConversion
  | _, _ => throw .invalidAccess

structure EvalState where
  heap : Heap
  stack : List OpElem
  deriving DecidableEq, Repr

def evalElem (chunkId : Nat) (s : EvalState) : ExprElem → Except EvalError EvalState
  | .column chunks =>
    match chunks[chunkId]? with
    | some chunk => return { s with stack := ⟨false, chunk⟩ :: s.stack }
    | none => throw .invalidAccess
  | .arith op =>
    match s.stack with
    | rightOp :: leftOp :: stack => do
      -- a new array is only made if neither operand is a result
      let isResult := !leftOp.isResult && !rightOp.isResult
      let (chunk, heap) ← executeBlock s.heap isResult op leftOp.chunk rightOp.chunk
      return ⟨heap, ⟨true, chunk⟩ :: stack⟩
    | _ => throw .emptyStack

def evaluate (heap : Heap) (postfixExpr : List ExprElem) (chunkId : Nat)
    : Except EvalError (ArrayPtr × Heap) := do
  let s ← postfixExpr.foldlM (evalElem chunkId) ⟨heap, []⟩
  match s.stack with
  | result :: _ => return (result.chunk, s.heap)
  | [] => throw .invalidExpression

end Expression

end Hustle.Operators
