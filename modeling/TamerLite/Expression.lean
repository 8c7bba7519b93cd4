import Mathlib.Algebra.Order.Ring.Rat
import Mathlib.Data.List.Basic

/-! Postfix expressions and their evaluation. An expression is a sequence of
nodes whose operands are the positions of earlier nodes; the last one is the root. -/

namespace TamerLite

/-- The two implementations. -/
inductive Core
  | python
  | rust
deriving DecidableEq, Repr

structure Fluent where
  idx : ℕ
deriving DecidableEq, Repr

structure Object where
  idx : ℕ
deriving DecidableEq, Repr

inductive IfReturnType
  | bool | int | real | object
deriving DecidableEq, Repr

/-- A value: a Boolean, a number or an object. The source's `int` and
`Fraction` compare and compute alike, so both are `num`. -/
inductive ConstantNode
  | bool (b : Bool)
  | num (q : ℚ)
  | object (o : Object)
deriving DecidableEq, Repr

inductive OperatorKind
  | and | or | not | eq | le | lt | plus | minus | times | div
deriving DecidableEq, Repr

inductive ExpressionNode
  | operator (kind : OperatorKind) (operands : List ℕ)
  | fluent (fluent : Fluent)
  | interpretedFunction (function : ℕ) (returnType : IfReturnType) (operands : List ℕ)
  | constant (value : ConstantNode)
deriving DecidableEq, Repr

abbrev Expression := List ExpressionNode

instance : LawfulBEq Expression := inferInstance

abbrev Assignments := List ConstantNode

/-- The Python callables interpreted functions refer to; `none` when one raises. -/
class Callables where
  function : ℕ → List ConstantNode → Option ConstantNode

/-- A problem without interpreted functions. -/
abbrev Callables.empty : Callables := ⟨fun _ _ => none⟩

namespace ConstantNode

/-- Python's truth value. -/
def truthy : ConstantNode → Bool
  | bool b => b
  | num q => q ≠ 0
  | object _ => true

/-- The number a value stands for in arithmetic and comparisons, where `True`
is 1 and `False` is 0. Objects support neither. -/
def toNum : ConstantNode → Option ℚ
  | bool b => some (if b then 1 else 0)
  | num q => some q
  | object _ => none

/-- Python's `==`, for which `True == 1`. -/
def eqv (v w : ConstantNode) : Bool :=
  match v, w with
  | object o, object p => o = p
  | object _, _ => false
  | _, object _ => false
  | _, _ => v.toNum = w.toNum

/-- `InterpretedFunctionNode.call` on the raw result of the callable. -/
def coerce : IfReturnType → ConstantNode → Option ConstantNode
  | .bool, r => some (bool r.truthy)
  | .int, r => r.toNum.map fun q => num (if 0 ≤ q then q.floor else q.ceil)
  | .real, r => r.toNum.map num
  | .object, object o => some (object o)
  | .object, _ => none

end ConstantNode

/-- The `and` loop: it stops at the first falsy operand. -/
def evalAnd (res : List ConstantNode) : List ℕ → Option Bool
  | [] => some true
  | i :: is => do
    let v ← res[i]?
    if v.truthy then evalAnd res is else some false

/-- The `or` loop: it stops at the first truthy operand. -/
def evalOr (res : List ConstantNode) : List ℕ → Option Bool
  | [] => some false
  | i :: is => do
    let v ← res[i]?
    if v.truthy then some true else evalOr res is

def operandNum (res : List ConstantNode) (i : ℕ) : Option ℚ := do
  (← res[i]?).toNum

/-- The two operands of a binary operator. -/
def operandNums (res : List ConstantNode) (operands : List ℕ) : Option (ℚ × ℚ) := do
  let x ← operandNum res (← operands[0]?)
  let y ← operandNum res (← operands[1]?)
  return (x, y)

/-- `+` and `*` start from the first operand, so they need one. -/
def evalFold (f : ℚ → ℚ → ℚ) (res : List ConstantNode) : List ℕ → Option ℚ
  | [] => none
  | i :: is => do
    let v ← operandNum res i
    is.foldlM (fun v j => (operandNum res j).map (f v)) v

def evalOperator (kind : OperatorKind) (operands : List ℕ) (res : List ConstantNode) :
    Option ConstantNode :=
  match kind with
  | .and => (evalAnd res operands).map .bool
  | .or => (evalOr res operands).map .bool
  | .not => do
    let v ← res[← operands[0]?]?
    return .bool (!v.truthy)
  | .eq => do
    let v ← res[← operands[0]?]?
    let w ← res[← operands[1]?]?
    return .bool (v.eqv w)
  | .le => (operandNums res operands).map fun p => .bool (p.1 ≤ p.2)
  | .lt => (operandNums res operands).map fun p => .bool (p.1 < p.2)
  | .plus => (evalFold (· + ·) res operands).map .num
  | .minus => (operandNums res operands).map fun p => .num (p.1 - p.2)
  | .times => (evalFold (· * ·) res operands).map .num
  | .div => do
    let p ← operandNums res operands
    if p.2 = 0 then none else return .num (p.1 / p.2)

def getFluents (exp : Expression) : List Fluent :=
  exp.filterMap fun
    | .fluent f => some f
    | _ => none

def hasInterpretedFunction (exp : Expression) : Bool :=
  exp.any fun
    | .interpretedFunction .. => true
    | _ => false

def shiftNode (offset : ℤ) : ExpressionNode → ExpressionNode
  | .operator kind operands => .operator kind (operands.map fun o : ℕ => ((o : ℤ) + offset).toNat)
  | .interpretedFunction fn rt operands =>
    .interpretedFunction fn rt (operands.map fun o : ℕ => ((o : ℤ) + offset).toNat)
  | e => e

def shiftExpression (exp : Expression) (offset : ℤ) : Expression := exp.map (shiftNode offset)

@[simp] theorem getFluents_nil : getFluents [] = [] := rfl

theorem mem_getFluents {exp : Expression} {f : Fluent} :
    f ∈ getFluents exp ↔ .fluent f ∈ exp := by
  simp only [getFluents, List.mem_filterMap]
  constructor
  · rintro ⟨e, he, hf⟩
    cases e <;> simp_all
  · exact fun h => ⟨_, h, rfl⟩

variable [Callables]

/-- The value of one node, given the values `res` of the nodes before it. -/
def evalNode (get : Fluent → Option ConstantNode) (res : List ConstantNode) :
    ExpressionNode → Option ConstantNode
  | .constant v => some v
  | .fluent f => get f
  | .interpretedFunction fn rt operands => do
    let args ← operands.mapM (res[·]?)
    let r ← Callables.function fn args
    r.coerce rt
  | .operator kind operands => evalOperator kind operands res

def evalNodes (get : Fluent → Option ConstantNode) (exp : Expression)
    (res : List ConstantNode) : Option (List ConstantNode) :=
  exp.foldlM (fun res e => (evalNode get res e).map (fun v => res ++ [v])) res

def getValue (assignments : Assignments) (f : Fluent) : Option ConstantNode :=
  assignments[f.idx]?

/-- `evaluate`; `none` when the source raises. -/
def evaluate (exp : Expression) (assignments : Assignments) : Option ConstantNode := do
  (← evalNodes (getValue assignments) exp []).getLast?

/-- `evaluate(exp, state)` as the source uses it for a condition. -/
def holds (exp : Expression) (assignments : Assignments) : Bool :=
  (evaluate exp assignments).any ConstantNode.truthy

theorem evalNodes_congr {get get' : Fluent → Option ConstantNode} (exp : Expression)
    (h : ∀ f ∈ getFluents exp, get f = get' f) (res : List ConstantNode) :
    evalNodes get exp res = evalNodes get' exp res := by
  induction exp generalizing res with
  | nil => rfl
  | cons e exp ih =>
    have he : evalNode get res e = evalNode get' res e := by
      cases e with
      | fluent f => exact h f (by simp [mem_getFluents])
      | _ => rfl
    have hs : ∀ f ∈ getFluents exp, get f = get' f :=
      fun f hf => h f (mem_getFluents.mpr (by simp [mem_getFluents.mp hf]))
    simp only [evalNodes, List.foldlM_cons, he]
    exact congrArg _ (funext fun res' => ih hs res')

/-- Evaluation reads nothing but the fluents of the expression. -/
theorem evaluate_congr {exp : Expression} {a b : Assignments}
    (h : ∀ f ∈ getFluents exp, getValue a f = getValue b f) : evaluate exp a = evaluate exp b := by
  simp only [evaluate, evalNodes_congr exp h]

theorem holds_congr {exp : Expression} {a b : Assignments}
    (h : ∀ f ∈ getFluents exp, getValue a f = getValue b f) : holds exp a = holds exp b := by
  simp only [holds, evaluate_congr h]

end TamerLite
