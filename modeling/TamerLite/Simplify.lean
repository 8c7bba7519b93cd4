import TamerLite.Converter
import TamerLite.Evaluators

/-! `simplify`: one pass folds the constants of the slots of an expression, and a
depth-first search writes out what the root still reaches. -/

namespace TamerLite

namespace Core

/-- The cores differ in what counts as a number, as true and as false. -/
def number : Core → ConstantNode → Option ℚ
  | python, v => v.toNum
  | rust, .num q => some q
  | rust, _ => none

/-- What an operand of a connective is taken for. -/
def isTrue : Core → ConstantNode → Bool
  | python, v => v.truthy
  | rust, v => v = .bool true

/-- What the operand of `not` has to be for it to hold. -/
def isFalse : Core → ConstantNode → Bool
  | python, v => !v.truthy
  | rust, v => v = .bool false

/-- Equal, or equal as numbers. -/
def equals (core : Core) (v w : ConstantNode) : Bool :=
  v = w ||
    match core.number v, core.number w with
    | some x, some y => x = y
    | _, _ => false

/-- A binary operation on numbers. -/
def arithmetic : OperatorKind → ℚ → ℚ → Option ConstantNode
  | .le, x, y => some (.bool (x ≤ y))
  | .lt, x, y => some (.bool (x < y))
  | .minus, x, y => some (.num (x - y))
  | .div, x, y => if y = 0 then none else some (.num (x / y))
  | _, _, _ => none

/-- The operation of a sum or a product, and its value on no operand. -/
def combine : OperatorKind → ℚ → ℚ → ℚ
  | .plus, x, y => x + y
  | _, x, y => x * y

def unit : OperatorKind → ℚ
  | .plus => 0
  | _ => 1

/-- The Rust evaluator, in exact arithmetic. -/
def evalOperatorRust (kind : OperatorKind) (operands : List ℕ) (res : List ConstantNode) :
    Option ConstantNode :=
  match kind with
  | .and => (allOperands rust.isTrue res operands).map .bool
  | .or => (anyOperands rust.isTrue res operands).map .bool
  | .not => do
    let v ← res[← operands[0]?]?
    return .bool (rust.isFalse v)
  | .eq => do
    let v ← res[← operands[0]?]?
    let w ← res[← operands[1]?]?
    return .bool (rust.equals v w)
  | .plus | .times =>
    match operands with
    | [] => none
    | i :: is => do
      let x ← rust.number (← res[i]?)
      let x ← is.foldlM (fun x p => do return combine kind x (← rust.number (← res[p]?))) x
      return .num x
  | _ => do
    let x ← rust.number (← res[← operands[0]?]?)
    let y ← rust.number (← res[← operands[1]?]?)
    arithmetic kind x y

def evalOperator : Core → OperatorKind → List ℕ → List ConstantNode → Option ConstantNode
  | python => TamerLite.evalOperator
  | rust => evalOperatorRust

variable [Callables]

def evalNode (core : Core) (get : Fluent → Option ConstantNode) (res : List ConstantNode) :
    ExpressionNode → Option ConstantNode
  | .operator kind operands => core.evalOperator kind operands res
  | e => TamerLite.evalNode get res e

def evalNodes (core : Core) (get : Fluent → Option ConstantNode) (exp : Expression)
    (res : List ConstantNode) : Option (List ConstantNode) :=
  exp.foldlM (fun res e => (core.evalNode get res e).map (fun v => res ++ [v])) res

/-- `evaluate` and `internal_evaluate`. -/
def evaluate (core : Core) (exp : Expression) (assignments : Assignments) :
    Option ConstantNode := do
  (← core.evalNodes (getValue assignments) exp []).getLast?

theorem evalNodes_python (get : Fluent → Option ConstantNode) :
    evalNodes python get = TamerLite.evalNodes get := by
  have hnode : evalNode python get = TamerLite.evalNode get := by
    funext res e
    cases e <;> rfl
  funext exp res
  simp only [evalNodes, hnode]
  rfl

theorem evaluate_python : evaluate python = TamerLite.evaluate := by
  funext exp assignments
  rw [evaluate, evalNodes_python]
  rfl

end Core

/-! ### Folding constants -/

namespace ExpressionNode

def operands : ExpressionNode → List ℕ
  | operator _ operands => operands
  | interpretedFunction _ _ operands => operands
  | _ => []

def withOperands : ExpressionNode → List ℕ → ExpressionNode
  | operator kind _, operands => operator kind operands
  | interpretedFunction fn rt _, operands => interpretedFunction fn rt operands
  | e, _ => e

def constant? : ExpressionNode → Option ConstantNode
  | constant v => some v
  | _ => none

def bool? : ExpressionNode → Option Bool
  | constant (.bool b) => some b
  | _ => none

def number? (core : Core) (e : ExpressionNode) : Option ℚ := e.constant?.bind core.number

end ExpressionNode

section Folding

variable (core : Core)

/-- The operands of a connective that are no constants, or `none` from the first
one that decides it. -/
def openOperands (res : Expression) (decisive : Bool) : List ℕ → Option (Option (List ℕ))
  | [] => some (some [])
  | i :: is => do
    match (← res[i]?).bool? with
    | some b => if b = decisive then some none else openOperands res decisive is
    | none => do return (← openOperands res decisive is).map (i :: ·)

def foldConnective (res : Expression) (kind : OperatorKind) (decisive : Bool)
    (operands : List ℕ) : Option ExpressionNode := do
  match ← openOperands res decisive operands with
  | none => some (.constant (.bool decisive))
  | some [] => some (.constant (.bool !decisive))
  | some [i] => res[i]?
  | some is => some (.operator kind is)

def foldNot (res : Expression) (operands : List ℕ) : Option ExpressionNode := do
  match (← res[← operands[0]?]?).bool? with
  | some b => some (.constant (.bool !b))
  | none => some (.operator .not operands)

def foldEquals (res : Expression) (operands : List ℕ) : Option ExpressionNode := do
  let v ← res[← operands[0]?]?
  let w ← res[← operands[1]?]?
  if v = w then some (.constant (.bool true))
  else
    match v.number? core, w.number? core with
    | some x, some y => some (.constant (.bool (x = y)))
    | _, _ => some (.operator .eq operands)

def foldBinary (res : Expression) (kind : OperatorKind) (operands : List ℕ) :
    Option ExpressionNode := do
  let v ← res[← operands[0]?]?
  let w ← res[← operands[1]?]?
  match v.number? core, w.number? core with
  | some x, some y => do return .constant (← Core.arithmetic kind x y)
  | _, _ => some (.operator kind operands)

/-- What the loop over the operands of a sum or a product has so far: the folded
constant, the first constant operand and the operands that stay. -/
structure Folded where
  v : ℚ
  firstConstantOperand : Option ℕ
  operands : List ℕ

def foldOperand (res : Expression) (kind : OperatorKind) (s : Folded) (i : ℕ) : Option Folded := do
  match (← res[i]?).number? core with
  | some x =>
    let v := Core.combine kind s.v x
    if s.firstConstantOperand = none then some ⟨v, some i, s.operands ++ [i]⟩
    else some { s with v := v }
  | none => some { s with operands := s.operands ++ [i] }

/-- The constants of a sum or a product go, folded, to the slot of the first. -/
def foldNary (res : Expression) (kind : OperatorKind) (operands : List ℕ) :
    Option (Expression × ExpressionNode) := do
  let s ← operands.foldlM (foldOperand core res kind) ⟨Core.unit kind, none, []⟩
  match s.firstConstantOperand with
  | none => some (res, .operator kind operands)
  | some i =>
    if s.operands.length = 1 then some (res, .constant (.num s.v))
    else some (res.set i (.constant (.num s.v)), .operator kind s.operands)

variable [Callables]

/-- The slots after a node, and what stands for it. -/
def foldNode (assignments : Fluent → Option ConstantNode) (evaluateInterpretedFunctions : Bool)
    (res : Expression) : ExpressionNode → Option (Expression × ExpressionNode)
  | .constant v => some (res, .constant v)
  | .fluent f =>
    match assignments f with
    | none => some (res, .fluent f)
    | some v => some (res, .constant v)
  | .interpretedFunction fn rt operands => do
    let nodes ← operands.mapM (res[·]?)
    match evaluateInterpretedFunctions, nodes.mapM ExpressionNode.constant? with
    | true, some vs => do
      let v ← (← Callables.function fn vs).coerce rt
      return (res, .constant v)
    | _, _ => some (res, .interpretedFunction fn rt operands)
  | .operator kind operands =>
    match kind with
    | .and => (foldConnective res .and false operands).map fun e => (res, e)
    | .or => (foldConnective res .or true operands).map fun e => (res, e)
    | .not => (foldNot res operands).map fun e => (res, e)
    | .eq => (foldEquals core res operands).map fun e => (res, e)
    | .plus | .times => foldNary core res kind operands
    | _ => (foldBinary core res kind operands).map fun e => (res, e)

def foldSlots (assignments : Fluent → Option ConstantNode) (evaluateInterpretedFunctions : Bool)
    (exp : Expression) : Option Expression :=
  exp.foldlM (fun res e =>
    (foldNode core assignments evaluateInterpretedFunctions res e).map fun p => p.1 ++ [p.2]) []

end Folding

/-! ### Writing out the root -/

/-- The loop's `stack` and `operands_stack`, their tops first, and `final_res`. -/
structure Search where
  stack : List (ℕ × Bool)
  operandsStack : List ℕ
  finalRes : Expression
deriving DecidableEq

/-- One turn of the loop on a nonempty stack. -/
def Search.turn (res : Expression) (idx : ℕ) (processed : Bool) (s : Search) : Option Search := do
  let e ← res[idx]?
  match e with
  | .constant _ | .fluent _ =>
    some ⟨s.stack, s.finalRes.length :: s.operandsStack, s.finalRes ++ [e]⟩
  | _ =>
    if processed then
      let operands := (s.operandsStack.take e.operands.length).reverse
      some ⟨s.stack, s.finalRes.length :: s.operandsStack.drop e.operands.length,
        s.finalRes ++ [e.withOperands operands]⟩
    else some { s with stack := e.operands.map (·, false) ++ (idx, true) :: s.stack }

/-- The loop, for a number of turns; `none` when they do not suffice. -/
def Search.run (res : Expression) : ℕ → Search → Option Expression
  | _, ⟨[], _, finalRes⟩ => some finalRes
  | 0, _ => none
  | fuel + 1, ⟨(idx, processed) :: stack, operandsStack, finalRes⟩ => do
    Search.run res fuel (← Search.turn res idx processed ⟨stack, operandsStack, finalRes⟩)

/-- `simplify` -/
def simplify [Callables] (core : Core) (assignments : Fluent → Option ConstantNode)
    (evaluateInterpretedFunctions : Bool) (fuel : ℕ) (exp : Expression) : Option Expression := do
  let res ← foldSlots core assignments evaluateInterpretedFunctions exp
  Search.run res fuel ⟨[(res.length - 1, false)], [], []⟩

end TamerLite
