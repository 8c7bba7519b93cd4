import TamerLite.SearchSpace
import Mathlib.Data.Rat.Lemmas

/-! The evaluators of the two cores, on values as the cores store them, where an
integer and a fraction are different even when they are the same number. -/

namespace TamerLite

inductive Value
  | bool (b : Bool)
  | int (z : ℤ)
  | fraction (q : ℚ)
  | object (o : Object)
deriving DecidableEq, Repr

inductive ValueType
  | bool | number | object
deriving DecidableEq, Repr

namespace Value

/-- `_canonical_rational` and `rational_node`: a rational with denominator 1 is an integer. -/
def ofRational (q : ℚ) : Value := if q.den = 1 then int q.num else fraction q

/-- The node the `make_*` functions build for a constant. -/
def ofConstant : ConstantNode → Value
  | .bool b => bool b
  | .num q => ofRational q
  | .object o => object o

def toConstant : Value → ConstantNode
  | bool b => .bool b
  | int z => .num z
  | fraction q => .num q
  | object o => .object o

def Canonical : Value → Prop
  | fraction q => q.den ≠ 1
  | _ => True

def type : Value → ValueType
  | bool _ => .bool
  | int _ => .number
  | fraction _ => .number
  | object _ => .object

@[simp] theorem ofConstant_bool (b : Bool) : ofConstant (.bool b) = bool b := rfl

@[simp] theorem ofConstant_num (q : ℚ) : ofConstant (.num q) = ofRational q := rfl

theorem canonical_ofConstant (c : ConstantNode) : (ofConstant c).Canonical := by
  cases c with
  | bool | object => exact trivial
  | num q =>
    rw [ofConstant, ofRational]
    split_ifs with h
    · exact trivial
    · exact h

@[simp] theorem toConstant_ofConstant (c : ConstantNode) : (ofConstant c).toConstant = c := by
  cases c with
  | bool | object => rfl
  | num q =>
    rw [ofConstant, ofRational]
    split_ifs with h
    · exact congrArg ConstantNode.num (Rat.den_eq_one_iff q |>.mp h)
    · rfl

theorem ofConstant_toConstant {v : Value} (h : v.Canonical) : ofConstant v.toConstant = v := by
  cases v with
  | bool | object => rfl
  | int z => simp [toConstant, ofConstant, ofRational]
  | fraction q =>
    have hq : q.den ≠ 1 := h
    simp [toConstant, ofConstant, ofRational, hq]

theorem ofConstant_injective : Function.Injective ofConstant :=
  Function.LeftInverse.injective toConstant_ofConstant

theorem map_toConstant {vs : List Value} (h : ∀ v ∈ vs, v.Canonical) :
    (vs.map toConstant).map ofConstant = vs := by
  rw [List.map_map]
  conv_rhs => rw [← List.map_id vs]
  exact List.map_congr_left fun v hv => ofConstant_toConstant (h v hv)

end Value

def ConstantNode.type : ConstantNode → ValueType
  | bool _ => .bool
  | num _ => .number
  | object _ => .object

@[simp] theorem Value.type_ofConstant (c : ConstantNode) : (Value.ofConstant c).type = c.type := by
  cases c with
  | bool | object => rfl
  | num q =>
    rw [ofConstant, ofRational]
    split_ifs <;> rfl

/-- A number as either core computes with it. -/
inductive Number
  | int (z : ℤ)
  | fraction (q : ℚ)
deriving DecidableEq, Repr

namespace Number

def ofRat (q : ℚ) : Number := if q.den = 1 then int q.num else fraction q

def toRat : Number → ℚ
  | int z => z
  | fraction q => q

def toValue : Number → Value
  | int z => .int z
  | fraction q => .fraction q

@[simp] theorem toRat_int (z : ℤ) : (int z).toRat = z := rfl

@[simp] theorem toRat_ofRat (q : ℚ) : (ofRat q).toRat = q := by
  rw [ofRat]
  split_ifs with h
  · exact Rat.den_eq_one_iff q |>.mp h
  · rfl

end Number

/-- What the Python callables return, before it is coerced, and Python's
conversions; `none` when one raises. -/
class RawCallables where
  Raw : Type
  function : ℕ → List Value → Option Raw
  toBool : Raw → Option Bool
  toInt : Raw → Option ℤ
  toFraction : Raw → Option ℚ
  toObject : Raw → Option Object

/-- The coercion of `InterpretedFunctionNode.call`, and of
`interpreted_function_result`. -/
def coerceResult [RawCallables] (r : RawCallables.Raw) : IfReturnType → Option Value
  | .bool => (RawCallables.toBool r).map .bool
  | .int => (RawCallables.toInt r).map .int
  | .real => (RawCallables.toFraction r).map .ofRational
  | .object => (RawCallables.toObject r).map .object

/-- The loop of both evaluators: a value for each node, the last one the result. -/
def evaluateNodes (node : List Value → ExpressionNode → Option Value) (exp : Expression) :
    Option Value := do
  (← exp.foldlM (fun res e => (node res e).map fun v => res ++ [v]) []).getLast?

section Loops

variable {α : Type} (p : α → Bool) (res : List α)

/-- The `and` loop, which stops at the first operand that fails. -/
def allOperands : List ℕ → Option Bool
  | [] => some true
  | i :: is => do
    let v ← res[i]?
    if p v then allOperands is else some false

/-- The `or` loop, which stops at the first operand that holds. -/
def anyOperands : List ℕ → Option Bool
  | [] => some false
  | i :: is => do
    let v ← res[i]?
    if p v then some true else anyOperands is

end Loops

/-! ### The Python core -/

namespace PythonCore

def truthy : Value → Bool
  | .bool b => b
  | .int z => z ≠ 0
  | .fraction q => q ≠ 0
  | .object _ => true

/-- A `bool` is an `int`. -/
def number : Value → Option Number
  | .bool b => some (.int (if b then 1 else 0))
  | .int z => some (.int z)
  | .fraction q => some (.fraction q)
  | .object _ => none

/-- `==`, where two objects are equal when their indices are. -/
def equal (v w : Value) : Bool :=
  match number v, number w with
  | some x, some y => x.toRat = y.toRat
  | none, none => v = w
  | _, _ => false

/-- An operator on numbers: two `int`s give an `int`, anything else a `Fraction`. -/
def arithmetic (onInt : ℤ → ℤ → ℤ) (onFraction : ℚ → ℚ → ℚ) (v w : Value) : Option Value := do
  match ← number v, ← number w with
  | .int x, .int y => some (.int (onInt x y))
  | x, y => some (.fraction (onFraction x.toRat y.toRat))

def compareWith (rel : ℚ → ℚ → Bool) (v w : Value) : Option Value := do
  return .bool (rel (← number v).toRat (← number w).toRat)

/-- `Fraction(v, w)` -/
def divide (v w : Value) : Option Value := do
  let x ← number v
  let y ← number w
  if y.toRat = 0 then none else some (.fraction (x.toRat / y.toRat))

/-- `if isinstance(v, Fraction) and v.denominator == 1: v = int(v)` -/
def normalise : Value → Value
  | .fraction q => .ofRational q
  | v => v

/-- The loop of `+` and `*`, normalised at its end only. -/
def evalFold (f : Value → Value → Option Value) (res : List Value) : List ℕ → Option Value
  | [] => none
  | i :: is => do
    let v ← is.foldlM (fun v j => do f v (← res[j]?)) (← res[i]?)
    return normalise v

def evalBinary (f : Value → Value → Option Value) (res : List Value) (operands : List ℕ) :
    Option Value := do
  f (← res[← operands[0]?]?) (← res[← operands[1]?]?)

def evalOperator (kind : OperatorKind) (operands : List ℕ) (res : List Value) : Option Value :=
  match kind with
  | .and => (allOperands truthy res operands).map .bool
  | .or => (anyOperands truthy res operands).map .bool
  | .not => do
    let v ← res[← operands[0]?]?
    return .bool (!truthy v)
  | .eq => evalBinary (fun v w => some (.bool (equal v w))) res operands
  | .le => evalBinary (compareWith fun x y => x ≤ y) res operands
  | .lt => evalBinary (compareWith fun x y => x < y) res operands
  | .plus => evalFold (arithmetic (· + ·) (· + ·)) res operands
  | .minus => (evalBinary (arithmetic (· - ·) (· - ·)) res operands).map normalise
  | .times => evalFold (arithmetic (· * ·) (· * ·)) res operands
  | .div => (evalBinary divide res operands).map normalise

variable [RawCallables]

def evalNode (state res : List Value) : ExpressionNode → Option Value
  | .constant c => some (.ofConstant c)
  | .fluent f => state[f.idx]?
  | .interpretedFunction fn rt operands => do
    let r ← RawCallables.function fn (← operands.mapM (res[·]?))
    coerceResult r rt
  | .operator kind operands => evalOperator kind operands res

/-- `evaluate` -/
def evaluate (exp : Expression) (state : List Value) : Option Value :=
  evaluateNodes (evalNode state) exp

/-- `==` on lists of values -/
def equalAssignments : List Value → List Value → Bool
  | [], [] => true
  | v :: vs, w :: ws => equal v w && equalAssignments vs ws
  | _, _ => false

end PythonCore

/-! ### The Rust core -/

namespace RustCore

def asNumRef : Value → Option Number
  | .int z => some (.int z)
  | .fraction q => some (.fraction q)
  | _ => none

def numIsZero : Number → Bool
  | .int z => z = 0
  | .fraction q => q = 0

/-- A mixed comparison multiplies by the denominator. -/
def numCmp : Number → Number → Ordering
  | .int a, .int b => compare a b
  | .fraction a, .fraction b => compare a b
  | .int a, .fraction b => compare (a * b.den) b.num
  | .fraction a, .int b => compare a.num (b * a.den)

/-- `Acc::combine`, promoting the accumulator at the first rational. -/
def combine (onInt : ℤ → ℤ → ℤ) (onFraction : ℚ → ℚ → ℚ) : Number → Number → Number
  | .int a, .int b => .int (onInt a b)
  | .int a, .fraction b => .fraction (onFraction a b)
  | .fraction a, .int b => .fraction (onFraction a b)
  | .fraction a, .fraction b => .fraction (onFraction a b)

/-- `Acc::into_node` -/
def intoNode : Number → Value
  | .int z => .int z
  | .fraction q => .ofRational q

def foldNumeric (onInt : ℤ → ℤ → ℤ) (onFraction : ℚ → ℚ → ℚ) (res : List Value) :
    List ℕ → Option Value
  | [] => none
  | i :: is => do
    let acc ← asNumRef (← res[i]?)
    let acc ← is.foldlM (fun acc p => do
      return combine onInt onFraction acc (← asNumRef (← res[p]?))) acc
    return intoNode acc

def numDiv (a b : Number) : Option Value :=
  if numIsZero b then none else
    match a, b with
    | .int a, .int b => some (.ofRational (a / b))
    | .int a, .fraction b => some (.ofRational (a / b))
    | .fraction a, .int b => some (.ofRational (a / b))
    | .fraction a, .fraction b => some (.ofRational (a / b))

/-- Structural equality, or equality as numbers. -/
def equals (v w : Value) : Bool :=
  v = w ||
    match asNumRef v, asNumRef w with
    | some x, some y => (numCmp x y).isEq
    | _, _ => false

def numBinary (f : Number → Number → Option Value) (res : List Value) (operands : List ℕ) :
    Option Value := do
  f (← asNumRef (← res[← operands[0]?]?)) (← asNumRef (← res[← operands[1]?]?))

def evalOperator (kind : OperatorKind) (operands : List ℕ) (res : List Value) : Option Value :=
  match kind with
  | .and => (allOperands (· = .bool true) res operands).map .bool
  | .or => (anyOperands (· = .bool true) res operands).map .bool
  | .not => do
    let v ← res[← operands[0]?]?
    return .bool (v = .bool false)
  | .eq => do
    let v ← res[← operands[0]?]?
    let w ← res[← operands[1]?]?
    return .bool (equals v w)
  | .le => numBinary (fun a b => some (.bool (numCmp a b).isLE)) res operands
  | .lt => numBinary (fun a b => some (.bool (numCmp a b).isLT)) res operands
  | .plus => foldNumeric (· + ·) (· + ·) res operands
  | .minus => do foldNumeric (· - ·) (· - ·) res [← operands[0]?, ← operands[1]?]
  | .times => foldNumeric (· * ·) (· * ·) res operands
  | .div => numBinary numDiv res operands

variable [RawCallables]

/-- `call_interpreted_function` returns what its cache holds, the result of the same call. -/
def evalNode (state res : List Value) : ExpressionNode → Option Value
  | .constant c => some (.ofConstant c)
  | .fluent f => state[f.idx]?
  | .interpretedFunction fn rt operands => do
    let r ← RawCallables.function fn (← operands.mapM (res[·]?))
    coerceResult r rt
  | .operator kind operands => evalOperator kind operands res

/-- `internal_evaluate`; `none` where it reports an error or panics. -/
def evaluate (exp : Expression) (state : List Value) : Option Value :=
  evaluateNodes (evalNode state) exp

end RustCore

/-! ### Types -/

def IfReturnType.type : IfReturnType → ValueType
  | .bool => .bool
  | .int => .number
  | .real => .number
  | .object => .object

def operatorType : OperatorKind → List ValueType → Option ValueType
  | .and, ts => if ts.all (· = .bool) then some .bool else none
  | .or, ts => if ts.all (· = .bool) then some .bool else none
  | .not, [.bool] => some .bool
  | .eq, [t, t'] => if t = t' then some .bool else none
  | .le, [.number, .number] => some .bool
  | .lt, [.number, .number] => some .bool
  | .minus, [.number, .number] => some .number
  | .div, [.number, .number] => some .number
  | .plus, t :: ts => if (t :: ts).all (· = .number) then some .number else none
  | .times, t :: ts => if (t :: ts).all (· = .number) then some .number else none
  | _, _ => none

/-- The type of a node, given those of the fluents and of the nodes before it. -/
def nodeType (fluents ts : List ValueType) : ExpressionNode → Option ValueType
  | .constant c => some c.type
  | .fluent f => fluents[f.idx]?
  | .interpretedFunction _ rt operands => do
    let _ ← operands.mapM (ts[·]?)
    return rt.type
  | .operator kind operands => do operatorType kind (← operands.mapM (ts[·]?))

def typeOf (fluents : List ValueType) (exp : Expression) : Option ValueType := do
  (← exp.foldlM (fun ts e => (nodeType fluents ts e).map fun t => ts ++ [t]) []).getLast?

/-- Canonical values of the given types. -/
structure Typed (ts : List ValueType) (vs : List Value) : Prop where
  canonical : ∀ v ∈ vs, v.Canonical
  types : vs.map Value.type = ts

theorem Typed.append {ts : List ValueType} {vs : List Value} {t : ValueType} {v : Value}
    (h : Typed ts vs) (hc : v.Canonical) (ht : v.type = t) : Typed (ts ++ [t]) (vs ++ [v]) := by
  refine ⟨fun w hw => ?_, by simp [h.types, ht]⟩
  rcases List.mem_append.mp hw with hw | hw
  · exact h.canonical w hw
  · obtain rfl := List.mem_singleton.mp hw
    exact hc

end TamerLite
