import Mathlib.Data.String.Basic
import TamerLite.Expression

/-! The expressions of a planning problem, as trees, and their values. -/

namespace TamerLite

structure UPFluent where
  name : String
  isBool : Bool
deriving DecidableEq, Repr

structure UPObject where
  name : String
  type : String
deriving DecidableEq, Repr

/-- The type of a node, with its payload. -/
inductive NodeKind
  | and | or | not | implies | iff
  | quantifier (universal : Bool) (names : List String)
  | fluentExp (fluent : UPFluent)
  | paramExp (name : String)
  | variableExp (name : String)
  | objectExp (object : UPObject)
  | boolConstant (b : Bool)
  | intConstant (z : ℤ)
  | realConstant (q : ℚ)
  | plus | minus | times | div | le | lt | equals
  | interpretedFunctionExp (function : ℕ) (returnType : IfReturnType)
deriving DecidableEq, Repr

inductive FNode
  | node (kind : NodeKind) (args : List FNode)

namespace FNode

mutual

def decEq : (e e' : FNode) → Decidable (e = e')
  | node kind args, node kind' args' =>
    match decEq' args args' with
    | isTrue ha =>
      if hk : kind = kind' then isTrue (by rw [hk, ha]) else isFalse (by simp [hk])
    | isFalse ha => isFalse (by simp [ha])

def decEq' : (es es' : List FNode) → Decidable (es = es')
  | [], [] => isTrue rfl
  | [], _ :: _ => isFalse (by simp)
  | _ :: _, [] => isFalse (by simp)
  | e :: es, e' :: es' =>
    match decEq e e', decEq' es es' with
    | isTrue he, isTrue hs => isTrue (by rw [he, hs])
    | isFalse he, _ => isFalse (by simp [he])
    | _, isFalse hs => isFalse (by simp [hs])

end

instance : DecidableEq FNode := decEq

def kind : FNode → NodeKind
  | node kind _ => kind

def args : FNode → List FNode
  | node _ args => args

/-- A conjunction, with no node for a single conjunct. -/
def conj : List FNode → FNode
  | [] => node (.boolConstant true) []
  | [e] => e
  | es => node .and es

/-- A sum, with no node for a single summand. -/
def sum : List FNode → FNode
  | [] => node (.intConstant 0) []
  | [e] => e
  | es => node .plus es

mutual

/-- `extract_and_arguments` of one expression. The source yields the arguments
in another order, and collects them in sets. -/
def andArguments : FNode → List FNode
  | node kind args => if kind = .and then extractAndArguments args else [node kind args]

def extractAndArguments : List FNode → List FNode
  | [] => []
  | e :: es => andArguments e ++ extractAndArguments es

end

mutual

def extractFluents : FNode → List UPFluent
  | node kind args =>
    match kind with
    | .fluentExp f => [f]
    | _ => extractFluents' args

def extractFluents' : List FNode → List UPFluent
  | [] => []
  | e :: es => extractFluents e ++ extractFluents' es

end

theorem mem_extractAndArguments {es : List FNode} {c : FNode} :
    c ∈ extractAndArguments es ↔ ∃ e ∈ es, c ∈ andArguments e := by
  induction es with
  | nil => simp [extractAndArguments]
  | cons e es ih => simp [extractAndArguments, ih]

end FNode

def foldNum (f : ℚ → ℚ → ℚ) : List ConstantNode → Option ℚ
  | [] => none
  | v :: vs => do
    let x ← v.toNum
    vs.foldlM (fun x w => w.toNum.map (f x)) x

/-- What an operator makes of the values of its operands. -/
def applyOperator : OperatorKind → List ConstantNode → Option ConstantNode
  | .and, vs => some (.bool (vs.all ConstantNode.truthy))
  | .or, vs => some (.bool (vs.any ConstantNode.truthy))
  | .not, v :: _ => some (.bool (!v.truthy))
  | .eq, v :: w :: _ => some (.bool (v.eqv w))
  | .le, v :: w :: _ => do return .bool ((← v.toNum) ≤ (← w.toNum))
  | .lt, v :: w :: _ => do return .bool ((← v.toNum) < (← w.toNum))
  | .plus, vs => (foldNum (· + ·) vs).map .num
  | .minus, v :: w :: _ => do return .num ((← v.toNum) - (← w.toNum))
  | .times, vs => (foldNum (· * ·) vs).map .num
  | .div, v :: w :: _ => do
    let x ← v.toNum
    let y ← w.toNum
    if y = 0 then none else return .num (x / y)
  | _, _ => none

/-- What the fluents and the objects of an expression stand for. -/
structure Interpretation where
  fluent : FNode → Option ConstantNode
  object : UPObject → Option Object

section Value

variable [Callables] (i : Interpretation)

/-- The value of a node whose arguments have the values `vs`. A connective of
one argument is that argument. -/
def nodeValue : NodeKind → List ConstantNode → Option ConstantNode
  | .and, [v] => some v
  | .and, vs => applyOperator .and vs
  | .or, [v] => some v
  | .or, vs => applyOperator .or vs
  | .not, vs => applyOperator .not vs
  | .plus, vs => applyOperator .plus vs
  | .minus, vs => applyOperator .minus vs
  | .times, vs => applyOperator .times vs
  | .div, vs => applyOperator .div vs
  | .le, vs => applyOperator .le vs
  | .lt, vs => applyOperator .lt vs
  | .equals, vs => applyOperator .eq vs
  | .objectExp o, _ => (i.object o).map .object
  | .boolConstant b, _ => some (.bool b)
  | .intConstant z, _ => some (.num z)
  | .realConstant q, _ => some (.num q)
  | .interpretedFunctionExp fn rt, vs => (Callables.function fn vs).bind (ConstantNode.coerce rt)
  | _, _ => none

mutual

/-- The value of a ground expression without quantifiers. -/
def FNode.value : FNode → Option ConstantNode
  | .node kind args =>
    match kind with
    | .fluentExp f => i.fluent (.node (.fluentExp f) args)
    | kind => (FNode.values args).bind (nodeValue i kind)

def FNode.values : List FNode → Option (List ConstantNode)
  | [] => some []
  | e :: es => do
    let v ← FNode.value e
    let vs ← FNode.values es
    return v :: vs

end

/-- Whether a condition is true. -/
def FNode.truth (e : FNode) : Bool := (e.value i).any ConstantNode.truthy

theorem FNode.any_values (es : List FNode) :
    (FNode.values i es).any (·.all ConstantNode.truthy) = es.all (FNode.truth i) := by
  induction es with
  | nil => rfl
  | cons e es ih =>
    rw [List.all_cons, ← ih, FNode.values, FNode.truth]
    cases FNode.value i e with
    | none => rfl
    | some v => cases FNode.values i es <;> simp

theorem FNode.truth_and (es : List FNode) :
    (FNode.node .and es).truth i = es.all (FNode.truth i) := by
  rw [← FNode.any_values, FNode.truth, FNode.value]
  · cases hv : FNode.values i es with
    | none => rfl
    | some vs =>
      match vs with
      | [] => rfl
      | [v] => simp [nodeValue]
      | v :: w :: vs => rfl
  · simp

/-- A conjunction is true when its conjuncts are. -/
theorem FNode.truth_andArguments (e : FNode) :
    (FNode.andArguments e).all (FNode.truth i) = e.truth i := by
  induction e using FNode.rec (motive_2 := fun es =>
    (FNode.extractAndArguments es).all (FNode.truth i) = es.all (FNode.truth i)) with
  | node kind args ih =>
    rw [FNode.andArguments]
    split_ifs with hk
    · rw [hk, FNode.truth_and, ih]
    · simp
  | nil => rfl
  | cons e es ih ihs => rw [FNode.extractAndArguments, List.all_append, ih, ihs, List.all_cons]

theorem FNode.truth_conj (es : List FNode) :
    (FNode.conj es).truth i = (FNode.extractAndArguments es).all (FNode.truth i) := by
  match es with
  | [] => rfl
  | [e] => simp [FNode.conj, FNode.extractAndArguments, FNode.truth_andArguments]
  | e :: e' :: es =>
    rw [FNode.conj, ← FNode.truth_andArguments, FNode.andArguments, if_pos rfl]
    · simp
    · simp

end Value

end TamerLite
