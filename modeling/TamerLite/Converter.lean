import Mathlib.Data.List.Induction
import TamerLite.FNode

/-! The converter from expression trees to postfix expressions, and that it
keeps their values. -/

namespace TamerLite

/-- The loop that lays out the arguments of a node one after another; also
the positions of their roots. -/
def joinArgs : List Expression → Expression × List ℕ
  | [] => ([], [])
  | arg :: args => args.foldl (fun p x =>
      (p.1 ++ shiftExpression x p.1.length, p.2 ++ [p.1.length + x.length - 1]))
      (arg, [arg.length - 1])

/-- What the source's converter looks names up in. -/
structure Converter where
  fluentIds : FNode → Option Fluent
  objectIds : UPObject → Option Object
  staticFluents : List UPFluent

namespace Converter

def walkNary (kind : OperatorKind) (args : List Expression) : Expression :=
  (joinArgs args).1 ++ [.operator kind (joinArgs args).2]

def walkBinary (kind : OperatorKind) (x y : Expression) : Expression :=
  x ++ shiftExpression y x.length ++ [.operator kind [x.length - 1, x.length + y.length - 1]]

def walkAnd : List Expression → Expression
  | [] => [.constant (.bool true)]
  | [x] => x
  | xs => walkNary .and xs

def walkOr : List Expression → Expression
  | [] => [.constant (.bool false)]
  | [x] => x
  | xs => walkNary .or xs

variable (C : Converter)

def isFluentExp : FNode → Bool
  | .node (.fluentExp _) _ => true
  | _ => false

def isStaticFluentExp : FNode → Bool
  | .node (.fluentExp f) _ => f ∈ C.staticFluents
  | _ => false

/-- The fluent of an equality goes first. -/
def walkEquals (e e' : FNode) (x y : Expression) : Expression :=
  if (!isFluentExp e || C.isStaticFluentExp e) && isFluentExp e' then walkBinary .eq y x
  else walkBinary .eq x y

/-- The method for a node, on the conversions of its arguments; `none` where
it raises. -/
def walk (args : List FNode) (kind : NodeKind) (xs : List Expression) : Option Expression :=
  match kind, args, xs with
  | .and, _, xs => some (walkAnd xs)
  | .or, _, xs => some (walkOr xs)
  | .not, _, [x] => some (x ++ [.operator .not [x.length - 1]])
  | .plus, _, xs => if 2 ≤ xs.length then some (walkNary .plus xs) else none
  | .minus, _, [x, y] => some (walkBinary .minus x y)
  | .times, _, xs => if 2 ≤ xs.length then some (walkNary .times xs) else none
  | .div, _, [x, y] => some (walkBinary .div x y)
  | .le, _, [x, y] => some (walkBinary .le x y)
  | .lt, _, [x, y] => some (walkBinary .lt x y)
  | .equals, [e, e'], [x, y] => some (C.walkEquals e e' x y)
  | .fluentExp f, args, _ => (C.fluentIds (.node (.fluentExp f) args)).map fun g => [.fluent g]
  | .objectExp o, _, [] => (C.objectIds o).map fun p => [.constant (.object p)]
  | .boolConstant b, _, [] => some [.constant (.bool b)]
  | .intConstant z, _, [] => some [.constant (.num z)]
  | .realConstant q, _, [] => some [.constant (.num q)]
  | .interpretedFunctionExp fn rt, _, xs =>
    some ((joinArgs xs).1 ++ [.interpretedFunction fn rt (joinArgs xs).2])
  | _, _, _ => none

mutual

def convert : FNode → Option Expression
  | .node kind args => (convertArgs args).bind (C.walk args kind)

def convertArgs : List FNode → Option (List Expression)
  | [] => some []
  | e :: es => do
    let x ← convert e
    let xs ← convertArgs es
    return x :: xs

end

/-- What an expression means in a state of the encoding. -/
def interpretation (assignments : Assignments) : Interpretation where
  fluent := fun e => (C.fluentIds e).bind (getValue assignments)
  object := C.objectIds

end Converter

/-! ### Evaluating laid-out arguments -/

section Evaluation

variable {get : Fluent → Option ConstantNode}

theorem toNat_add (o n : ℕ) : ((o : ℤ) + (n : ℤ)).toNat = o + n := by omega

theorem getElem?_shift (res r : List ConstantNode) (i : ℕ) :
    (res ++ r)[i + res.length]? = r[i]? := by
  rw [List.getElem?_append_right (by omega)]
  congr 1
  omega

theorem mapM_shift (res r : List ConstantNode) (operands : List ℕ) :
    (operands.map (· + res.length)).mapM ((res ++ r)[·]?) = operands.mapM (r[·]?) := by
  induction operands with
  | nil => rfl
  | cons i operands ih => simp only [List.map_cons, List.mapM_cons, getElem?_shift, ih]

theorem evalAnd_shift (res r : List ConstantNode) (operands : List ℕ) :
    evalAnd (res ++ r) (operands.map (· + res.length)) = evalAnd r operands := by
  induction operands with
  | nil => rfl
  | cons i operands ih => simp only [List.map_cons, evalAnd, getElem?_shift, ih]

theorem evalOr_shift (res r : List ConstantNode) (operands : List ℕ) :
    evalOr (res ++ r) (operands.map (· + res.length)) = evalOr r operands := by
  induction operands with
  | nil => rfl
  | cons i operands ih => simp only [List.map_cons, evalOr, getElem?_shift, ih]

theorem operandNum_shift (res r : List ConstantNode) (i : ℕ) :
    operandNum (res ++ r) (i + res.length) = operandNum r i := by
  simp only [operandNum, getElem?_shift]

theorem operandNums_shift (res r : List ConstantNode) (operands : List ℕ) :
    operandNums (res ++ r) (operands.map (· + res.length)) = operandNums r operands := by
  simp only [operandNums, List.getElem?_map]
  cases operands[0]? <;> cases operands[1]? <;> simp [operandNum_shift]

theorem evalFold_shift (f : ℚ → ℚ → ℚ) (res r : List ConstantNode) (operands : List ℕ) :
    evalFold f (res ++ r) (operands.map (· + res.length)) = evalFold f r operands := by
  cases operands with
  | nil => rfl
  | cons i operands =>
    simp only [List.map_cons, evalFold, operandNum_shift, List.foldlM_map]

section

variable [Callables]

theorem evalNodes_nil (res : List ConstantNode) : evalNodes get [] res = some res := rfl

theorem evalNodes_cons (e : ExpressionNode) (x : Expression) (res : List ConstantNode) :
    evalNodes get (e :: x) res =
      (evalNode get res e).bind fun v => evalNodes get x (res ++ [v]) := by
  simp only [evalNodes, List.foldlM_cons, Option.bind_eq_bind]
  cases evalNode get res e with
  | none => rfl
  | some v => rfl

theorem evalNodes_append (x y : Expression) (res : List ConstantNode) :
    evalNodes get (x ++ y) res = (evalNodes get x res).bind (evalNodes get y) := by
  rw [evalNodes, List.foldlM_append]
  rfl

theorem evalNodes_length {x : Expression} {res r : List ConstantNode}
    (h : evalNodes get x res = some r) : r.length = res.length + x.length := by
  induction x generalizing res with
  | nil =>
    obtain rfl := Option.some.inj h
    rfl
  | cons e x ih =>
    rw [evalNodes_cons] at h
    obtain ⟨v, -, h⟩ := Option.bind_eq_some_iff.mp h
    have := ih h
    simp only [List.length_append, List.length_cons, List.length_nil] at this ⊢
    omega

/-- A shifted node reads behind `res` what the node itself reads. -/
theorem evalNode_shift (res r : List ConstantNode) (e : ExpressionNode) :
    evalNode get (res ++ r) (shiftNode res.length e) = evalNode get r e := by
  cases e with
  | constant v => rfl
  | fluent f => rfl
  | interpretedFunction fn rt operands => simp only [shiftNode, evalNode, toNat_add, mapM_shift]
  | operator kind operands =>
    cases kind with
    | and => simp only [shiftNode, evalNode, evalOperator, toNat_add, evalAnd_shift]
    | or => simp only [shiftNode, evalNode, evalOperator, toNat_add, evalOr_shift]
    | not =>
      simp only [shiftNode, evalNode, evalOperator, toNat_add, List.getElem?_map]
      cases operands[0]? <;> simp [getElem?_shift]
    | eq =>
      simp only [shiftNode, evalNode, evalOperator, toNat_add, List.getElem?_map]
      cases operands[0]? <;> cases operands[1]? <;> simp [getElem?_shift]
    | le => simp only [shiftNode, evalNode, evalOperator, toNat_add, operandNums_shift]
    | lt => simp only [shiftNode, evalNode, evalOperator, toNat_add, operandNums_shift]
    | plus => simp only [shiftNode, evalNode, evalOperator, toNat_add, evalFold_shift]
    | minus => simp only [shiftNode, evalNode, evalOperator, toNat_add, operandNums_shift]
    | times => simp only [shiftNode, evalNode, evalOperator, toNat_add, evalFold_shift]
    | div => simp only [shiftNode, evalNode, evalOperator, toNat_add, operandNums_shift]

theorem evalNodes_shift (x : Expression) (res r : List ConstantNode) :
    evalNodes get (shiftExpression x res.length) (res ++ r) =
      (evalNodes get x r).map (res ++ ·) := by
  induction x generalizing r with
  | nil => rfl
  | cons e x ih =>
    rw [shiftExpression, List.map_cons, evalNodes_cons, evalNodes_cons, evalNode_shift]
    cases evalNode get r e with
    | none => rfl
    | some v =>
      rw [Option.bind_some, Option.bind_some, List.append_assoc]
      exact ih (r ++ [v])

end

/-! ### Nodes on top of laid-out arguments -/

theorem shiftExpression_zero (x : Expression) : shiftExpression x (0 : ℕ) = x := by
  rw [shiftExpression]
  conv_rhs => rw [← List.map_id x]
  refine List.map_congr_left fun e _ => ?_
  cases e <;> simp [shiftNode]

theorem joinArgs_concat (xs : List Expression) (x : Expression) : joinArgs (xs ++ [x]) =
    ((joinArgs xs).1 ++ shiftExpression x (joinArgs xs).1.length,
      (joinArgs xs).2 ++ [(joinArgs xs).1.length + x.length - 1]) := by
  cases xs with
  | nil =>
    simp only [joinArgs, List.nil_append, List.foldl_nil, List.length_nil, Nat.zero_add,
      shiftExpression_zero]
  | cons y ys => simp [joinArgs, List.foldl_append]

theorem joinArgs_lt {xs : List Expression} (hne : ∀ x ∈ xs, x ≠ []) :
    ∀ i ∈ (joinArgs xs).2, i < (joinArgs xs).1.length := by
  induction xs using List.reverseRecOn with
  | nil => simp [joinArgs]
  | append_singleton xs x ih =>
    have hx := List.length_pos_iff.mpr (hne x (by simp))
    intro i hi
    rw [joinArgs_concat] at hi ⊢
    simp only [List.length_append, shiftExpression, List.length_map]
    rcases List.mem_append.mp hi with hi | hi
    · have := ih (fun y hy => hne y (List.mem_append_left _ hy)) i hi
      omega
    · obtain rfl := List.mem_singleton.mp hi
      omega

theorem mapM_isSome {res : List ConstantNode} {operands : List ℕ}
    (h : ∀ i ∈ operands, i < res.length) : ∃ vs, operands.mapM (res[·]?) = some vs := by
  induction operands with
  | nil => exact ⟨[], rfl⟩
  | cons i operands ih =>
    obtain ⟨vs, hvs⟩ := ih fun j hj => h j (List.mem_cons_of_mem _ hj)
    have hi := List.getElem?_eq_getElem (h i List.mem_cons_self)
    exact ⟨_, by rw [List.mapM_cons, hi, hvs]; rfl⟩

theorem mapM_append_left {res r : List ConstantNode} {operands : List ℕ}
    (h : ∀ i ∈ operands, i < res.length) :
    operands.mapM ((res ++ r)[·]?) = operands.mapM (res[·]?) := by
  induction operands with
  | nil => rfl
  | cons i operands ih =>
    have hi : (res ++ r)[i]? = res[i]? := List.getElem?_append_left (h i List.mem_cons_self)
    rw [List.mapM_cons, List.mapM_cons, hi, ih fun j hj => h j (List.mem_cons_of_mem _ hj)]

theorem evalFold_of_values {f : ℚ → ℚ → ℚ} {res vs : List ConstantNode} {operands : List ℕ}
    (h : operands.mapM (res[·]?) = some vs) : evalFold f res operands = foldNum f vs := by
  have hfold : ∀ {operands : List ℕ} {vs : List ConstantNode} (x : ℚ),
      operands.mapM (res[·]?) = some vs →
      operands.foldlM (fun v j => (operandNum res j).map (f v)) x =
        vs.foldlM (fun x w => w.toNum.map (f x)) x := by
    intro operands
    induction operands with
    | nil =>
      intro vs x h
      obtain rfl := Option.some.inj h
      rfl
    | cons i operands ih =>
      intro vs x h
      simp only [List.mapM_cons, Option.bind_eq_bind, Option.bind_eq_some_iff] at h
      obtain ⟨v, hv, vs', hvs, h⟩ := h
      obtain rfl := Option.some.inj h
      simp only [List.foldlM_cons, operandNum, hv, Option.bind_eq_bind, Option.bind_some]
      cases v.toNum with
      | none => rfl
      | some y => exact ih _ hvs
  cases operands with
  | nil =>
    obtain rfl := Option.some.inj h
    rfl
  | cons i operands =>
    simp only [List.mapM_cons, Option.bind_eq_bind, Option.bind_eq_some_iff] at h
    obtain ⟨v, hv, vs', hvs, h⟩ := h
    obtain rfl := Option.some.inj h
    simp only [evalFold, foldNum, operandNum, hv, Option.bind_eq_bind, Option.bind_some]
    cases v.toNum with
    | none => rfl
    | some y => exact hfold _ hvs

theorem evalAnd_of_values {res vs : List ConstantNode} {operands : List ℕ}
    (h : operands.mapM (res[·]?) = some vs) :
    evalAnd res operands = some (vs.all ConstantNode.truthy) := by
  induction operands generalizing vs with
  | nil =>
    obtain rfl := Option.some.inj h
    rfl
  | cons i operands ih =>
    simp only [List.mapM_cons, Option.bind_eq_bind, Option.bind_eq_some_iff] at h
    obtain ⟨v, hv, vs', hvs, h⟩ := h
    obtain rfl := Option.some.inj h
    simp only [evalAnd, hv, Option.bind_eq_bind, Option.bind_some, ih hvs, List.all_cons]
    cases v.truthy <;> rfl

theorem evalOr_of_values {res vs : List ConstantNode} {operands : List ℕ}
    (h : operands.mapM (res[·]?) = some vs) :
    evalOr res operands = some (vs.any ConstantNode.truthy) := by
  induction operands generalizing vs with
  | nil =>
    obtain rfl := Option.some.inj h
    rfl
  | cons i operands ih =>
    simp only [List.mapM_cons, Option.bind_eq_bind, Option.bind_eq_some_iff] at h
    obtain ⟨v, hv, vs', hvs, h⟩ := h
    obtain rfl := Option.some.inj h
    simp only [evalOr, hv, Option.bind_eq_bind, Option.bind_some, ih hvs, List.any_cons]
    cases v.truthy <;> rfl

theorem getElem?_of_values {res vs : List ConstantNode} {operands : List ℕ} (k : ℕ)
    (h : operands.mapM (res[·]?) = some vs) : operands[k]?.bind (res[·]?) = vs[k]? := by
  induction operands generalizing vs k with
  | nil =>
    obtain rfl := Option.some.inj h
    rfl
  | cons i operands ih =>
    simp only [List.mapM_cons, Option.bind_eq_bind, Option.bind_eq_some_iff] at h
    obtain ⟨v, hv, vs', hvs, h⟩ := h
    obtain rfl := Option.some.inj h
    cases k with
    | zero => simpa using hv
    | succ k => simpa using ih k hvs

theorem operandNums_of_values {res vs : List ConstantNode} {operands : List ℕ}
    (h : operands.mapM (res[·]?) = some vs) : operandNums res operands =
      (vs[0]?.bind ConstantNode.toNum).bind fun x =>
        (vs[1]?.bind ConstantNode.toNum).map fun y => (x, y) := by
  rw [← getElem?_of_values 0 h, ← getElem?_of_values 1 h]
  simp only [operandNums, operandNum, Option.bind_eq_bind, Option.bind_assoc, Option.map_eq_bind]
  rfl

/-- An operator applied to positions is applied to the values there. -/
theorem evalOperator_of_values {kind : OperatorKind} {res vs : List ConstantNode}
    {operands : List ℕ} (h : operands.mapM (res[·]?) = some vs) :
    evalOperator kind operands res = applyOperator kind vs := by
  have h0 := getElem?_of_values 0 h
  have h1 := getElem?_of_values 1 h
  have hnums := operandNums_of_values h
  cases kind with
  | and => simp only [evalOperator, applyOperator, evalAnd_of_values h, Option.map_some]
  | or => simp only [evalOperator, applyOperator, evalOr_of_values h, Option.map_some]
  | plus => simp only [evalOperator, applyOperator, evalFold_of_values h]
  | times => simp only [evalOperator, applyOperator, evalFold_of_values h]
  | not =>
    simp only [evalOperator, Option.bind_eq_bind, ← Option.bind_assoc, h0]
    cases vs <;> rfl
  | eq =>
    have heq : evalOperator .eq operands res =
        (operands[0]?.bind (res[·]?)).bind fun v =>
          (operands[1]?.bind (res[·]?)).map fun w => .bool (v.eqv w) := by
      simp only [evalOperator, Option.bind_eq_bind, Option.bind_assoc, Option.map_eq_bind]
      rfl
    rw [heq, h0, h1]
    match vs with
    | [] => rfl
    | [v] => rfl
    | v :: w :: vs => rfl
  | le =>
    simp only [evalOperator, hnums]
    match vs with
    | [] => rfl
    | [v] => cases hv : v.toNum <;> simp [applyOperator]
    | v :: w :: vs => cases hv : v.toNum <;> cases hw : w.toNum <;> simp [applyOperator, hv, hw]
  | lt =>
    simp only [evalOperator, hnums]
    match vs with
    | [] => rfl
    | [v] => cases hv : v.toNum <;> simp [applyOperator]
    | v :: w :: vs => cases hv : v.toNum <;> cases hw : w.toNum <;> simp [applyOperator, hv, hw]
  | minus =>
    simp only [evalOperator, hnums]
    match vs with
    | [] => rfl
    | [v] => cases hv : v.toNum <;> simp [applyOperator]
    | v :: w :: vs => cases hv : v.toNum <;> cases hw : w.toNum <;> simp [applyOperator, hv, hw]
  | div =>
    simp only [evalOperator, hnums]
    match vs with
    | [] => rfl
    | [v] => cases hv : v.toNum <;> simp [applyOperator]
    | v :: w :: vs => cases hv : v.toNum <;> cases hw : w.toNum <;> simp [applyOperator, hv, hw]

theorem eqv_comm (v w : ConstantNode) : v.eqv w = w.eqv v := by
  cases v <;> cases w <;> simp [ConstantNode.eqv, eq_comm]

variable [Callables]

/-- The roots of laid-out arguments have the values of the arguments. -/
theorem joinArgs_values {xs : List Expression} (hne : ∀ x ∈ xs, x ≠ []) (a : Assignments) :
    ((evalNodes (getValue a) (joinArgs xs).1 []).bind fun res =>
      (joinArgs xs).2.mapM (res[·]?)) = xs.mapM (evaluate · a) := by
  induction xs using List.reverseRecOn with
  | nil => rfl
  | append_singleton xs x ih =>
    have hxs : ∀ y ∈ xs, y ≠ [] := fun y hy => hne y (List.mem_append_left _ hy)
    have hx := List.length_pos_iff.mpr (hne x (by simp))
    rw [List.mapM_append, ← ih hxs, joinArgs_concat, evalNodes_append]
    cases hj : evalNodes (getValue a) (joinArgs xs).1 [] with
    | none => rfl
    | some res =>
      have hlen : res.length = (joinArgs xs).1.length := by simpa using evalNodes_length hj
      have hshift : evalNodes (getValue a) (shiftExpression x res.length) (res ++ []) =
          (evalNodes (getValue a) x []).map (res ++ ·) := evalNodes_shift x res []
      rw [List.append_nil, hlen] at hshift
      simp only [Option.bind_some, hshift, List.mapM_cons, List.mapM_nil, evaluate,
        Option.bind_eq_bind]
      obtain ⟨vs, hvs⟩ := mapM_isSome fun i hi => hlen ▸ joinArgs_lt hxs i hi
      cases hr : evalNodes (getValue a) x [] with
      | none => simp [hvs]
      | some r =>
        have hrlen : r.length = x.length := by simpa using evalNodes_length hr
        have hlast : (res ++ r)[(joinArgs xs).1.length + x.length - 1]? = r.getLast? := by
          rw [List.getElem?_append_right (by omega), List.getLast?_eq_getElem?]
          congr 1
          omega
        simp only [Option.map_some, Option.bind_some, List.mapM_append, List.mapM_cons,
          List.mapM_nil, hlast, Option.bind_eq_bind,
          mapM_append_left fun i hi => hlen ▸ joinArgs_lt hxs i hi]

theorem evaluate_concat (x : Expression) (e : ExpressionNode) (a : Assignments) :
    evaluate (x ++ [e]) a =
      (evalNodes (getValue a) x []).bind fun res => evalNode (getValue a) res e := by
  rw [evaluate, evalNodes_append]
  cases evalNodes (getValue a) x [] with
  | none => rfl
  | some res =>
    simp only [Option.bind_some, evalNodes_cons, evalNodes_nil, Option.bind_eq_bind]
    cases evalNode (getValue a) res e <;> simp

theorem evaluate_walkNary {kind : OperatorKind} {xs : List Expression} (hne : ∀ x ∈ xs, x ≠ [])
    (a : Assignments) : evaluate (Converter.walkNary kind xs) a =
      (xs.mapM (evaluate · a)).bind (applyOperator kind) := by
  rw [Converter.walkNary, evaluate_concat, ← joinArgs_values hne, Option.bind_assoc]
  cases hj : evalNodes (getValue a) (joinArgs xs).1 [] with
  | none => rfl
  | some res =>
    have hlen : res.length = (joinArgs xs).1.length := by simpa using evalNodes_length hj
    obtain ⟨vs, hvs⟩ := mapM_isSome fun i hi => hlen ▸ joinArgs_lt hne i hi
    rw [Option.bind_some, Option.bind_some, hvs, Option.bind_some]
    exact evalOperator_of_values hvs

theorem evaluate_interpretedFunction {fn : ℕ} {rt : IfReturnType} {xs : List Expression}
    (hne : ∀ x ∈ xs, x ≠ []) (a : Assignments) :
    evaluate ((joinArgs xs).1 ++ [.interpretedFunction fn rt (joinArgs xs).2]) a =
      (xs.mapM (evaluate · a)).bind fun vs =>
        (Callables.function fn vs).bind (ConstantNode.coerce rt) := by
  rw [evaluate_concat, ← joinArgs_values hne, Option.bind_assoc]
  rfl

theorem evaluate_walkBinary {kind : OperatorKind} {x y : Expression} (hx : x ≠ []) (hy : y ≠ [])
    (a : Assignments) : evaluate (Converter.walkBinary kind x y) a =
      ([x, y].mapM (evaluate · a)).bind (applyOperator kind) := by
  have hne : ∀ z ∈ [x, y], z ≠ [] := fun z hz => by
    rcases List.mem_cons.mp hz with rfl | hz
    · exact hx
    · rwa [List.mem_singleton.mp hz]
  exact evaluate_walkNary hne a

end Evaluation

/-! ### The converter -/

namespace Converter

variable (C : Converter) (a : Assignments)

theorem walkBinary_ne_nil {kind : OperatorKind} {x y : Expression} : walkBinary kind x y ≠ [] := by
  simp [walkBinary]

theorem walk_not_args {args : List FNode} {xs : List Expression} {x : Expression}
    (h : C.walk args .not xs = some x) : ∃ y, xs = [y] :=
  match xs, h with
  | [y], _ => ⟨y, rfl⟩

theorem walk_equals_args {args : List FNode} {xs : List Expression} {x : Expression}
    (h : C.walk args .equals xs = some x) : ∃ e e' y z, args = [e, e'] ∧ xs = [y, z] :=
  match args, xs, h with
  | [e, e'], [y, z], _ => ⟨e, e', y, z, rfl, rfl⟩

/-- A binary node raises unless it has two arguments. -/
theorem walk_binary_args {args : List FNode} {kind : NodeKind} {xs : List Expression}
    {x : Expression} (hkind : kind = .minus ∨ kind = .div ∨ kind = .le ∨ kind = .lt)
    (h : C.walk args kind xs = some x) : ∃ y z, xs = [y, z] := by
  rcases xs with - | ⟨y, - | ⟨z, - | ⟨w, xs⟩⟩⟩
  · rcases hkind with rfl | rfl | rfl | rfl <;> cases h
  · rcases hkind with rfl | rfl | rfl | rfl <;> cases h
  · exact ⟨y, z, rfl⟩
  · rcases hkind with rfl | rfl | rfl | rfl <;> cases h

variable [Callables]

theorem evaluate_walkEquals (e e' : FNode) {x y : Expression} (hx : x ≠ []) (hy : y ≠ []) :
    evaluate (C.walkEquals e e' x y) a =
      ([x, y].mapM (evaluate · a)).bind (applyOperator .eq) := by
  rw [walkEquals]
  split_ifs
  · rw [evaluate_walkBinary hy hx]
    simp only [List.mapM_cons, List.mapM_nil, Option.bind_eq_bind]
    cases evaluate x a <;> cases evaluate y a <;> simp [applyOperator, eqv_comm]
  · exact evaluate_walkBinary hx hy a

/-- A node converted from converted arguments has the value the arguments'
values give it. -/
theorem walk_spec {args : List FNode} {kind : NodeKind} {xs : List Expression} {x : Expression}
    (hne : ∀ x ∈ xs, x ≠ []) (h : C.walk args kind xs = some x) (hf : ∀ f, kind ≠ .fluentExp f) :
    x ≠ [] ∧
      evaluate x a = (xs.mapM (evaluate · a)).bind (nodeValue (C.interpretation a) kind) := by
  cases kind with
  | and =>
    obtain rfl := Option.some.inj h
    rcases xs with - | ⟨x, - | ⟨y, xs⟩⟩
    · exact ⟨by simp [walkAnd], rfl⟩
    · refine ⟨hne x (by simp), ?_⟩
      simp only [walkAnd, List.mapM_cons, List.mapM_nil, Option.bind_eq_bind]
      cases evaluate x a <;> rfl
    · refine ⟨by simp [walkAnd, walkNary], (evaluate_walkNary hne a).trans ?_⟩
      simp only [List.mapM_cons, Option.bind_eq_bind, Option.bind_assoc, Option.pure_def,
        Option.bind_some]
      rfl
  | or =>
    obtain rfl := Option.some.inj h
    rcases xs with - | ⟨x, - | ⟨y, xs⟩⟩
    · exact ⟨by simp [walkOr], rfl⟩
    · refine ⟨hne x (by simp), ?_⟩
      simp only [walkOr, List.mapM_cons, List.mapM_nil, Option.bind_eq_bind]
      cases evaluate x a <;> rfl
    · refine ⟨by simp [walkOr, walkNary], (evaluate_walkNary hne a).trans ?_⟩
      simp only [List.mapM_cons, Option.bind_eq_bind, Option.bind_assoc, Option.pure_def,
        Option.bind_some]
      rfl
  | not =>
    obtain ⟨x, rfl⟩ := C.walk_not_args h
    obtain rfl := Option.some.inj h
    exact ⟨by simp, @evaluate_walkNary _ .not _ hne a⟩
  | plus | times =>
    simp only [walk, Option.ite_none_right_eq_some, Option.some.injEq] at h
    obtain ⟨-, rfl⟩ := h
    exact ⟨by simp [walkNary], evaluate_walkNary hne a⟩
  | minus | div | le | lt =>
    obtain ⟨x, y, rfl⟩ := C.walk_binary_args (by simp) h
    obtain rfl := Option.some.inj h
    exact ⟨walkBinary_ne_nil, evaluate_walkBinary (hne x (by simp)) (hne y (by simp)) a⟩
  | equals =>
    obtain ⟨e, e', x, y, rfl, rfl⟩ := C.walk_equals_args h
    obtain rfl := Option.some.inj h
    refine ⟨?_, C.evaluate_walkEquals a e e' (hne x (by simp)) (hne y (by simp))⟩
    unfold walkEquals
    split_ifs
    · exact walkBinary_ne_nil
    · exact walkBinary_ne_nil
  | objectExp o =>
    cases xs with
    | cons y ys => cases h
    | nil =>
      obtain ⟨p, hp, rfl⟩ := Option.map_eq_some_iff.mp h
      refine ⟨by simp, ?_⟩
      simp only [List.mapM_nil, Option.pure_def, Option.bind_some, nodeValue, interpretation, hp]
      rfl
  | boolConstant b =>
    cases xs with
    | cons y ys => cases h
    | nil =>
      obtain rfl := Option.some.inj h
      exact ⟨by simp, rfl⟩
  | intConstant q | realConstant q =>
    cases xs with
    | cons y ys => cases h
    | nil =>
      obtain rfl := Option.some.inj h
      exact ⟨by simp, rfl⟩
  | interpretedFunctionExp fn rt =>
    obtain rfl := Option.some.inj h
    exact ⟨by simp, evaluate_interpretedFunction hne a⟩
  | fluentExp f => exact absurd rfl (hf f)
  | implies => simp [walk] at h
  | iff => simp [walk] at h
  | quantifier => simp [walk] at h
  | paramExp => simp [walk] at h
  | variableExp => simp [walk] at h

/-- Converting keeps the value: what the postfix expression evaluates to is
the value of the tree. -/
theorem convert_spec (e : FNode) : ∀ x, C.convert e = some x →
    x ≠ [] ∧ evaluate x a = e.value (C.interpretation a) := by
  induction e using FNode.rec (motive_2 := fun es => ∀ xs, C.convertArgs es = some xs →
    (∀ x ∈ xs, x ≠ []) ∧ xs.mapM (evaluate · a) = FNode.values (C.interpretation a) es) with
  | node kind args ih =>
    intro x h
    rw [convert, Option.bind_eq_some_iff] at h
    obtain ⟨xs, hxs, h⟩ := h
    obtain ⟨hne, hvs⟩ := ih xs hxs
    by_cases hf : ∃ f, kind = .fluentExp f
    · obtain ⟨f, rfl⟩ := hf
      obtain ⟨g, hg, rfl⟩ := Option.map_eq_some_iff.mp h
      refine ⟨by simp, ?_⟩
      simp only [FNode.value, interpretation, hg, Option.bind_some]
      cases hv : getValue a g <;> simp [evaluate, evalNodes, evalNode, hv]
    · push Not at hf
      obtain ⟨hx, hx'⟩ := C.walk_spec a hne h hf
      refine ⟨hx, hx'.trans ?_⟩
      rw [hvs]
      cases kind with
      | fluentExp f => exact absurd rfl (hf f)
      | _ => rfl
  | nil xs h =>
    obtain rfl := Option.some.inj h
    exact ⟨by simp, rfl⟩
  | cons e es ih ihs xs h =>
    simp only [convertArgs, Option.bind_eq_bind, Option.bind_eq_some_iff] at h
    obtain ⟨x, hx, ys, hys, h⟩ := h
    obtain rfl := Option.some.inj h
    obtain ⟨hxne, hxv⟩ := ih x hx
    obtain ⟨hne, hvs⟩ := ihs ys hys
    refine ⟨fun y hy => ?_, ?_⟩
    · rcases List.mem_cons.mp hy with rfl | hy
      · exact hxne
      · exact hne y hy
    · rw [List.mapM_cons, hxv, hvs]
      rfl

theorem evaluate_convert {e : FNode} {x : Expression} (h : C.convert e = some x) :
    evaluate x a = e.value (C.interpretation a) :=
  (C.convert_spec a e x h).2

theorem holds_convert {e : FNode} {x : Expression} (h : C.convert e = some x) :
    holds x a = e.truth (C.interpretation a) := by
  rw [holds, C.evaluate_convert a h, FNode.truth]

end Converter

end TamerLite
