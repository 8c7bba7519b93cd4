import TamerLite.HeuristicExpression

/-! How the heuristic rewrites the leaves of its conditions: negated comparisons,
numeric equalities and (in)equalities of objects. The rewritten conditions are
true in the same states. -/

namespace TamerLite

structure FluentDomain where
  kind : FluentKind
  objects : List Object

section Rules

variable (core : Core) (domains : List FluentDomain) (exp : Expression)

def isObjectTyped (i : ℕ) : Option Bool := do
  isObjectTypedOperand (domains.map FluentDomain.kind) (← exp[i]?)

/-- Whether an operator compares or computes numbers. -/
def isNumericOperator : ExpressionNode → Option Bool
  | .operator .eq [op1, op2] => do
    if ← isObjectTyped domains exp op1 then some false
    else return !(← isObjectTyped domains exp op2)
  | .operator .eq _ => none
  | .operator _ _ => some true
  | _ => some false

/-- `_is_numeric_leaf_expression`. -/
def isNumericLeafExpression : Option Bool :=
  match exp.getLast? with
  | some (.operator .not operands) => do isNumericOperator domains exp (← exp[← operands[0]?]?)
  | some e => isNumericOperator domains exp e
  | none => none

/-- The operands of a comparison exchanged, below another comparison. -/
def invertOperands (op1 op2 : ℕ) (kind : OperatorKind) : Expression :=
  let op1Exp := exp.take (op1 + 1)
  let op2Exp := slice exp (op1 + 1) (op2 + 1)
  shiftExpression op2Exp (-op1Exp.length) ++ shiftExpression op1Exp op2Exp.length ++
    [.operator kind [op2Exp.length - 1, op2Exp.length + op1Exp.length - 1]]

/-- A rewriting is kept if its first leaf compares linear expressions. -/
def keepLinear (nodes : HeuristicExpression) : Option HeuristicExpression :=
  match nodes with
  | .leaf first :: _ =>
    match first.getLast? with
    | some (.operator _ operands) =>
      if (toLinearPolynomial core (first.dropLast ++ [.operator .minus operands])).isSome then some nodes
      else none
    | _ => none
  | _ => none

/-- `_simplify_numeric_leaf_node`. -/
def simplifyNumericLeafNode : Option HeuristicExpression :=
  match exp.getLast? with
  | some (.operator .eq [op1, op2]) =>
    keepLinear core [.leaf (exp.dropLast ++ [.operator .le [op1, op2]]),
      .leaf (invertOperands exp op1 op2 .le), .and 2]
  | some (.operator .not (i :: _)) =>
    match exp[i]? with
    | some (.operator .eq [op1, op2]) =>
      keepLinear core [.leaf (exp.dropLast.dropLast ++ [.operator .lt [op1, op2]]),
        .leaf (invertOperands exp op1 op2 .lt), .or 2]
    | some (.operator .lt [op1, op2]) => keepLinear core [.leaf (invertOperands exp op1 op2 .le)]
    | some (.operator .le [op1, op2]) => keepLinear core [.leaf (invertOperands exp op1 op2 .lt)]
    | _ => none
  | _ => none

/-- `_object_domain`. -/
def objectDomain (f : Fluent) : Option (List Object) :=
  (domains[f.idx]?).bind fun d => if d.kind = .object then some d.objects else none

def equalsObject (f : Fluent) (o : Object) : Expression :=
  [.fluent f, .constant (.object o), .operator .eq [0, 1]]

/-- A disjunction; an empty one is false. -/
def disjunction : List HeuristicExpression → HeuristicExpression
  | [] => [.leaf [.constant (.bool false)]]
  | [h] => h
  | hs => hs.flatten ++ [.or hs.length]

/-- `_simplify_fluent_not_equals_object_expression`; the outer `none` is its assertion. -/
def simplifyFluentNotEqualsObject : Option (Option HeuristicExpression) :=
  match exp with
  | [.fluent f, .constant (.object o), .operator .eq _, .operator .not _] =>
    (objectDomain domains f).map fun objs =>
      some (disjunction ((objs.filter (· ≠ o)).map fun obj => [.leaf (equalsObject f obj)]))
  | _ => some none

/-- Both fluents hold the given objects. -/
def bothEqual (f1 f2 : Fluent) (o1 o2 : Object) : HeuristicExpression :=
  [.leaf (equalsObject f1 o1), .leaf (equalsObject f2 o2), .and 2]

/-- `_simplify_object_equality`. -/
def simplifyObjectEquality : Option HeuristicExpression :=
  match exp with
  | [.fluent f1, .fluent f2, .operator .eq [0, 1]] => do
    let objs1 ← objectDomain domains f1
    let objs2 ← objectDomain domains f2
    return disjunction ((objs1.filter (· ∈ objs2)).map fun o => bothEqual f1 f2 o o)
  | [.fluent f1, .fluent f2, .operator .eq [0, 1], .operator .not [2]] => do
    let objs1 ← objectDomain domains f1
    let objs2 ← objectDomain domains f2
    return disjunction (objs1.flatMap fun o1 => (objs2.filter (o1 ≠ ·)).map fun o2 =>
      bothEqual f1 f2 o1 o2)
  | _ => none

/-- `_simplify_leaf`; the inner `none` keeps the leaf. -/
def simplifyLeaf (disableNumericReasoning : Bool) : Option (Option HeuristicExpression) :=
  if hasInterpretedFunction exp then some none
  else do
    if ← isNumericLeafExpression domains exp then
      return if disableNumericReasoning then none else simplifyNumericLeafNode core exp
    else
      match ← simplifyFluentNotEqualsObject domains exp with
      | some h => return some h
      | none => return simplifyObjectEquality domains exp

/-- `_simplify_condition`. -/
def simplifyCondition (disableNumericReasoning : Bool) :
    HeuristicExpression → Option HeuristicExpression
  | [] => some []
  | node :: condition => do
    let new ←
      match node with
      | .leaf e => simplifyLeaf core domains e disableNumericReasoning
      | _ => some none
    let rest ← simplifyCondition disableNumericReasoning condition
    return new.getD [node] ++ rest

end Rules

/-! ### States -/

section States

variable (domains : List FluentDomain) (core : Core) (get : Fluent → Option ConstantNode)

/-- Every object fluent holds an object of its domain, and no other fluent holds one. -/
def InDomains : Prop :=
  ∀ f v, get f = some v → ∃ d, domains[f.idx]? = some d ∧
    (d.kind = .object → ∃ o ∈ d.objects, v = .object o) ∧ (d.kind ≠ .object → ∀ o, v ≠ .object o)

/-- Two objects, or two numbers. -/
def Alike (v w : ConstantNode) : Prop :=
  (∃ o p, v = .object o ∧ w = .object p) ∨ ∃ x y, core.number v = some x ∧ core.number w = some y

variable [Callables]

namespace ExprTree

mutual

/-- Every equality compares values of one type, as the planning library demands. -/
def ComparesAlike : ExprTree → Prop
  | node e args => (∀ operands, e = .operator .eq operands → ∀ v w,
      values core get args = some [v, w] → Alike core v w) ∧ AllCompareAlike args

def AllCompareAlike : List ExprTree → Prop
  | [] => True
  | t :: ts => ComparesAlike t ∧ AllCompareAlike ts

end

/-- A condition with a value in a state. -/
structure IsCondition (t : ExprTree) : Prop where
  wellFormed : t.wellFormed = true
  proper : t.proper = true
  comparesAlike : t.ComparesAlike core get
  value : ∃ v, t.value core get = some v

end ExprTree

end States

/-! ### Shapes -/

namespace ExprTree

theorem eq_nil_of_sizes {ts : List ExprTree} (h : sizes ts = 0) : ts = [] := by
  cases ts with
  | nil => rfl
  | cons t ts =>
    have := t.size_pos
    rw [sizes] at h
    omega

/-- The last node of a laid out tree is its root. -/
theorem layout_eq_concat {t : ExprTree} {n : ℕ} {exp : Expression} {e : ExpressionNode}
    (h : t.layout n = exp ++ [e]) :
    layouts n t.args = exp ∧ t.root.withOperands (roots n t.args) = e := by
  obtain ⟨e', args⟩ := t
  rw [layout] at h
  obtain ⟨h₁, h₂⟩ := List.append_inj' h rfl
  exact ⟨h₁, List.singleton_inj.mp h₂⟩

theorem layout_eq_singleton {t : ExprTree} {n : ℕ} {e : ExpressionNode} (h : t.layout n = [e])
    (hop : ∀ kind operands, e ≠ .operator kind operands)
    (hif : ∀ fn rt operands, e ≠ .interpretedFunction fn rt operands) : t = node e [] := by
  obtain ⟨e', args⟩ := t
  obtain ⟨hargs, hroot⟩ := layout_eq_concat (show (node e' args).layout n = [] ++ [e] from h)
  have hnil : args = [] := eq_nil_of_sizes (by rw [← length_layouts n]; exact congrArg List.length hargs)
  subst hnil
  cases e' with
  | operator kind operands => exact absurd hroot.symm (hop kind _)
  | interpretedFunction fn rt operands => exact absurd hroot.symm (hif fn rt _)
  | fluent | constant => exact congrArg (node · []) hroot

theorem exists_of_root {t : ExprTree} {kind : OperatorKind} {operands : List ℕ} {exp : Expression}
    (hproper : t.proper = true) (h : t.layout 0 = exp ++ [.operator kind operands]) :
    ∃ operands args, t = node (.operator kind operands) args ∧ layouts 0 args = exp ∧
      kind.takes args.length = true ∧ propers args = true := by
  obtain ⟨e, args⟩ := t
  obtain ⟨hargs, hroot⟩ := layout_eq_concat h
  cases e with
  | operator kind' operands' =>
    obtain ⟨rfl, -⟩ := ExpressionNode.operator.inj hroot
    rw [proper, Bool.and_eq_true] at hproper
    exact ⟨operands', args, rfl, hargs, hproper⟩
  | fluent | constant | interpretedFunction => cases hroot

variable {a b : ExprTree} {post : Expression} {kind : OperatorKind}

theorem roots_pair : roots 0 [a, b] = [a.size - 1, a.size + b.size - 1] := by
  simp [roots]

theorem layouts_pair : layouts 0 [a, b] = a.layout 0 ++ b.layout a.size := by
  simp [layouts]

theorem layout_pair (operands : List ℕ) : (node (.operator kind operands) [a, b]).layout 0 =
    layouts 0 [a, b] ++ [.operator kind [a.size - 1, a.size + b.size - 1]] := by
  rw [layout, ExpressionNode.withOperands, roots_pair]

theorem layout_not (u : ExprTree) (operands : List ℕ) :
    (node (.operator .not operands) [u]).layout 0 = u.layout 0 ++ [.operator .not [u.size - 1]] := by
  simp [layout, layouts, roots, ExpressionNode.withOperands]

theorem getElem?_layout (u : ExprTree) (post : Expression) :
    (u.layout 0 ++ post)[u.size - 1]? = some (u.root.withOperands (roots 0 u.args)) := by
  obtain ⟨e, args⟩ := u
  have hexp : (node e args).layout 0 ++ post =
      [] ++ (node e args).layout ([] : Expression).length ++ post := rfl
  have h := getElem?_root hexp
  rw [List.length_nil, Nat.zero_add] at h
  exact h

theorem wellFormeds_pair : wellFormeds [a, b] = true ↔ a.wellFormed = true ∧ b.wellFormed = true := by
  simp [wellFormeds]

/-- An equality of two single nodes. -/
theorem exists_of_equality {t : ExprTree} {x y : ExpressionNode} {operands : List ℕ}
    (hproper : t.proper = true) (h : t.layout 0 = [x, y, .operator .eq operands]) :
    ∃ operands a b, t = node (.operator .eq operands) [a, b] ∧ a.layout 0 = [x] ∧ b.layout 1 = [y] := by
  obtain ⟨operands', args, rfl, hargs, htakes, -⟩ :=
    exists_of_root hproper (show t.layout 0 = [x, y] ++ [.operator .eq operands] from h)
  obtain ⟨a, b, rfl⟩ := List.length_eq_two.mp (of_decide_eq_true htakes)
  rw [layouts_pair] at hargs
  have ha := a.size_pos
  have hb := b.size_pos
  have hlen := congrArg List.length hargs
  simp only [List.length_append, length_layout, List.length_cons, List.length_nil] at hlen
  have hone : a.size = 1 := by omega
  obtain ⟨hx, hy⟩ := List.append_inj (hargs.trans (show [x, y] = [x] ++ [y] from rfl))
    (by rw [length_layout, hone]; rfl)
  rw [hone] at hy
  exact ⟨operands', a, b, rfl, hx, hy⟩

/-- A negation of what stands before it. -/
theorem exists_of_negation {t : ExprTree} {exp : Expression} {operands : List ℕ}
    (hproper : t.proper = true) (h : t.layout 0 = exp ++ [.operator .not operands]) :
    ∃ operands u, t = node (.operator .not operands) [u] ∧ u.proper = true ∧ u.layout 0 = exp := by
  obtain ⟨operands', args, rfl, hargs, htakes, hpropers⟩ := exists_of_root hproper h
  obtain ⟨u, rfl⟩ := List.length_eq_one_iff.mp (of_decide_eq_true htakes)
  exact ⟨operands', u, rfl, by simpa [propers] using hpropers, by simpa [layouts] using hargs⟩

/-- The exchanged comparison of two laid out operands. -/
theorem invertOperands_layout : invertOperands (layouts 0 [a, b] ++ post) (a.size - 1)
    (a.size + b.size - 1) kind = (node (.operator kind []) [b, a]).layout 0 := by
  have ha := a.size_pos
  have hb := b.size_pos
  have htake : (layouts 0 [a, b] ++ post).take (a.size - 1 + 1) = a.layout 0 := by
    rw [layouts_pair, List.append_assoc, Nat.sub_add_cancel ha]
    exact List.take_left' (length_layout 0 a)
  have hslice : slice (layouts 0 [a, b] ++ post) (a.size - 1 + 1) (a.size + b.size - 1 + 1) =
      b.layout a.size := by
    have hlen : (layouts 0 [a, b]).length = a.size + b.size := by simp [layouts_pair]
    rw [slice, Nat.sub_add_cancel ha, Nat.sub_add_cancel (by omega), ← hlen, List.take_left,
      layouts_pair]
    exact List.drop_left' (length_layout 0 a)
  rw [invertOperands, htake, hslice, length_layout, length_layout, layout, layouts_pair,
    ExpressionNode.withOperands, roots_pair, layout_eq_shift a.size b, layout_eq_shift b.size a,
    shiftExpression_shiftExpression]

end ExprTree

/-! ### The rules keep the truth -/

section Specs

variable {core : Core} {domains : List FluentDomain} {assignments : Assignments}

@[simp] theorem isTrue_bool (b : Bool) : core.isTrue (.bool b) = b := by
  cases core <;> cases b <;> rfl

@[simp] theorem isFalse_bool (b : Bool) : core.isFalse (.bool b) = !b := by
  cases core <;> cases b <;> rfl

theorem equals_number {v w : ConstantNode} {x y : ℚ} (hv : core.number v = some x)
    (hw : core.number w = some y) : core.equals v w = decide (x = y) := by
  rw [Core.equals, hv, hw, Bool.eq_iff_iff]
  simp only [Bool.or_eq_true, decide_eq_true_eq, or_iff_right_iff_imp]
  rintro rfl
  exact Option.some.inj (hv.symm.trans hw)

theorem equals_object (o p : Object) : core.equals (.object o) (.object p) = decide (o = p) := by
  cases core <;> simp [Core.equals, Core.number, ConstantNode.toNum]

theorem arithmetic_ne_object {kind : OperatorKind} {x y : ℚ} {v : ConstantNode}
    (h : Core.arithmetic kind x y = some v) (o : Object) : v ≠ .object o := by
  rintro rfl
  cases kind <;> simp [Core.arithmetic] at h

/-- No operator yields an object. -/
theorem applyOperator_ne_object {kind : OperatorKind} {vs : List ConstantNode} {v : ConstantNode}
    (h : core.applyOperator kind vs = some v) (o : Object) : v ≠ .object o := by
  rintro rfl
  cases kind with
  | and | or => cases h
  | not => cases vs <;> cases h
  | eq => rcases vs with - | ⟨w, - | ⟨w', vs⟩⟩ <;> cases h
  | plus | times =>
    cases vs with
    | nil => cases h
    | cons w vs =>
      obtain ⟨xs, -, hxs⟩ := Option.map_eq_some_iff.mp h
      cases hxs
  | le | lt | minus | div =>
    obtain ⟨w, w', rest, x, x', -, -, -, h⟩ := core.exists_of_arithmetic (by simp) h
    exact arithmetic_ne_object h o rfl

theorem getElem?_first (a b : ExprTree) (post : Expression) :
    (ExprTree.layouts 0 [a, b] ++ post)[a.size - 1]? =
      some (a.root.withOperands (ExprTree.roots 0 a.args)) := by
  obtain ⟨e, args⟩ := a
  have hexp : ExprTree.layouts 0 [.node e args, b] ++ post = [] ++
      (ExprTree.node e args).layout ([] : Expression).length ++
      (b.layout (ExprTree.node e args).size ++ post) := by
    rw [ExprTree.layouts_pair, List.append_assoc]
    rfl
  have h := ExprTree.getElem?_root hexp
  rw [List.length_nil, Nat.zero_add] at h
  exact h

theorem getElem?_second (a b : ExprTree) (post : Expression) :
    (ExprTree.layouts 0 [a, b] ++ post)[a.size + b.size - 1]? =
      some (b.root.withOperands (ExprTree.roots a.size b.args)) := by
  obtain ⟨e, args⟩ := b
  have hexp : ExprTree.layouts 0 [a, .node e args] ++ post = a.layout 0 ++
      (ExprTree.node e args).layout (a.layout 0).length ++ post := by
    rw [ExprTree.layouts_pair, ExprTree.length_layout]
  have h := ExprTree.getElem?_root hexp
  rw [ExprTree.length_layout] at h
  exact h

theorem keepLinear_eq {nodes h : HeuristicExpression} (hk : keepLinear core nodes = some h) :
    h = nodes := by
  unfold keepLinear at hk
  split at hk
  · split at hk
    · split_ifs at hk
      exact (Option.some.inj hk).symm
    · cases hk
  · cases hk

theorem objectDomain_eq_some {f : Fluent} {v : ConstantNode} {objs : List Object}
    (hin : InDomains domains (getValue assignments)) (hv : getValue assignments f = some v)
    (h : objectDomain domains f = some objs) : ∃ o ∈ objs, v = .object o := by
  obtain ⟨d, hd, hobject, -⟩ := hin f v hv
  rw [objectDomain, hd, Option.bind_some, Option.ite_none_right_eq_some] at h
  obtain ⟨hkind, h⟩ := h
  obtain rfl := Option.some.inj h
  exact hobject hkind

variable [Callables]

theorem holds_of_value {t : ExprTree} {v : ConstantNode} (hwf : t.wellFormed = true)
    (hv : t.value core (getValue assignments) = some v) :
    core.holds (t.layout 0) assignments = core.isTrue v := by
  rw [holds_layout hwf, hv]
  rfl

theorem value_eq {operands : List ℕ} {a b : ExprTree} {v : ConstantNode}
    {get : Fluent → Option ConstantNode}
    (h : (ExprTree.node (.operator .eq operands) [a, b]).value core get = some v) :
    ∃ w w', a.value core get = some w ∧ b.value core get = some w' ∧ v = .bool (core.equals w w') := by
  rw [ExprTree.value, ExprTree.values_cons, ExprTree.values_cons] at h
  cases hw : a.value core get with
  | none => simp [hw] at h
  | some w =>
    cases hw' : b.value core get with
    | none => simp [hw, hw'] at h
    | some w' =>
      rw [hw, hw'] at h
      exact ⟨w, w', rfl, rfl, (Option.some.inj h).symm⟩

theorem value_not {operands : List ℕ} {u : ExprTree} {v : ConstantNode}
    {get : Fluent → Option ConstantNode}
    (h : (ExprTree.node (.operator .not operands) [u]).value core get = some v) :
    ∃ w, u.value core get = some w ∧ v = .bool (core.isFalse w) := by
  rw [ExprTree.value, ExprTree.values_cons] at h
  cases hw : u.value core get with
  | none => simp [hw] at h
  | some w =>
    rw [hw] at h
    exact ⟨w, rfl, (Option.some.inj h).symm⟩

/-- A comparison of two numbers, as a leaf. -/
theorem holds_compare {kind : OperatorKind} {operands : List ℕ} {a b : ExprTree} {w w' : ConstantNode}
    {x y : ℚ} {c : Bool} (hkind : kind = .le ∨ kind = .lt) (ha : a.wellFormed = true)
    (hb : b.wellFormed = true) (hw : a.value core (getValue assignments) = some w)
    (hw' : b.value core (getValue assignments) = some w') (hx : core.number w = some x)
    (hy : core.number w' = some y) (hc : Core.arithmetic kind x y = some (.bool c)) :
    core.holds ((ExprTree.node (.operator kind operands) [a, b]).layout 0) assignments = c := by
  have hwf : (ExprTree.node (.operator kind operands) [a, b]).wellFormed = true := by
    simp [ExprTree.wellFormed, ExprTree.wellFormeds, ExprTree.arityOk, ha, hb]
  have hv : (ExprTree.node (.operator kind operands) [a, b]).value core (getValue assignments) =
      some (.bool c) := by
    rw [ExprTree.value, ExprTree.values_cons, ExprTree.values_cons, hw, hw', ← hc]
    rcases hkind with rfl | rfl
    · show (do Core.arithmetic .le (← core.number w) (← core.number w')) = _
      rw [hx, hy]
      rfl
    · show (do Core.arithmetic .lt (← core.number w) (← core.number w')) = _
      rw [hx, hy]
      rfl
  rw [holds_of_value hwf hv, isTrue_bool]

theorem holds_equalsObject {f : Fluent} {o p : Object}
    (h : getValue assignments f = some (.object p)) :
    core.holds (equalsObject f o) assignments = decide (p = o) := by
  have hv : (ExprTree.node (.operator .eq []) [.node (.fluent f) [], .node (.constant (.object o)) []]).value
      core (getValue assignments) = some (.bool (core.equals (.object p) (.object o))) := by
    have hf : (ExprTree.node (.fluent f) []).value core (getValue assignments) = some (.object p) := h
    rw [ExprTree.value, ExprTree.values_cons, ExprTree.values_cons, hf]
    rfl
  have hholds := holds_of_value rfl hv
  rwa [isTrue_bool, equals_object] at hholds

theorem computes_disjunction {hs : List HeuristicExpression} {bs : List Bool}
    (h : List.Forall₂ (Computes (core.holds · assignments)) hs bs) :
    Computes (core.holds · assignments) (disjunction hs) (bs.any id) := by
  match hs, bs, h with
  | [], [], _ =>
    intro stack
    have hfalse : core.holds [.constant (.bool false)] assignments = false := by
      cases core <;> rfl
    show core.holds [.constant (.bool false)] assignments :: stack = _
    rw [hfalse]
    rfl
  | [h], [b], .cons hb .nil => simpa [disjunction] using hb
  | _ :: _ :: _, _ :: _ :: _, h => exact computes_or h

theorem computes_bothEqual {f1 f2 : Fluent} {o1 o2 p1 p2 : Object}
    (h1 : getValue assignments f1 = some (.object p1))
    (h2 : getValue assignments f2 = some (.object p2)) :
    Computes (core.holds · assignments) (bothEqual f1 f2 o1 o2) (decide (p1 = o1 ∧ p2 = o2)) := by
  have hleaves : List.Forall₂ (Computes (core.holds · assignments))
      [[.leaf (equalsObject f1 o1)], [.leaf (equalsObject f2 o2)]]
      [core.holds (equalsObject f1 o1) assignments, core.holds (equalsObject f2 o2) assignments] :=
    .cons (computes_leaf _) (.cons (computes_leaf _) .nil)
  have h := computes_and hleaves
  rw [holds_equalsObject h1, holds_equalsObject h2] at h
  simpa [bothEqual, Bool.decide_and] using h

/-- An operand that is not object-typed has no object as its value. -/
theorem ne_object {exp : Expression} {i : ℕ} {a : ExprTree} {operands : List ℕ} {w : ConstantNode}
    (hin : InDomains domains (getValue assignments)) (hif : hasInterpretedFunction exp = false)
    (hi : exp[i]? = some (a.root.withOperands operands)) (hty : isObjectTyped domains exp i = some false)
    (hw : a.value core (getValue assignments) = some w) (o : Object) : w ≠ .object o := by
  obtain ⟨e, args⟩ := a
  simp only [isObjectTyped, hi, Option.bind_eq_bind, Option.bind_some] at hty
  rw [ExprTree.value, Option.bind_eq_some_iff] at hw
  obtain ⟨vs, -, hw⟩ := hw
  cases e with
  | operator kind ops => exact applyOperator_ne_object hw o
  | constant v =>
    obtain rfl := Option.some.inj hw
    rintro rfl
    cases hty
  | fluent f =>
    obtain ⟨d, hd, -, hother⟩ := hin f w hw
    refine hother ?_ o
    have hkind : (d.kind = .object) = False := by
      simpa [isObjectTypedOperand, ExprTree.root, ExpressionNode.withOperands, List.getElem?_map, hd]
        using hty
    exact hkind.mp
  | interpretedFunction fn rt ops =>
    have hmem := List.mem_of_getElem? hi
    rw [hasInterpretedFunction, List.any_eq_false] at hif
    exact absurd rfl (hif _ hmem)

/-- The operands of a numeric equality stand for numbers. -/
theorem exists_numbers_eq {a b : ExprTree} {post : Expression} {operands : List ℕ}
    {w w' : ConstantNode} (hin : InDomains domains (getValue assignments))
    (halike : (ExprTree.node (.operator .eq operands) [a, b]).ComparesAlike core (getValue assignments))
    (hif : hasInterpretedFunction (ExprTree.layouts 0 [a, b] ++ post) = false)
    (hnum : isNumericOperator domains (ExprTree.layouts 0 [a, b] ++ post)
      (.operator .eq [a.size - 1, a.size + b.size - 1]) = some true)
    (hw : a.value core (getValue assignments) = some w)
    (hw' : b.value core (getValue assignments) = some w') :
    ∃ x y, core.number w = some x ∧ core.number w' = some y := by
  have hty : isObjectTyped domains (ExprTree.layouts 0 [a, b] ++ post) (a.size - 1) = some false := by
    simp only [isNumericOperator, Option.bind_eq_bind, Option.bind_eq_some_iff] at hnum
    obtain ⟨c, hc, hnum⟩ := hnum
    cases c with
    | true => cases hnum
    | false => exact hc
  have hne := ne_object hin hif (getElem?_first a b post) hty hw
  have hvalues : ExprTree.values core (getValue assignments) [a, b] = some [w, w'] := by
    rw [ExprTree.values_cons, ExprTree.values_cons, hw, hw']
    rfl
  rcases halike.1 operands rfl w w' hvalues with ⟨o, p, rfl, -⟩ | h
  · exact absurd rfl (hne o)
  · exact h

/-- Both comparisons of two operands, one of them exchanged. -/
theorem computes_exchanged {kind : OperatorKind} {a b : ExprTree} {w w' : ConstantNode} {x y : ℚ}
    {c d : Bool} (hkind : kind = .le ∨ kind = .lt) (ha : a.wellFormed = true) (hb : b.wellFormed = true)
    (hw : a.value core (getValue assignments) = some w)
    (hw' : b.value core (getValue assignments) = some w') (hx : core.number w = some x)
    (hy : core.number w' = some y) (hc : Core.arithmetic kind x y = some (.bool c))
    (hd : Core.arithmetic kind y x = some (.bool d)) :
    List.Forall₂ (Computes (core.holds · assignments))
      [[.leaf ((ExprTree.node (.operator kind []) [a, b]).layout 0)],
        [.leaf ((ExprTree.node (.operator kind []) [b, a]).layout 0)]] [c, d] := by
  refine .cons ?_ (.cons ?_ .nil)
  · rw [← holds_compare hkind ha hb hw hw' hx hy hc]
    exact computes_leaf _
  · rw [← holds_compare hkind hb ha hw' hw hy hx hd]
    exact computes_leaf _

/-- The rewriting of a numeric leaf. -/
theorem simplifyNumericLeafNode_spec {t : ExprTree} {v : ConstantNode} {h : HeuristicExpression}
    (hwf : t.wellFormed = true) (hproper : t.proper = true)
    (hin : InDomains domains (getValue assignments))
    (halike : t.ComparesAlike core (getValue assignments))
    (hif : hasInterpretedFunction (t.layout 0) = false)
    (hnum : isNumericLeafExpression domains (t.layout 0) = some true)
    (hv : t.value core (getValue assignments) = some v)
    (hs : simplifyNumericLeafNode core (t.layout 0) = some h) :
    Computes (core.holds · assignments) h (core.isTrue v) := by
  obtain ⟨e, args⟩ := t
  cases e with
  | fluent | constant | interpretedFunction =>
    simp [simplifyNumericLeafNode, ExprTree.layout, ExpressionNode.withOperands] at hs
  | operator kind operands =>
    rw [ExprTree.wellFormed, Bool.and_eq_true] at hwf
    rw [ExprTree.proper, Bool.and_eq_true] at hproper
    cases kind with
    | eq =>
      obtain ⟨a, b, rfl⟩ := List.length_eq_two.mp (of_decide_eq_true hproper.1)
      obtain ⟨ha, hb⟩ := ExprTree.wellFormeds_pair.mp hwf.2
      obtain ⟨w, w', hw, hw', rfl⟩ := value_eq hv
      rw [ExprTree.layout_pair] at hif hnum hs
      rw [isNumericLeafExpression, List.getLast?_concat] at hnum
      obtain ⟨x, y, hx, hy⟩ := exists_numbers_eq hin halike hif hnum hw hw'
      simp only [simplifyNumericLeafNode, List.getLast?_concat, List.dropLast_concat,
        ExprTree.invertOperands_layout] at hs
      obtain rfl := keepLinear_eq hs
      rw [← ExprTree.layout_pair []]
      have h := computes_and (computes_exchanged (.inl rfl) ha hb hw hw' hx hy rfl rfl)
      have heq : decide (x = y) = [decide (x ≤ y), decide (y ≤ x)].all id := by
        simp [le_antisymm_iff, Bool.decide_and]
      rw [isTrue_bool, equals_number hx hy, heq]
      exact h
    | not =>
      obtain ⟨⟨e', args'⟩, rfl⟩ := List.length_eq_one_iff.mp (of_decide_eq_true hproper.1)
      obtain ⟨w, hw, rfl⟩ := value_not hv
      have hroot : ((ExprTree.node e' args').layout 0 ++
          [.operator .not [(ExprTree.node e' args').size - 1]])[(ExprTree.node e' args').size - 1]? =
          some (e'.withOperands (ExprTree.roots 0 args')) := ExprTree.getElem?_layout (.node e' args') _
      rw [ExprTree.layout_not] at hif hnum hs
      simp only [isNumericLeafExpression, List.getLast?_concat, List.getElem?_cons_zero,
        Option.bind_eq_bind, Option.bind_some, hroot] at hnum
      simp only [simplifyNumericLeafNode, List.getLast?_concat, hroot] at hs
      have hwf' : (ExprTree.node e' args').wellFormed = true := by simpa [ExprTree.wellFormeds] using hwf.2
      have hproper' : (ExprTree.node e' args').proper = true := by simpa [ExprTree.propers] using hproper.2
      rw [ExprTree.wellFormed, Bool.and_eq_true] at hwf'
      cases e' with
      | fluent | constant | interpretedFunction => simp [ExpressionNode.withOperands] at hs
      | operator kind' operands' =>
        rw [ExprTree.proper, Bool.and_eq_true] at hproper'
        cases kind' with
        | eq =>
          obtain ⟨a, b, rfl⟩ := List.length_eq_two.mp (of_decide_eq_true hproper'.1)
          obtain ⟨ha, hb⟩ := ExprTree.wellFormeds_pair.mp hwf'.2
          obtain ⟨y₁, y₂, hy₁, hy₂, rfl⟩ := value_eq hw
          rw [ExprTree.layout_pair, List.append_assoc] at hif hnum
          rw [ExpressionNode.withOperands, ExprTree.roots_pair] at hnum
          obtain ⟨x, y, hx, hy⟩ := exists_numbers_eq hin halike.2.1 hif hnum hy₁ hy₂
          simp only [ExpressionNode.withOperands, ExprTree.roots_pair, List.dropLast_concat,
            ExprTree.layout_pair] at hs
          rw [List.append_assoc, ExprTree.invertOperands_layout] at hs
          obtain rfl := keepLinear_eq hs
          rw [← ExprTree.layout_pair []]
          have h := computes_or (computes_exchanged (.inr rfl) ha hb hy₁ hy₂ hx hy rfl rfl)
          have heq : core.isFalse (.bool (decide (x = y))) = [decide (x < y), decide (y < x)].any id := by
            simp [← Bool.decide_or]
          rw [isTrue_bool, equals_number hx hy, heq]
          exact h
        | lt =>
          obtain ⟨a, b, rfl⟩ := List.length_eq_two.mp (of_decide_eq_true hproper'.1)
          obtain ⟨ha, hb⟩ := ExprTree.wellFormeds_pair.mp hwf'.2
          obtain ⟨y₁, y₂, x, y, hy₁, hy₂, hx, hy, hw⟩ := LinearPolynomial.value_arithmetic (by simp) hw
          simp only [ExpressionNode.withOperands, ExprTree.roots_pair, ExprTree.layout_pair,
            List.append_assoc, ExprTree.invertOperands_layout] at hs
          obtain rfl := keepLinear_eq hs
          rw [← ExprTree.layout_pair []]
          obtain rfl := Option.some.inj hw
          have heq : core.isFalse (.bool (decide (x < y))) = decide (y ≤ x) := by
            simp [← not_lt]
          rw [heq, isTrue_bool, ← holds_compare (.inl rfl) hb ha hy₂ hy₁ hy hx rfl]
          exact computes_leaf _
        | le =>
          obtain ⟨a, b, rfl⟩ := List.length_eq_two.mp (of_decide_eq_true hproper'.1)
          obtain ⟨ha, hb⟩ := ExprTree.wellFormeds_pair.mp hwf'.2
          obtain ⟨y₁, y₂, x, y, hy₁, hy₂, hx, hy, hw⟩ := LinearPolynomial.value_arithmetic (by simp) hw
          simp only [ExpressionNode.withOperands, ExprTree.roots_pair, ExprTree.layout_pair,
            List.append_assoc, ExprTree.invertOperands_layout] at hs
          obtain rfl := keepLinear_eq hs
          rw [← ExprTree.layout_pair []]
          obtain rfl := Option.some.inj hw
          have heq : core.isFalse (.bool (decide (x ≤ y))) = decide (y < x) := by
            simp [← not_le]
          rw [heq, isTrue_bool, ← holds_compare (.inr rfl) hb ha hy₂ hy₁ hy hx rfl]
          exact computes_leaf _
        | _ => simp [ExpressionNode.withOperands] at hs
    | _ => simp [simplifyNumericLeafNode, ExprTree.layout, ExpressionNode.withOperands] at hs

/-- The values of the operands of an equality of two fluents, or of a fluent and an object. -/
theorem value_equality {t : ExprTree} {x y : ExpressionNode} {operands : List ℕ} {v : ConstantNode}
    (hproper : t.proper = true) (hv : t.value core (getValue assignments) = some v)
    (h : t.layout 0 = [x, y, .operator .eq operands])
    (hx : ∃ f, x = .fluent f) (hy : (∃ f, y = .fluent f) ∨ ∃ o, y = .constant (.object o)) :
    ∃ operands w w', t = .node (.operator .eq operands) [.node x [], .node y []] ∧
      core.nodeValue (getValue assignments) x [] = some w ∧
      core.nodeValue (getValue assignments) y [] = some w' ∧ v = .bool (core.equals w w') := by
  obtain ⟨operands', a, b, rfl, ha, hb⟩ := ExprTree.exists_of_equality hproper h
  obtain rfl : a = .node x [] := by
    obtain ⟨f, rfl⟩ := hx
    exact ExprTree.layout_eq_singleton ha (by simp) (by simp)
  obtain rfl : b = .node y [] := by
    rcases hy with ⟨f, rfl⟩ | ⟨o, rfl⟩
    · exact ExprTree.layout_eq_singleton hb (by simp) (by simp)
    · exact ExprTree.layout_eq_singleton hb (by simp) (by simp)
  obtain ⟨w, w', hw, hw', rfl⟩ := value_eq hv
  exact ⟨operands', w, w', rfl, hw, hw', rfl⟩

/-- A fluent that differs from an object equals another one of its domain. -/
theorem simplifyFluentNotEqualsObject_spec {t : ExprTree} {v : ConstantNode}
    (hproper : t.proper = true) (hin : InDomains domains (getValue assignments))
    (halike : t.ComparesAlike core (getValue assignments))
    (hv : t.value core (getValue assignments) = some v) :
    ∃ r, simplifyFluentNotEqualsObject domains (t.layout 0) = some r ∧
      ∀ h, r = some h → Computes (core.holds · assignments) h (core.isTrue v) := by
  unfold simplifyFluentNotEqualsObject
  split
  · next f o operands operands' hlayout =>
    obtain ⟨_, u, rfl, hu, hulayout⟩ := ExprTree.exists_of_negation hproper
      (show t.layout 0 = [.fluent f, .constant (.object o), .operator .eq operands] ++
        [.operator .not operands'] from hlayout)
    obtain ⟨w, hw, rfl⟩ := value_not hv
    obtain ⟨ops, p, q, rfl, hp, hq, rfl⟩ := value_equality hu hw hulayout ⟨f, rfl⟩ (.inr ⟨o, rfl⟩)
    obtain rfl := Option.some.inj hq
    have hget : getValue assignments f = some p := hp
    have hvalues : ExprTree.values core (getValue assignments)
        [.node (.fluent f) [], .node (.constant (.object o)) []] = some [p, .object o] := by
      rw [ExprTree.values_cons, show ExprTree.value core (getValue assignments) (.node (.fluent f) []) =
        some p from hp]
      rfl
    obtain ⟨p', rfl⟩ : ∃ p', p = .object p' := by
      rcases halike.2.1.1 ops rfl p (.object o) hvalues with ⟨p', -, h, -⟩ | ⟨x, y, -, h⟩
      · exact ⟨p', h⟩
      · cases core <;> cases h
    obtain ⟨d, hd, hobject, hother⟩ := hin f _ hget
    have hkind : d.kind = .object := by
      by_contra hne
      exact hother hne p' rfl
    obtain ⟨o', ho', heq⟩ := hobject hkind
    obtain rfl := ConstantNode.object.inj heq
    have hdomain : objectDomain domains f = some d.objects := by
      rw [objectDomain, hd, Option.bind_some, if_pos hkind]
    refine ⟨_, by rw [hdomain]; rfl, fun h hh => ?_⟩
    obtain rfl := Option.some.inj hh
    have hcomputes : List.Forall₂ (Computes (core.holds · assignments))
        ((d.objects.filter (· ≠ o)).map fun obj => [.leaf (equalsObject f obj)])
        ((d.objects.filter (· ≠ o)).map fun obj => decide (p' = obj)) := by
      rw [List.forall₂_map_left_iff, List.forall₂_map_right_iff, List.forall₂_same]
      intro obj _
      rw [← holds_equalsObject hget]
      exact computes_leaf _
    have hany : ((d.objects.filter (· ≠ o)).map fun obj => decide (p' = obj)).any id =
        !decide (p' = o) := by
      rw [Bool.eq_iff_iff]
      simp [ho']
    rw [isTrue_bool, equals_object, isFalse_bool, ← hany]
    exact computes_disjunction hcomputes
  · exact ⟨none, rfl, by simp⟩

/-- Two fluents are equal if both hold some common object, and differ if they hold two
different ones. -/
theorem simplifyObjectEquality_spec {t : ExprTree} {v : ConstantNode} {h : HeuristicExpression}
    (hproper : t.proper = true) (hin : InDomains domains (getValue assignments))
    (hv : t.value core (getValue assignments) = some v)
    (hs : simplifyObjectEquality domains (t.layout 0) = some h) :
    Computes (core.holds · assignments) h (core.isTrue v) := by
  unfold simplifyObjectEquality at hs
  split at hs
  · next f1 f2 hlayout =>
    obtain ⟨ops, p, q, rfl, hp, hq, rfl⟩ := value_equality hproper hv hlayout ⟨f1, rfl⟩ (.inl ⟨f2, rfl⟩)
    simp only [Option.bind_eq_bind, Option.bind_eq_some_iff] at hs
    obtain ⟨objs1, hobjs1, objs2, hobjs2, hs⟩ := hs
    obtain rfl := Option.some.inj hs
    obtain ⟨o1, ho1, rfl⟩ := objectDomain_eq_some hin hp hobjs1
    obtain ⟨o2, ho2, rfl⟩ := objectDomain_eq_some hin hq hobjs2
    have hcomputes : List.Forall₂ (Computes (core.holds · assignments))
        ((objs1.filter (· ∈ objs2)).map fun o => bothEqual f1 f2 o o)
        ((objs1.filter (· ∈ objs2)).map fun o => decide (o1 = o ∧ o2 = o)) := by
      rw [List.forall₂_map_left_iff, List.forall₂_map_right_iff, List.forall₂_same]
      exact fun o _ => computes_bothEqual hp hq
    have hany : ((objs1.filter (· ∈ objs2)).map fun o => decide (o1 = o ∧ o2 = o)).any id =
        decide (o1 = o2) := by
      rw [Bool.eq_iff_iff]
      simp only [List.any_map, List.any_eq_true, List.mem_filter, decide_eq_true_eq,
        Function.comp_apply, id_eq]
      constructor
      · rintro ⟨o, -, rfl, rfl⟩
        rfl
      · rintro rfl
        exact ⟨o1, ⟨ho1, ho2⟩, rfl, rfl⟩
    rw [isTrue_bool, equals_object, ← hany]
    exact computes_disjunction hcomputes
  · next f1 f2 hlayout =>
    obtain ⟨_, u, rfl, hu, hulayout⟩ := ExprTree.exists_of_negation hproper
      (show t.layout 0 = [.fluent f1, .fluent f2, .operator .eq [0, 1]] ++ [.operator .not [2]]
        from hlayout)
    obtain ⟨w, hw, rfl⟩ := value_not hv
    obtain ⟨ops, p, q, rfl, hp, hq, rfl⟩ := value_equality hu hw hulayout ⟨f1, rfl⟩ (.inl ⟨f2, rfl⟩)
    simp only [Option.bind_eq_bind, Option.bind_eq_some_iff] at hs
    obtain ⟨objs1, hobjs1, objs2, hobjs2, hs⟩ := hs
    obtain rfl := Option.some.inj hs
    obtain ⟨o1, ho1, rfl⟩ := objectDomain_eq_some hin hp hobjs1
    obtain ⟨o2, ho2, rfl⟩ := objectDomain_eq_some hin hq hobjs2
    have hcomputes : List.Forall₂ (Computes (core.holds · assignments))
        (objs1.flatMap fun p1 => (objs2.filter (p1 ≠ ·)).map fun p2 => bothEqual f1 f2 p1 p2)
        (objs1.flatMap fun p1 => (objs2.filter (p1 ≠ ·)).map fun p2 => decide (o1 = p1 ∧ o2 = p2)) := by
      have hsame : List.Forall₂ (· = ·) objs1 objs1 := List.forall₂_same.mpr fun _ _ => rfl
      refine List.rel_flatMap hsame ?_
      rintro p1 _ rfl
      rw [List.forall₂_map_left_iff, List.forall₂_map_right_iff, List.forall₂_same]
      exact fun p2 _ => computes_bothEqual hp hq
    have hany : (objs1.flatMap fun p1 => (objs2.filter (p1 ≠ ·)).map fun p2 =>
        decide (o1 = p1 ∧ o2 = p2)).any id = !decide (o1 = o2) := by
      rw [Bool.eq_iff_iff]
      simp only [List.any_eq_true, List.mem_flatMap, List.mem_map, List.mem_filter, decide_eq_true_eq,
        id_eq, Bool.not_eq_true', decide_eq_false_iff_not]
      constructor
      · rintro ⟨b, ⟨p1, hp1, p2, ⟨hp2, hne⟩, rfl⟩, hb⟩
        obtain ⟨rfl, rfl⟩ := of_decide_eq_true hb
        exact hne
      · exact fun hne => ⟨true, ⟨o1, ho1, o2, ⟨ho2, hne⟩, by simp⟩, rfl⟩
    rw [isTrue_bool, equals_object, isFalse_bool, ← hany]
    exact computes_disjunction hcomputes
  · cases hs

theorem isObjectTyped_isSome {exp : Expression} {i : ℕ} {a : ExprTree} {operands : List ℕ}
    {w : ConstantNode} (hin : InDomains domains (getValue assignments))
    (hi : exp[i]? = some (a.root.withOperands operands))
    (hw : a.value core (getValue assignments) = some w) : ∃ b, isObjectTyped domains exp i = some b := by
  obtain ⟨e, args⟩ := a
  simp only [isObjectTyped, hi, Option.bind_eq_bind, Option.bind_some]
  rw [ExprTree.value, Option.bind_eq_some_iff] at hw
  obtain ⟨vs, -, hw⟩ := hw
  cases e with
  | fluent f =>
    obtain ⟨d, hd, -⟩ := hin f w hw
    exact ⟨decide (d.kind = .object),
      by simp [isObjectTypedOperand, ExprTree.root, ExpressionNode.withOperands, hd]⟩
  | constant v => cases v <;> exact ⟨_, rfl⟩
  | operator | interpretedFunction => exact ⟨_, rfl⟩

theorem isNumericOperator_isSome {t : ExprTree} {v : ConstantNode} (post : Expression)
    (hproper : t.proper = true) (hin : InDomains domains (getValue assignments))
    (hv : t.value core (getValue assignments) = some v) :
    ∃ b, isNumericOperator domains (t.layout 0 ++ post)
      (t.root.withOperands (ExprTree.roots 0 t.args)) = some b := by
  obtain ⟨e, args⟩ := t
  cases e with
  | fluent | constant | interpretedFunction => exact ⟨false, rfl⟩
  | operator kind operands =>
    cases kind with
    | eq =>
      rw [ExprTree.proper, Bool.and_eq_true] at hproper
      obtain ⟨a, b, rfl⟩ := List.length_eq_two.mp (of_decide_eq_true hproper.1)
      obtain ⟨w, w', hw, hw', -⟩ := value_eq hv
      rw [ExprTree.layout_pair, List.append_assoc]
      simp only [ExprTree.root, ExprTree.args, ExpressionNode.withOperands, ExprTree.roots_pair,
        isNumericOperator]
      obtain ⟨c, hc⟩ := isObjectTyped_isSome hin (getElem?_first a b _) hw
      obtain ⟨c', hc'⟩ := isObjectTyped_isSome hin (getElem?_second a b _) hw'
      rw [hc, hc']
      cases c <;> exact ⟨_, rfl⟩
    | _ => exact ⟨true, rfl⟩

theorem isNumericLeafExpression_isSome {t : ExprTree} {v : ConstantNode}
    (hproper : t.proper = true) (hin : InDomains domains (getValue assignments))
    (hv : t.value core (getValue assignments) = some v) :
    ∃ b, isNumericLeafExpression domains (t.layout 0) = some b := by
  obtain ⟨e, args⟩ := t
  by_cases hnot : ∃ operands, e = .operator .not operands
  · obtain ⟨operands, rfl⟩ := hnot
    rw [ExprTree.proper, Bool.and_eq_true] at hproper
    obtain ⟨u, rfl⟩ := List.length_eq_one_iff.mp (of_decide_eq_true hproper.1)
    obtain ⟨w, hw, -⟩ := value_not hv
    have hu := isNumericOperator_isSome [.operator .not [u.size - 1]]
      (by simpa [ExprTree.propers] using hproper.2) hin hw
    simp only [isNumericLeafExpression, ExprTree.layout_not, List.getLast?_concat,
      List.getElem?_cons_zero, Option.bind_eq_bind, Option.bind_some, ExprTree.getElem?_layout]
    exact hu
  · have hroot := isNumericOperator_isSome [] hproper hin hv
    rw [List.append_nil] at hroot
    have hlast : ((ExprTree.node e args).layout 0).getLast? =
        some (e.withOperands (ExprTree.roots 0 args)) := by rw [ExprTree.layout, List.getLast?_concat]
    simp only [isNumericLeafExpression, hlast]
    cases e with
    | operator kind operands =>
      cases kind with
      | not => exact absurd ⟨operands, rfl⟩ hnot
      | _ => exact hroot
    | fluent | constant | interpretedFunction => exact hroot

/-- Rewriting a leaf succeeds and keeps its truth. -/
theorem simplifyLeaf_spec {t : ExprTree} {v : ConstantNode} (disableNumericReasoning : Bool)
    (hwf : t.wellFormed = true) (hproper : t.proper = true)
    (hin : InDomains domains (getValue assignments))
    (halike : t.ComparesAlike core (getValue assignments))
    (hv : t.value core (getValue assignments) = some v) :
    ∃ r, simplifyLeaf core domains (t.layout 0) disableNumericReasoning = some r ∧
      ∀ h, r = some h → Computes (core.holds · assignments) h (core.isTrue v) := by
  rw [simplifyLeaf]
  by_cases hif : hasInterpretedFunction (t.layout 0) = true
  · rw [if_pos hif]
    exact ⟨none, rfl, by simp⟩
  · rw [if_neg hif]
    obtain ⟨b, hb⟩ := isNumericLeafExpression_isSome hproper hin hv
    simp only [hb, Option.bind_eq_bind, Option.bind_some]
    cases b with
    | true =>
      refine ⟨_, rfl, fun h hh => ?_⟩
      cases disableNumericReasoning with
      | true => cases hh
      | false => exact simplifyNumericLeafNode_spec hwf hproper hin halike (by simpa using hif) hb hv hh
    | false =>
      obtain ⟨r, hr, hspec⟩ := simplifyFluentNotEqualsObject_spec hproper hin halike hv
      simp only [hr, Option.bind_some, Bool.false_eq_true, if_false]
      cases r with
      | some h => exact ⟨some h, rfl, hspec⟩
      | none => exact ⟨_, rfl, fun h hh => simplifyObjectEquality_spec hproper hin hv hh⟩

/-- Rewriting leaves that keep their truth keeps that of the condition. -/
theorem simplifyCondition_spec {disableNumericReasoning : Bool} {h : HeuristicExpression}
    (hleaf : ∀ e, .leaf e ∈ h → ∃ r, simplifyLeaf core domains e disableNumericReasoning = some r ∧
      ∀ h', r = some h' → Computes (core.holds · assignments) h' (core.holds e assignments)) :
    ∃ h', simplifyCondition core domains disableNumericReasoning h = some h' ∧
      ∀ stack, h'.foldl (truthStep (core.holds · assignments)) stack =
        h.foldl (truthStep (core.holds · assignments)) stack := by
  induction h with
  | nil => exact ⟨[], rfl, fun _ => rfl⟩
  | cons node h ih =>
    obtain ⟨h', hh', hfold⟩ := ih fun e he => hleaf e (List.mem_cons_of_mem node he)
    cases node with
    | leaf e =>
      obtain ⟨r, hr, hspec⟩ := hleaf e List.mem_cons_self
      refine ⟨r.getD [.leaf e] ++ h', by simp [simplifyCondition, hr, hh'], fun stack => ?_⟩
      rw [List.foldl_append, List.foldl_cons, hfold]
      cases r with
      | none => rfl
      | some h'' =>
        rw [Option.getD_some, hspec h'' rfl]
        rfl
    | and n =>
      refine ⟨.and n :: h', by simp [simplifyCondition, hh'], fun stack => ?_⟩
      rw [List.foldl_cons, List.foldl_cons, hfold]
    | or n =>
      refine ⟨.or n :: h', by simp [simplifyCondition, hh'], fun stack => ?_⟩
      rw [List.foldl_cons, List.foldl_cons, hfold]

theorem isCondition_of_arg {e : ExpressionNode} {args : List ExprTree}
    (h : (ExprTree.node e args).IsCondition core (getValue assignments)) :
    ∀ t ∈ args, t.IsCondition core (getValue assignments) := by
  obtain ⟨hwf, hproper, ⟨-, halike⟩, v, hv⟩ := h
  rw [ExprTree.wellFormed, Bool.and_eq_true] at hwf
  have hpropers : ExprTree.propers args = true := by
    cases e with
    | operator kind operands =>
      rw [ExprTree.proper, Bool.and_eq_true] at hproper
      exact hproper.2
    | fluent | constant | interpretedFunction => exact hproper
  rw [ExprTree.value, Option.bind_eq_some_iff] at hv
  obtain ⟨vs, hvs, -⟩ := hv
  have hwfs := hwf.2
  clear hwf hproper
  induction args generalizing vs with
  | nil => simp
  | cons t ts ih =>
    rw [ExprTree.wellFormeds, Bool.and_eq_true] at hwfs
    rw [ExprTree.propers, Bool.and_eq_true] at hpropers
    rw [ExprTree.values_cons, Option.bind_eq_some_iff] at hvs
    obtain ⟨w, hw, hvs⟩ := hvs
    obtain ⟨vs', hvs', -⟩ := Option.map_eq_some_iff.mp hvs
    intro u hu
    rcases List.mem_cons.mp hu with rfl | hu
    · exact ⟨hwfs.1, hpropers.1, halike.1, w, hw⟩
    · exact ih halike.2 hpropers.2 vs' hvs' hwfs.2 u hu

/-- The leaves of a converted condition are conditions. -/
theorem exists_of_leaf (t : ExprTree) : ∀ e, t.IsCondition core (getValue assignments) →
    .leaf e ∈ t.heuristic → ∃ u : ExprTree, e = u.layout 0 ∧ u.IsCondition core (getValue assignments) := by
  induction t using ExprTree.rec (motive_2 := fun ts => ∀ e,
    (∀ t ∈ ts, t.IsCondition core (getValue assignments)) → .leaf e ∈ (ExprTree.heuristics ts).flatten →
    ∃ u : ExprTree, e = u.layout 0 ∧ u.IsCondition core (getValue assignments)) with
  | node e args ih =>
    intro x h hx
    have hargs := isCondition_of_arg h
    have hself : .leaf x ∈ [HeuristicNode.leaf ((ExprTree.node e args).layout 0)] →
        ∃ u : ExprTree, x = u.layout 0 ∧ u.IsCondition core (getValue assignments) := by
      intro hx
      rw [List.mem_singleton, HeuristicNode.leaf.injEq] at hx
      exact ⟨_, hx, h⟩
    have hconnective : ∀ node, (∀ y, node ≠ HeuristicNode.leaf y) →
        .leaf x ∈ (ExprTree.heuristics args).reverse.flatten ++ [node] →
        ∃ u : ExprTree, x = u.layout 0 ∧ u.IsCondition core (getValue assignments) := by
      intro node hnode hx
      refine ih x hargs ?_
      rcases List.mem_append.mp hx with hx | hx
      · simpa using hx
      · exact absurd (List.mem_singleton.mp hx).symm (hnode x)
    cases e with
    | operator kind operands =>
      cases kind with
      | and => exact hconnective (.and args.length) (by simp) hx
      | or => exact hconnective (.or args.length) (by simp) hx
      | _ => exact hself hx
    | constant c =>
      cases c with
      | bool b =>
        cases b with
        | true => simp [ExprTree.heuristic] at hx
        | false => exact hself hx
      | num | object => exact hself hx
    | fluent | interpretedFunction => exact hself hx
  | nil x _ hx => cases hx
  | cons t ts ih ihs x h hx =>
    rw [ExprTree.heuristics, List.flatten_cons, List.mem_append] at hx
    rcases hx with hx | hx
    · exact ih x (h t List.mem_cons_self) hx
    · exact ihs x (fun u hu => h u (List.mem_cons_of_mem t hu)) hx

/-- The condition an expression is converted into and rewritten to is true in a state
exactly when the expression is. -/
theorem simplified_holds_iff {t : ExprTree} (disableNumericReasoning : Bool)
    (h : t.IsCondition core (getValue assignments)) (hin : InDomains domains (getValue assignments)) :
    ∃ c c', convertToHeuristicExpression (t.layout 0) = some c ∧
      simplifyCondition core domains disableNumericReasoning c = some c' ∧
      c'.isTrue (core.holds · assignments) = some (core.holds (t.layout 0) assignments) := by
  obtain ⟨v, hv⟩ := h.value
  have hcomputes := ExprTree.computes_heuristic t v h.wellFormed hv
  have hspec : ∃ c', simplifyCondition core domains disableNumericReasoning t.heuristic = some c' ∧
      ∀ stack, c'.foldl (truthStep (core.holds · assignments)) stack =
        t.heuristic.foldl (truthStep (core.holds · assignments)) stack := by
    refine simplifyCondition_spec fun e he => ?_
    obtain ⟨u, rfl, hu⟩ := exists_of_leaf t e h he
    obtain ⟨w, hw⟩ := hu.value
    rw [holds_of_value hu.wellFormed hw]
    exact simplifyLeaf_spec disableNumericReasoning hu.wellFormed hu.proper hin hu.comparesAlike hw
  obtain ⟨c', hc', hfold⟩ := hspec
  refine ⟨_, c', ExprTree.convertToHeuristicExpression_layout h.wellFormed, hc', ?_⟩
  rw [holds_of_value h.wellFormed hv]
  exact Computes.isTrue fun stack => (hfold stack).trans (hcomputes stack)

end Specs

section Door

attribute [local instance] Callables.empty

/-- A fluent that does not hold the second object, and a number that is 3. -/
def door : ExprTree :=
  .node (.operator .and []) [
    .node (.operator .not []) [
      .node (.operator .eq []) [.node (.fluent ⟨0⟩) [], .node (.constant (.object ⟨1⟩)) []]],
    .node (.operator .eq []) [.node (.fluent ⟨1⟩) [], .node (.constant (.num 3)) []]]

theorem simplified_holds_iff_door :
    ∃ c c', convertToHeuristicExpression (door.layout 0) = some c ∧
      simplifyCondition .python [⟨.object, [⟨0⟩, ⟨1⟩]⟩, ⟨.int, []⟩] false c = some c' ∧
      c'.isTrue (Core.holds .python · [.object ⟨0⟩, .num 3]) =
        some (Core.holds .python (door.layout 0) [.object ⟨0⟩, .num 3]) := by
  have hin : InDomains [⟨.object, [⟨0⟩, ⟨1⟩]⟩, ⟨.int, []⟩] (getValue [.object ⟨0⟩, .num 3]) := by
    rintro ⟨i⟩ v hv
    match i, hv with
    | 0, hv =>
      obtain rfl := Option.some.inj hv
      exact ⟨_, rfl, fun _ => ⟨⟨0⟩, by simp, rfl⟩, fun h => absurd rfl h⟩
    | 1, hv =>
      obtain rfl := Option.some.inj hv
      exact ⟨_, rfl, (fun h => by cases h), fun _ o => by simp⟩
  have hcondition : door.IsCondition .python (getValue [.object ⟨0⟩, .num 3]) := by
    refine ⟨rfl, rfl, ?_, .bool true, by decide +kernel⟩
    simp [door, ExprTree.ComparesAlike, ExprTree.AllCompareAlike, ExprTree.values, ExprTree.value,
      Core.nodeValue, getValue, Alike, Core.number, ConstantNode.toNum]
  exact simplified_holds_iff false hcondition hin

end Door

end TamerLite
