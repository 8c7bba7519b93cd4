import TamerLite.ExpressionTree
import TamerLite.SlotValues

/-! Cutting a subtree out of an expression and splitting a conjunction, and that
both keep the values. -/

namespace TamerLite

namespace ExprTree

theorem operands_withOperands {e : ExpressionNode} {args : List ExprTree} {n : ℕ}
    (h : arityOk e args = true) : (e.withOperands (roots n args)).operands = roots n args := by
  cases e with
  | operator kind operands => rfl
  | interpretedFunction fn rt operands => rfl
  | fluent | constant =>
    obtain rfl : args = [] := List.isEmpty_iff.mp h
    rfl

theorem firstNode_node {exp : Expression} {fuel i : ℕ} {e : ExpressionNode} {args : List ExprTree}
    {n : ℕ} (h : arityOk e args = true) (hi : exp[i]? = some (e.withOperands (roots n args))) :
    firstNode exp (fuel + 1) i = match roots n args with
      | [] => i
      | j :: _ => firstNode exp fuel j := by
  rw [firstNode, hi]
  cases e with
  | operator kind operands => cases roots n args <;> rfl
  | interpretedFunction fn rt operands => cases roots n args <;> rfl
  | fluent | constant =>
    obtain rfl : args = [] := List.isEmpty_iff.mp h
    rfl

/-- Following the first operands leads to where the tree was laid out from. -/
theorem firstNode_layout {exp : Expression} (u : ExprTree) : ∀ (pre post : Expression)
    (fuel : ℕ), u.wellFormed = true → exp = pre ++ u.layout pre.length ++ post → u.size ≤ fuel →
    firstNode exp fuel (pre.length + u.size - 1) = pre.length := by
  induction u using ExprTree.rec (motive_2 := fun us => ∀ (pre post : Expression) (fuel : ℕ),
    wellFormeds us = true → exp = pre ++ layouts pre.length us ++ post → sizes us ≤ fuel →
    ∀ j ∈ (roots pre.length us).head?, firstNode exp fuel j = pre.length) with
  | node e args ih =>
    intro pre post fuel hwf hexp hfuel
    rw [wellFormed, Bool.and_eq_true] at hwf
    rw [size] at hfuel ⊢
    obtain ⟨fuel, rfl⟩ : ∃ k, fuel = k + 1 := ⟨fuel - 1, by omega⟩
    have hget : exp[pre.length + sizes args]? = some (e.withOperands (roots pre.length args)) := by
      rw [hexp, layout, List.append_assoc, List.append_assoc, List.getElem?_append_right (by omega),
        Nat.add_sub_cancel_left, List.getElem?_append_right (by simp)]
      simp
    rw [show pre.length + (sizes args + 1) - 1 = pre.length + sizes args by omega,
      firstNode_node hwf.1 hget]
    have hargs := ih pre ([e.withOperands (roots pre.length args)] ++ post) fuel hwf.2
      (by rw [hexp, layout]; simp) (by omega)
    cases args with
    | nil => rfl
    | cons t ts => exact hargs _ rfl
  | nil pre post fuel _ _ _ j hj => cases hj
  | cons t ts ih _ pre post fuel hwf hexp hfuel j hj =>
    rw [wellFormeds, Bool.and_eq_true] at hwf
    rw [sizes] at hfuel
    obtain rfl : pre.length + t.size - 1 = j := Option.some.inj hj
    exact ih pre (layouts (pre.length + t.size) ts ++ post) fuel hwf.1
      (by rw [hexp, layouts]; simp) (by omega)

/-- What is extracted at the root of a laid out subtree is that tree. -/
theorem extractSubExpression_layout {exp pre post : Expression} {u : ExprTree}
    (hwf : u.wellFormed = true) (hexp : exp = pre ++ u.layout pre.length ++ post) {i : ℕ}
    (hi : i + 1 = pre.length + u.size) : extractSubExpression exp i = u.layout 0 := by
  have hlen : u.size ≤ exp.length := by
    rw [hexp]
    simp only [List.length_append, length_layout]
    omega
  have hstart : firstNode exp exp.length i = pre.length := by
    have h := firstNode_layout u pre post exp.length hwf hexp hlen
    rwa [show pre.length + u.size - 1 = i by omega] at h
  have hslice : slice exp pre.length (i + 1) = u.layout pre.length := by
    rw [slice, hexp, List.append_assoc, hi, List.take_length_add_append, List.drop_left,
      ← length_layout pre.length u, List.take_left]
  rw [extractSubExpression, hstart, hslice, layout_eq_shift, shiftExpression_shiftExpression]

end ExprTree

/-! ### Values of subtrees -/

section Shift

variable {α : Type} (p : α → Bool) (res r : List α)

theorem allOperands_shift (operands : List ℕ) :
    allOperands p (res ++ r) (operands.map (· + res.length)) = allOperands p r operands := by
  induction operands with
  | nil => rfl
  | cons i operands ih =>
    have hi : (res ++ r)[i + res.length]? = r[i]? := by
      rw [List.getElem?_append_right (by omega), Nat.add_sub_cancel]
    simp only [List.map_cons, allOperands, hi, ih]

theorem anyOperands_shift (operands : List ℕ) :
    anyOperands p (res ++ r) (operands.map (· + res.length)) = anyOperands p r operands := by
  induction operands with
  | nil => rfl
  | cons i operands ih =>
    have hi : (res ++ r)[i + res.length]? = r[i]? := by
      rw [List.getElem?_append_right (by omega), Nat.add_sub_cancel]
    simp only [List.map_cons, anyOperands, hi, ih]

end Shift

namespace Core

theorem evalOperatorRust_shift (kind : OperatorKind) (operands : List ℕ)
    (res r : List ConstantNode) :
    evalOperatorRust kind (operands.map (· + res.length)) (res ++ r) =
      evalOperatorRust kind operands r := by
  cases kind with
  | and => simp only [evalOperatorRust, allOperands_shift]
  | or => simp only [evalOperatorRust, anyOperands_shift]
  | not =>
    simp only [evalOperatorRust, List.getElem?_map]
    cases operands[0]? <;> simp [getElem?_shift]
  | eq | le | lt | minus | div =>
    simp only [evalOperatorRust, List.getElem?_map]
    cases operands[0]? <;> cases operands[1]? <;> simp [getElem?_shift]
  | plus | times =>
    cases operands with
    | nil => rfl
    | cons i operands =>
      simp only [evalOperatorRust, List.map_cons, getElem?_shift, List.foldlM_map]

variable [Callables] {get : Fluent → Option ConstantNode}

theorem evalNode_shift (core : Core) (res r : List ConstantNode) (e : ExpressionNode) :
    core.evalNode get (res ++ r) (shiftNode res.length e) = core.evalNode get r e := by
  cases core with
  | python =>
    have h : TamerLite.evalNode get (res ++ r) (shiftNode res.length e) = TamerLite.evalNode get r e :=
      TamerLite.evalNode_shift res r e
    cases e <;> exact h
  | rust =>
    cases e with
    | operator kind operands =>
      show evalOperatorRust kind _ (res ++ r) = evalOperatorRust kind operands r
      rw [← evalOperatorRust_shift kind operands res r]
      congr 1
    | fluent | constant => rfl
    | interpretedFunction fn rt operands =>
      have h : TamerLite.evalNode get (res ++ r)
          (shiftNode res.length (.interpretedFunction fn rt operands)) =
          TamerLite.evalNode get r (.interpretedFunction fn rt operands) :=
        TamerLite.evalNode_shift res r _
      exact h

theorem evalNodes_cons (core : Core) (e : ExpressionNode) (x : Expression)
    (res : List ConstantNode) : core.evalNodes get (e :: x) res =
      (core.evalNode get res e).bind fun v => core.evalNodes get x (res ++ [v]) := by
  simp only [evalNodes, List.foldlM_cons, Option.bind_eq_bind]
  cases core.evalNode get res e with
  | none => rfl
  | some v => rfl

theorem evalNodes_append (core : Core) (x y : Expression) (res : List ConstantNode) :
    core.evalNodes get (x ++ y) res =
      (core.evalNodes get x res).bind (core.evalNodes get y) := by
  rw [evalNodes, List.foldlM_append]
  rfl

theorem evalNodes_length {core : Core} {x : Expression} {res r : List ConstantNode}
    (h : core.evalNodes get x res = some r) : r.length = res.length + x.length := by
  induction x generalizing res with
  | nil =>
    obtain rfl := Option.some.inj h
    rfl
  | cons e x ih =>
    rw [evalNodes_cons] at h
    obtain ⟨v, -, h⟩ := Option.bind_eq_some_iff.mp h
    have := ih h
    simp only [List.length_append, List.length_cons, List.length_nil] at this ⊢
    omega

theorem evalNodes_shift (core : Core) (x : Expression) (res r : List ConstantNode) :
    core.evalNodes get (shiftExpression x res.length) (res ++ r) =
      (core.evalNodes get x r).map (res ++ ·) := by
  induction x generalizing r with
  | nil => rfl
  | cons e x ih =>
    rw [shiftExpression, List.map_cons, evalNodes_cons, evalNodes_cons, evalNode_shift]
    cases core.evalNode get r e with
    | none => rfl
    | some v =>
      rw [Option.bind_some, Option.bind_some, List.append_assoc]
      exact ih (r ++ [v])

/-- A laid out tree evaluates as it does on its own. -/
theorem evalNodes_layout (core : Core) (t : ExprTree) (res : List ConstantNode) :
    core.evalNodes get (t.layout res.length) res =
      (core.evalNodes get (t.layout 0) []).map (res ++ ·) := by
  have h : core.evalNodes get (shiftExpression (t.layout 0) res.length) (res ++ []) =
      (core.evalNodes get (t.layout 0) []).map (res ++ ·) := core.evalNodes_shift (t.layout 0) res []
  rwa [List.append_nil, ← ExprTree.layout_eq_shift] at h

/-- What the source asks of a condition: that it is true. -/
def holds (core : Core) (exp : Expression) (assignments : Assignments) : Bool :=
  (core.evaluate exp assignments).any core.isTrue

theorem holds_python (exp : Expression) (assignments : Assignments) :
    python.holds exp assignments = TamerLite.holds exp assignments := by
  rw [holds, evaluate_python]
  rfl

end Core

namespace ExprTree

variable [Callables] (core : Core) (get : Fluent → Option ConstantNode)

mutual

/-- The value of a tree. -/
def value : ExprTree → Option ConstantNode
  | node e args => (values args).bind (core.nodeValue get e)

def values : List ExprTree → Option (List ConstantNode)
  | [] => some []
  | t :: ts => do
    let v ← value t
    let vs ← values ts
    return v :: vs

end

theorem values_cons (t : ExprTree) (ts : List ExprTree) : values core get (t :: ts) =
    (value core get t).bind fun v => (values core get ts).map (v :: ·) := by
  rw [values]
  cases value core get t <;> cases values core get ts <;> rfl

theorem values_eq_mapM (ts : List ExprTree) : values core get ts = ts.mapM (value core get) := by
  induction ts with
  | nil => rfl
  | cons t ts ih =>
    rw [values_cons, List.mapM_cons, ih]
    cases value core get t <;> cases ts.mapM (value core get) <;> rfl

/-- Evaluation leaves the value of a laid out tree at its root, and those of laid out
trees at their roots. -/
theorem evalNodes_value (t : ExprTree) : ∀ res, t.wellFormed = true →
    (∀ v, t.value core get = some v → ∃ r, core.evalNodes get (t.layout res.length) res =
      some (res ++ r ++ [v]) ∧ r.length + 1 = t.size) ∧
    (t.value core get = none → core.evalNodes get (t.layout res.length) res = none) := by
  induction t using ExprTree.rec (motive_2 := fun ts => ∀ res, wellFormeds ts = true →
    (∀ vs, values core get ts = some vs → ∃ r, core.evalNodes get (layouts res.length ts) res =
      some (res ++ r) ∧ r.length = sizes ts ∧ Operands (res ++ r) (roots res.length ts) vs) ∧
    (values core get ts = none → core.evalNodes get (layouts res.length ts) res = none)) with
  | node e args ih =>
    intro res hwf
    rw [wellFormed, Bool.and_eq_true] at hwf
    obtain ⟨hsome, hnone⟩ := ih res hwf.2
    rw [value, layout, Core.evalNodes_append]
    cases hvs : values core get args with
    | none =>
      refine ⟨fun v hv => absurd hv (by simp), fun _ => ?_⟩
      rw [hnone hvs, Option.bind_none]
    | some vs =>
      obtain ⟨r, hr, hlen, hops⟩ := hsome vs hvs
      have hnode : core.evalNode get (res ++ r) (e.withOperands (roots res.length args)) =
          core.nodeValue get e vs := by
        have hops' : Operands (res ++ r) (e.withOperands (roots res.length args)).operands vs := by
          rwa [operands_withOperands hwf.1]
        rw [evalNode_eq hops']
        cases e <;> rfl
      rw [hr, Option.bind_some, Option.bind_some, Core.evalNodes_cons, hnode]
      refine ⟨fun v hv => ⟨r, ?_, by rw [size, hlen]⟩, fun hv => by rw [hv]; rfl⟩
      rw [hv]
      rfl
  | nil res _ =>
    refine ⟨fun vs hvs => ⟨[], ?_, rfl, ?_⟩, fun h => absurd h (by simp [values])⟩
    · rw [List.append_nil]
      rfl
    · obtain rfl := Option.some.inj hvs
      exact .nil
  | cons t ts ih ihs res hwf =>
    rw [wellFormeds, Bool.and_eq_true] at hwf
    obtain ⟨hsome, hnone⟩ := ih res hwf.1
    rw [values_cons, layouts, Core.evalNodes_append]
    cases hv : value core get t with
    | none =>
      refine ⟨fun vs hvs => absurd hvs (by simp), fun _ => ?_⟩
      rw [hnone hv, Option.bind_none]
    | some v =>
      obtain ⟨r, hr, hlen⟩ := hsome v hv
      have hpos : (res ++ r ++ [v]).length = res.length + t.size := by
        simp only [List.length_append, List.length_singleton]
        omega
      obtain ⟨hsome', hnone'⟩ := ihs (res ++ r ++ [v]) hwf.2
      rw [hpos] at hsome' hnone'
      rw [hr, Option.bind_some, Option.bind_some]
      refine ⟨fun vs hvs => ?_, fun h => hnone' (by simpa using h)⟩
      obtain ⟨us, hus, rfl⟩ := Option.map_eq_some_iff.mp hvs
      obtain ⟨r', hr', hlen', hops⟩ := hsome' us hus
      have hassoc : res ++ r ++ [v] ++ r' = res ++ (r ++ v :: r') := by simp
      rw [hassoc] at hr' hops
      refine ⟨_, hr', by simp [sizes]; omega, .cons ?_ hops⟩
      have hroot : res.length + t.size - 1 = (res ++ r).length := by
        simp only [List.length_append]
        omega
      rw [hroot, ← List.append_assoc, List.getElem?_append_right (by omega), Nat.sub_self]
      rfl

/-- A laid out tree evaluates to the tree's value. -/
theorem evaluate_layout {t : ExprTree} (hwf : t.wellFormed = true) (assignments : Assignments) :
    core.evaluate (t.layout 0) assignments = t.value core (getValue assignments) := by
  obtain ⟨hsome, hnone⟩ := evalNodes_value core (getValue assignments) t [] hwf
  rw [Core.evaluate]
  cases hv : t.value core (getValue assignments) with
  | none =>
    rw [show core.evalNodes (getValue assignments) (t.layout 0) [] = none from hnone hv]
    rfl
  | some v =>
    obtain ⟨r, hr, -⟩ := hsome v hv
    rw [show core.evalNodes (getValue assignments) (t.layout 0) [] = _ from hr]
    simp

end ExprTree

/-! ### Extraction and splitting -/

section Meaning

variable {core : Core} {exp : Expression} {assignments : Assignments}

theorem splitExpression_and (operands : List ℕ) (ts : List ExprTree) :
    splitExpression ((ExprTree.node (.operator .and operands) ts).layout 0) =
      ts.map (ExprTree.layout 0) := by
  have hwalk : (ExprTree.node (.operator .and operands) ts).layout 0 =
      Converter.walkNary .and (ts.map (ExprTree.layout 0)) := by
    rw [Converter.walkNary, ExprTree.joinArgs_layouts]
    rfl
  rw [hwalk, splitExpression_walkNary]
  intro x hx
  obtain ⟨t, -, rfl⟩ := List.mem_map.mp hx
  exact t.layout_ne_nil 0

theorem splitExpression_other {e : ExpressionNode} {ts : List ExprTree}
    (he : ∀ operands, e ≠ .operator .and operands) :
    splitExpression ((ExprTree.node e ts).layout 0) = [(ExprTree.node e ts).layout 0] := by
  refine splitExpression_of_ne_and fun operands h => ?_
  rw [ExprTree.layout, List.getLast?_concat, Option.some.injEq] at h
  cases e with
  | operator kind os =>
    obtain ⟨rfl, -⟩ := ExpressionNode.operator.inj h
    exact he os rfl
  | interpretedFunction | fluent | constant => cases h

variable [Callables]

/-- A subtree cut out has the value the evaluation gives its root. -/
theorem evaluate_extractSubExpression (h : IsTree exp) {i : ℕ} (hi : i < exp.length)
    {res : List ConstantNode}
    (hres : core.evalNodes (getValue assignments) (exp.take (i + 1)) [] = some res) :
    core.evaluate (extractSubExpression exp i) assignments = res[i]? := by
  obtain ⟨t, hwf, rfl⟩ := h
  rw [ExprTree.length_layout] at hi
  obtain ⟨pre, u, post, heq, hu, hlen⟩ := t.exists_subtree 0 i hwf hi
  rw [Nat.zero_add] at heq
  have htake : (t.layout 0).take (i + 1) = pre ++ u.layout pre.length := by
    rw [heq, List.take_left' (by simp [hlen])]
  rw [htake, Core.evalNodes_append] at hres
  obtain ⟨r, hr, hres⟩ := Option.bind_eq_some_iff.mp hres
  have hrlen : r.length = pre.length := by simpa using Core.evalNodes_length hr
  rw [← hrlen, Core.evalNodes_layout] at hres
  obtain ⟨r', hr', rfl⟩ := Option.map_eq_some_iff.mp hres
  have hr'len : r'.length = u.size := by simpa using Core.evalNodes_length hr'
  rw [ExprTree.extractSubExpression_layout hu heq hlen, Core.evaluate, hr']
  show r'.getLast? = (r ++ r')[i]?
  have hpos := u.size_pos
  rw [List.getElem?_append_right (by omega), List.getLast?_eq_getElem?]
  congr 1
  omega

theorem holds_layout {t : ExprTree} (hwf : t.wellFormed = true) :
    core.holds (t.layout 0) assignments =
      (t.value core (getValue assignments)).any core.isTrue := by
  rw [Core.holds, ExprTree.evaluate_layout core hwf]

theorem any_values {get : Fluent → Option ConstantNode} (ts : List ExprTree) :
    (ExprTree.values core get ts).any (·.all core.isTrue) =
      ts.all fun t => (t.value core get).any core.isTrue := by
  induction ts with
  | nil => rfl
  | cons t ts ih =>
    rw [ExprTree.values_cons, List.all_cons, ← ih]
    cases t.value core get with
    | none => rfl
    | some v => cases ExprTree.values core get ts <;> simp

/-- A tree is true exactly when all the parts it is split into are. -/
theorem holds_splitExpression (h : IsTree exp) :
    (splitExpression exp).all (core.holds · assignments) = core.holds exp assignments := by
  obtain ⟨⟨e, ts⟩, hwf, rfl⟩ := h
  by_cases he : ∃ operands, e = .operator .and operands
  · obtain ⟨operands, rfl⟩ := he
    have hparts : ∀ t ∈ ts, t.wellFormed = true := by
      rw [ExprTree.wellFormed, Bool.and_eq_true, ExprTree.wellFormeds_iff] at hwf
      exact hwf.2
    have htrue : ∀ b : Bool, core.isTrue (.bool b) = b := by
      intro b
      cases core <;> cases b <;> rfl
    have hall : ∀ ts : List ExprTree, (∀ t ∈ ts, t.wellFormed = true) →
        ((ts.map (ExprTree.layout 0)).all (core.holds · assignments)) =
          ts.all fun t => (t.value core (getValue assignments)).any core.isTrue := by
      intro ts hts
      induction ts with
      | nil => rfl
      | cons t ts ih =>
        rw [List.map_cons, List.all_cons, List.all_cons, holds_layout (hts t List.mem_cons_self),
          ih fun u hu => hts u (List.mem_cons_of_mem t hu)]
    rw [splitExpression_and, hall ts hparts, ← any_values, holds_layout hwf, ExprTree.value]
    cases ExprTree.values core (getValue assignments) ts with
    | none => rfl
    | some vs => exact (htrue (vs.all core.isTrue)).symm
  · push Not at he
    rw [splitExpression_other he]
    simp

/-- The conditions of an event hold exactly when its condition and its end conditions do. -/
theorem holds_getEventConditions (e : Event) (h : IsTree e.conditions) :
    (getEventConditions e).all (core.holds · assignments) =
      (core.holds e.conditions assignments && e.endConditions.all (core.holds · assignments)) := by
  rw [← holds_splitExpression h, ← List.all_append, Bool.eq_iff_iff, List.all_eq_true,
    List.all_eq_true]
  simp only [getEventConditions, List.mem_eraseDups]

/-- Extraction and splitting keep the meaning. -/
theorem sub_expressions_preserve (core : Core) (assignments : Assignments) :
    (∀ exp i res, IsTree exp → i < exp.length →
      core.evalNodes (getValue assignments) (exp.take (i + 1)) [] = some res →
      core.evaluate (extractSubExpression exp i) assignments = res[i]?) ∧
    (∀ exp, IsTree exp →
      (splitExpression exp).all (core.holds · assignments) = core.holds exp assignments) ∧
    ∀ e : Event, IsTree e.conditions → (getEventConditions e).all (core.holds · assignments) =
      (core.holds e.conditions assignments && e.endConditions.all (core.holds · assignments)) :=
  ⟨fun _ _ _ h hi hres => evaluate_extractSubExpression h hi hres,
    fun _ h => holds_splitExpression h, fun e h => holds_getEventConditions e h⟩

end Meaning

section Guard

attribute [local instance] Callables.empty

/-- A fluent, and another one below 3. -/
def guard : Expression :=
  [.fluent ⟨0⟩, .fluent ⟨1⟩, .constant (.num 3), .operator .lt [1, 2], .operator .and [0, 3]]

theorem guard_isTree : IsTree guard :=
  ⟨.node (.operator .and []) [.node (.fluent ⟨0⟩) [],
    .node (.operator .lt []) [.node (.fluent ⟨1⟩) [], .node (.constant (.num 3)) []]], rfl, rfl⟩

theorem sub_expressions_preserve_guard :
    Core.evaluate .python (extractSubExpression guard 3) [.bool true, .num 2] = some (.bool true) ∧
    (splitExpression guard).all (Core.holds .python · [.bool true, .num 2]) = true ∧
    (getEventConditions ⟨⟨0⟩, 0, guard, [], [guard], []⟩).all
      (Core.holds .python · [.bool true, .num 2]) = true := by
  obtain ⟨hextract, hsplit, hevent⟩ := sub_expressions_preserve .python [.bool true, .num 2]
  refine ⟨?_, ?_, ?_⟩
  · exact hextract guard 3 [.bool true, .num 2, .num 3, .bool true] guard_isTree (by decide) rfl
  · exact (hsplit guard guard_isTree).trans rfl
  · exact (hevent ⟨⟨0⟩, 0, guard, [], [guard], []⟩ guard_isTree).trans rfl

end Guard

end TamerLite
