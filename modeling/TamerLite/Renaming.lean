import TamerLite.Classical
import TamerLite.Trace

/-! Renaming the fluents, the objects and the actions of a search space without temporal
actions: what an expression and an effect make of a renamed state, and when a renamed plan is
a plan again. -/

namespace TamerLite

open SearchSpace

structure Renaming where
  fluent : Equiv.Perm Fluent
  object : Equiv.Perm Object
  action : Action → Action

namespace Renaming

variable (ρ : Renaming)

def value : ConstantNode → ConstantNode
  | .object o => .object (ρ.object o)
  | v => v

def node : ExpressionNode → ExpressionNode
  | .fluent f => .fluent (ρ.fluent f)
  | .constant v => .constant (ρ.value v)
  | e => e

def expression (exp : Expression) : Expression := exp.map ρ.node

def effect (e : Effect) : Effect := ⟨ρ.fluent e.fluent, ρ.expression e.value⟩

/-- What one state assigns to a fluent, the other assigns, renamed, to the renamed fluent. -/
def Related (A B : Assignments) : Prop :=
  ∀ f, getValue B (ρ.fluent f) = (getValue A f).map ρ.value

variable {ρ} {A A' B : Assignments} {res : List ConstantNode}

@[simp] theorem value_bool (b : Bool) : ρ.value (.bool b) = .bool b := rfl

@[simp] theorem value_num (q : ℚ) : ρ.value (.num q) = .num q := rfl

@[simp] theorem truthy_value (v : ConstantNode) : (ρ.value v).truthy = v.truthy := by
  cases v <;> rfl

@[simp] theorem toNum_value (v : ConstantNode) : (ρ.value v).toNum = v.toNum := by
  cases v <;> rfl

@[simp] theorem eqv_value (v w : ConstantNode) : (ρ.value v).eqv (ρ.value w) = v.eqv w := by
  cases v <;> cases w <;> simp [value, ConstantNode.eqv, ConstantNode.toNum]

theorem coerce_value (rt : IfReturnType) (v : ConstantNode) :
    (ρ.value v).coerce rt = (v.coerce rt).map ρ.value := by
  cases rt <;> cases v <;> rfl

theorem evalAnd_map (is : List ℕ) : evalAnd (res.map ρ.value) is = evalAnd res is := by
  induction is with
  | nil => rfl
  | cons i is ih =>
    rw [evalAnd, evalAnd, List.getElem?_map]
    cases res[i]? with
    | none => rfl
    | some v => simp [ih]

theorem evalOr_map (is : List ℕ) : evalOr (res.map ρ.value) is = evalOr res is := by
  induction is with
  | nil => rfl
  | cons i is ih =>
    rw [evalOr, evalOr, List.getElem?_map]
    cases res[i]? with
    | none => rfl
    | some v => simp [ih]

theorem operandNum_map (i : ℕ) : operandNum (res.map ρ.value) i = operandNum res i := by
  rw [operandNum, operandNum, List.getElem?_map]
  cases res[i]? with
  | none => rfl
  | some v => simp

theorem operandNums_map (operands : List ℕ) :
    operandNums (res.map ρ.value) operands = operandNums res operands := by
  simp only [operandNums, operandNum_map]

theorem evalFold_map (f : ℚ → ℚ → ℚ) (is : List ℕ) :
    evalFold f (res.map ρ.value) is = evalFold f res is := by
  cases is with
  | nil => rfl
  | cons i is => simp only [evalFold, operandNum_map]

/-- An operator sees no more of an object than which it is. -/
theorem evalOperator_map (kind : OperatorKind) (operands : List ℕ) :
    evalOperator kind operands (res.map ρ.value) = (evalOperator kind operands res).map ρ.value := by
  cases kind with
  | and => simp [evalOperator, evalAnd_map, Function.comp_def]
  | or => simp [evalOperator, evalOr_map, Function.comp_def]
  | not =>
    simp only [evalOperator, List.getElem?_map]
    cases operands[0]? with
    | none => rfl
    | some i => cases h : res[i]? <;> simp [h]
  | eq =>
    simp only [evalOperator, List.getElem?_map]
    cases operands[0]? with
    | none => rfl
    | some i =>
      cases operands[1]? with
      | none => cases res[i]? <;> simp
      | some j => cases h : res[i]? <;> cases h' : res[j]? <;> simp [h, h']
  | le => simp [evalOperator, operandNums_map, Function.comp_def]
  | lt => simp [evalOperator, operandNums_map, Function.comp_def]
  | plus => simp [evalOperator, evalFold_map, Function.comp_def]
  | minus => simp [evalOperator, operandNums_map, Function.comp_def]
  | times => simp [evalOperator, evalFold_map, Function.comp_def]
  | div =>
    simp only [evalOperator, operandNums_map]
    cases operandNums res operands with
    | none => rfl
    | some p => by_cases h : p.2 = 0 <;> simp [h]

theorem mapM_getElem?_map (operands : List ℕ) :
    operands.mapM ((res.map ρ.value)[·]?) = (operands.mapM (res[·]?)).map (List.map ρ.value) := by
  induction operands with
  | nil => rfl
  | cons i is ih =>
    rw [List.mapM_cons, List.mapM_cons, ih, List.getElem?_map]
    cases res[i]? with
    | none => rfl
    | some v => cases is.mapM (res[·]?) <;> rfl

theorem Related.set (h : ρ.Related A B) (f : Fluent) (v : ConstantNode) :
    ρ.Related (A.set f.idx v) (B.set (ρ.fluent f).idx (ρ.value v)) := by
  intro g
  rw [getValue_set, getValue_set]
  by_cases hg : g = f
  · rw [if_pos hg, if_pos (congrArg ρ.fluent hg), h g]
    cases getValue A g <;> rfl
  · rw [if_neg hg, if_neg fun he => hg (ρ.fluent.injective he), h g]

variable (ρ) in
/-- The interpreted functions see no more of an object than which it is. -/
def KeepsCallables [Callables] : Prop := ∀ fn args,
  Callables.function fn (args.map ρ.value) = (Callables.function fn args).map ρ.value

variable [Callables]

theorem evalNode_node (hρ : ρ.KeepsCallables) (h : ρ.Related A B) (e : ExpressionNode) :
    evalNode (getValue B) (res.map ρ.value) (ρ.node e) =
      (evalNode (getValue A) res e).map ρ.value := by
  cases e with
  | operator kind operands => exact evalOperator_map kind operands
  | fluent f => exact h f
  | constant v => rfl
  | interpretedFunction fn rt operands =>
    simp only [node, evalNode, mapM_getElem?_map]
    cases operands.mapM (res[·]?) with
    | none => rfl
    | some args =>
      simp only [Option.map_some, Option.bind_eq_bind, Option.bind_some, hρ fn args]
      cases Callables.function fn args with
      | none => rfl
      | some r => exact coerce_value rt r

theorem evalNodes_expression (hρ : ρ.KeepsCallables) (h : ρ.Related A B) (exp : Expression)
    (res : List ConstantNode) : evalNodes (getValue B) (ρ.expression exp) (res.map ρ.value) =
      (evalNodes (getValue A) exp res).map (List.map ρ.value) := by
  induction exp generalizing res with
  | nil => rfl
  | cons e exp ih =>
    simp only [evalNodes, expression, List.map_cons, List.foldlM_cons, evalNode_node hρ h]
    cases evalNode (getValue A) res e with
    | none => rfl
    | some v =>
      have happ : res.map ρ.value ++ [ρ.value v] = (res ++ [v]).map ρ.value := by
        rw [List.map_append, List.map_singleton]
      simp only [Option.map_some, Option.bind_eq_bind, Option.bind_some, happ]
      exact ih (res ++ [v])

/-- A renamed expression has the renamed value. -/
theorem evaluate_expression (hρ : ρ.KeepsCallables) (h : ρ.Related A B) (exp : Expression) :
    evaluate (ρ.expression exp) B = (evaluate exp A).map ρ.value := by
  have hnodes := evalNodes_expression hρ h exp []
  rw [List.map_nil] at hnodes
  simp only [evaluate, hnodes]
  cases evalNodes (getValue A) exp [] with
  | none => rfl
  | some res => exact List.getLast?_map

theorem holds_expression (hρ : ρ.KeepsCallables) (h : ρ.Related A B) (exp : Expression) :
    holds (ρ.expression exp) B = holds exp A := by
  rw [holds, holds, evaluate_expression hρ h]
  cases evaluate exp A with
  | none => rfl
  | some v => exact truthy_value v

theorem Related.applyEffects (hρ : ρ.KeepsCallables) (h : ρ.Related A B) {effects : List Effect}
    {C D C' : Assignments} (hC : ρ.Related C D)
    (hC' : SearchSpace.applyEffects effects A C = some C') :
    ∃ D', SearchSpace.applyEffects (effects.map ρ.effect) B D = some D' ∧ ρ.Related C' D' := by
  induction effects generalizing C D with
  | nil =>
    obtain rfl := Option.some.inj hC'
    exact ⟨D, rfl, hC⟩
  | cons eff effects ih =>
    obtain ⟨v, hv, hrest⟩ := applyEffects_cons.mp hC'
    obtain ⟨D', hD', hrel⟩ := ih (hC.set eff.fluent v) hrest
    refine ⟨D', applyEffects_cons.mpr ⟨ρ.value v, ?_, hD'⟩, hrel⟩
    show evaluate (ρ.expression eff.value) B = some (ρ.value v)
    rw [evaluate_expression hρ h, hv, Option.map_some]

end Renaming

/-! ### Plans -/

variable [Callables]

/-- `e'` is `e` renamed. Its conditions may be written in another way. -/
structure Renaming.OfEvent (ρ : Renaming) (e e' : Event) : Prop where
  conditions : ∀ A B, ρ.Related A B → holds e.conditions A = true → holds e'.conditions B = true
  effects : e'.effects = e.effects.map ρ.effect
  endConditions : e.endConditions = [] → e'.endConditions = []

/-- The renaming leaves the search space as it is: renaming an action renames its first event,
and the initial state and the goal stay the same. -/
structure SearchSpace.Renames (ss : SearchSpace) (ρ : Renaming) : Prop where
  callables : ρ.KeepsCallables
  events : ∀ {a : Action} {le : List (Timing × Event)} {te : Timing × Event},
    ss.events a = some le → le[0]? = some te → ∃ le' te',
      ss.events (ρ.action a) = some le' ∧ le'[0]? = some te' ∧ ρ.OfEvent te.2 te'.2
  initialState : ρ.Related ss.initialState ss.initialState
  goal : ∀ A B, ρ.Related A B → holds ss.goal A = true → holds ss.goal B = true

variable {ss : SearchSpace} {tn : DeltaSimpleTemporalNetwork} {b : Bool} {ρ : Renaming}
  {A A' B : Assignments} {a : Action} {as relevantActions : List Action}

namespace SearchSpace.Renames

theorem apply (h : ss.Renames ρ) (ht : ¬ ss.isTemporal = true) (hr : ρ.Related A B)
    (ha : ss.apply A a = some A') :
    ∃ B', ss.apply B (ρ.action a) = some B' ∧ ρ.Related A' B' := by
  obtain ⟨le, te, hle, hte, hc, -, hend, -, heff⟩ := (apply_eq_some ht).mp ha
  obtain ⟨le', te', hle', hte', hev⟩ := h.events hle hte
  obtain ⟨B', hB', hrel⟩ := hr.applyEffects h.callables hr heff
  have hend' := hev.endConditions hend
  have hstart := startConditions_of_classical ht hle' hte' hend'
  refine ⟨B', (apply_eq_some ht).mpr ⟨le', te', hle', hte', hev.conditions A B hr hc, ?_, hend',
    hstart, by rwa [hev.effects]⟩, hrel⟩
  simp [effectIndependentStartConditionsHold, effectIndependentStartConditions, hstart]

theorem applyAll (h : ss.Renames ρ) (ht : ¬ ss.isTemporal = true) (hr : ρ.Related A B)
    (ha : ss.applyAll A as = some A') :
    ∃ B', ss.applyAll B (as.map ρ.action) = some B' ∧ ρ.Related A' B' := by
  induction as generalizing A B with
  | nil =>
    obtain rfl := Option.some.inj ha
    exact ⟨B, rfl, hr⟩
  | cons a as ih =>
    obtain ⟨A₁, hA₁, hrest⟩ := applyAll_cons.mp ha
    obtain ⟨B₁, hB₁, hr₁⟩ := h.apply ht hr hA₁
    obtain ⟨B', hB', hr'⟩ := ih hr₁ hrest
    exact ⟨B', applyAll_cons.mpr ⟨B₁, hB₁, hB'⟩, hr'⟩

/-- A plan renamed is a plan. -/
theorem acceptedWithin (h : ss.Renames ρ) (ht : ¬ ss.isTemporal = true)
    (hrel : ∀ a ∈ relevantActions, ρ.action a ∈ relevantActions)
    (ha : AcceptedWithin ss.withoutSymmetry tn b relevantActions as) :
    AcceptedWithin ss.withoutSymmetry tn b relevantActions (as.map ρ.action) := by
  obtain ⟨⟨A, hA, hg⟩, has⟩ := (acceptedWithin_free ht).mp ha
  obtain ⟨B, hB, hr⟩ := h.applyAll ht h.initialState hA
  refine (acceptedWithin_free ht).mpr ⟨⟨B, hB, h.goal A B hr hg⟩, fun x hx => ?_⟩
  obtain ⟨a, ha, rfl⟩ := List.mem_map.mp hx
  exact hrel a (has a ha)

end SearchSpace.Renames

end TamerLite
