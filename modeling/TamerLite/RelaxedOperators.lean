import TamerLite.HMaxExplicit
import TamerLite.HeuristicSimplification
import TamerLite.RelaxedTask

/-! The delete-relaxation heuristics as they are built from the events of a search
space, and the task that a state gives them. -/

namespace TamerLite

structure Operator where
  action : Action
  condition : HeuristicExpression
  effects : List (Fluent × ConstantNode)
  numericEffects : List (Fluent × NumericEffect)
  cost : ℕ

namespace Operator

/-- The Boolean and object values an effect may give. -/
def propositionalEffects (domains : List FluentDomain) (eff : Effect) : List (Fluent × ConstantNode) :=
  match domains[eff.fluent.idx]? with
  | some ⟨.bool, _⟩ =>
    match eff.value with
    | [.constant (.bool b)] => [(eff.fluent, .bool b)]
    | _ => [(eff.fluent, .bool true), (eff.fluent, .bool false)]
  | some ⟨.object, objects⟩ =>
    match eff.value with
    | [.constant (.object o)] => [(eff.fluent, .object o)]
    | _ => objects.map fun o => (eff.fluent, .object o)
  | _ => []

def numericEffect (domains : List FluentDomain) (eff : Effect) : Option (Fluent × NumericEffect) :=
  match domains[eff.fluent.idx]? with
  | some ⟨.int, _⟩ => some (eff.fluent, updateNumericEffects eff)
  | some ⟨.real, _⟩ => some (eff.fluent, updateNumericEffects eff)
  | _ => none

def constantIncrease (o : Operator) (f : Fluent) : Option ℚ :=
  match o.numericEffects.lookup f with
  | some (.constantIncrease k) => some k
  | _ => none

/-- A constant assignment or a complex effect. -/
def assignsOrComplex (o : Operator) (f : Fluent) : Bool :=
  match o.numericEffects.lookup f with
  | some (.constantAssign _) => true
  | some (.complex _) => true
  | _ => false

/-- `_has_assign_or_complex_effect`. -/
def hasAssignOrComplexEffect (o : Operator) (c : SimpleCondition) : Bool :=
  c.fluents.any o.assignsOrComplex

/-- `_net_effect`: how one application changes the weighted sum. -/
def netEffect (inadmissible : Bool) (o : Operator) (c : SimpleCondition) : ℚ :=
  (c.fluents.zipWith (fun f w =>
    match o.constantIncrease f with
    | some k => w * k
    | none => if inadmissible && o.assignsOrComplex f then -1 else 0) c.weights).sum

/-- The net effects that bound the epsilon of strict conditions. -/
def boundsEpsilon (inadmissible : Bool) (o : Operator) (c : SimpleCondition) : Bool :=
  !(o.hasAssignOrComplexEffect c && !inadmissible) && decide (o.netEffect inadmissible c < 0)

/-- `_achieves`. -/
def achieves (inadmissible : Bool) (o : Operator) (c : SimpleCondition) : Bool :=
  o.hasAssignOrComplexEffect c || decide (o.netEffect inadmissible c < 0)

end Operator

/-- `_build_operator_condition`; the inner `none` is an operator that never applies. -/
def buildOperatorCondition (domains : List FluentDomain) (disableNumericReasoning : Bool)
    (conditions : List Expression) (extraFluent : Fluent) : Option (Option HeuristicExpression) :=
  if [.constant (.bool false)] ∈ conditions then some none
  else do
    let (condition, operands) := joinArgs
      ((conditions.filter fun c => c ≠ [] ∧ c ≠ [.constant (.bool true)]) ++ [[.fluent extraFluent]])
    let exp := if 1 < operands.length then condition ++ [.operator .and operands] else condition
    let h ← convertToHeuristicExpression exp
    return some (← simplifyCondition .python domains disableNumericReasoning h)

/-- The operator of event `i` of an action whose extra fluents start at `base`. No
event may have two numeric effects on one fluent. -/
def Operator.ofEvent (domains : List FluentDomain) (disableNumericReasoning : Bool)
    (timedAction : Option Action) (base : ℕ) (a : Action) (le : List (Timing × Event)) (i : ℕ) (e : Event) :
    Option (Option Operator) :=
  let numericEffects := e.effects.filterMap (numericEffect domains)
  if (numericEffects.map Prod.fst).Nodup then
    (buildOperatorCondition domains disableNumericReasoning (getEventConditions e)
      (previousFluent base le.length i)).map fun c =>
        if i = 0 ∧ timedAction = some a then none
        else c.map fun condition =>
          { action := a
            condition := condition
            effects := (⟨base + i⟩, .bool true) :: e.effects.flatMap (propositionalEffects domains)
            numericEffects := numericEffects
            cost := 1 }
  else none

/-- How the initial cost of a condition is computed. -/
inductive ConditionClass
  | interpreted
  | complex
  | simple (c : SimpleCondition)
  | propositional
deriving DecidableEq

structure DeleteRelaxationHeuristic where
  kind : HeuristicKind
  domains : List FluentDomain
  numRealFluents : ℕ
  layout : List (ℕ × Action × List (Timing × Event))
  operators : List Operator
  goals : HeuristicExpression
  extraGoals : HeuristicExpression
  inadmissibleNumericVariant : Bool
  disableNumericReasoning : Bool

/-- `_conjunction`. -/
def conjunction (parts : List HeuristicExpression) : HeuristicExpression :=
  let nonEmpty := parts.filter fun p => !p.isEmpty
  if 1 < nonEmpty.length then nonEmpty.flatten ++ [.and nonEmpty.length] else nonEmpty.flatten

def HeuristicExpression.leaves (h : HeuristicExpression) : List Expression :=
  h.filterMap fun | .leaf e => some e | _ => none

/-- The condition an effect makes true. -/
def effectCondition : Fluent × ConstantNode → Expression
  | (f, .bool true) => [.fluent f]
  | (f, .bool false) => [.fluent f, .operator .not [0]]
  | (f, v) => [.fluent f, .constant v, .operator .eq [0, 1]]

namespace DeleteRelaxationHeuristic

/-- The fluents of a problem, and a flag for each event. -/
def extendDomains (fluentDomains : List FluentDomain) (events : List (Action × List (Timing × Event))) :
    List FluentDomain :=
  fluentDomains ++ List.replicate (events.map fun p => p.2.length).sum ⟨.bool, []⟩

/-- The events with the numbers of their extra fluents. -/
def numberedEvents (l : List (ℕ × Action × List (Timing × Event))) :
    List (ℕ × Action × List (Timing × Event) × ℕ × Event) :=
  l.flatMap fun p => p.2.2.zipIdx.map fun q => (p.1, p.2.1, p.2.2, q.2, q.1.2)

/-- `DeleteRelaxationHeuristic.__init__`. -/
def new (kind : HeuristicKind) (fluentDomains : List FluentDomain)
    (events : List (Action × List (Timing × Event))) (goals : Expression) (timedAction : Option Action)
    (inadmissibleNumericVariant disableNumericReasoning : Bool) : Option DeleteRelaxationHeuristic := do
  let domains := extendDomains fluentDomains events
  let layout := TamerLite.layout fluentDomains.length events
  let operators ← (numberedEvents layout).mapM fun (base, a, le, i, e) =>
    Operator.ofEvent domains disableNumericReasoning timedAction base a le i e
  let goals ← simplifyCondition .python domains disableNumericReasoning
    (← convertToHeuristicExpression goals)
  let extraGoals ← convertToHeuristicExpression
    (layout.map (fun p => .fluent ⟨p.1 + p.2.2.length - 1⟩) ++ [.operator .and (List.range layout.length)])
  return {
    kind := kind
    domains := domains
    numRealFluents := fluentDomains.length
    layout := layout
    operators := operators.reduceOption
    goals := goals
    extraGoals := extraGoals
    inadmissibleNumericVariant := inadmissibleNumericVariant
    disableNumericReasoning := disableNumericReasoning }

variable (h : DeleteRelaxationHeuristic)

/-! ### Conditions -/

def classOf (e : Expression) : ConditionClass :=
  if hasInterpretedFunction e then .interpreted
  else if isNumericLeafExpression h.domains e = some true then
    if h.disableNumericReasoning then .complex
    else match extractFluentsWeights .python some e with
      | none => .complex
      | some c => .simple c
  else .propositional

/-- The leaves that operators and goals read. -/
def conditions : List Expression :=
  h.operators.flatMap (·.condition.leaves) ++ h.goals.leaves

/-- `_simple_numeric_conds`. -/
def simpleNumericConds : List (Expression × SimpleCondition) :=
  h.conditions.eraseDups.filterMap fun e =>
    match h.classOf e with
    | .simple c => some (e, c)
    | _ => none

/-- `_max_net_effect`; `none` is minus infinity. -/
def maxNetEffect : Option ℚ :=
  ((h.operators.flatMap fun o => (h.simpleNumericConds.filter fun p =>
    o.boundsEpsilon h.inadmissibleNumericVariant p.2).map fun p =>
      o.netEffect h.inadmissibleNumericVariant p.2)).max?

/-- What strict conditions are tightened by; `none` is infinity. -/
def epsilon : Option ℚ := h.maxNetEffect.map (-· / 2)

/-- The weighted sum in a state, with the epsilon of a strict condition. -/
def excess (c : SimpleCondition) (assignments : Assignments) : Option ℚ :=
  let v := c.sum .python (getValue assignments)
  if c.isLt then h.epsilon.map (v + ·) else some v

/-- `_repetitions`. -/
def repetitions (o : Operator) (c : SimpleCondition) (assignments : Assignments) : Option ℕ :=
  if (h.excess c assignments).any (· ≤ 0) then some 0
  else if o.hasAssignOrComplexEffect c && !h.inadmissibleNumericVariant then some 1
  else if o.netEffect h.inadmissibleNumericVariant c < 0 then
    (h.excess c assignments).map fun v => ⌈-v / o.netEffect h.inadmissibleNumericVariant c⌉.toNat
  else if o.hasAssignOrComplexEffect c then some 1
  else none

/-! ### States -/

/-- The number of the extra fluent that is true of each action: that of the event
it has fired last, or of its last one when it is not running. -/
def progressFluents (todo : AList (fun _ : Action => ℕ × ℕ)) : List ℕ :=
  h.layout.map fun p =>
    match todo.lookup p.2.1 with
    | none => p.1 + p.2.2.length - 1
    | some (j, _) => p.1 + j - 1

/-- The initial cost of a condition on one fluent. -/
def propositionalCost (assignments : Assignments) (todo : AList (fun _ : Action => ℕ × ℕ)) : Expression → ℕ∞
  | [.fluent f] =>
    if f.idx < h.numRealFluents then if assignments[f.idx]? = some (.bool true) then 0 else ⊤
    else if f.idx ∈ h.progressFluents todo then 0 else ⊤
  | [.fluent f, .operator .not [0]] =>
    if f.idx < h.numRealFluents ∧ assignments[f.idx]? = some (.bool false) then 0 else ⊤
  | [.fluent f, .constant v, .operator .eq [0, 1]] =>
    if f.idx < h.numRealFluents ∧ (assignments[f.idx]?).any (fun w => w.type ≠ .bool ∧ w.eqv v) then 0 else ⊤
  | _ => ⊤

/-- `_initial_condition_costs`. -/
def initialCosts [Callables] (assignments : Assignments) (todo : AList (fun _ : Action => ℕ × ℕ)) : Costs :=
  fun e =>
    match h.classOf e with
    | .interpreted => if holds e assignments then 0 else 1
    | .complex => if holds e assignments then 0 else 1
    | .simple _ => if holds e assignments then 0 else ⊤
    | .propositional => h.propositionalCost assignments todo e

/-- What an evaluation of a state works on. -/
def relaxedTask [Callables] (assignments : Assignments) (todo : AList (fun _ : Action => ℕ × ℕ)) :
    RelaxedTask where
  kind := h.kind
  operators := h.operators.map fun o => {
    condition := o.condition
    effects := (o.effects.map effectCondition).filter (· ∈ h.conditions ++ h.extraGoals.leaves)
    numericConds := (h.simpleNumericConds.filter fun p => o.achieves h.inadmissibleNumericVariant p.2).map
      fun p => (p.1, h.repetitions o p.2 assignments)
    cost := o.cost }
  goalCondition := if h.kind = .hff then h.goals else conjunction [h.goals, h.extraGoals]
  initialCosts := h.initialCosts assignments todo

end DeleteRelaxationHeuristic

end TamerLite
