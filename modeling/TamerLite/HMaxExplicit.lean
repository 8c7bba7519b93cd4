import TamerLite.Enumeration
import TamerLite.Exploration
import TamerLite.Novelty
import TamerLite.Simplify

/-! `HMaxExplicit`: for each fluent the set of values reachable so far, grown
round by round. An expression is evaluated only on combinations of values that
contain one it has not seen. -/

namespace TamerLite

open Enumeration Exploration SearchSpace

/-- The values equal to `v` are those with its key: in Python `True == 1`. -/
def Core.key : Core → ConstantNode → ConstantNode
  | .python, .bool b => .num (if b then 1 else 0)
  | _, v => v

theorem Core.equals_iff (core : Core) (v w : ConstantNode) :
    core.equals v w = true ↔ core.key v = core.key w := by
  cases core <;> cases v <;> cases w <;>
    simp [Core.equals, Core.key, Core.number, ConstantNode.toNum]
  rename_i b c
  cases b <;> cases c <;> simp

/-- `_ValueSet`, in the order of insertion. -/
abbrev ValueSet := List ConstantNode

abbrev ValueSets := Fluent → ValueSet

/-- The order in which a set is walked. -/
structure SetOrder where
  walk : List ConstantNode → List ConstantNode
  perm : ∀ s, (walk s).Perm s

def SetOrder.insertion : SetOrder := ⟨id, fun _ => .rfl⟩

/-- `_dedup_fluents`. -/
def dedupFluents (exp : Expression) : List Fluent := (getFluents exp).eraseDups

/-- An event as an operator. Its first condition reads, and its first effect
sets, a fluent that encodes the progress of the action. -/
structure OperatorHmax where
  action : Action
  conditions : List Expression
  effects : List Effect
deriving DecidableEq

def OperatorHmax.conditionsFluents (o : OperatorHmax) : List Fluent :=
  o.conditions.flatMap getFluents

def OperatorHmax.effectsFluents (o : OperatorHmax) : List Fluent :=
  o.effects.flatMap fun eff => getFluents eff.value

/-- Each action with the number of its first extra fluent; it has one an event. -/
def layout : ℕ → List (Action × List (Timing × Event)) → List (ℕ × Action × List (Timing × Event))
  | _, [] => []
  | numFluents, (a, le) :: events =>
    (numFluents, a, le) :: layout (numFluents + le.length) events

def eventConditions (e : Event) : List Expression :=
  ((getEventConditions e).filter fun c => c ≠ [] ∧ c ≠ [.constant (.bool true)]).flatMap
    splitExpression

/-- The extra fluent event `i` of `n` is conditioned on: that of the event before
it, and for the first event that of the last one. -/
def previousFluent (base n i : ℕ) : Fluent :=
  if i = 0 then ⟨base + n - 1⟩ else ⟨base + i - 1⟩

/-- The operator of event `i`, none when a condition is `False` or when the event
is the first one of the timed action. -/
def eventOperator (timedAction : Option Action) (base : ℕ) (a : Action)
    (le : List (Timing × Event)) (i : ℕ) (e : Event) : Option OperatorHmax :=
  let conditions := [.fluent (previousFluent base le.length i)] :: eventConditions e
  if [.constant (.bool false)] ∈ conditions ∨ (i = 0 ∧ timedAction = some a) then none
  else some ⟨a, conditions, ⟨⟨base + i⟩, [.constant (.bool true)]⟩ :: e.effects⟩

theorem eventOperator_eq_some {timedAction : Option Action} {base i : ℕ} {a : Action}
    {le : List (Timing × Event)} {e : Event} {o : OperatorHmax} :
    eventOperator timedAction base a le i e = some o ↔
      ([.constant (.bool false)] ∉ eventConditions e ∧ ¬ (i = 0 ∧ timedAction = some a)) ∧
      o = ⟨a, [.fluent (previousFluent base le.length i)] :: eventConditions e,
        ⟨⟨base + i⟩, [.constant (.bool true)]⟩ :: e.effects⟩ := by
  have hne : [ExpressionNode.constant (.bool false)] ≠
      [.fluent (previousFluent base le.length i)] := by simp
  simp only [eventOperator, List.mem_cons, hne, false_or]
  split_ifs with h
  · refine ⟨fun ho => by contradiction, fun ho => ?_⟩
    rcases h with h | h
    · exact absurd h ho.1.1
    · exact absurd h ho.1.2
  · rw [Option.some.injEq, eq_comm]
    exact (and_iff_right (not_or.mp h)).symm

structure HMaxExplicit where
  layout : List (ℕ × Action × List (Timing × Event))
  operators : List OperatorHmax
  goals : List Expression
  numFluents : ℕ

namespace HMaxExplicit

/-- `HMaxExplicit.__init__`, with as many fluents as there are domains. -/
def new (fluentDomains : ℕ) (events : List (Action × List (Timing × Event)))
    (goals : Expression) (timedAction : Option Action) : HMaxExplicit where
  layout := TamerLite.layout fluentDomains events
  operators := (TamerLite.layout fluentDomains events).flatMap fun p =>
    p.2.2.zipIdx.filterMap fun q => eventOperator timedAction p.1 p.2.1 p.2.2 q.2 q.1.2
  goals := splitExpression goals ++
    (TamerLite.layout fluentDomains events).map fun p => [.fluent ⟨p.1 + p.2.2.length - 1⟩]
  numFluents := fluentDomains + (events.map fun p => p.2.length).sum

/-- The extra fluent of the last event an action has fired is true; that of its
last event when it is not running. -/
def extraValues (hm : HMaxExplicit) (state : State) (f : Fluent) : List ConstantNode :=
  hm.layout.filterMap fun p =>
    let fired := match state.todo.lookup p.2.1 with
      | none => p.2.2.length
      | some (j, _) => j
    if p.1 ≤ f.idx ∧ f.idx < p.1 + p.2.2.length then some (.bool (f.idx - p.1 + 1 = fired))
    else none

end HMaxExplicit

/-- `cache_can_be_true` and `old_sizes_by_expr`. -/
structure Tracker where
  cacheCanBeTrue : Expression → Bool
  oldSizes : Expression → List ℕ

/-- An operator, whether it has been applied, and `eff_old_sizes` of its effects. -/
structure Progress where
  operator : OperatorHmax
  applied : Bool
  effOldSizes : List (List ℕ)

/-- The variables of the loop of `_eval_core`. -/
structure HMaxLoop where
  assignments : ValueSets
  changes : List Fluent
  tracker : Tracker
  operators : List Progress
  depth : ℕ

section Evaluation

variable [Callables] (core : Core)

/-- `evaluate` where the fluents have the values of a combination. -/
def evaluateOn (exp : Expression) (combo : List ConstantNode) : Option ConstantNode := do
  (← core.evalNodes (fun f => ((dedupFluents exp).zip combo).lookup f) exp []).getLast?

/-- Evaluates combinations until `visit` answers `false`, and whether it never did. -/
def visitValues {σ : Type} (exp : Expression) (visit : σ → ConstantNode → σ × Bool) :
    List (List ConstantNode) → σ → Option (σ × Bool)
  | [], s => some (s, true)
  | c :: cs, s => do
    let v ← evaluateOn core exp c
    match visit s v with
    | (s, true) => visitValues exp visit cs s
    | (s, false) => some (s, false)

/-- `_for_each_new_value`. -/
def forEachNewValue {σ : Type} (exp : Expression) (assignments : ValueSets) (oldSizes : List ℕ)
    (visit : σ → ConstantNode → σ × Bool) (s : σ) : Option (σ × List ℕ) :=
  let fluents := dedupFluents exp
  if fluents = [] then
    if oldSizes = [1] then some (s, oldSizes)
    else do
      let v ← evaluateOn core exp []
      return ((visit s v).1, [1])
  else
    let oldSizes := if oldSizes.length = fluents.length then oldSizes
      else List.replicate fluents.length 0
    let values := fluents.map assignments
    let newSizes := values.map List.length
    if oldSizes = newSizes then some (s, oldSizes)
    else do
      let r ← visitValues core exp visit (newCombinations values oldSizes) s
      return (r.1, if r.2 then newSizes else oldSizes)

/-- `_exp_can_be_true`. -/
def expCanBeTrue (assignments : ValueSets) (t : Tracker) (exp : Expression) :
    Option (Bool × Tracker) :=
  if t.cacheCanBeTrue exp then some (true, t)
  else do
    let visit := fun found v => if v = .bool true then (true, false) else (found, true)
    let r ← forEachNewValue core exp assignments (t.oldSizes exp) visit false
    if r.1 then return (true, { t with cacheCanBeTrue := Function.update t.cacheCanBeTrue exp true })
    else return (false, { t with oldSizes := Function.update t.oldSizes exp r.2 })

/-- `_can_be_true`, which stops at the first expression that cannot. -/
def canBeTrue (assignments : ValueSets) : List Expression → Tracker → Option (Bool × Tracker)
  | [], t => some (true, t)
  | exp :: exps, t => do
    let r ← expCanBeTrue core assignments t exp
    if r.1 then canBeTrue assignments exps r.2 else return (false, r.2)

/-- The new values of each effect, added to those of its fluent. -/
def collectEffects (assignments : ValueSets) :
    List Effect → List (List ℕ) → ValueSets → Option (List (List ℕ) × ValueSets)
  | [], _, newAssignments => some ([], newAssignments)
  | eff :: effects, sizes, newAssignments => do
    let r ← forEachNewValue core eff.value assignments (sizes.headD [])
      (fun s v => (add core.key s v, true)) (newAssignments eff.fluent)
    let rs ← collectEffects assignments effects sizes.tail
      (Function.update newAssignments eff.fluent r.1)
    return (r.2 :: rs.1, rs.2)

def Progress.apply (p : Progress) (assignments newAssignments : ValueSets) :
    Option (Progress × ValueSets) := do
  let r ← collectEffects core assignments p.operator.effects p.effOldSizes newAssignments
  return ({ p with applied := true, effOldSizes := r.1 }, r.2)

/-- One operator of a round: it is left alone when nothing it reads has changed. -/
def Progress.turn (assignments : ValueSets) (changes : List Fluent) (p : Progress) (t : Tracker)
    (newAssignments : ValueSets) : Option (Progress × Tracker × ValueSets) :=
  if p.applied then
    if isDisjoint p.operator.effectsFluents changes then some (p, t, newAssignments)
    else (p.apply core assignments newAssignments).map fun r => (r.1, t, r.2)
  else if isDisjoint p.operator.conditionsFluents changes then some (p, t, newAssignments)
  else do
    let r ← canBeTrue core assignments p.operator.conditions t
    if r.1 then (p.apply core assignments newAssignments).map fun q => (q.1, r.2, q.2)
    else some (p, r.2, newAssignments)

def operatorTurns (assignments : ValueSets) (changes : List Fluent) :
    List Progress → Tracker → ValueSets → Option (List Progress × Tracker × ValueSets)
  | [], t, newAssignments => some ([], t, newAssignments)
  | p :: ps, t, newAssignments => do
    let r ← p.turn core assignments changes t newAssignments
    let rs ← operatorTurns assignments changes ps r.2.1 r.2.2
    return (r.1 :: rs.1, rs.2)

end Evaluation

/-- The value sets after a round. -/
def grow (core : Core) (order : SetOrder) (assignments newAssignments : ValueSets) : ValueSets :=
  fun f => addAll core.key (assignments f) (order.walk (newAssignments f))

namespace HMaxExplicit

variable (hm : HMaxExplicit) (core : Core) (order : SetOrder)

/-- The fluents whose sets have grown; only those of effects can. -/
def grown (assignments assignments' : ValueSets) : List Fluent :=
  (hm.operators.flatMap fun o => o.effects.map Effect.fluent).filter fun f =>
    (assignments f).length < (assignments' f).length

def initialAssignments (state : State) : ValueSets := fun f =>
  addAll core.key [] ((state.assignments[f.idx]?).toList ++ hm.extraValues state f)

def start (state : State) : HMaxLoop where
  assignments := hm.initialAssignments core state
  changes := (List.range hm.numFluents).map Fluent.mk
  tracker := ⟨fun _ => false, fun _ => []⟩
  operators := hm.operators.map fun o => ⟨o, false, []⟩
  depth := 0

variable [Callables]

/-- One turn of the loop; `some depth` is what it returns and `none` an exception. -/
def turn (s : HMaxLoop) : Option (Option ℕ) ⊕ HMaxLoop :=
  if s.changes = [] then .inl (some none)
  else
    match canBeTrue core s.assignments hm.goals s.tracker with
    | none => .inl none
    | some (true, _) => .inl (some (some s.depth))
    | some (false, t) =>
      match operatorTurns core s.assignments s.changes s.operators t fun _ => [] with
      | none => .inl none
      | some (operators, t, newAssignments) =>
        let assignments := grow core order s.assignments newAssignments
        .inr ⟨assignments, hm.grown s.assignments assignments, t, operators, s.depth + 1⟩

/-- `_eval_core`, for at most `fuel` turns of the loop. -/
def evalCore (state : State) (fuel : ℕ) : Option (Option ℕ) ⊕ HMaxLoop :=
  iterate (hm.turn core order) fuel (.inr (hm.start core state))

end HMaxExplicit

end TamerLite
