import Mathlib.Data.List.AList
import Mathlib.Data.List.Sort
import TamerLite.Converter
import TamerLite.SearchSpace

/-! The encoder: the events of the ground problem's actions, and the actions it
finds safe to compress. -/

namespace TamerLite

inductive TimepointKind
  | globalStart | globalEnd | start | stop
deriving DecidableEq, Repr

structure UPTiming where
  kind : TimepointKind
  delay : ℚ
deriving DecidableEq, Repr

namespace UPTiming

def isFromStart (t : UPTiming) : Bool := t.kind = .globalStart || t.kind = .start

end UPTiming

structure TimeInterval where
  lower : UPTiming
  upper : UPTiming
  isLeftOpen : Bool
  isRightOpen : Bool
deriving DecidableEq, Repr

inductive EffectKind
  | assign | increase | decrease
deriving DecidableEq, Repr

structure UPEffect where
  fluent : FNode
  value : FNode
  kind : EffectKind
deriving DecidableEq

structure DurationInterval where
  lower : FNode
  upper : FNode
  isLeftOpen : Bool
  isRightOpen : Bool

structure InstantaneousAction where
  name : String
  preconditions : List FNode
  effects : List UPEffect

structure DurativeAction where
  name : String
  duration : DurationInterval
  conditions : List (TimeInterval × List FNode)
  effects : List (UPTiming × List UPEffect)

inductive UPAction
  | instantaneous (a : InstantaneousAction)
  | durative (a : DurativeAction)

def UPAction.name : UPAction → String
  | instantaneous a => a.name
  | durative a => a.name

/-! ### Buckets -/

/-- What a bucket collects for one instant. -/
structure Contents where
  conditions : List FNode := []
  startConditions : List FNode := []
  endConditions : List FNode := []
  effects : List UPEffect := []

def Contents.append (x y : Contents) : Contents where
  conditions := x.conditions ++ y.conditions
  startConditions := x.startConditions ++ y.startConditions
  endConditions := x.endConditions ++ y.endConditions
  effects := x.effects ++ y.effects

/-- Delays mapped to the timing first seen there and what is collected. -/
abbrev Buckets := AList (fun _ : ℚ => UPTiming × Contents)

/-- `setdefault`, then `extend`. -/
def addToBucket (b : Buckets) (p : ℚ × UPTiming × Contents) : Buckets :=
  match b.lookup p.1 with
  | none => b.insert p.1 p.2
  | some (t, x) => b.insert p.1 (t, x.append p.2.2)

def sortBuckets (b : Buckets) : List (UPTiming × Contents) :=
  (b.entries.insertionSort fun p q => p.1 ≤ q.1).map Sigma.snd

/-- An interval that holds no time point, as far as that is known. -/
def TimeInterval.isEmpty (i : TimeInterval) : Bool :=
  i.lower.isFromStart = i.upper.isFromStart &&
    (i.upper.delay < i.lower.delay ||
      (i.lower.delay = i.upper.delay && (i.isLeftOpen || i.isRightOpen)))

/-- What a condition puts into the buckets of its bounds; `conj` is `ExpressionManager.And`. -/
def conditionEvents (conj : List FNode → FNode) (p : TimeInterval × List FNode) :
    List (UPTiming × Contents) :=
  if p.1.isEmpty then []
  else if p.1.lower = p.1.upper then [(p.1.lower, { conditions := p.2 })]
  else
    (if p.1.isLeftOpen then [] else [(p.1.lower, { conditions := p.2 })]) ++
    [(p.1.lower, { startConditions := [conj p.2] })] ++
    (if p.1.isRightOpen then [] else [(p.1.upper, { conditions := p.2 })]) ++
    [(p.1.upper, { endConditions := [conj p.2] })]

namespace DurativeAction

variable (conj : List FNode → FNode)

def actionEvents (a : DurativeAction) : List (UPTiming × Contents) :=
  a.conditions.flatMap (conditionEvents conj) ++ a.effects.map fun p => (p.1, { effects := p.2 })

/-- The entries of one side, keyed by their delays. -/
def keyed (l : List (UPTiming × Contents)) : List (ℚ × UPTiming × Contents) :=
  l.map fun p => (p.1.delay, p)

def fromStart (a : DurativeAction) : Buckets :=
  (keyed ((a.actionEvents conj).filter fun p => p.1.isFromStart)).foldl addToBucket ∅

def fromEnd (a : DurativeAction) : Buckets :=
  (keyed ((a.actionEvents conj).filter fun p => !p.1.isFromStart)).foldl addToBucket ∅

def hasIceFromStart (a : DurativeAction) : Bool :=
  (a.actionEvents conj).any fun p => p.1.isFromStart && 0 < p.1.delay

def hasIceFromEnd (a : DurativeAction) : Bool :=
  (a.actionEvents conj).any fun p => !p.1.isFromStart && p.1.delay < 0

def constantValue : FNode → Option ℚ
  | .node (.intConstant z) [] => some z
  | .node (.realConstant q) [] => some q
  | _ => none

/-- The duration, if both bounds are the same constant. -/
def constantDuration (a : DurativeAction) : Option ℚ := do
  let lower ← constantValue a.duration.lower
  let upper ← constantValue a.duration.upper
  if lower = upper then return lower else none

/-- The entries from the end, counted from the start. -/
def foldedEnd (duration : ℚ) (b : Buckets) : List (ℚ × UPTiming × Contents) :=
  b.entries.map fun p => (duration + p.1, p.2)

/-- The buckets of an action, in the order of its events; `none` where the
source rejects the problem. -/
def orderedBuckets (a : DurativeAction) : Option (List (UPTiming × Contents)) := do
  let (start, stop) ←
    if a.hasIceFromStart conj && a.hasIceFromEnd conj then
      (a.constantDuration.map fun q =>
        ((foldedEnd q (a.fromEnd conj)).foldl addToBucket (a.fromStart conj), (∅ : Buckets)))
    else some (a.fromStart conj, a.fromEnd conj)
  if start.entries.any (fun p => p.1 < 0) then none
  else
    let start := if 0 ∈ start then start else start.insert 0 (⟨.start, 0⟩, {})
    return sortBuckets start ++ sortBuckets stop

end DurativeAction

/-! ### Effects -/

/-- The increases, decreases and assignments of one fluent. -/
structure EffectGroup where
  fluent : FNode
  increases : List FNode := []
  decreases : List FNode := []
  assignments : List FNode := []

def EffectGroup.add (g : EffectGroup) (e : UPEffect) : EffectGroup :=
  match e.kind with
  | .increase => { g with increases := g.increases ++ [e.value] }
  | .decrease => { g with decreases := g.decreases ++ [e.value] }
  | .assign => { g with assignments := g.assignments ++ [e.value] }

/-- The effects grouped by fluent, in the order of their first effects. -/
def groupEffects (effects : List UPEffect) : List EffectGroup :=
  effects.foldl (fun groups e =>
    if groups.any (fun g => g.fluent = e.fluent) then
      groups.map fun g => if g.fluent = e.fluent then g.add e else g
    else groups ++ [EffectGroup.add ⟨e.fluent, [], [], []⟩ e]) []

def boolConstantValue : FNode → Option Bool
  | .node (.boolConstant b) [] => some b
  | _ => none

/-- The loop over Boolean assignments: the value so far and how many were not
constant. -/
def mergeAssignments (value : FNode) (nonConstant : ℕ) : List FNode → FNode × ℕ
  | [] => (value, nonConstant)
  | v :: vs =>
    match boolConstantValue v with
    | some true => (v, 0)
    | some false => mergeAssignments value nonConstant vs
    | none => mergeAssignments v (nonConstant + 1) vs

def isBoolFluent : FNode → Bool
  | .node (.fluentExp f) _ => f.isBool
  | _ => false

/-- The value the effects on one fluent give it; `none` where the source
rejects them. `plus` is `ExpressionManager.Plus`. -/
def EffectGroup.value (plus : List FNode → FNode) (g : EffectGroup) : Option FNode :=
  match g.assignments with
  | [] =>
    if g.increases.isEmpty then some (.node .minus [g.fluent, plus g.decreases])
    else if g.decreases.isEmpty then some (plus (g.fluent :: g.increases))
    else some (.node .minus [plus (g.fluent :: g.increases), plus g.decreases])
  | v :: vs =>
    if !g.increases.isEmpty || !g.decreases.isEmpty then none
    else if vs.isEmpty then some v
    else if !isBoolFluent g.fluent then
      if vs.any (· ≠ v) then none else some v
    else
      let (value, nonConstant) := mergeAssignments v 0 (v :: vs)
      if 1 < nonConstant then none else some value

/-! ### Events -/

/-- What the encoder builds events from: the ground problem's actions, the
conjunctions and sums of its expression manager, the normalization of its
expressions and the converter. -/
structure Encoder where
  actions : List UPAction
  conj : List FNode → FNode
  plus : List FNode → FNode
  normalizeExpression : FNode → FNode
  converter : Converter
  names_nodup : (actions.map UPAction.name).Nodup

namespace Encoder

variable (E : Encoder)

def convertExpression (e : FNode) : Option Expression :=
  E.converter.convert (E.normalizeExpression e)

def convertTiming (t : UPTiming) : Timing := ⟨t.isFromStart, t.delay⟩

/-- `_convert_effects`; effects on a fluent the encoding has dropped are left out. -/
def convertEffects (effects : List UPEffect) : Option (List Effect) :=
  (groupEffects effects).foldlM (fun converted g =>
    match E.converter.fluentIds g.fluent with
    | none => some converted
    | some f => do
      let value ← g.value E.plus
      let value ← E.convertExpression value
      return converted ++ [⟨f, value⟩]) []

/-- The event of one bucket. -/
def convertBucket (a : Action) (pos : ℕ) (b : UPTiming × Contents) : Option (Timing × Event) := do
  let conditions ← E.convertExpression (E.conj b.2.conditions)
  let startConditions ← b.2.startConditions.mapM E.convertExpression
  let endConditions ← b.2.endConditions.mapM E.convertExpression
  let effects ← E.convertEffects b.2.effects
  return (convertTiming b.1, ⟨a, pos, conditions, startConditions, endConditions, effects⟩)

/-- `_events_from_buckets`. -/
def eventsFromBuckets (a : Action) (buckets : List (UPTiming × Contents)) :
    Option (List (Timing × Event)) :=
  buckets.foldlM (fun events b => do
    let e ← E.convertBucket a events.length b
    return events ++ [e]) []

def buildEvents (u : UPAction) (a : Action) : Option (List (Timing × Event)) :=
  match u with
  | .instantaneous u => do
    let e ← E.convertBucket a 0
      (⟨.start, 0⟩, { conditions := u.preconditions, effects := u.effects })
    return [e]
  | .durative u => do E.eventsFromBuckets a (← u.orderedBuckets E.conj)

def actionNames : List String := (E.actions.map UPAction.name).insertionSort (· ≤ ·)

def actionByName (name : String) : Action := ⟨E.actionNames.idxOf name⟩

end Encoder

/-! ### Compression-safe actions -/

namespace DurativeAction

def hasIntermediateConditions (a : DurativeAction) : Bool :=
  a.conditions.any fun p => p.1.lower.delay ≠ 0 || p.1.upper.delay ≠ 0

def endConditions (a : DurativeAction) : List FNode :=
  a.conditions.flatMap fun p =>
    if p.1.lower = p.1.upper && p.1.lower.kind = .stop && p.1.lower.delay = 0 then
      FNode.extractAndArguments p.2 else []

def isOverall (i : TimeInterval) : Bool :=
  i.lower ≠ i.upper && i.lower.kind = .start && i.upper.kind = .stop && i.lower.delay = 0 &&
    i.upper.delay = 0

def overallConditions (a : DurativeAction) : List FNode :=
  a.conditions.flatMap fun p => if isOverall p.1 then FNode.extractAndArguments p.2 else []

def endConditionsContainedInOverallConditions (a : DurativeAction) : Bool :=
  a.endConditions.all fun c => c ∈ a.overallConditions

end DurativeAction

namespace Encoder

variable (E : Encoder)

def actionConditions : UPAction → List FNode
  | .instantaneous u => FNode.extractAndArguments u.preconditions
  | .durative u => u.conditions.flatMap fun p => FNode.extractAndArguments p.2

/-- A condition that is a fluent or its negation, with the value it asks for. -/
def simpleCondition : FNode → Option (UPFluent × Bool)
  | .node (.fluentExp f) _ => some (f, true)
  | .node .not [.node (.fluentExp f) _] => some (f, false)
  | _ => none

/-- `fluent_to_conditions`, as pairs. -/
def fluentConditions : List (UPFluent × Bool) :=
  (E.actions.flatMap actionConditions).filterMap simpleCondition

def complexConditionFluents : List UPFluent :=
  ((E.actions.flatMap actionConditions).filter fun c => (simpleCondition c).isNone).flatMap
    FNode.extractFluents

def interferes (e : UPEffect) : Bool :=
  match boolConstantValue e.value with
  | none => true
  | some b => e.fluent.extractFluents.any fun f =>
    f ∈ E.complexConditionFluents || (f, !b) ∈ E.fluentConditions

def effectsInterfereWithConditions (a : DurativeAction) : Bool :=
  a.effects.any fun p =>
    !(p.1.kind = .start && p.1.delay = 0) && p.2.any E.interferes

def isSafe (a : DurativeAction) : Bool :=
  !a.hasIntermediateConditions && a.endConditionsContainedInOverallConditions &&
    !E.effectsInterfereWithConditions a

/-- `_compute_compression_safe_actions`. -/
def computeCompressionSafeActions : List Bool :=
  E.actionNames.map fun name => E.actions.any fun u =>
    match u with
    | .instantaneous _ => false
    | .durative u => u.name = name && E.isSafe u

/-- The search space has the events and the compression-safe actions of the
encoder, unless compression is off. -/
structure Encodes (ss : SearchSpace) : Prop where
  events : ∀ {a : Action} {le : List (Timing × Event)}, ss.events a = some le →
    ss.timedAction ≠ some a →
    ∃ u ∈ E.actions, E.actionByName u.name = a ∧ E.buildEvents u a = some le
  safe : ss.compressionSafeActions = none ∨
    ss.timedAction = none ∧ ss.compressionSafeActions = some E.computeCompressionSafeActions

end Encoder

end TamerLite
