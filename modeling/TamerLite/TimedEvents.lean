import TamerLite.Buckets

/-! Timed effects and timed goals, grouped by the instants they refer to; these
are the events of the timed action. -/

namespace TamerLite

/-- What the encoder reads of a problem with timed effects and timed goals. -/
structure TimedProblem where
  timedEffects : List (UPTiming × List UPEffect)
  timedGoals : List (TimeInterval × List FNode)
  goals : List FNode

/-- What is put into `bucket(timing)`; `none` for a timing before the plan's
start or counted from its end. -/
def timedEntry (p : UPTiming × Contents) : Option (ℚ × UPTiming × Contents) :=
  if p.1.isFromStart && 0 ≤ p.1.delay then some (p.1.delay, ⟨.globalStart, p.1.delay⟩, p.2)
  else none

/-- What a timed goal puts into the buckets of its bounds; `none` where the
source rejects it. -/
def timedGoalEvents (conj : List FNode → FNode) (p : TimeInterval × List FNode) :
    Option (List (UPTiming × Contents)) :=
  if !p.1.lower.isFromStart then none
  else if !p.1.upper.isFromStart then
    some ((if p.1.isLeftOpen then [] else [(p.1.lower, { conditions := p.2 })]) ++
      [(p.1.lower, { startConditions := [conj p.2] })])
  else if p.1.isEmpty then none
  else if p.1.lower.delay = p.1.upper.delay then some [(p.1.lower, { conditions := p.2 })]
  else
    some ((if p.1.isLeftOpen then [] else [(p.1.lower, { conditions := p.2 })]) ++
      [(p.1.lower, { startConditions := [conj p.2] })] ++
      (if p.1.isRightOpen then [] else [(p.1.upper, { conditions := p.2 })]) ++
      [(p.1.upper, { endConditions := [conj p.2] })])

/-- Successive instants are at least `epsilon` apart. -/
def separated (epsilon : ℚ) : List ℚ → Bool
  | t₁ :: t₂ :: ts => epsilon ≤ t₂ - t₁ && separated epsilon (t₂ :: ts)
  | _ => true

namespace TimedProblem

variable (conj : List FNode → FNode) (P : TimedProblem)

def entries : Option (List (ℚ × UPTiming × Contents)) := do
  let effects ← P.timedEffects.mapM fun p => timedEntry (p.1, { effects := p.2 })
  let goals ← P.timedGoals.mapM (timedGoalEvents conj)
  let goals ← goals.flatten.mapM timedEntry
  return effects ++ goals

def finalGoals : List FNode :=
  P.timedGoals.flatMap fun p => if p.1.upper.isFromStart then [] else p.2

/-- `_group_timed_events`, without the final goals. -/
def groupTimedEvents (epsilon : ℚ) : Option Buckets := do
  let entries ← P.entries conj
  if entries.isEmpty then return ∅
  else
    let buckets := addToBucket (entries.foldl addToBucket ∅) (0, ⟨.globalStart, 0⟩, {})
    if separated epsilon (buckets.sorted.map Sigma.fst) then return buckets else none

end TimedProblem

/-- The search space has the timed action that the timed effects and the timed
goals call for, and nothing is compressed beside it. -/
structure Encoder.EncodesTimed (E : Encoder) (P : TimedProblem) (ss : SearchSpace) : Prop where
  timed : ∃ buckets, P.groupTimedEvents E.conj ss.epsilon = some buckets ∧
    (buckets = ∅ ∧ ss.timedAction = none ∨ buckets ≠ ∅ ∧ ∃ a le, ss.timedAction = some a ∧
      ss.events a = some le ∧ E.eventsFromBuckets a (sortBuckets buckets) = some le)
  safe : ss.timedAction = none ∨ ss.compressionSafeActions = none
  goal : E.convertExpression (E.conj (P.goals ++ P.finalGoals)) = some ss.goal

end TamerLite
