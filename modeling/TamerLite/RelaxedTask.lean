import TamerLite.RelaxedCosts
import TamerLite.Search

/-! The fix-point of the delete-relaxation heuristics: operators are expanded in
the order of what their preconditions cost, and make the conditions they achieve
cheaper. -/

namespace TamerLite

open CostEquations Exploration

inductive HeuristicKind
  | hff | hadd | hmax
deriving DecidableEq, Repr

/-- An operator as an evaluation reads it: its precondition, the conditions among
its effects, and the simple numeric conditions it achieves, each with how often it
takes in the state. -/
structure RelaxedOperator where
  condition : HeuristicExpression
  effects : List Expression
  numericConds : List (Expression × Option ℕ)
  cost : ℕ

structure RelaxedTask where
  kind : HeuristicKind
  operators : List RelaxedOperator
  goalCondition : HeuristicExpression
  initialCosts : Costs

/-- The variables of the loop. -/
structure Fixpoint where
  condCost : Costs
  opCost : ℕ → ℕ∞
  closed : ℕ → Bool
  minAchieverPreCost : Costs
  reachedBy : Expression → Option ℕ
  unreached : ℕ → ℕ
  heap : List (ℕ∞ × ℕ)

/-- The order of the binary heap. -/
def heapLt (x y : ℕ∞ × ℕ) : Bool := decide (x.1 < y.1 ∨ x.1 = y.1 ∧ x.2 < y.2)

/-- The order of the radix heap, which leaves open which of equal costs is popped. -/
def costLt (x y : ℕ∞ × ℕ) : Bool := decide (x.1 < y.1)

/-- A binary heap pops a least cost. -/
def PriorityQueue.byCost (queue : PriorityQueue heapLt) : PriorityQueue costLt where
  pop := queue.pop
  pop_eq_none := queue.pop_eq_none
  pop_perm := queue.pop_perm
  pop_least := by
    intro q x rest h y hy
    have hlt := queue.pop_least h y hy
    rw [heapLt, decide_eq_false_iff_not, not_or] at hlt
    exact decide_eq_false hlt.1

namespace RelaxedTask

variable (t : RelaxedTask)

def isHmax : Bool := t.kind = .hmax

def isHff : Bool := t.kind = .hff

/-- The id of the goal pseudo-operator. -/
def goalOp : ℕ := t.operators.length

/-- The preconditions by id, the goal's at the end. -/
def condition (op : ℕ) : HeuristicExpression :=
  ((t.operators.map RelaxedOperator.condition ++ [t.goalCondition])[op]?).getD []

def preconditionCost (op : ℕ) (costs : Costs) : ℕ∞ := expressionCost t.isHmax (t.condition op) costs

/-- `_cond_to_ops`. -/
def readers (e : Expression) : List ℕ :=
  (List.range (t.goalOp + 1)).filter fun op => .leaf e ∈ t.condition op

/-- Whether some numeric condition has two achievers; an operator lists none twice. -/
def drainHeap : Bool :=
  t.isHmax && !decide (t.operators.flatMap fun o => o.numericConds.map Prod.fst).Nodup

/-- How many distinct leaves of a precondition are unreached. -/
def countUnreached (costs : Costs) (op : ℕ) : ℕ :=
  (distinctLeaves (t.condition op)).countP (costs · = ⊤)

/-- The unreached leaves of a reader, once one more may have been reached. -/
def leftUnreached (firstReach : Bool) (s : Fixpoint) (reader : ℕ) : ℕ :=
  if firstReach then s.unreached reader - 1 else s.unreached reader

/-- What `update_condition_cost` does for one reader of the condition. -/
def updateReader (reopen firstReach : Bool) (s : Fixpoint) (reader : ℕ) : Fixpoint :=
  if s.closed reader && !reopen then s
  else
    let unreached := leftUnreached firstReach s reader
    let s := { s with unreached := Function.update s.unreached reader unreached }
    if !containsOrNode (t.condition reader) && 0 < unreached then s
    else
      let readerCost := t.preconditionCost reader s.condCost
      if readerCost < s.opCost reader then
        { s with
          opCost := Function.update s.opCost reader readerCost
          closed := Function.update s.closed reader false
          heap := (readerCost, reader) :: s.heap }
      else s

/-- `update_condition_cost`. -/
def updateConditionCost (reopen : Bool) (op : ℕ) (s : Fixpoint) (e : Expression) (cost : ℕ∞) :
    Fixpoint :=
  if cost < s.condCost e then
    (t.readers e).foldl (t.updateReader reopen (s.condCost e = ⊤)) { s with
      condCost := Function.update s.condCost e cost
      reachedBy := if t.isHff then Function.update s.reachedBy e (some op) else s.reachedBy }
  else if t.isHff && cost = s.condCost e && (s.reachedBy e).all (· < op) then
    { s with reachedBy := Function.update s.reachedBy e (some op) }
  else s

/-- What an expanded operator offers a simple numeric condition; `none` where the
assertion that it has a repetition count fails. -/
def offerNumeric (reopen : Bool) (op : ℕ) (operatorCost : ℕ) (preconditionCost : ℕ∞) (s : Fixpoint)
    (c : Expression × Option ℕ) : Option Fixpoint :=
  if s.condCost c.1 = 0 then some s
  else
    c.2.map fun rep =>
      if t.isHmax then
        let least := if preconditionCost < s.minAchieverPreCost c.1 then preconditionCost
          else s.minAchieverPreCost c.1
        t.updateConditionCost reopen op
          { s with minAchieverPreCost := Function.update s.minAchieverPreCost c.1 least } c.1
          ((rep * operatorCost : ℕ) + least)
      else t.updateConditionCost reopen op s c.1 ((rep * operatorCost : ℕ) + preconditionCost)

/-- The conditions an expanded operator achieves get cheaper. -/
def expand (reopen : Bool) (op : ℕ) (s : Fixpoint) : Option Fixpoint := do
  let o ← t.operators[op]?
  o.numericConds.foldlM (t.offerNumeric reopen op o.cost (s.opCost op))
    (o.effects.foldl (fun r e => t.updateConditionCost reopen op r e (o.cost + s.opCost op)) s)

/-- An iteration of the loop; it answers `none` where an assertion fails. -/
def turn (queue : PriorityQueue costLt) (reachabilityAnalysis : Bool) (s : Fixpoint) :
    Option Fixpoint ⊕ Fixpoint :=
  match queue.pop s.heap with
  | none => .inl (some s)
  | some ((poppedCost, op), heap) =>
    let s := { s with heap := heap }
    if s.closed op || poppedCost ≠ s.opCost op then .inr s
    else
      let s := { s with closed := Function.update s.closed op true }
      if op = t.goalOp then
        if reachabilityAnalysis || t.drainHeap then .inr s else .inl (some s)
      else
        match t.expand (t.drainHeap && !reachabilityAnalysis) op s with
        | none => .inl none
        | some s => .inr s

/-- What comes before the loop. -/
def start : Fixpoint :=
  let opCost := fun op => if op ≤ t.goalOp then t.preconditionCost op t.initialCosts else ⊤
  { condCost := t.initialCosts
    opCost := opCost
    closed := fun _ => false
    minAchieverPreCost := fun _ => ⊤
    reachedBy := fun _ => none
    unreached := t.countUnreached t.initialCosts
    heap := (List.range (t.goalOp + 1)).filterMap fun op =>
      if opCost op < ⊤ then some (opCost op, op) else none }

/-- The loop, cut off after `n` iterations. -/
def run (queue : PriorityQueue costLt) (reachabilityAnalysis : Bool) (n : ℕ) :
    Option Fixpoint ⊕ Fixpoint :=
  iterate (t.turn queue reachabilityAnalysis) n (.inr t.start)

end RelaxedTask

end TamerLite
