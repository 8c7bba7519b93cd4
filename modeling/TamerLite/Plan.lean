import TamerLite.Acceptance
import TamerLite.Progress
import TamerLite.Trace

/-! The plan rebuilt from a path of events, whose network relates only the
events that are mutex or ordered by an interval condition, and what it means
for the events of a plan to be executed in the order of their times. -/

namespace TamerLite

open Difference SearchSpace

/-- A plan's entry: when an action starts and how long it lasts, if it does. -/
structure PlanEntry where
  start : Option ℚ
  action : Action
  duration : Option ℚ
deriving DecidableEq, Repr

/-- The variables of the loop of `build_plan`. `opened` lists the instances
whose start and end the network has, and `searchCounter` is the counter the
replayed successors draw their ids from. -/
structure PlanState where
  network : List Edge
  opened : List (Action × ℕ)
  todo : AList (fun _ : Action => ℕ × ℕ)
  eventPath : List (Action × ℕ × ℕ)
  counter : ℕ
  state : State
  searchCounter : ℕ

namespace SearchSpace

variable (ss : SearchSpace)

def planPastEdges (eId : Action × ℕ) (ev : Timepoint) (eventPath : List (Action × ℕ × ℕ)) :
    List Edge :=
  eventPath.filterMap fun q =>
    if ss.mutex eId (q.1, q.2.1) then some ⟨.event q.1 q.2.1 q.2.2, ev, -ss.epsilon⟩
    else if ss.precedence (q.1, q.2.1) eId then some ⟨.event q.1 q.2.1 q.2.2, ev, 0⟩
    else none

def planTodoEdges (eId : Action × ℕ) (ev : Timepoint) (todo : AList (fun _ : Action => ℕ × ℕ)) :
    List Edge :=
  (ss.pendingEvents todo).filterMap fun q =>
    if ss.mutex eId (q.1, q.2.1) then some ⟨ev, .event q.1 q.2.1 q.2.2, -ss.epsilon⟩ else none

variable [Callables] (tn : DeltaSimpleTemporalNetwork)

def addActionToPlanNetwork (assignments : Assignments) (a : Action) (counter : ℕ) :
    Option (List Edge) := do
  let events ← ss.events a
  let b ← ss.durationBounds a assignments
  return interval (.anchor a true counter) (.anchor a false counter) b.1 b.2 ++
    eventEdges a counter events (counter + 1)

def planStep (p : PlanState) (a : Action) : Option PlanState := do
  let events ← ss.events a
  match p.todo.lookup a with
  | some (index, id) =>
    let te ← events[index]?
    let todo := if events.length ≤ index + 1 then p.todo.erase a
      else p.todo.insert a (index + 1, id + 1)
    let ev := .event te.2.action te.2.pos id
    let state ← ss.getSuccessorStateWithCompression tn p.searchCounter p.state a false
    return { p with
      network := p.network ++ ss.planPastEdges (te.2.action, te.2.pos) ev p.eventPath ++
        ss.planTodoEdges (te.2.action, te.2.pos) ev todo
      todo := todo
      eventPath := p.eventPath ++ [(te.2.action, te.2.pos, id)]
      state := state
      searchCounter := ss.advance p.searchCounter p.state a }
  | none =>
    let edges ← ss.addActionToPlanNetwork p.state.assignments a p.counter
    let te ← events[0]?
    let id := p.counter + 1
    let ev := .event te.2.action te.2.pos id
    let state ← ss.getSuccessorStateWithCompression tn p.searchCounter p.state a false
    return {
      network := p.network ++ edges ++
        (if ss.timedAction.isSome then [⟨.startPlan, .anchor a true p.counter, 0⟩] else []) ++
        ss.planPastEdges (te.2.action, te.2.pos) ev p.eventPath ++
        ss.planTodoEdges (te.2.action, te.2.pos) ev p.todo
      opened := p.opened ++ [(a, p.counter)]
      todo := if 1 < events.length then p.todo.insert a (1, id + 1) else p.todo
      eventPath := p.eventPath ++ [(te.2.action, te.2.pos, id)]
      counter := p.counter + 1 + events.length
      state := state
      searchCounter := ss.advance p.searchCounter p.state a }

/-- The replayed initial state, with the timed action opened, and the rest of
the path. -/
def planInitial (counter : ℕ) (path : List Action) : Option (PlanState × List Action) := do
  let state ← ss.initial tn counter
  let searchCounter := match ss.timedAction with
    | none => counter
    | some a => counter + 1 + ((ss.events a).getD []).length
  match ss.timedAction with
  | none => return (⟨[], [], ∅, [], 0, state, searchCounter⟩, path)
  | some a =>
    if path.head? = some a then
      let events ← ss.events a
      let edges ← ss.addActionToPlanNetwork state.assignments a 0
      let te ← events[0]?
      return (⟨edges ++ interval .startPlan (.anchor a true 0) 0 0, [(a, 0)],
        if 1 < events.length then (∅ : AList fun _ : Action => ℕ × ℕ).insert a (1, 2) else ∅,
        [(te.2.action, te.2.pos, 1)], 1 + events.length, state, searchCounter⟩, path.tail)
    else none

/-- The variables of the loop of `build_plan` after its last iteration. -/
def planState (counter : ℕ) (path : List Action) : Option PlanState := do
  let (p, path) ← ss.planInitial tn counter path
  path.foldlM (ss.planStep tn) p

def planEntries (distances : Timepoint → ℚ) (opened : List (Action × ℕ)) : List PlanEntry :=
  let origin := if ss.timedAction.isSome then -distances .startPlan else 0
  (opened.filter fun o => ss.timedAction ≠ some o.1).map fun o =>
    let start := -distances (.anchor o.1 true o.2) - origin
    let stop := -distances (.anchor o.1 false o.2) - origin
    ⟨some start, o.1, if stop - start = 0 then none else some (stop - start)⟩

/-- `build_plan`; `none` where one of its assertions fails. -/
def buildPlan (counter : ℕ) (path : List Action) : Option (List PlanEntry) :=
  if ss.isTemporal then do
    let (p, path) ← ss.planInitial tn counter path
    let p ← path.foldlM (ss.planStep tn) p
    return (ss.planEntries (tn.distances p.network) p.opened).mergeSort fun e e' =>
      e.start.getD 0 < e'.start.getD 0 || (e.start.getD 0 = e'.start.getD 0 &&
        e.action.idx ≤ e'.action.idx)
  else some (path.map fun a => ⟨none, a, none⟩)

end SearchSpace

end TamerLite
