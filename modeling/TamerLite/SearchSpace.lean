import Mathlib.Data.List.AList
import Mathlib.Data.Multiset.AddSub
import Mathlib.Tactic.NormNum
import TamerLite.Difference
import TamerLite.Expression

/-! The search space: events, states and the successor function, with the
temporal network kept as the sequence of constraints added to it. -/

namespace TamerLite

open Difference

structure Action where
  idx : ℕ
deriving DecidableEq, Repr

structure Effect where
  fluent : Fluent
  value : Expression
deriving DecidableEq, Repr

structure Timing where
  start : Bool
  delay : ℚ
deriving DecidableEq, Repr

structure Event where
  action : Action
  pos : ℕ
  conditions : Expression
  startConditions : List Expression
  endConditions : List Expression
  effects : List Effect
deriving DecidableEq, Repr

/-- The duration bounds of a durative action and whether each is open. -/
structure Duration where
  lower : Expression
  upper : Expression
  leftOpen : Bool
  rightOpen : Bool
deriving DecidableEq, Repr

/-- The keys of the temporal network. `anchor a true id` is the start of an
action instance and `anchor a false id` its end. -/
inductive Timepoint
  | startPlan
  | endPlan
  | anchor (action : Action) (start : Bool) (id : ℕ)
  | event (action : Action) (pos : ℕ) (id : ℕ)
deriving DecidableEq, Repr

abbrev Edge := Constraint Timepoint ℚ

/-- The two answers of a temporal network, as functions of the constraints
added to it so far, and the tolerance that the comparison of makespans shares
with it. The class of the Python core is not part of the repository; that of the
Rust core is, and `DeltaSTN.exact_network` is about it at tolerance 0. -/
structure DeltaSimpleTemporalNetwork where
  checkStn : List Edge → Bool
  distances : List Edge → Timepoint → ℚ
  tolerance : ℚ

def stnTolerance (epsilon : ℚ) : ℚ := epsilon / 1000

/-- The Python core has fractions, and allows for nothing. -/
def Core.tolerance : Core → ℚ → ℚ
  | .python, _ => 0
  | .rust, epsilon => stnTolerance epsilon

/-- The network reports a conflict exactly when there is one, and its negated
distances are the earliest non-negative solution. -/
structure DeltaSimpleTemporalNetwork.Exact (tn : DeltaSimpleTemporalNetwork) : Prop where
  check_iff : ∀ cs, tn.checkStn cs = true ↔ Consistent cs
  solves : ∀ cs, Consistent cs → Solves (fun v => -tn.distances cs v) cs
  nonneg : ∀ cs v, Consistent cs → 0 ≤ -tn.distances cs v
  least : ∀ cs (τ : Timepoint → ℚ), Solves τ cs → (∀ v, 0 ≤ τ v) → ∀ v, -tn.distances cs v ≤ τ v

/-- A network that accepts everything: what remains is the untimed search space. -/
def DeltaSimpleTemporalNetwork.free : DeltaSimpleTemporalNetwork :=
  ⟨fun _ => true, fun _ _ => 0, 0⟩

/-- The interval conditions a list of events opens, and those it closes. -/
def opened (le : List (Timing × Event)) : Multiset Expression :=
  Multiset.ofList (le.flatMap fun te => te.2.startConditions)

def closed (le : List (Timing × Event)) : Multiset Expression :=
  Multiset.ofList (le.flatMap fun te => te.2.endConditions)

/-- The fields `SearchSpace.__init__` receives. What follows `timedAction` is
what the encoder establishes for every encoding: events are numbered in order,
the first one is at the start (counted from the end, where the duration is
constant), an interval condition is opened and closed in pairs, and the timed
action's events sit at absolute times. -/
structure SearchSpace where
  actionsDuration : List (Option Duration)
  events : Action → Option (List (Timing × Event))
  compressionSafeActions : Option (List Bool)
  actionObjects : Option (List (List Object))
  objToPrevActionsMap : Option (List (List Action))
  initialState : Assignments
  goal : Expression
  deadline : Option ℚ
  epsilon : ℚ
  timedAction : Option Action
  epsilon_nonneg : 0 ≤ epsilon
  events_numbered : ∀ {a : Action} {le : List (Timing × Event)}, events a = some le →
    le ≠ [] ∧ ∀ {k : ℕ} {te : Timing × Event}, le[k]? = some te → te.2.action = a ∧ te.2.pos = k
  events_instantaneous : ∀ {a : Action} {le : List (Timing × Event)}, events a = some le →
    actionsDuration[a.idx]?.join = none → le.length = 1
  events_opening : ∀ {a : Action} {le : List (Timing × Event)}, events a = some le →
    ∀ {te : Timing × Event}, le[0]? = some te → te.1 = ⟨true, 0⟩ ∨
      ∃ q l r, te.1 = ⟨false, -q⟩ ∧ actionsDuration[a.idx]?.join =
        some ⟨[.constant (.num q)], [.constant (.num q)], l, r⟩
  events_balanced : ∀ {a : Action} {le : List (Timing × Event)}, timedAction ≠ some a →
    events a = some le → opened le = closed le
  timed_absolute : ∀ {a : Action} {le : List (Timing × Event)}, timedAction = some a →
    events a = some le → ∀ te ∈ le, te.1.start = true
  timed_duration : ∀ {a : Action}, timedAction = some a → ∃ q : ℚ, 0 ≤ q ∧
    actionsDuration[a.idx]?.join =
      some ⟨[.constant (.num q)], [.constant (.num q)], false, false⟩

/-- The events of an action, numbered in order as `_events_from_buckets` does. -/
def numbered (a : Action) (le : List (Timing × Event)) : List (Timing × Event) :=
  le.mapIdx fun k te => (te.1, { te.2 with action := a, pos := k })

theorem numbered_eq {a : Action} {le : List (Timing × Event)} {k : ℕ} {te : Timing × Event}
    (h : (numbered a le)[k]? = some te) : te.2.action = a ∧ te.2.pos = k := by
  rw [numbered, List.getElem?_mapIdx] at h
  obtain ⟨te', -, rfl⟩ := Option.map_eq_some_iff.mp h
  exact ⟨rfl, rfl⟩

/-- What the encoder establishes of the events of one action. -/
def wellFormedEvents (durative : Bool) (le : List (Timing × Event)) : Bool :=
  le.head?.any (fun te => te.1 = ⟨true, 0⟩) && (durative || le.length = 1) && opened le = closed le

theorem flatMap_mapIdx {α β γ : Type*} {f : ℕ → α → β} {g : β → List γ} {g' : α → List γ}
    (h : ∀ k x, g (f k x) = g' x) (l : List α) : (l.mapIdx f).flatMap g = l.flatMap g' := by
  induction l generalizing f with
  | nil => rfl
  | cons x l ih =>
    rw [List.mapIdx_cons, List.flatMap_cons, List.flatMap_cons, h, ih fun k x => h (k + 1) x]

theorem opened_numbered (a : Action) (le : List (Timing × Event)) :
    opened (numbered a le) = opened le := by
  unfold opened numbered
  refine congrArg Multiset.ofList (flatMap_mapIdx ?_ le)
  intro k te
  rfl

theorem closed_numbered (a : Action) (le : List (Timing × Event)) :
    closed (numbered a le) = closed le := by
  unfold closed numbered
  refine congrArg Multiset.ofList (flatMap_mapIdx ?_ le)
  intro k te
  rfl

theorem epsilon_default_nonneg : (0 : ℚ) ≤ 1 / 100 := by norm_num

/-- The search space of a table giving each action its duration and events,
without timed effects or goals. -/
def SearchSpace.ofTable (table : List (Option Duration × List (Timing × Event)))
    (initialState : Assignments) (goal : Expression) (deadline : Option ℚ := none)
    (epsilon : {q : ℚ // 0 ≤ q} := ⟨1 / 100, epsilon_default_nonneg⟩)
    (compressionSafeActions : Option (List Bool) := none) : SearchSpace where
  actionsDuration := table.map Prod.fst
  events := fun a => (table[a.idx]?).bind fun row =>
    if wellFormedEvents row.1.isSome row.2 then some (numbered a row.2) else none
  compressionSafeActions := compressionSafeActions
  actionObjects := none
  objToPrevActionsMap := none
  initialState := initialState
  goal := goal
  deadline := deadline
  epsilon := epsilon
  timedAction := none
  epsilon_nonneg := epsilon.2
  events_numbered := by
    intro a le h
    obtain ⟨row, -, h⟩ := Option.bind_eq_some_iff.mp h
    split_ifs at h with hn
    obtain rfl := Option.some.inj h
    refine ⟨fun he => ?_, fun hk => numbered_eq hk⟩
    have he' : row.2 = [] := by simpa [numbered] using he
    simp [wellFormedEvents, he'] at hn
  events_instantaneous := by
    intro a le h hd
    obtain ⟨row, hr, h⟩ := Option.bind_eq_some_iff.mp h
    split_ifs at h with hn
    obtain rfl := Option.some.inj h
    have hd' : row.1 = none := by simpa [List.getElem?_map, hr] using hd
    simp only [wellFormedEvents, Bool.and_eq_true, hd'] at hn
    simpa [numbered] using hn.1.2
  events_opening := by
    intro a le h te hte
    obtain ⟨row, hr, h⟩ := Option.bind_eq_some_iff.mp h
    split_ifs at h with hn
    obtain rfl := Option.some.inj h
    simp only [wellFormedEvents, Bool.and_eq_true] at hn
    rw [numbered, List.getElem?_mapIdx] at hte
    obtain ⟨te', hte', rfl⟩ := Option.map_eq_some_iff.mp hte
    have hh := hn.1.1
    rw [List.head?_eq_getElem?, hte'] at hh
    exact .inl (by simpa using hh)
  events_balanced := by
    intro a le _ h
    obtain ⟨row, hr, h⟩ := Option.bind_eq_some_iff.mp h
    split_ifs at h with hn
    obtain rfl := Option.some.inj h
    simp only [wellFormedEvents, Bool.and_eq_true] at hn
    rw [opened_numbered, closed_numbered]
    simpa using hn.2
  timed_absolute := fun h => absurd h (by simp)
  timed_duration := fun h => absurd h (by simp)

structure State where
  assignments : Assignments
  temporalNetwork : Option (List Edge)
  todo : AList (fun _ : Action => ℕ × ℕ)
  activeConditions : Multiset Expression
  g : ℕ
  path : List (Action × ℕ × ℕ)

/-- An action being opened, whose constraints `expandEvent` adds. -/
structure PendingOpening where
  action : Action
  actionInstanceId : ℕ
  events : List (Timing × Event)
  pinToPlanStart : Bool

namespace SearchSpace

variable (ss : SearchSpace)

def isTemporal : Bool := ss.actionsDuration.any Option.isSome

def duration (a : Action) : Option Duration := ss.actionsDuration[a.idx]?.join

def event (a : Action) (i : ℕ) : Option (Timing × Event) := (ss.events a).bind (·[i]?)

/-- The fluents event `i` of `a` reads: its first event also reads the
fluents of the duration bounds. -/
def reads (a : Action) (i : ℕ) : List Fluent :=
  match ss.event a i with
  | none => []
  | some (_, e) =>
    getFluents e.conditions ++ e.effects.flatMap (fun eff => getFluents eff.value) ++
      if i = 0 then
        match ss.duration a with
        | none => []
        | some d => getFluents d.lower ++ getFluents d.upper
      else []

def writes (a : Action) (i : ℕ) : List Fluent :=
  match ss.event a i with
  | none => []
  | some (_, e) => e.effects.map Effect.fluent

def startCondReads (a : Action) (i : ℕ) : List Fluent :=
  match ss.event a i with
  | none => []
  | some (_, e) => e.startConditions.flatMap getFluents

def endCondReads (a : Action) (i : ℕ) : List Fluent :=
  match ss.event a i with
  | none => []
  | some (_, e) => e.endConditions.flatMap getFluents

def isDisjoint (l l' : List Fluent) : Bool := l.all (fun f => f ∉ l')

/-- `MutexChecker.__contains__`. -/
def mutex (p q : Action × ℕ) : Bool :=
  if p.1 = q.1 then true
  else !(isDisjoint (ss.reads q.1 q.2) (ss.writes p.1 p.2) &&
    isDisjoint (ss.reads p.1 p.2 ++ ss.writes p.1 p.2) (ss.writes q.1 q.2))

/-- `PrecedenceChecker.__contains__`. -/
def precedence (p q : Action × ℕ) : Bool :=
  if p.1 = q.1 then true
  else !(isDisjoint (ss.writes p.1 p.2) (ss.startCondReads q.1 q.2) &&
    isDisjoint (ss.writes q.1 q.2) (ss.endCondReads p.1 p.2))

/-- The start conditions of an event that none of its effects can change. -/
def effectIndependentStartConditions (e : Event) : List Expression :=
  e.startConditions.filter fun c =>
    (getFluents c).all fun f => f ∉ e.effects.map Effect.fluent

variable [Callables]

/-- `_effect_independent_start_conditions_hold`. -/
def effectIndependentStartConditionsHold (e : Event) (assignments : Assignments) : Bool :=
  (effectIndependentStartConditions e).all (holds · assignments)

/-- `MultiSet.remove` for every end condition; `none` is Python's `KeyError`. -/
def removeAll : List Expression → Multiset Expression → Option (Multiset Expression)
  | [], m => some m
  | c :: cs, m => if c ∈ m then removeAll cs (m.erase c) else none

def applyEffects (effects : List Effect) (old : Assignments) (new : Assignments) :
    Option Assignments :=
  effects.foldlM (fun a eff => (evaluate eff.value old).map (a.set eff.fluent.idx)) new

def evaluateBound (exp : Expression) (assignments : Assignments) : Option ℚ :=
  (evaluate exp assignments).bind ConstantNode.toNum

/-- The bounds on the duration of an action opened in a state, an open one
moved inwards by `epsilon`. -/
def durationBounds (a : Action) (assignments : Assignments) : Option (ℚ × ℚ) :=
  match ss.duration a with
  | none => some (0, 0)
  | some d => do
    let lower ← evaluateBound d.lower assignments
    let upper ← evaluateBound d.upper assignments
    return (if d.leftOpen then lower + ss.epsilon else lower,
      if d.rightOpen then upper - ss.epsilon else upper)

/-- The rigid edges tying event `k` to its anchor, with instance id `id + k`. -/
def eventEdges (a : Action) (instanceId : ℕ) : List (Timing × Event) → ℕ → List Edge
  | [], _ => []
  | (t, e) :: le, id =>
    interval (.anchor a t.start instanceId) (.event e.action e.pos id) t.delay t.delay ++
      eventEdges a instanceId le (id + 1)

/-- `_add_opening_constraints`, once the bounds are evaluated. -/
def openingEdges (p : PendingOpening) (lower upper : ℚ) : List Edge :=
  let start := .anchor p.action true p.actionInstanceId
  let stop := .anchor p.action false p.actionInstanceId
  interval start stop lower upper ++
    (if p.pinToPlanStart then interval .startPlan start 0 0 else [⟨.startPlan, start, 0⟩]) ++
    [⟨stop, .endPlan, -ss.epsilon⟩] ++
    eventEdges p.action p.actionInstanceId p.events (p.actionInstanceId + 1)

def addOpeningConstraints (assignments : Assignments) : Option PendingOpening → Option (List Edge)
  | none => some []
  | some p => (ss.durationBounds p.action assignments).map fun b => ss.openingEdges p b.1 b.2

/-- The edges from past events, latest first: one from the immediate
predecessor and one from the latest event the new one is mutex with. -/
def predecessorEdges (eId : Action × ℕ) (ev : Timepoint) :
    Bool → List (Action × ℕ × ℕ) → List Edge
  | _, [] => []
  | isPredecessor, (a, pos, id) :: past =>
    if ss.mutex eId (a, pos) then [⟨.event a pos id, ev, -ss.epsilon⟩]
    else if isPredecessor then ⟨.event a pos id, ev, 0⟩ :: predecessorEdges eId ev false past
    else predecessorEdges eId ev false past

/-- The events of running actions that are still to fire. -/
def pendingEvents (todo : AList (fun _ : Action => ℕ × ℕ)) : List (Action × ℕ × ℕ) :=
  todo.entries.flatMap fun ⟨a, i⟩ =>
    (List.range (((ss.events a).getD []).drop i.1).length).map fun j => (a, i.1 + j, i.2 + j)

def todoEdges (eId : Action × ℕ) (ev : Timepoint) (todo : AList (fun _ : Action => ℕ × ℕ)) :
    List Edge :=
  (ss.pendingEvents todo).map fun q =>
    ⟨ev, .event q.1 q.2.1 q.2.2, if ss.mutex eId (q.1, q.2.1) then -ss.epsilon else 0⟩

variable (tn : DeltaSimpleTemporalNetwork)

/-- `_expand_event`; `none` where the source returns `None` or raises. -/
def expandEvent (state newState : State) (e : Event) (index id : ℕ)
    (pendingOpening : Option PendingOpening) : Option State := do
  let removed ← removeAll e.endConditions newState.activeConditions
  let active := removed + e.startConditions
  let assignments ← applyEffects e.effects state.assignments newState.assignments
  if e.effects ≠ [] ∧ ¬ ∀ c ∈ active, holds c assignments then none
  else
    let newState := { newState with
      assignments := assignments
      activeConditions := active
      path := newState.path ++ [(e.action, e.pos, id)] }
    if ss.isTemporal then
      let base ← newState.temporalNetwork <|> state.temporalNetwork
      let opening ← ss.addOpeningConstraints state.assignments pendingOpening
      let ev := .event e.action e.pos id
      let network := base ++ opening ++
        ss.predecessorEdges (e.action, index) ev true state.path.reverse ++
        ss.todoEdges (e.action, index) ev newState.todo
      if tn.checkStn network then some { newState with temporalNetwork := some network }
      else none
    else some newState

/-- `_symmetry_allows_opening`, on the actions of the parent's path. -/
def symmetryAllowsOpening (done : List Action) (a : Action) : Bool :=
  match ss.actionObjects, ss.objToPrevActionsMap with
  | some actionObjects, some prevActionsMap =>
    (actionObjects.getD a.idx []).all fun obj =>
      let prevActions := prevActionsMap.getD obj.idx []
      prevActions.isEmpty || a ∈ prevActions || done.any (· ∈ prevActions)
  | _, _ => true

def openAction (counter : ℕ) (state newState : State) (a : Action)
    (events : List (Timing × Event)) (pinToPlanStart : Bool) : Option State := do
  let e ← events[0]?
  if ss.isTemporal then
    let id := counter + 1
    let newState := if 1 < events.length then
      { newState with todo := newState.todo.insert a (1, id + 1) } else newState
    ss.expandEvent tn state newState e.2 0 id (some ⟨a, counter, events, pinToPlanStart⟩)
  else ss.expandEvent tn state newState e.2 0 counter none

/-- The loop firing the remaining events of a compression-safe action. -/
def expandRest : List (Timing × Event) → ℕ → ℕ → State → Option State
  | [], _, _, newState => some newState
  | (_, e) :: rest, index, id, newState =>
    if effectIndependentStartConditionsHold e newState.assignments then do
      let state := { newState with temporalNetwork := none }
      let expanded ← ss.expandEvent tn state { newState with g := newState.g + 1 } e index id none
      expandRest rest (index + 1) (id + 1) expanded
    else none

def isCompressionSafe (a : Action) : Bool :=
  match ss.compressionSafeActions with
  | none => false
  | some safe => safe.getD a.idx false

def getSuccessorStateWithCompression (counter : ℕ) (state : State) (a : Action)
    (enableCompressionSafeActions : Bool) : Option State := do
  let events ← ss.events a
  match state.todo.lookup a with
  | some (index, id) =>
    let e ← events[index]?
    if holds e.2.conditions state.assignments &&
        effectIndependentStartConditionsHold e.2 state.assignments then
      let todo := if events.length ≤ index + 1 then state.todo.erase a
        else state.todo.insert a (index + 1, id + 1)
      ss.expandEvent tn state
        { state with temporalNetwork := none, g := state.g + 1, todo := todo } e.2 index id none
    else none
  | none =>
    if ss.timedAction = some a then none
    else if !ss.symmetryAllowsOpening (state.path.map Prod.fst) a then none
    else
      let e ← events[0]?
      if holds e.2.conditions state.assignments &&
          effectIndependentStartConditionsHold e.2 state.assignments then
        let newState ← ss.openAction tn counter state
          { state with temporalNetwork := none, g := state.g + 1 } a events false
        if enableCompressionSafeActions && ss.isCompressionSafe a && 1 < events.length then
          let next ← newState.todo.lookup a
          ss.expandRest tn events.tail 1 next.2 { newState with todo := newState.todo.erase a }
        else some newState
      else none

def getSuccessorState (counter : ℕ) (state : State) (a : Action) : Option State :=
  ss.getSuccessorStateWithCompression tn counter state a true

def openTimedAction (counter : ℕ) (state : State) (a : Action) : Option State := do
  let events ← ss.events a
  let e ← events[0]?
  if holds e.2.conditions state.assignments &&
      effectIndependentStartConditionsHold e.2 state.assignments then
    ss.openAction tn counter state { state with temporalNetwork := none } a events true
  else none

def deadlineEdges : List Edge :=
  match ss.deadline with
  | none => []
  | some d => interval .startPlan .endPlan d d

/-- `initial_state`; `none` when the timed action's first event fails. -/
def initial (counter : ℕ) : Option State :=
  let state : State :=
    { assignments := ss.initialState
      temporalNetwork := if ss.isTemporal then some ss.deadlineEdges else none
      todo := ∅
      activeConditions := 0
      g := 0
      path := [] }
  match ss.timedAction with
  | none => some state
  | some a => ss.openTimedAction tn counter state a

def makespan (state : State) : ℚ :=
  match state.path.getLast? with
  | none => 0
  | some p => -tn.distances (state.temporalNetwork.getD []) (.event p.1 p.2.1 p.2.2)

def goalReached (state : State) : Bool :=
  state.todo.entries.isEmpty && holds ss.goal state.assignments

/-- How far opening `a` moves the shared id counter. -/
def advance (counter : ℕ) (state : State) (a : Action) : ℕ :=
  if ss.isTemporal && (state.todo.lookup a).isNone then
    counter + 1 + ((ss.events a).getD []).length
  else counter

/-- A path the search accepts step by step, from one state and counter to
another. Expansions of other states may move the counter in between. -/
inductive Run (compression : Bool) : State → ℕ → List Action → State → ℕ → Prop
  | refl (s : State) (c : ℕ) : Run compression s c [] s c
  | step {s t u : State} {c c' d : ℕ} {as : List Action} {a : Action} :
      Run compression s c as t c' → c' ≤ d →
      ss.getSuccessorStateWithCompression tn d t a compression = some u →
      Run compression s c (as ++ [a]) u (ss.advance d t a)

end SearchSpace

end TamerLite
