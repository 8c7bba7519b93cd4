import TamerLite.ClosedConditions
import TamerLite.SearchTree

/-! The search space with the exceptions it raises: an expression without a value, a missing
key. Where nothing is raised, a successor, an initial state and a goal test are those of the
search space. -/

namespace TamerLite

open SearchSpace

/-! ### Raising -/

/-- A value, where the source raises if there is none. -/
def orRaise {α : Type} : Option α → Except Unit α
  | none => .error ()
  | some a => .ok a

section

variable {α β : Type} {x : Except Unit α} {f : α → Except Unit β} {o : Option α} {a : α} {b : β}

theorem bind_eq_ok : (x >>= f) = .ok b ↔ ∃ a, x = .ok a ∧ f a = .ok b := by
  cases x <;> simp [bind, Except.bind]

theorem orRaise_eq_ok : orRaise o = .ok a ↔ o = some a := by
  cases o <;> simp [orRaise]

end

/-- The order in which a state's active conditions are gone through. -/
structure ConditionOrder where
  list : State → List Expression
  mem_list : ∀ {s : State} {x : Expression}, x ∈ list s ↔ x ∈ s.activeConditions

section Conditions

variable [Callables]

def tryHolds (exp : Expression) (assignments : Assignments) : Except Unit Bool := do
  let v ← orRaise (evaluate exp assignments)
  return v.truthy

/-- `all` of the conditions, which stops at the first that does not hold. -/
def tryAll : List Expression → Assignments → Except Unit Bool
  | [], _ => return true
  | c :: cs, assignments => do
    if ← tryHolds c assignments then tryAll cs assignments else return false

/-- The test that comes before a state is cloned. -/
def tryApplicable (e : Event) (assignments : Assignments) : Except Unit Bool := do
  if ← tryHolds e.conditions assignments then tryAll (effectIndependentStartConditions e) assignments
  else return false

/-- The test of the active conditions; an event without effects goes without. -/
def tryActive (order : ConditionOrder) (e : Event) (newState : State) : Except Unit Bool :=
  if e.effects = [] then return true else tryAll (order.list newState) newState.assignments

variable {exp : Expression} {assignments : Assignments} {b : Bool}

theorem holds_of_try (h : tryHolds exp assignments = .ok b) : holds exp assignments = b := by
  obtain ⟨v, hv, hb⟩ := bind_eq_ok.mp h
  rw [holds, orRaise_eq_ok.mp hv]
  exact Except.ok.inj hb

theorem all_of_try {cs : List Expression} (h : tryAll cs assignments = .ok b) :
    cs.all (holds · assignments) = b := by
  induction cs with
  | nil => exact Except.ok.inj h
  | cons c cs ih =>
    obtain ⟨v, hv, h⟩ := bind_eq_ok.mp h
    rw [List.all_cons, holds_of_try hv]
    cases v with
    | true => exact ih h
    | false => exact Except.ok.inj h

theorem applicable_of_try {e : Event} (h : tryApplicable e assignments = .ok b) :
    (holds e.conditions assignments && effectIndependentStartConditionsHold e assignments) = b := by
  obtain ⟨v, hv, h⟩ := bind_eq_ok.mp h
  rw [holds_of_try hv]
  cases v with
  | true => exact all_of_try h
  | false => exact Except.ok.inj h

theorem active_of_try {order : ConditionOrder} {e : Event} {newState : State}
    (h : tryActive order e newState = .ok b) :
    (e.effects ≠ [] ∧ ¬ ∀ c ∈ newState.activeConditions, holds c newState.assignments) ↔ b = false := by
  rw [tryActive] at h
  by_cases he : e.effects = []
  · rw [if_pos he] at h
    obtain rfl : true = b := Except.ok.inj h
    simp [he]
  · rw [if_neg he] at h
    have hall := all_of_try h
    rw [← Bool.not_eq_true, ← hall, List.all_eq_true]
    simp only [he, ne_eq, not_false_eq_true, true_and, order.mem_list]

end Conditions

namespace SearchSpace

variable [Callables] (ss : SearchSpace) (tn : DeltaSimpleTemporalNetwork) (order : ConditionOrder)

/-! ### The operations -/

def tryExpandEvent (state newState : State) (e : Event) (index id : ℕ)
    (pendingOpening : Option PendingOpening) : Except Unit (Option State) := do
  let removed ← orRaise (removeAll e.endConditions newState.activeConditions)
  let assignments ← orRaise (applyEffects e.effects state.assignments newState.assignments)
  let newState := { newState with
    assignments := assignments
    activeConditions := removed + e.startConditions
    path := newState.path ++ [(e.action, e.pos, id)] }
  if ← tryActive order e newState then
    if ss.isTemporal then
      let base ← orRaise (newState.temporalNetwork <|> state.temporalNetwork)
      let opening ← orRaise (ss.addOpeningConstraints state.assignments pendingOpening)
      let ev := .event e.action e.pos id
      let network := base ++ opening ++
        ss.predecessorEdges (e.action, index) ev true state.path.reverse ++
        ss.todoEdges (e.action, index) ev newState.todo
      return if tn.checkStn network then some { newState with temporalNetwork := some network } else none
    else return some newState
  else return none

def tryOpenAction (counter : ℕ) (state newState : State) (a : Action)
    (events : List (Timing × Event)) (pinToPlanStart : Bool) : Except Unit (Option State) := do
  let e ← orRaise events[0]?
  if ss.isTemporal then
    let id := counter + 1
    let newState := if 1 < events.length then
      { newState with todo := newState.todo.insert a (1, id + 1) } else newState
    ss.tryExpandEvent tn order state newState e.2 0 id (some ⟨a, counter, events, pinToPlanStart⟩)
  else ss.tryExpandEvent tn order state newState e.2 0 counter none

def tryExpandRest : List (Timing × Event) → ℕ → ℕ → State → Except Unit (Option State)
  | [], _, _, newState => return some newState
  | (_, e) :: rest, index, id, newState => do
    if ← tryAll (effectIndependentStartConditions e) newState.assignments then
      let state := { newState with temporalNetwork := none }
      let expanded ← ss.tryExpandEvent tn order state { newState with g := newState.g + 1 } e index id none
      match expanded with
      | none => return none
      | some expanded => tryExpandRest rest (index + 1) (id + 1) expanded
    else return none

/-- What follows the opening of an action: a compression-safe one fires its other events. -/
def tryCompress (a : Action) (events : List (Timing × Event)) : Option State → Except Unit (Option State)
  | none => return none
  | some newState =>
    if ss.isCompressionSafe a && 1 < events.length then do
      let next ← orRaise (newState.todo.lookup a)
      ss.tryExpandRest tn order events.tail 1 next.2 { newState with todo := newState.todo.erase a }
    else return some newState

def tryGetSuccessorState (counter : ℕ) (state : State) (a : Action) : Except Unit (Option State) := do
  let events ← orRaise (ss.events a)
  match state.todo.lookup a with
  | some (index, id) =>
    let e ← orRaise events[index]?
    if ← tryApplicable e.2 state.assignments then
      let todo := if events.length ≤ index + 1 then state.todo.erase a
        else state.todo.insert a (index + 1, id + 1)
      ss.tryExpandEvent tn order state
        { state with temporalNetwork := none, g := state.g + 1, todo := todo } e.2 index id none
    else return none
  | none =>
    if ss.timedAction = some a then return none
    else if !ss.symmetryAllowsOpening (state.path.map Prod.fst) a then return none
    else
      let e ← orRaise events[0]?
      if ← tryApplicable e.2 state.assignments then
        let newState ← ss.tryOpenAction tn order counter state
          { state with temporalNetwork := none, g := state.g + 1 } a events false
        ss.tryCompress tn order a events newState
      else return none

def tryOpenTimedAction (counter : ℕ) (state : State) (a : Action) : Except Unit (Option State) := do
  let events ← orRaise (ss.events a)
  let e ← orRaise events[0]?
  if ← tryApplicable e.2 state.assignments then
    ss.tryOpenAction tn order counter state { state with temporalNetwork := none } a events true
  else return none

def tryInitial (counter : ℕ) : Except Unit (Option State) :=
  let state : State :=
    { assignments := ss.initialState
      temporalNetwork := if ss.isTemporal then some ss.deadlineEdges else none
      todo := ∅
      activeConditions := 0
      g := 0
      path := [] }
  match ss.timedAction with
  | none => return some state
  | some a => ss.tryOpenTimedAction tn order counter state a

/-- `goal_reached`, which asserts that the goal is true or false. -/
def tryGoalReached (state : State) : Except Unit Bool :=
  if state.todo.entries.isEmpty then
    match evaluate ss.goal state.assignments with
    | some (.bool b) => return b
    | _ => .error ()
  else return false

/-! ### Where nothing is raised -/

variable {ss tn order} {state newState : State} {e : Event} {index id counter : ℕ} {a : Action}
  {r : Option State}

theorem expandEvent_of_try {po : Option PendingOpening}
    (h : ss.tryExpandEvent tn order state newState e index id po = .ok r) :
    ss.expandEvent tn state newState e index id po = r := by
  obtain ⟨removed, hr, h⟩ := bind_eq_ok.mp h
  obtain ⟨assignments, has, h⟩ := bind_eq_ok.mp h
  obtain ⟨b, hb, h⟩ := bind_eq_ok.mp h
  have hactive := active_of_try hb
  simp only [expandEvent, orRaise_eq_ok.mp hr, orRaise_eq_ok.mp has, Option.bind_eq_bind, Option.bind_some]
  cases b with
  | false =>
    rw [if_pos (hactive.mpr rfl)]
    exact Except.ok.inj h
  | true =>
    rw [if_neg fun hnot => absurd (hactive.mp hnot) (by decide)]
    by_cases ht : ss.isTemporal = true
    · rw [if_pos rfl, if_pos ht] at h
      obtain ⟨base, hbase, h⟩ := bind_eq_ok.mp h
      obtain ⟨opening, hopening, h⟩ := bind_eq_ok.mp h
      have hbase := orRaise_eq_ok.mp hbase
      dsimp only at hbase
      rw [if_pos ht, hbase, Option.bind_some, orRaise_eq_ok.mp hopening, Option.bind_some]
      exact Except.ok.inj h
    · rw [if_pos rfl, if_neg ht] at h
      rw [if_neg ht]
      exact Except.ok.inj h

theorem openAction_of_try {events : List (Timing × Event)} {pin : Bool}
    (h : ss.tryOpenAction tn order counter state newState a events pin = .ok r) :
    ss.openAction tn counter state newState a events pin = r := by
  obtain ⟨te, hte, h⟩ := bind_eq_ok.mp h
  rw [openAction, orRaise_eq_ok.mp hte, Option.bind_eq_bind, Option.bind_some]
  by_cases ht : ss.isTemporal = true
  · rw [if_pos ht] at h ⊢
    exact expandEvent_of_try h
  · rw [if_neg ht] at h ⊢
    exact expandEvent_of_try h

theorem expandRest_of_try {rest : List (Timing × Event)}
    (h : ss.tryExpandRest tn order rest index id newState = .ok r) :
    ss.expandRest tn rest index id newState = r := by
  induction rest generalizing index id newState with
  | nil => exact Except.ok.inj h
  | cons te rest ih =>
    obtain ⟨b, hb, h⟩ := bind_eq_ok.mp h
    have hall : effectIndependentStartConditionsHold te.2 newState.assignments = b := all_of_try hb
    rw [expandRest, hall]
    cases b with
    | false => exact Except.ok.inj h
    | true =>
      obtain ⟨expanded, hx, h⟩ := bind_eq_ok.mp h
      simp only [if_true, expandEvent_of_try hx, Option.bind_eq_bind]
      cases expanded with
      | none => exact Except.ok.inj h
      | some expanded => exact ih h

theorem getSuccessorState_of_try (h : ss.tryGetSuccessorState tn order counter state a = .ok r) :
    ss.getSuccessorState tn counter state a = r := by
  obtain ⟨events, hevents, h⟩ := bind_eq_ok.mp h
  simp only [getSuccessorState, getSuccessorStateWithCompression, orRaise_eq_ok.mp hevents,
    Option.bind_eq_bind, Option.bind_some]
  cases hl : state.todo.lookup a with
  | some p =>
    obtain ⟨index, id⟩ := p
    rw [hl] at h
    obtain ⟨te, hte, h⟩ := bind_eq_ok.mp h
    obtain ⟨b, hb, h⟩ := bind_eq_ok.mp h
    dsimp only
    rw [orRaise_eq_ok.mp hte, Option.bind_some, applicable_of_try hb]
    cases b with
    | false => exact Except.ok.inj h
    | true => exact expandEvent_of_try h
  | none =>
    rw [hl] at h
    dsimp only at h ⊢
    by_cases ht : ss.timedAction = some a
    · rw [if_pos ht] at h ⊢
      exact Except.ok.inj h
    rw [if_neg ht] at h ⊢
    by_cases hsym : (!ss.symmetryAllowsOpening (state.path.map Prod.fst) a) = true
    · rw [if_pos hsym] at h ⊢
      exact Except.ok.inj h
    rw [if_neg hsym] at h ⊢
    obtain ⟨te, hte, h⟩ := bind_eq_ok.mp h
    obtain ⟨b, hb, h⟩ := bind_eq_ok.mp h
    rw [orRaise_eq_ok.mp hte, Option.bind_some, applicable_of_try hb]
    cases b with
    | false => exact Except.ok.inj h
    | true =>
      obtain ⟨newState, hopen, h⟩ := bind_eq_ok.mp h
      rw [if_pos rfl, openAction_of_try hopen, Bool.true_and]
      cases newState with
      | none => exact Except.ok.inj h
      | some newState =>
        rw [tryCompress] at h
        rw [Option.bind_some]
        by_cases hsafe : (ss.isCompressionSafe a && decide (1 < events.length)) = true
        · rw [if_pos hsafe] at h ⊢
          obtain ⟨next, hnext, h⟩ := bind_eq_ok.mp h
          rw [orRaise_eq_ok.mp hnext, Option.bind_some]
          exact expandRest_of_try h
        · rw [if_neg hsafe] at h ⊢
          exact Except.ok.inj h

theorem initial_of_try (h : ss.tryInitial tn order counter = .ok r) : ss.initial tn counter = r := by
  rw [tryInitial] at h
  rw [initial]
  cases ht : ss.timedAction with
  | none =>
    rw [ht] at h
    exact Except.ok.inj h
  | some a =>
    rw [ht] at h
    obtain ⟨events, hevents, h⟩ := bind_eq_ok.mp h
    obtain ⟨te, hte, h⟩ := bind_eq_ok.mp h
    obtain ⟨b, hb, h⟩ := bind_eq_ok.mp h
    simp only [openTimedAction, orRaise_eq_ok.mp hevents, orRaise_eq_ok.mp hte, Option.bind_eq_bind,
      Option.bind_some]
    rw [applicable_of_try hb]
    cases b with
    | false => exact Except.ok.inj h
    | true => exact openAction_of_try h

theorem goalReached_of_try {g : Bool} (h : ss.tryGoalReached state = .ok g) : ss.goalReached state = g := by
  rw [tryGoalReached] at h
  rw [goalReached]
  by_cases hidle : state.todo.entries.isEmpty = true
  · rw [if_pos hidle] at h
    rw [hidle, Bool.true_and, holds]
    rcases hv : evaluate ss.goal state.assignments with _ | ⟨b⟩ | q | o <;> rw [hv] at h
    · contradiction
    · exact Except.ok.inj h
    · contradiction
    · contradiction
  · rw [if_neg hidle] at h
    rw [eq_false_of_ne_true hidle, Bool.false_and]
    exact Except.ok.inj h

end SearchSpace

/-! ### Spaces that raise nothing -/

theorem exists_first_event {ss : SearchSpace} {a : Action} {le : List (Timing × Event)}
    (hle : ss.events a = some le) :
    ∃ te, le[0]? = some te ∧ ss.event a 0 = some te := by
  have hlen := List.length_pos_iff.mpr (ss.events_numbered hle).1
  have hte := List.getElem?_eq_getElem hlen
  exact ⟨_, hte, by rw [Config.event_eq hle, hte]⟩

section Values

variable [Callables]

/-- No operation on a state that the search reaches raises. -/
structure NeverRaises (ss : SearchSpace) (tn : DeltaSimpleTemporalNetwork) (order : ConditionOrder)
    (relevantActions : List Action) : Prop where
  initial : ∀ counter, ∃ r, ss.tryInitial tn order counter = .ok r
  successor : ∀ {s d}, ReachableWithin ss tn true relevantActions s d → ∀ a ∈ relevantActions,
    ∃ r, ss.tryGetSuccessorState tn order d s a = .ok r
  goal : ∀ {s d}, ReachableWithin ss tn true relevantActions s d → ∃ g, ss.tryGoalReached s = .ok g

/-- Everything has a value on the assignments in `P`, which no event leaves, and no
interval of an action turns round. -/
structure SearchSpace.Defined (ss : SearchSpace) (P : Assignments → Prop) : Prop where
  initial : P ss.initialState
  timed : ∀ a, ss.timedAction = some a → ∃ le, ss.events a = some le
  nested : ∀ {a le}, ss.events a = some le → NestedEvents le
  conditions : ∀ {a k te}, ss.event a k = some te → ∀ x ∈ te.2.conditions :: te.2.startConditions,
    ∀ A, P A → ∃ v, evaluate x A = some v
  effects : ∀ {a k te}, ss.event a k = some te → ∀ A, P A →
    ∃ A', applyEffects te.2.effects A A = some A' ∧ P A'
  bounds : ∀ a A, P A → ∃ b, ss.durationBounds a A = some b
  goal : ∀ A, P A → ∃ b, evaluate ss.goal A = some (.bool b)

variable {ss : SearchSpace} {tn : DeltaSimpleTemporalNetwork} {order : ConditionOrder}
  {P : Assignments → Prop} {A : Assignments} {a : Action} {le : List (Timing × Event)}
  {te : Timing × Event} {s t newState : State} {k index id counter : ℕ}

theorem exists_tryHolds {x : Expression} (h : ∃ v, evaluate x A = some v) : ∃ b, tryHolds x A = .ok b := by
  obtain ⟨v, hv⟩ := h
  exact ⟨v.truthy, by rw [tryHolds, hv]; rfl⟩

theorem exists_tryAll {cs : List Expression} (h : ∀ x ∈ cs, ∃ v, evaluate x A = some v) :
    ∃ b, tryAll cs A = .ok b := by
  induction cs with
  | nil => exact ⟨true, rfl⟩
  | cons c cs ih =>
    obtain ⟨v, hv⟩ := exists_tryHolds (h c List.mem_cons_self)
    obtain ⟨b, hb⟩ := ih fun x hx => h x (List.mem_cons_of_mem c hx)
    cases v with
    | true => exact ⟨b, bind_eq_ok.mpr ⟨true, hv, hb⟩⟩
    | false => exact ⟨false, bind_eq_ok.mpr ⟨false, hv, rfl⟩⟩

theorem exists_tryActive {e : Event}
    (h : ∀ x ∈ s.activeConditions, ∃ v, evaluate x s.assignments = some v) :
    ∃ b, tryActive order e s = .ok b := by
  rw [tryActive]
  by_cases he : e.effects = []
  · exact ⟨true, if_pos he⟩
  · rw [if_neg he]
    exact exists_tryAll fun x hx => h x (order.mem_list.mp hx)

theorem SearchSpace.Defined.applicable (hdef : ss.Defined P) (hev : ss.event a k = some te) (hA : P A) :
    ∃ b, tryApplicable te.2 A = .ok b := by
  obtain ⟨v, hv⟩ := exists_tryHolds (hdef.conditions hev _ List.mem_cons_self A hA)
  obtain ⟨b, hb⟩ : ∃ b, tryAll (effectIndependentStartConditions te.2) A = .ok b :=
    exists_tryAll fun x hx =>
      hdef.conditions hev x (List.mem_cons_of_mem _ (List.mem_of_mem_filter hx)) A hA
  cases v with
  | true => exact ⟨b, bind_eq_ok.mpr ⟨true, hv, hb⟩⟩
  | false => exact ⟨false, bind_eq_ok.mpr ⟨false, hv, rfl⟩⟩

/-- What the operations need of a state. -/
structure Fit (ss : SearchSpace) (P : Assignments → Prop) (s : State) : Prop where
  assignments : P s.assignments
  active : ∀ x ∈ s.activeConditions, ∀ A, P A → ∃ v, evaluate x A = some v
  network : ss.isTemporal = true → s.temporalNetwork.isSome = true

/-- An event that closes only what is active. -/
theorem SearchSpace.Defined.expandEvent (hdef : ss.Defined P) (s newState : State)
    (hev : ss.event a k = some te) (hs : P s.assignments) (hA : newState.assignments = s.assignments)
    (hactive : ∀ x ∈ newState.activeConditions, ∀ A, P A → ∃ v, evaluate x A = some v)
    (hends : Multiset.ofList te.2.endConditions ≤ newState.activeConditions)
    (hnet : ss.isTemporal = true → (newState.temporalNetwork <|> s.temporalNetwork).isSome = true)
    (po : Option PendingOpening) :
    ∃ r, ss.tryExpandEvent tn order s newState te.2 index id po = .ok r ∧
      ∀ t, r = some t → Fit ss P t ∧ t.todo = newState.todo := by
  obtain ⟨A', hA', hP'⟩ := hdef.effects hev s.assignments hs
  have hremoved := removeAll_of_le hends
  let next : State := { newState with
    assignments := A'
    activeConditions := removePresent te.2.endConditions newState.activeConditions + te.2.startConditions
    path := newState.path ++ [(te.2.action, te.2.pos, id)] }
  have hnext : ∀ x ∈ next.activeConditions, ∀ A, P A → ∃ v, evaluate x A = some v := by
    intro x hx
    rcases Multiset.mem_add.mp hx with hx | hx
    · exact hactive x (Multiset.mem_of_le (removeAll_le hremoved) hx)
    · exact hdef.conditions hev x (List.mem_cons_of_mem _ hx)
  obtain ⟨b, hb⟩ : ∃ b, tryActive order te.2 next = .ok b :=
    exists_tryActive fun x hx => hnext x hx A' hP'
  have hopening : ∃ l, ss.addOpeningConstraints s.assignments po = some l := by
    cases po with
    | none => exact ⟨[], rfl⟩
    | some po =>
      obtain ⟨bounds, hbounds⟩ := hdef.bounds po.action s.assignments hs
      exact ⟨_, by rw [addOpeningConstraints, hbounds]; rfl⟩
  obtain ⟨opening, hopening⟩ := hopening
  rw [tryExpandEvent, hremoved, hA, hA']
  cases b with
  | false =>
    refine ⟨none, ?_, fun _ ht => by cases ht⟩
    exact bind_eq_ok.mpr ⟨_, rfl, bind_eq_ok.mpr ⟨_, rfl, bind_eq_ok.mpr ⟨false, hb, rfl⟩⟩⟩
  | true =>
    by_cases ht : ss.isTemporal = true
    · obtain ⟨base, hbase⟩ := Option.isSome_iff_exists.mp (hnet ht)
      let log := base ++ opening ++
        ss.predecessorEdges (te.2.action, index) (.event te.2.action te.2.pos id) true s.path.reverse ++
        ss.todoEdges (te.2.action, index) (.event te.2.action te.2.pos id) newState.todo
      refine ⟨if tn.checkStn log then some { next with temporalNetwork := some log } else none, ?_, ?_⟩
      · refine bind_eq_ok.mpr ⟨_, rfl, bind_eq_ok.mpr ⟨_, rfl, bind_eq_ok.mpr ⟨true, hb, ?_⟩⟩⟩
        rw [if_pos rfl, if_pos ht]
        exact bind_eq_ok.mpr ⟨base, orRaise_eq_ok.mpr hbase, bind_eq_ok.mpr
          ⟨opening, orRaise_eq_ok.mpr hopening, rfl⟩⟩
      · intro t h
        by_cases hcheck : tn.checkStn log = true
        · rw [if_pos hcheck] at h
          obtain rfl := Option.some.inj h
          exact ⟨⟨hP', hnext, fun _ => rfl⟩, rfl⟩
        · rw [if_neg hcheck] at h
          contradiction
    · refine ⟨some next, ?_, fun t h => ?_⟩
      · refine bind_eq_ok.mpr ⟨_, rfl, bind_eq_ok.mpr ⟨_, rfl, bind_eq_ok.mpr ⟨true, hb, ?_⟩⟩⟩
        rw [if_pos rfl, if_neg ht]
        rfl
      · obtain rfl := Option.some.inj h
        exact ⟨⟨hP', hnext, fun hnot => absurd hnot ht⟩, rfl⟩

/-- Opening an action in a state whose copy has lost the network. -/
theorem SearchSpace.Defined.openAction (hdef : ss.Defined P) (hs : Fit ss P s) (hle : ss.events a = some le)
    (hte : le[0]? = some te) (pin : Bool) (g : ℕ) :
    ∃ r, ss.tryOpenAction tn order counter s { s with temporalNetwork := none, g := g } a le pin = .ok r ∧
      ∀ t, r = some t → Fit ss P t ∧ openAt le 1 ≤ t.activeConditions ∧
        (1 < le.length → ∃ next, t.todo.lookup a = some next) := by
  have hev : ss.event a 0 = some te := by rw [Config.event_eq hle, hte]
  have hends : ∀ m : Multiset Expression, Multiset.ofList te.2.endConditions ≤ m := fun m => by
    rw [(hdef.nested hle).first hte]
    exact Multiset.zero_le m
  have hstate : ∀ todo : AList (fun _ : Action => ℕ × ℕ), ∀ id po, ∃ r,
      ss.tryExpandEvent tn order s { s with temporalNetwork := none, g := g, todo := todo } te.2 0 id po =
          .ok r ∧
        ∀ t, r = some t → Fit ss P t ∧ openAt le 1 ≤ t.activeConditions ∧ t.todo = todo := by
    intro todo id po
    obtain ⟨r, hr, hfit⟩ : ∃ r, ss.tryExpandEvent tn order s
        { s with temporalNetwork := none, g := g, todo := todo } te.2 0 id po = .ok r ∧
          ∀ t, r = some t → Fit ss P t ∧ t.todo = todo :=
      hdef.expandEvent s { s with temporalNetwork := none, g := g, todo := todo } hev hs.assignments rfl
        hs.active (hends _) hs.network po
    refine ⟨r, hr, fun t ht => ?_⟩
    obtain ⟨hfit, htodo⟩ := hfit t ht
    have hexpand := expandEvent_of_try hr
    rw [ht] at hexpand
    exact ⟨hfit, openAt_expandEvent hexpand (Multiset.zero_le _) hte, htodo⟩
  by_cases ht : ss.isTemporal = true
  · by_cases hlen : 1 < le.length
    · obtain ⟨r, hr, hfit⟩ := hstate (s.todo.insert a (1, counter + 1 + 1)) (counter + 1)
        (some ⟨a, counter, le, pin⟩)
      refine ⟨r, bind_eq_ok.mpr ⟨te, orRaise_eq_ok.mpr hte, ?_⟩, fun t h => ?_⟩
      · simp only [if_pos ht, if_pos hlen]
        exact hr
      · obtain ⟨hfit, hopen, htodo⟩ := hfit t h
        refine ⟨hfit, hopen, fun _ => ⟨(1, counter + 1 + 1), ?_⟩⟩
        rw [htodo, AList.lookup_insert]
    · obtain ⟨r, hr, hfit⟩ := hstate s.todo (counter + 1) (some ⟨a, counter, le, pin⟩)
      refine ⟨r, bind_eq_ok.mpr ⟨te, orRaise_eq_ok.mpr hte, ?_⟩, fun t h => ?_⟩
      · simp only [if_pos ht, if_neg hlen]
        exact hr
      · obtain ⟨hfit, hopen, -⟩ := hfit t h
        exact ⟨hfit, hopen, fun hlt => absurd hlt hlen⟩
  · obtain ⟨r, hr, hfit⟩ := hstate s.todo counter none
    refine ⟨r, bind_eq_ok.mpr ⟨te, orRaise_eq_ok.mpr hte, ?_⟩, fun t h => ?_⟩
    · rw [if_neg ht]
      exact hr
    · obtain ⟨hfit, hopen, -⟩ := hfit t h
      have hlen := length_eq_one_of_not_temporal ht hle
      exact ⟨hfit, hopen, fun hlt => absurd hlen hlt.ne'⟩

theorem SearchSpace.Defined.expandRest (hdef : ss.Defined P) (hle : ss.events a = some le)
    {rest : List (Timing × Event)} (hrest : le.drop index = rest) (hs : Fit ss P newState)
    (hopen : openAt le index ≤ newState.activeConditions) :
    ∃ r, ss.tryExpandRest tn order rest index id newState = .ok r := by
  induction rest generalizing index id newState with
  | nil => exact ⟨some newState, rfl⟩
  | cons te rest ih =>
    have hte : le[index]? = some te := by
      have := congrArg (fun l => l[0]?) hrest
      simpa using this
    have hrest' : le.drop (index + 1) = rest := by
      have := congrArg List.tail hrest
      simpa using this
    have hev : ss.event a index = some te := by rw [Config.event_eq hle, hte]
    have hends := ((hdef.nested hle).ends_le hte).trans hopen
    obtain ⟨b, hb⟩ : ∃ b, tryAll (effectIndependentStartConditions te.2) newState.assignments = .ok b :=
      exists_tryAll fun x hx =>
        hdef.conditions hev x (List.mem_cons_of_mem _ (List.mem_of_mem_filter hx)) _ hs.assignments
    cases b with
    | false => exact ⟨none, bind_eq_ok.mpr ⟨false, hb, rfl⟩⟩
    | true =>
      obtain ⟨r, hr, hfit⟩ : ∃ r, ss.tryExpandEvent tn order { newState with temporalNetwork := none }
          { newState with g := newState.g + 1 } te.2 index id none = .ok r ∧
          ∀ t, r = some t → Fit ss P t ∧ t.todo = newState.todo :=
        hdef.expandEvent { newState with temporalNetwork := none } { newState with g := newState.g + 1 } hev
          hs.assignments rfl hs.active hends (fun ht => by simpa using hs.network ht) none
      cases r with
      | none => exact ⟨none, bind_eq_ok.mpr ⟨true, hb, bind_eq_ok.mpr ⟨none, hr, rfl⟩⟩⟩
      | some t =>
        have hnext := openAt_expandEvent (expandEvent_of_try hr) hopen hte
        obtain ⟨r, hr'⟩ := ih hrest' (hfit t rfl).1 hnext
        exact ⟨r, bind_eq_ok.mpr ⟨true, hb, bind_eq_ok.mpr ⟨some t, hr, hr'⟩⟩⟩

/-- After the opening of an action its other events can be fired in a row. -/
theorem SearchSpace.Defined.compress (hdef : ss.Defined P) (hle : ss.events a = some le)
    (hfit : Fit ss P t) (hopen : openAt le 1 ≤ t.activeConditions)
    (hnext : 1 < le.length → ∃ next, t.todo.lookup a = some next) :
    ∃ r, ss.tryCompress tn order a le (some t) = .ok r := by
  rw [tryCompress]
  by_cases hsafe : (ss.isCompressionSafe a && decide (1 < le.length)) = true
  · rw [if_pos hsafe]
    obtain ⟨next, hnext⟩ := hnext (by simpa using (Bool.and_eq_true_iff.mp hsafe).2)
    have hrest : le.drop 1 = le.tail := List.drop_one
    have herased : Fit ss P { t with todo := t.todo.erase a } :=
      ⟨hfit.assignments, hfit.active, hfit.network⟩
    obtain ⟨r, hr⟩ : ∃ r, ss.tryExpandRest tn order le.tail 1 next.2
        { t with todo := t.todo.erase a } = .ok r := hdef.expandRest hle hrest herased hopen
    exact ⟨r, bind_eq_ok.mpr ⟨next, orRaise_eq_ok.mpr hnext, hr⟩⟩
  · rw [if_neg hsafe]
    exact ⟨some t, rfl⟩

/-- A running action has its next event, and what it has open is active. -/
def RunningFit (ss : SearchSpace) (s : State) : Prop :=
  ∀ a k id, s.todo.lookup a = some (k, id) → ∃ le te, ss.events a = some le ∧ le[k]? = some te ∧
    openAt le k ≤ s.activeConditions

/-- A running action goes on with its next event. -/
theorem SearchSpace.Defined.advance (hdef : ss.Defined P) (hs : Fit ss P s) (hrun : RunningFit ss s)
    (hle : ss.events a = some le) (hl : s.todo.lookup a = some (k, id)) :
    ∃ r, ss.tryGetSuccessorState tn order counter s a = .ok r := by
  obtain ⟨le', te, hle', hte, hopen⟩ := hrun a k id hl
  obtain rfl := Option.some.inj (hle.symm.trans hle')
  have hev : ss.event a k = some te := by rw [Config.event_eq hle, hte]
  obtain ⟨b, hb⟩ := hdef.applicable hev hs.assignments
  have hends := ((hdef.nested hle).ends_le hte).trans hopen
  let todo := if le.length ≤ k + 1 then s.todo.erase a else s.todo.insert a (k + 1, id + 1)
  obtain ⟨r, hr, -⟩ : ∃ r, ss.tryExpandEvent tn order s
      { s with temporalNetwork := none, g := s.g + 1, todo := todo } te.2 k id none = .ok r ∧
      ∀ t, r = some t → Fit ss P t ∧ t.todo = todo :=
    hdef.expandEvent s { s with temporalNetwork := none, g := s.g + 1, todo := todo } hev hs.assignments rfl
      hs.active hends hs.network none
  refine ⟨if b = true then r else none, bind_eq_ok.mpr ⟨le, orRaise_eq_ok.mpr hle, ?_⟩⟩
  rw [hl]
  refine bind_eq_ok.mpr ⟨te, orRaise_eq_ok.mpr hte, bind_eq_ok.mpr ⟨b, hb, ?_⟩⟩
  cases b with
  | false => rfl
  | true => exact hr

theorem SearchSpace.Defined.getSuccessorState (hdef : ss.Defined P) (hs : Fit ss P s)
    (hrun : RunningFit ss s) (hle : ss.events a = some le) :
    ∃ r, ss.tryGetSuccessorState tn order counter s a = .ok r := by
  cases hl : s.todo.lookup a with
  | some p => exact hdef.advance hs hrun hle hl
  | none =>
    obtain ⟨te, hte, hev⟩ := exists_first_event hle
    obtain ⟨b, hb⟩ := hdef.applicable hev hs.assignments
    obtain ⟨r, hr, hfit⟩ : ∃ r, ss.tryOpenAction tn order counter s
        { s with temporalNetwork := none, g := s.g + 1 } a le false = .ok r ∧
        ∀ t, r = some t → Fit ss P t ∧ openAt le 1 ≤ t.activeConditions ∧
          (1 < le.length → ∃ next, t.todo.lookup a = some next) :=
      hdef.openAction hs hle hte false (s.g + 1)
    obtain ⟨r', hr'⟩ : ∃ r', ss.tryCompress tn order a le r = .ok r' := by
      cases r with
      | none => exact ⟨none, rfl⟩
      | some t =>
        obtain ⟨hfit, hopen, hnext⟩ := hfit t rfl
        exact hdef.compress hle hfit hopen hnext
    by_cases ht : ss.timedAction = some a
    · refine ⟨none, bind_eq_ok.mpr ⟨le, orRaise_eq_ok.mpr hle, ?_⟩⟩
      rw [hl]
      exact if_pos ht
    by_cases hsym : (!ss.symmetryAllowsOpening (s.path.map Prod.fst) a) = true
    · refine ⟨none, bind_eq_ok.mpr ⟨le, orRaise_eq_ok.mpr hle, ?_⟩⟩
      rw [hl]
      dsimp only
      rw [if_neg ht, if_pos hsym]
      rfl
    refine ⟨if b = true then r' else none, bind_eq_ok.mpr ⟨le, orRaise_eq_ok.mpr hle, ?_⟩⟩
    rw [hl]
    dsimp only
    rw [if_neg ht, if_neg hsym]
    refine bind_eq_ok.mpr ⟨te, orRaise_eq_ok.mpr hte, bind_eq_ok.mpr ⟨b, hb, ?_⟩⟩
    cases b with
    | false => rfl
    | true => exact bind_eq_ok.mpr ⟨r, hr, hr'⟩

theorem fit_of_reachable {d : ℕ} {relevantActions : List Action} (hdef : ss.Defined P)
    (hs : ReachableWithin ss tn true relevantActions s d) : Fit ss P s ∧ RunningFit ss s := by
  obtain ⟨n, s₀, m, as, h₀, hr, -, -⟩ := hs
  obtain ⟨c₀, ids₀, hc₀, href₀, -⟩ := refines_initial h₀
  obtain ⟨c, ids, hc, href, -⟩ := href₀.run (Config.wellFormed_initial hc₀) hr
  have hreach : Config.Reachable ss true c := ⟨c₀, as, hc₀, hc⟩
  obtain ⟨hP, hactive⟩ := hreach.fire_induct
    (P := fun A active => P A ∧ ∀ x ∈ active, ∀ A, P A → ∃ v, evaluate x A = some v)
    ⟨hdef.initial, fun x hx => absurd hx (Multiset.notMem_zero x)⟩ fun {e _ _ _ _ _ _ _} hev he hf => by
      obtain ⟨removed, A, hr, hA, -, rfl⟩ := Config.fire_eq_some.mp hf
      obtain ⟨A', hA', hP'⟩ := hdef.effects hev e.assignments he.1
      obtain rfl := Option.some.inj (hA.symm.trans hA')
      refine ⟨hP', fun x hx => ?_⟩
      rcases Multiset.mem_add.mp hx with hx | hx
      · exact he.2 x (Multiset.mem_of_le (removeAll_le hr) hx)
      · exact hdef.conditions hev x (List.mem_cons_of_mem _ hx)
  refine ⟨⟨href.assignments ▸ hP, href.active ▸ hactive, fun ht => ?_⟩, fun a k id hl => ?_⟩
  · obtain ⟨log, hlog, -⟩ := (href.timed ht).network
    rw [hlog]
    rfl
  · rw [href.todo, Option.map_eq_some_iff] at hl
    obtain ⟨⟨k', j⟩, hl, heq⟩ := hl
    obtain ⟨rfl, -⟩ := Prod.mk.inj heq
    obtain ⟨te, hte⟩ := Option.isSome_iff_exists.mp (hreach.wellFormed.todo hl).2.2.2
    obtain ⟨le, hle, hte⟩ := Option.bind_eq_some_iff.mp hte
    rw [href.active]
    exact ⟨le, te, hle, hte, hreach.balanced.openAt_le (fun a le _ hle => hdef.nested hle)
      (fun p _ le hle => hdef.nested hle) hle hl⟩

/-- Where everything has a value on what the events lead to, nothing is ever raised. -/
theorem SearchSpace.Defined.neverRaises (hdef : ss.Defined P) (tn : DeltaSimpleTemporalNetwork)
    (order : ConditionOrder) {relevantActions : List Action}
    (hrel : ∀ a ∈ relevantActions, ∃ le, ss.events a = some le) :
    NeverRaises ss tn order relevantActions := by
  refine ⟨fun counter => ?_, fun {s d} hs a ha => ?_, fun {s d} hs => ?_⟩
  · rw [SearchSpace.tryInitial]
    cases ht : ss.timedAction with
    | none => exact ⟨_, rfl⟩
    | some a =>
      obtain ⟨le, hle⟩ := hdef.timed a ht
      obtain ⟨te, hte, hev⟩ := exists_first_event hle
      obtain ⟨b, hb⟩ := hdef.applicable hev hdef.initial
      let init : State :=
        ⟨ss.initialState, if ss.isTemporal then some ss.deadlineEdges else none, ∅, 0, 0, []⟩
      have hinit : Fit ss P init :=
        ⟨hdef.initial, fun x hx => absurd hx (Multiset.notMem_zero x), fun ht => by simp [init, ht]⟩
      obtain ⟨r, hr, -⟩ : ∃ r, ss.tryOpenAction tn order counter init
          { init with temporalNetwork := none, g := 0 } a le true = .ok r ∧
          ∀ t, r = some t → Fit ss P t ∧ openAt le 1 ≤ t.activeConditions ∧
            (1 < le.length → ∃ next, t.todo.lookup a = some next) := hdef.openAction hinit hle hte true 0
      refine ⟨if b = true then r else none, ?_⟩
      dsimp only
      refine bind_eq_ok.mpr ⟨le, orRaise_eq_ok.mpr hle, bind_eq_ok.mpr ⟨te, orRaise_eq_ok.mpr hte,
        bind_eq_ok.mpr ⟨b, hb, ?_⟩⟩⟩
      cases b with
      | false => rfl
      | true => exact hr
  · obtain ⟨le, hle⟩ := hrel a ha
    obtain ⟨hfit, hrun⟩ := fit_of_reachable hdef hs
    exact hdef.getSuccessorState hfit hrun hle
  · obtain ⟨hfit, -⟩ := fit_of_reachable hdef hs
    obtain ⟨b, hb⟩ := hdef.goal s.assignments hfit.assignments
    rw [SearchSpace.tryGoalReached]
    by_cases hidle : s.todo.entries.isEmpty = true
    · rw [if_pos hidle, hb]
      exact ⟨b, rfl⟩
    · rw [if_neg hidle]
      exact ⟨false, rfl⟩

end Values

end TamerLite
