import TamerLite.Dominance

/-! The condition checks of the expansion against the plain rule, which applies
the effects and then checks every active condition. -/

namespace TamerLite

open Difference SearchSpace

/-! ### What is open -/

section

variable (ss : SearchSpace)

/-- The conditions `g` of the events of `a` before position `k`. -/
def conditionsBefore (g : Event → List Expression) (a : Action) (k : ℕ) : Multiset Expression :=
  Multiset.ofList ((((ss.events a).getD []).take k).flatMap fun te => g te.2)

/-- The conditions `g` of the events the open actions have fired. -/
def firedConditions (g : Event → List Expression) (todo : AList (fun _ : Action => ℕ × ℕ)) :
    Multiset Expression :=
  (todo.entries.map fun p => conditionsBefore ss g p.1 p.2.1).sum

/-- The conditions `g` of the timed action, once its last event has fired. -/
def timedFired (g : Event → List Expression) (todo : AList (fun _ : Action => ℕ × ℕ)) :
    Multiset Expression :=
  match ss.timedAction with
  | none => 0
  | some a => if (todo.lookup a).isNone then conditionsFrom ss g a 0 else 0

variable {ss} {g : Event → List Expression} {todo : AList (fun _ : Action => ℕ × ℕ)} {a : Action}

theorem conditionsBefore_add_from (g : Event → List Expression) (a : Action) (k : ℕ) :
    conditionsBefore ss g a k + conditionsFrom ss g a k = conditionsFrom ss g a 0 := by
  rw [conditionsBefore, conditionsFrom, Multiset.coe_add, ← List.flatMap_append,
    List.take_append_drop]
  rfl

variable (ss) in
theorem firedConditions_add_remaining (g : Event → List Expression)
    (todo : AList (fun _ : Action => ℕ × ℕ)) :
    firedConditions ss g todo + remaining ss g todo =
      (todo.entries.map fun p => conditionsFrom ss g p.1 0).sum := by
  rw [firedConditions, remaining, ← List.sum_map_add]
  simp only [conditionsBefore_add_from]

theorem conditionsFrom_balanced (ht : ss.timedAction ≠ some a) :
    conditionsFrom ss Event.startConditions a 0 = conditionsFrom ss Event.endConditions a 0 := by
  cases hle : ss.events a with
  | none => simp [conditionsFrom, hle]
  | some le =>
    have := ss.events_balanced ht hle
    simpa [conditionsFrom, hle, opened, closed] using this

variable (ss) in
theorem total_balanced (l : List (Sigma fun _ : Action => ℕ × ℕ))
    (h : ∀ p ∈ l, ss.timedAction ≠ some p.1) :
    (l.map fun p => conditionsFrom ss Event.startConditions p.1 0).sum =
      (l.map fun p => conditionsFrom ss Event.endConditions p.1 0).sum := by
  refine congrArg List.sum (List.map_congr_left fun p hp => ?_)
  exact conditionsFrom_balanced (h p hp)

variable (ss) in
/-- Only the timed action opens more than it closes. -/
theorem total_timed (todo : AList (fun _ : Action => ℕ × ℕ)) :
    (todo.entries.map fun p => conditionsFrom ss Event.startConditions p.1 0).sum +
        timedFired ss Event.startConditions todo + timedConditions ss Event.endConditions =
      (todo.entries.map fun p => conditionsFrom ss Event.endConditions p.1 0).sum +
        timedFired ss Event.endConditions todo + timedConditions ss Event.startConditions := by
  cases ht : ss.timedAction with
  | none =>
    have hall := total_balanced ss todo.entries fun p _ => by simp [ht]
    simp only [timedFired, timedConditions, ht, hall]
  | some a =>
    cases hl : todo.lookup a with
    | none =>
      have hall := total_balanced ss todo.entries fun p hp he => by
        obtain rfl := Option.some.inj (ht.symm.trans he)
        rw [AList.mem_lookup_iff.mpr hp] at hl
        contradiction
      simp only [timedFired, timedConditions, ht, hl, hall, Option.isNone_none, if_true]
      abel
    | some q =>
      obtain ⟨l₁, l₂, he, hk⟩ := entries_erase hl
      have hall := total_balanced ss (l₁ ++ l₂) fun p hp ha => by
        rw [← hk] at hp
        have hp := AList.mem_lookup_iff.mpr hp
        obtain rfl := Option.some.inj (ht.symm.trans ha)
        rw [AList.lookup_erase] at hp
        contradiction
      simp only [List.map_append, List.sum_append] at hall
      simp only [timedFired, timedConditions, ht, hl, he, List.map_append, List.map_cons,
        List.sum_append, List.sum_cons, Option.isNone_some, Bool.false_eq_true, if_false]
      refine Multiset.ext.mpr fun x => ?_
      have hx := congrArg (Multiset.count x) hall
      simp only [Multiset.count_add, Multiset.count_zero] at hx ⊢
      omega

/-- What is active is what the open actions have opened and not closed. -/
theorem Balanced.active_add_fired {c : Config} (h : Balanced ss c) :
    c.active + (firedConditions ss Event.endConditions c.todo +
        timedFired ss Event.endConditions c.todo) =
      firedConditions ss Event.startConditions c.todo +
        timedFired ss Event.startConditions c.todo := by
  have hs := firedConditions_add_remaining ss Event.startConditions c.todo
  have he := firedConditions_add_remaining ss Event.endConditions c.todo
  have ht := total_timed ss c.todo
  unfold Balanced at h
  refine Multiset.ext.mpr fun x => ?_
  have hx := congrArg (Multiset.count x) h
  have hsx := congrArg (Multiset.count x) hs
  have hex := congrArg (Multiset.count x) he
  have htx := congrArg (Multiset.count x) ht
  simp only [Multiset.count_add] at hx hsx hex htx ⊢
  omega

end

/-! ### The plain rule -/

namespace SearchSpace

variable [Callables] (ss : SearchSpace) (tn : DeltaSimpleTemporalNetwork)

/-- The expansion of an event with every active condition checked on the new
assignments, whatever the effects. -/
def expandEventPlain (state newState : State) (e : Event) (index id : ℕ)
    (pendingOpening : Option PendingOpening) : Option State := do
  let removed ← removeAll e.endConditions newState.activeConditions
  let active := removed + e.startConditions
  let assignments ← applyEffects e.effects state.assignments newState.assignments
  if ¬ ∀ c ∈ active, holds c assignments then none
  else
    let newState := { newState with
      assignments := assignments
      activeConditions := active
      path := newState.path ++ [(e.action, e.pos, id)] }
    if ss.isTemporal then
      let base ← newState.temporalNetwork <|> state.temporalNetwork
      let opening ← ss.addOpeningConstraints state.assignments pendingOpening
      let ev := .event e.action e.pos id
      let network := base ++ opening ++
        ss.predecessorEdges (e.action, index) ev true state.path.reverse ++
        ss.todoEdges (e.action, index) ev newState.todo
      if tn.checkStn network then some { newState with temporalNetwork := some network }
      else none
    else some newState

def openActionPlain (counter : ℕ) (state newState : State) (a : Action)
    (events : List (Timing × Event)) (pinToPlanStart : Bool) : Option State := do
  let e ← events[0]?
  if ss.isTemporal then
    let id := counter + 1
    let newState := if 1 < events.length then
      { newState with todo := newState.todo.insert a (1, id + 1) } else newState
    ss.expandEventPlain tn state newState e.2 0 id (some ⟨a, counter, events, pinToPlanStart⟩)
  else ss.expandEventPlain tn state newState e.2 0 counter none

def expandRestPlain : List (Timing × Event) → ℕ → ℕ → State → Option State
  | [], _, _, newState => some newState
  | (_, e) :: rest, index, id, newState => do
    let state := { newState with temporalNetwork := none }
    let expanded ← ss.expandEventPlain tn state { newState with g := newState.g + 1 } e index id none
    expandRestPlain rest (index + 1) (id + 1) expanded

/-- The successor under the plain rule: an event's own conditions before its
effects, every active condition after them. -/
def plainSuccessor (counter : ℕ) (state : State) (a : Action) (compression : Bool) :
    Option State := do
  let events ← ss.events a
  match state.todo.lookup a with
  | some (index, id) =>
    let e ← events[index]?
    if holds e.2.conditions state.assignments then
      let todo := if events.length ≤ index + 1 then state.todo.erase a
        else state.todo.insert a (index + 1, id + 1)
      ss.expandEventPlain tn state
        { state with temporalNetwork := none, g := state.g + 1, todo := todo } e.2 index id none
    else none
  | none =>
    if ss.timedAction = some a then none
    else if !ss.symmetryAllowsOpening (state.path.map Prod.fst) a then none
    else
      let e ← events[0]?
      if holds e.2.conditions state.assignments then
        let newState ← ss.openActionPlain tn counter state
          { state with temporalNetwork := none, g := state.g + 1 } a events false
        if compression && ss.isCompressionSafe a && 1 < events.length then
          let next ← newState.todo.lookup a
          ss.expandRestPlain tn events.tail 1 next.2
            { newState with todo := newState.todo.erase a }
        else some newState
      else none

/-- `initial_state` with the plain rule for the timed action's first event. -/
def initialPlain (counter : ℕ) : Option State :=
  let state : State :=
    { assignments := ss.initialState
      temporalNetwork := if ss.isTemporal then some ss.deadlineEdges else none
      todo := ∅
      activeConditions := 0
      g := 0
      path := [] }
  match ss.timedAction with
  | none => some state
  | some a => do
    let events ← ss.events a
    let e ← events[0]?
    if holds e.2.conditions state.assignments then
      ss.openActionPlain tn counter state { state with temporalNetwork := none } a events true
    else none

end SearchSpace

section

variable {ss : SearchSpace} {tn : DeltaSimpleTemporalNetwork}

theorem bind_eq_plain {x y : Option State} {p : Bool} {k k' : State → Option State}
    (h : (if p then x else none) = y) (hk : ∀ t, y = some t → k t = k' t) :
    (if p then x.bind k else none) = y.bind k' := by
  subst h
  split_ifs at hk ⊢
  · cases x with
    | none => rfl
    | some t => exact hk t rfl
  · rfl

variable [Callables]

/-- The active conditions hold on the state's own assignments. -/
def ActiveHold (s : State) : Prop := ∀ x ∈ s.activeConditions, holds x s.assignments = true

theorem ActiveHold.of_expandEventPlain {state newState s : State} {e : Event} {index id : ℕ}
    {po : Option PendingOpening}
    (h : ss.expandEventPlain tn state newState e index id po = some s) : ActiveHold s := by
  simp only [expandEventPlain, Option.bind_eq_bind, Option.bind_eq_some_iff] at h
  obtain ⟨removed, -, assignments, -, h⟩ := h
  by_cases hact : ∀ c ∈ removed + e.startConditions, holds c assignments = true
  · rw [if_neg (not_not.mpr hact)] at h
    split_ifs at h with ht
    · simp only [Option.bind_eq_some_iff] at h
      obtain ⟨base, -, opening, -, h⟩ := h
      split_ifs at h
      obtain rfl := Option.some.inj h
      exact hact
    · obtain rfl := Option.some.inj h
      exact hact
  · rw [if_pos hact] at h
    contradiction

variable (ss tn) in
/-- The two shortcuts of the expansion and the plain check give one answer. -/
theorem expandEvent_eq_plain (state newState : State) (e : Event) (index id : ℕ)
    (po : Option PendingOpening) (hact : ActiveHold newState)
    (ha : newState.assignments = state.assignments) :
    (if effectIndependentStartConditionsHold e state.assignments then
      ss.expandEvent tn state newState e index id po else none) =
      ss.expandEventPlain tn state newState e index id po := by
  simp only [expandEvent, expandEventPlain, ha]
  cases hr : removeAll e.endConditions newState.activeConditions with
  | none => simp
  | some removed =>
    cases has : applyEffects e.effects state.assignments state.assignments with
    | none => simp
    | some assignments =>
      have hshort := plain_iff_shortcut (ha ▸ hact) hr has
      simp only [Option.bind_eq_bind, Option.bind_some]
      by_cases hall : ∀ c ∈ removed + e.startConditions, holds c assignments = true
      · obtain ⟨hi, hn⟩ := hshort.mp hall
        rw [if_pos hi, if_neg hn, if_neg (not_not.mpr hall)]
      · rw [if_pos hall]
        by_cases hi : effectIndependentStartConditionsHold e state.assignments = true
        · rw [if_pos hi, if_pos]
          by_contra hn
          exact hall (hshort.mpr ⟨hi, hn⟩)
        · rw [if_neg hi]

theorem openAction_eq_plain {s newState : State} {a : Action} {le : List (Timing × Event)}
    {te : Timing × Event} (counter : ℕ) (pin : Bool) (hte : le[0]? = some te)
    (hact : ActiveHold newState) (ha : newState.assignments = s.assignments) :
    (if effectIndependentStartConditionsHold te.2 s.assignments then
      ss.openAction tn counter s newState a le pin else none) =
      ss.openActionPlain tn counter s newState a le pin := by
  simp only [openAction, openActionPlain, hte, Option.bind_eq_bind, Option.bind_some]
  by_cases ht : ss.isTemporal = true
  · simp only [if_pos ht]
    by_cases hlen : 1 < le.length
    · simp only [if_pos hlen]
      exact expandEvent_eq_plain _ _ _ _ _ _ _ _ hact ha
    · simp only [if_neg hlen]
      exact expandEvent_eq_plain _ _ _ _ _ _ _ _ hact ha
  · simp only [if_neg ht]
    exact expandEvent_eq_plain _ _ _ _ _ _ _ _ hact ha

theorem expandRest_eq_plain {rest : List (Timing × Event)} {index id : ℕ} {s : State}
    (hact : ActiveHold s) : ss.expandRest tn rest index id s = ss.expandRestPlain tn rest index id s := by
  induction rest generalizing index id s with
  | nil => rfl
  | cons te rest ih =>
    have hplain := expandEvent_eq_plain ss tn { s with temporalNetwork := none } { s with g := s.g + 1 }
      te.2 index id none hact rfl
    exact bind_eq_plain hplain fun t ht => ih (ActiveHold.of_expandEventPlain ht)

theorem ActiveHold.of_openActionPlain {s newState t : State} {a : Action}
    {le : List (Timing × Event)} {counter : ℕ} {pin : Bool}
    (h : ss.openActionPlain tn counter s newState a le pin = some t) : ActiveHold t := by
  simp only [openActionPlain, Option.bind_eq_bind, Option.bind_eq_some_iff] at h
  obtain ⟨e, -, h⟩ := h
  split_ifs at h
  · exact of_expandEventPlain h
  · exact of_expandEventPlain h
  · exact of_expandEventPlain h

/-- The successors of a state whose active conditions hold are those of the
plain rule. -/
theorem successor_eq_plain {s : State} (hact : ActiveHold s) (counter : ℕ) (a : Action) (b : Bool) :
    ss.getSuccessorStateWithCompression tn counter s a b =
      ss.plainSuccessor tn counter s a b := by
  unfold getSuccessorStateWithCompression plainSuccessor
  cases hle : ss.events a with
  | none => rfl
  | some le =>
    simp only [Option.bind_eq_bind, Option.bind_some]
    cases hl : s.todo.lookup a with
    | some q =>
      cases hte : le[q.1]? with
      | none => simp [hte]
      | some te =>
        simp only [hte, Option.bind_some]
        by_cases hc : holds te.2.conditions s.assignments = true
        · simp only [hc, Bool.true_and, if_true]
          exact expandEvent_eq_plain _ _ _ _ _ _ _ _ hact rfl
        · simp [hc]
    | none =>
      simp only
      by_cases ht : ss.timedAction = some a
      · rw [if_pos ht, if_pos ht]
      · rw [if_neg ht, if_neg ht]
        by_cases hs : ss.symmetryAllowsOpening (s.path.map Prod.fst) a = true
        · simp only [hs, Bool.not_true, Bool.false_eq_true, if_false]
          cases hte : le[0]? with
          | none => rfl
          | some te =>
            simp only [Option.bind_some]
            by_cases hc : holds te.2.conditions s.assignments = true
            · simp only [hc, Bool.true_and, if_true]
              refine bind_eq_plain (openAction_eq_plain counter false hte hact rfl) fun t ht => ?_
              by_cases hb : (b && ss.isCompressionSafe a && decide (1 < le.length)) = true
              · rw [if_pos hb, if_pos hb]
                have hat := ActiveHold.of_openActionPlain ht
                refine congrArg _ (funext fun next => ?_)
                exact expandRest_eq_plain (s := { t with todo := t.todo.erase a }) hat
              · rw [if_neg hb, if_neg hb]
            · simp [hc]
        · simp [hs]

theorem initial_eq_plain (counter : ℕ) : ss.initial tn counter = ss.initialPlain tn counter := by
  unfold SearchSpace.initial initialPlain
  cases ht : ss.timedAction with
  | none => rfl
  | some a =>
    simp only [openTimedAction]
    cases hle : ss.events a with
    | none => rfl
    | some le =>
      cases hte : le[0]? with
      | none => simp [hte]
      | some te =>
        simp only [Option.bind_eq_bind, Option.bind_some, hte]
        by_cases hc : holds te.2.conditions ss.initialState = true
        · simp only [hc, Bool.true_and, if_true]
          have hact : ActiveHold { emptyState ss with temporalNetwork := none } :=
            fun x hx => absurd hx (Multiset.notMem_zero x)
          exact openAction_eq_plain (s := emptyState ss) counter true hte hact rfl
        · simp [hc]

/-- In every state reached, the active conditions are those opened and not yet
closed, all of them hold, and the successors are those of the plain rule. -/
theorem active_conditions_exact {b : Bool} {n m : ℕ} {s₀ s : State} {as : List Action}
    (h₀ : ss.initial tn n = some s₀) (hr : Run ss tn b s₀ (initialCounter ss n) as s m) :
    s.activeConditions + (firedConditions ss Event.endConditions s.todo +
        timedFired ss Event.endConditions s.todo) =
      firedConditions ss Event.startConditions s.todo +
        timedFired ss Event.startConditions s.todo ∧
    (∀ x ∈ s.activeConditions, holds x s.assignments = true) ∧
    (∀ counter a b', ss.getSuccessorStateWithCompression tn counter s a b' =
      ss.plainSuccessor tn counter s a b') ∧
    ∀ counter, ss.initial tn counter = ss.initialPlain tn counter := by
  obtain ⟨c₀, ids₀, hc₀, href₀, -⟩ := refines_initial h₀
  obtain ⟨c, ids, hc, href, -⟩ := href₀.run (Config.wellFormed_initial hc₀) hr
  have hreach : Config.Reachable ss b c := ⟨c₀, as, hc₀, hc⟩
  have hlookup : ∀ a, (s.todo.lookup a).map Prod.fst = (c.todo.lookup a).map Prod.fst := by
    intro a
    rw [href.todo, Option.map_map]
    rfl
  have hfired : ∀ g, firedConditions ss g s.todo = firedConditions ss g c.todo :=
    fun g => sum_entries_congr (conditionsBefore ss g) hlookup
  have htimed : ∀ g, timedFired ss g s.todo = timedFired ss g c.todo := by
    intro g
    unfold timedFired
    simp only [href.todo, Option.isNone_map]
  have hact : ActiveHold s := by
    intro x hx
    rw [href.assignments]
    exact hreach.wellFormed.active x (href.active ▸ hx)
  refine ⟨?_, hact, fun counter a b' => successor_eq_plain hact counter a b',
    fun counter => initial_eq_plain counter⟩
  rw [href.active, hfired, hfired, htimed, htimed]
  exact hreach.balanced.active_add_fired

end

/-! ### An action in progress -/

section

attribute [local instance] Callables.empty

/-- One action, which needs the first fluent throughout and sets the second at its end. -/
def holding : SearchSpace :=
  .ofTable [(some ⟨[.constant (.num 2)], [.constant (.num 2)], false, false⟩,
    [(⟨true, 0⟩, ⟨⟨0⟩, 0, [.fluent ⟨0⟩], [[.fluent ⟨0⟩]], [], []⟩),
      (⟨false, 0⟩, ⟨⟨0⟩, 1, [.fluent ⟨0⟩], [], [[.fluent ⟨0⟩]], [⟨⟨1⟩, [.constant (.bool true)]⟩]⟩)])]
    [.bool true, .bool false] [.fluent ⟨1⟩]

def holdingOpen : Config :=
  ⟨[.bool true, .bool false], AList.singleton ⟨0⟩ (1, 0), {[.fluent ⟨0⟩]}, [⟨⟨0⟩, 2, 2, false⟩],
    [(0, 0)]⟩

theorem holding_run :
    Config.runWith holding false ⟨[.bool true, .bool false], ∅, 0, [], []⟩ [⟨0⟩] = some holdingOpen :=
  rfl

theorem active_conditions_exact_holding : ∃ s₀ s m, holding.initial .earliest 0 = some s₀ ∧
    Run holding .earliest false s₀ (initialCounter holding 0) [⟨0⟩] s m ∧
    (s.todo.lookup ⟨0⟩).isSome = true ∧
    s.activeConditions + (firedConditions holding Event.endConditions s.todo +
        timedFired holding Event.endConditions s.todo) =
      firedConditions holding Event.startConditions s.todo +
        timedFired holding Event.startConditions s.todo ∧
    (∀ x ∈ s.activeConditions, holds x s.assignments = true) ∧
    (∀ counter a b', holding.getSuccessorStateWithCompression .earliest counter s a b' =
      holding.plainSuccessor .earliest counter s a b') ∧
    ∀ counter, holding.initial .earliest counter = holding.initialPlain .earliest counter := by
  have hsch : Schedulable holding holdingOpen := fun _ => ⟨fun _ => (0, 2), by decide +kernel⟩
  obtain ⟨s₀, s, m, ids, h₀, hrun, href⟩ :=
    exists_run DeltaSimpleTemporalNetwork.earliest_exact rfl holding_run hsch 0
  have hopen : (s.todo.lookup ⟨0⟩).isSome = true := by
    rw [href.todo]
    rfl
  exact ⟨s₀, s, m, h₀, hrun, hopen, active_conditions_exact h₀ hrun⟩

end

/-! ### A goal until the end of the plan -/

section

attribute [local instance] Callables.empty

def untilEndEvent : Timing × Event :=
  (⟨true, 0⟩, ⟨⟨0⟩, 0, [.fluent ⟨0⟩], [[.fluent ⟨0⟩]], [], []⟩)

theorem eq_of_untilEnd {a : Action} {le : List (Timing × Event)}
    (h : (if a = ⟨0⟩ then some [untilEndEvent] else none) = some le) :
    a = ⟨0⟩ ∧ le = [untilEndEvent] := by
  split_ifs at h with ha
  exact ⟨ha, (Option.some.inj h).symm⟩

/-- A timed goal from the start to the end of the plan. -/
def untilEnd : SearchSpace where
  actionsDuration := [some ⟨[.constant (.num 0)], [.constant (.num 0)], false, false⟩]
  events a := if a = ⟨0⟩ then some [untilEndEvent] else none
  compressionSafeActions := none
  actionObjects := none
  objToPrevActionsMap := none
  initialState := [.bool true]
  goal := [.fluent ⟨0⟩]
  deadline := none
  epsilon := 1 / 100
  timedAction := some ⟨0⟩
  epsilon_nonneg := by norm_num
  events_numbered := by
    intro a le h
    obtain ⟨rfl, rfl⟩ := eq_of_untilEnd h
    refine ⟨by simp, fun {k te} hk => ?_⟩
    obtain ⟨rfl, rfl⟩ : k = 0 ∧ untilEndEvent = te := by
      simpa [List.getElem?_singleton] using hk
    exact ⟨rfl, rfl⟩
  events_instantaneous := by
    intro a le h _
    obtain ⟨-, rfl⟩ := eq_of_untilEnd h
    rfl
  events_opening := by
    intro a le h te hte
    obtain ⟨-, rfl⟩ := eq_of_untilEnd h
    obtain rfl := Option.some.inj hte
    exact .inl rfl
  events_balanced := by
    intro a le ht h
    exact absurd (congrArg some (eq_of_untilEnd h).1.symm) ht
  timed_absolute := by
    intro a le _ h te hte
    obtain ⟨-, rfl⟩ := eq_of_untilEnd h
    rw [List.mem_singleton.mp hte]
    rfl
  timed_duration := by
    intro a h
    obtain rfl := Option.some.inj h
    exact ⟨0, le_rfl, rfl⟩

def untilEndStart : Config :=
  ⟨[.bool true], ∅, {[.fluent ⟨0⟩]}, [⟨⟨0⟩, 0, 0, true⟩], [(0, 0)]⟩

theorem untilEnd_initial : Config.initial untilEnd = some untilEndStart := rfl

theorem exists_run_untilEnd : ∃ s₀ s m ids, untilEnd.initial .earliest 0 = some s₀ ∧
    Run untilEnd .earliest true s₀ (initialCounter untilEnd 0) [] s m ∧
    Refines untilEnd s m untilEndStart ids :=
  exists_run DeltaSimpleTemporalNetwork.earliest_exact untilEnd_initial rfl
    (fun _ => ⟨fun _ => (0, 0), by decide +kernel⟩) 0

/-- After the last event of the timed action a goal until the end is still
active, and no action is open. -/
theorem active_conditions_not_open : ¬ ∀ n s₀ as s m, untilEnd.initial .earliest n = some s₀ →
    Run untilEnd .earliest true s₀ (initialCounter untilEnd n) as s m →
    s.activeConditions + firedConditions untilEnd Event.endConditions s.todo =
      firedConditions untilEnd Event.startConditions s.todo := by
  intro h
  obtain ⟨s₀, s, m, ids, h₀, hrun, href⟩ := exists_run_untilEnd
  have hopen := h 0 s₀ [] s m h₀ hrun
  have hnone : ∀ g, firedConditions untilEnd g s.todo = 0 := by
    intro g
    have hsum : firedConditions untilEnd g s.todo = firedConditions untilEnd g ∅ :=
      sum_entries_congr (conditionsBefore untilEnd g) fun a => by rw [href.todo]; rfl
    rw [hsum]
    rfl
  rw [hnone, hnone, href.active] at hopen
  simp [untilEndStart] at hopen

end

end TamerLite
