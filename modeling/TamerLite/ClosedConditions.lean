import TamerLite.ConditionCheck
import TamerLite.TimedBuckets

/-! Conditions are closed after they were opened: where no interval of an action
turns round, whatever an event closes is active. -/

namespace TamerLite

open Difference SearchSpace

/-! ### What running actions have open -/

section

variable {ss : SearchSpace} {c : Config} {a : Action}

/-- The events of the timed action close only what it has opened. -/
def TimedNested (ss : SearchSpace) : Prop :=
  ∀ a le, ss.timedAction = some a → ss.events a = some le → NestedEvents le

theorem firedConditions_le {l : List (Sigma fun _ : Action => ℕ × ℕ)}
    (h : ∀ p ∈ l, ∀ le, ss.events p.1 = some le → NestedEvents le) :
    (l.map fun p => conditionsBefore ss Event.endConditions p.1 p.2.1).sum ≤
      (l.map fun p => conditionsBefore ss Event.startConditions p.1 p.2.1).sum := by
  refine List.sum_le_sum fun p hp => ?_
  cases hle : ss.events p.1 with
  | none => simp [conditionsBefore, hle]
  | some le =>
    have := (h p hp le hle).closed_le p.2.1
    simpa [conditionsBefore, hle, opened, closed] using this

theorem timedFired_le (h : TimedNested ss) (todo : AList (fun _ : Action => ℕ × ℕ)) :
    timedFired ss Event.endConditions todo ≤ timedFired ss Event.startConditions todo := by
  unfold timedFired
  cases ht : ss.timedAction with
  | none => exact le_rfl
  | some a =>
    simp only
    split_ifs with hl
    · cases hle : ss.events a with
      | none => simp [conditionsFrom, hle]
      | some le =>
        have := (h a le ht hle).closed_le le.length
        simpa [conditionsFrom, hle, opened, closed] using this
    · exact le_rfl

/-- What a running action has opened and not closed is active, as long as no
running action closes what it has not opened. -/
theorem Balanced.openAt_le (h : Balanced ss c) (ht : TimedNested ss)
    (hn : ∀ p ∈ c.todo.entries, ∀ le, ss.events p.1 = some le → NestedEvents le)
    {le : List (Timing × Event)} {k j : ℕ} (hle : ss.events a = some le)
    (hl : c.todo.lookup a = some (k, j)) : openAt le k ≤ c.active := by
  obtain ⟨l₁, l₂, he, -⟩ := entries_erase hl
  have hnest : NestedEvents le := hn ⟨a, k, j⟩ (AList.mem_lookup_iff.mp hl) le hle
  have hk : openAt le k + conditionsBefore ss Event.endConditions a k =
      conditionsBefore ss Event.startConditions a k := by
    have := hnest.openAt_add_closed k
    simpa [conditionsBefore, hle, opened, closed] using this
  have h₁ := firedConditions_le (l := l₁) fun p hp => hn p (by simp [he, hp])
  have h₂ := firedConditions_le (l := l₂) fun p hp => hn p (by simp [he, hp])
  have h₃ := timedFired_le ht c.todo
  have hacc := h.active_add_fired
  simp only [firedConditions, he, List.map_append, List.map_cons, List.sum_append,
    List.sum_cons, ← hk] at hacc
  refine Multiset.le_iff_count.mpr fun x => ?_
  have hx := congrArg (Multiset.count x) hacc
  have hx₁ := Multiset.le_iff_count.mp h₁ x
  have hx₂ := Multiset.le_iff_count.mp h₂ x
  have hx₃ := Multiset.le_iff_count.mp h₃ x
  simp only [Multiset.count_add] at hx
  omega

end

/-! ### The removal of the Rust core -/

/-- `HashMultiSet::remove` for every end condition: what is missing is skipped. -/
def removePresent : List Expression → Multiset Expression → Multiset Expression
  | [], m => m
  | c :: cs, m => removePresent cs (m.erase c)

theorem removeAll_of_le {cs : List Expression} {m : Multiset Expression}
    (h : Multiset.ofList cs ≤ m) : removeAll cs m = some (removePresent cs m) := by
  induction cs generalizing m with
  | nil => rfl
  | cons c cs ih =>
    rw [← Multiset.cons_coe] at h
    have hc : c ∈ m := Multiset.mem_of_le h (Multiset.mem_cons_self c _)
    rw [removeAll, if_pos hc, removePresent]
    refine ih ?_
    rw [← Multiset.cons_le_cons_iff c, Multiset.cons_erase hc]
    exact h

namespace SearchSpace

variable [Callables] (ss : SearchSpace) (tn : DeltaSimpleTemporalNetwork)

/-- `expand_event` of the Rust core. -/
def expandEventRust (state newState : State) (e : Event) (index id : ℕ)
    (pendingOpening : Option PendingOpening) : Option State := do
  let active := removePresent e.endConditions newState.activeConditions + e.startConditions
  let assignments ← applyEffects e.effects state.assignments newState.assignments
  if e.effects ≠ [] ∧ ¬ ∀ c ∈ active, holds c assignments then none
  else
    let newState := { newState with
      assignments := assignments
      activeConditions := active
      path := newState.path ++ [(e.action, e.pos, id)] }
    if ss.isTemporal then
      let base ← newState.temporalNetwork <|> state.temporalNetwork
      let opening ← ss.addOpeningConstraints state.assignments pendingOpening
      let ev := .event e.action e.pos id
      let network := base ++ opening ++
        ss.predecessorEdges (e.action, index) ev true state.path.reverse ++
        ss.todoEdges (e.action, index) ev newState.todo
      if tn.checkStn network then some { newState with temporalNetwork := some network }
      else none
    else some newState

def openActionRust (counter : ℕ) (state newState : State) (a : Action)
    (events : List (Timing × Event)) (pinToPlanStart : Bool) : Option State := do
  let e ← events[0]?
  if ss.isTemporal then
    let id := counter + 1
    let newState := if 1 < events.length then
      { newState with todo := newState.todo.insert a (1, id + 1) } else newState
    ss.expandEventRust tn state newState e.2 0 id (some ⟨a, counter, events, pinToPlanStart⟩)
  else ss.expandEventRust tn state newState e.2 0 counter none

def expandRestRust : List (Timing × Event) → ℕ → ℕ → State → Option State
  | [], _, _, newState => some newState
  | (_, e) :: rest, index, id, newState =>
    if effectIndependentStartConditionsHold e newState.assignments then do
      let state := { newState with temporalNetwork := none }
      let expanded ← ss.expandEventRust tn state { newState with g := newState.g + 1 } e index id none
      expandRestRust rest (index + 1) (id + 1) expanded
    else none

/-- `get_successor_state_with_compression` of the Rust core. -/
def getSuccessorStateRust (counter : ℕ) (state : State) (a : Action) (compression : Bool) :
    Option State := do
  let events ← ss.events a
  match state.todo.lookup a with
  | some (index, id) =>
    let e ← events[index]?
    if holds e.2.conditions state.assignments &&
        effectIndependentStartConditionsHold e.2 state.assignments then
      let todo := if events.length ≤ index + 1 then state.todo.erase a
        else state.todo.insert a (index + 1, id + 1)
      ss.expandEventRust tn state
        { state with temporalNetwork := none, g := state.g + 1, todo := todo } e.2 index id none
    else none
  | none =>
    if ss.timedAction = some a then none
    else if !ss.symmetryAllowsOpening (state.path.map Prod.fst) a then none
    else
      let e ← events[0]?
      if holds e.2.conditions state.assignments &&
          effectIndependentStartConditionsHold e.2 state.assignments then
        let newState ← ss.openActionRust tn counter state
          { state with temporalNetwork := none, g := state.g + 1 } a events false
        if compression && ss.isCompressionSafe a && 1 < events.length then
          let next ← newState.todo.lookup a
          ss.expandRestRust tn events.tail 1 next.2 { newState with todo := newState.todo.erase a }
        else some newState
      else none

end SearchSpace

section

variable [Callables] {ss : SearchSpace} {tn : DeltaSimpleTemporalNetwork} {s : State} {a : Action}
  {le : List (Timing × Event)}

theorem expandEventRust_eq {state newState : State} {e : Event} {index id : ℕ}
    {po : Option PendingOpening}
    (h : Multiset.ofList e.endConditions ≤ newState.activeConditions) :
    ss.expandEventRust tn state newState e index id po =
      ss.expandEvent tn state newState e index id po := by
  rw [expandEvent, removeAll_of_le h]
  rfl

theorem openActionRust_eq {counter : ℕ} {newState : State} {pin : Bool} (hn : NestedEvents le) :
    ss.openActionRust tn counter s newState a le pin =
      ss.openAction tn counter s newState a le pin := by
  cases hte : le[0]? with
  | none => simp [openActionRust, openAction, hte]
  | some te =>
    have hle : ∀ m : Multiset Expression, Multiset.ofList te.2.endConditions ≤ m := fun m => by
      rw [hn.first hte]
      exact Multiset.zero_le m
    simp only [openActionRust, openAction, hte, Option.bind_eq_bind, Option.bind_some]
    rw [expandEventRust_eq (hle _), expandEventRust_eq (hle _)]

/-- Firing event `k` keeps what the action has open active. -/
theorem openAt_expandEvent {state newState t : State} {te : Timing × Event} {k index id : ℕ}
    {po : Option PendingOpening} (h : ss.expandEvent tn state newState te.2 index id po = some t)
    (hk : openAt le k ≤ newState.activeConditions) (hte : le[k]? = some te) :
    openAt le (k + 1) ≤ t.activeConditions := by
  obtain ⟨removed, as, hr, -, -, net, -, rfl⟩ := expandEvent_eq_some.mp h
  rw [openAt_succ hte]
  refine add_le_add ?_ le_rfl
  rw [tsub_le_iff_right, removeAll_add hr]
  exact hk

theorem openAt_openAction {counter : ℕ} {newState t : State} {pin : Bool}
    (h : ss.openAction tn counter s newState a le pin = some t) :
    openAt le 1 ≤ t.activeConditions := by
  simp only [openAction, Option.bind_eq_bind, Option.bind_eq_some_iff] at h
  obtain ⟨te, hte, h⟩ := h
  split_ifs at h
  · exact openAt_expandEvent h (Multiset.zero_le _) hte
  · exact openAt_expandEvent h (Multiset.zero_le _) hte
  · exact openAt_expandEvent h (Multiset.zero_le _) hte

theorem expandRestRust_eq {rest : List (Timing × Event)} {index id : ℕ} (hn : NestedEvents le)
    (hrest : le.drop index = rest) (hk : openAt le index ≤ s.activeConditions) :
    ss.expandRestRust tn rest index id s = ss.expandRest tn rest index id s := by
  induction rest generalizing index id s with
  | nil => rfl
  | cons te rest ih =>
    have hte : le[index]? = some te := by
      have := congrArg (fun l => l[0]?) hrest
      simpa using this
    have hrest' : le.drop (index + 1) = rest := by
      have := congrArg List.tail hrest
      simpa using this
    have hends := (hn.ends_le hte).trans hk
    have hstep : ss.expandEventRust tn { s with temporalNetwork := none } { s with g := s.g + 1 }
        te.2 index id none = _ := expandEventRust_eq hends
    simp only [expandRestRust, expandRest, hstep]
    split_ifs
    · cases hx : ss.expandEvent tn { s with temporalNetwork := none } { s with g := s.g + 1 }
          te.2 index id none with
      | none => rfl
      | some t => exact ih hrest' (openAt_expandEvent hx hk hte)
    · rfl

/-- Where running actions keep what they have open and a newly opened one is
nested, the two cores expand alike. -/
theorem getSuccessorStateRust_eq {counter : ℕ} {b : Bool} (hle : ss.events a = some le)
    (hn : NestedEvents le)
    (hopen : ∀ k id, s.todo.lookup a = some (k, id) → openAt le k ≤ s.activeConditions) :
    ss.getSuccessorStateRust tn counter s a b =
      ss.getSuccessorStateWithCompression tn counter s a b := by
  simp only [getSuccessorStateRust, getSuccessorStateWithCompression, hle, Option.bind_eq_bind,
    Option.bind_some]
  cases hl : s.todo.lookup a with
  | some p =>
    obtain ⟨k, id⟩ := p
    cases hte : le[k]? with
    | none => simp [hte]
    | some te =>
      have hends := (hn.ends_le hte).trans (hopen k id hl)
      simp only [hte, Option.bind_some]
      exact ite_congr rfl (fun _ => expandEventRust_eq hends) fun _ => rfl
  | none =>
    simp only [openActionRust_eq hn]
    cases hte : le[0]? with
    | none => rfl
    | some te =>
      simp only [Option.bind_some]
      cases hx : ss.openAction tn counter s { s with temporalNetwork := none, g := s.g + 1 } a le
          false with
      | none => rfl
      | some t =>
        have h1 := openAt_openAction hx
        simp only [Option.bind_some]
        cases hnext : t.todo.lookup a with
        | none => rfl
        | some next =>
          have hrest : ss.expandRestRust tn le.tail 1 next.2 { t with todo := t.todo.erase a } = _ :=
            expandRestRust_eq hn (by simp) h1
          simp only [Option.bind_some, hrest]

end

/-! ### Runs -/

namespace Encoder

variable {E : Encoder} {P : TimedProblem} {ss : SearchSpace} {a : Action}
  {le : List (Timing × Event)}

/-- Every interval condition of `a` is opened before it is closed. -/
def OpensFirst (E : Encoder) (a : Action) : Prop :=
  ∀ u, .durative u ∈ E.actions → E.actionByName u.name = a → u.OpensFirst E.conj

theorem EncodesTimed.nested (hT : E.EncodesTimed P ss) : TimedNested ss := by
  intro a le ha hle
  obtain ⟨buckets, hb, ⟨-, hnone⟩ | ⟨-, a', le', ha', hle', he⟩⟩ := hT.timed
  · rw [ha] at hnone
    contradiction
  · obtain rfl := Option.some.inj (ha.symm.trans ha')
    obtain rfl := Option.some.inj (hle.symm.trans hle')
    exact nestedEvents he (TimedProblem.nestedBuckets hb)

theorem Encodes.nested (henc : E.Encodes ss) (hT : E.EncodesTimed P ss) (hfw : E.OpensFirst a)
    (hle : ss.events a = some le) : NestedEvents le := by
  by_cases ht : ss.timedAction = some a
  · exact hT.nested a le ht hle
  · obtain ⟨u, hu, ha, hb⟩ := henc.events hle ht
    cases u with
    | durative u =>
      simp only [buildEvents, Option.bind_eq_bind, Option.bind_eq_some_iff] at hb
      obtain ⟨bs, hbs, hb⟩ := hb
      exact nestedEvents hb (DurativeAction.nestedBuckets (hfw u hu ha) hbs)
    | instantaneous u =>
      simp only [buildEvents, Option.bind_eq_bind, Option.bind_eq_some_iff] at hb
      obtain ⟨te, hte, hb⟩ := hb
      obtain rfl := Option.some.inj hb
      have hends : te.2.endConditions = [] :=
        (Option.some.inj (convertBucket_eq_some hte).2.2).symm
      intro k
      have hclosed : closed ([te].take (k + 1)) = 0 := by simp [closed, hends]
      rw [hclosed]
      exact Multiset.zero_le _

end Encoder

section

variable [Callables] {ss : SearchSpace} {c c' : Config} {a a' : Action} {p : ℕ × ℕ}

theorem Config.lookup_stepWith {b : Bool} (hs : c.stepWith ss b a = some c')
    (hl : c'.todo.lookup a' = some p) : a' = a ∨ c.todo.lookup a' = some p := by
  have hstep : ∀ {d}, c.step ss a = some d → d.todo.lookup a' = some p →
      a' = a ∨ c.todo.lookup a' = some p := by
    intro d hs hl
    by_cases ha : a' = a
    · exact .inl ha
    · refine .inr ?_
      rcases step_eq_some.mp hs with ⟨le, k, j, te, -, -, -, -, hf⟩ |
        ⟨le, te, b, -, -, -, -, -, -, -, hf⟩
      · obtain ⟨_, _, -, -, -, rfl⟩ := fire_eq_some.mp hf
        rwa [lookup_nextTodo, if_neg ha] at hl
      · obtain ⟨_, _, -, -, -, rfl⟩ := fire_eq_some.mp hf
        dsimp only at hl
        split_ifs at hl
        · rwa [AList.lookup_insert_ne ha] at hl
        · exact hl
  rcases stepWith_eq_some.mp hs with ⟨-, hs⟩ | ⟨d, le, -, -, hs, hf⟩
  · exact hstep hs hl
  · rw [(fireRest_spec hf).1] at hl
    by_cases ha : a' = a
    · exact .inl ha
    · exact hstep hs (by rwa [AList.lookup_erase_ne ha] at hl)

/-- Only the timed action and what the run has opened is running. -/
theorem Config.mem_of_running {b : Bool} {c₀ : Config} {as : List Action}
    (h₀ : Config.initial ss = some c₀) (hr : c₀.runWith ss b as = some c)
    (hl : c.todo.lookup a = some p) : ss.timedAction = some a ∨ a ∈ as := by
  induction as using List.reverseRecOn generalizing c with
  | nil =>
    obtain rfl := Option.some.inj hr
    rcases initial_eq_some.mp h₀ with ⟨-, rfl⟩ | ⟨t, le, te, b, ht, -, -, -, -, hf⟩
    · rw [AList.lookup_empty] at hl
      contradiction
    · obtain ⟨_, _, -, -, -, rfl⟩ := fire_eq_some.mp hf
      dsimp only at hl
      split_ifs at hl
      · by_cases ha : a = t
        · exact .inl (ha ▸ ht)
        · rw [AList.lookup_insert_ne ha, AList.lookup_empty] at hl
          contradiction
      · rw [AList.lookup_empty] at hl
        contradiction
  | append_singleton as a' ih =>
    obtain ⟨d, hd, hs⟩ := runWith_concat.mp hr
    rcases Config.lookup_stepWith hs hl with rfl | hl
    · exact .inr (by simp)
    · rcases ih hd hl with ht | ha
      · exact .inl ht
      · exact .inr (by simp [ha])

end

/-- The event `a` fires next in a state. -/
def SearchSpace.nextEvent (ss : SearchSpace) (s : State) (a : Action) : Option (Timing × Event) :=
  (ss.events a).bind fun le => le[((s.todo.lookup a).map Prod.fst).getD 0]?

/-- Where the intervals of the actions of a run open first, an event closes
only what is active, and both cores expand alike. -/
theorem end_conditions_active [Callables] {E : Encoder} {P : TimedProblem} {ss : SearchSpace}
    {tn : DeltaSimpleTemporalNetwork} (henc : E.Encodes ss) (hT : E.EncodesTimed P ss) {b : Bool}
    {n m : ℕ} {s₀ s : State} {as : List Action} (h₀ : ss.initial tn n = some s₀)
    (hr : Run ss tn b s₀ (initialCounter ss n) as s m) (has : ∀ a ∈ as, E.OpensFirst a)
    {a : Action} (ha : s.todo.lookup a = none → E.OpensFirst a) :
    (∀ te, ss.nextEvent s a = some te →
      Multiset.ofList te.2.endConditions ≤ s.activeConditions) ∧
    ∀ counter b', ss.getSuccessorStateRust tn counter s a b' =
      ss.getSuccessorStateWithCompression tn counter s a b' := by
  obtain ⟨c₀, ids₀, hc₀, href₀, -⟩ := refines_initial h₀
  obtain ⟨c, ids, hc, href, -⟩ := href₀.run (Config.wellFormed_initial hc₀) hr
  have hbal := Config.Reachable.balanced ⟨c₀, as, hc₀, hc⟩
  have hrunning : ∀ {a' p le}, c.todo.lookup a' = some p → ss.events a' = some le →
      NestedEvents le := by
    intro a' p le hl hle
    rcases Config.mem_of_running hc₀ hc hl with ht | hmem
    · exact hT.nested a' le ht hle
    · exact henc.nested hT (has a' hmem) hle
  have hopen : ∀ {le k id}, ss.events a = some le → s.todo.lookup a = some (k, id) →
      NestedEvents le ∧ openAt le k ≤ s.activeConditions := by
    intro le k id hle hl
    rw [href.todo, Option.map_eq_some_iff] at hl
    obtain ⟨⟨k', j⟩, hl, heq⟩ := hl
    obtain ⟨rfl, -⟩ := Prod.mk.inj heq
    refine ⟨hrunning hl hle, ?_⟩
    rw [href.active]
    exact hbal.openAt_le hT.nested (fun p hp le hle => hrunning (AList.mem_lookup_iff.mpr hp) hle)
      hle hl
  have hnest : ∀ {le}, ss.events a = some le → NestedEvents le := by
    intro le hle
    cases hl : s.todo.lookup a with
    | none => exact henc.nested hT (ha hl) hle
    | some p => exact (hopen hle hl).1
  refine ⟨fun te hte => ?_, fun counter b' => ?_⟩
  · obtain ⟨le, hle, hk⟩ := Option.bind_eq_some_iff.mp hte
    cases hl : s.todo.lookup a with
    | none =>
      rw [hl] at hk
      rw [(hnest hle).first hk]
      exact Multiset.zero_le _
    | some p =>
      rw [hl] at hk
      exact ((hnest hle).ends_le hk).trans (hopen hle hl).2
  · cases hle : ss.events a with
    | none => simp [getSuccessorStateRust, getSuccessorStateWithCompression, hle]
    | some le => exact getSuccessorStateRust_eq hle (hnest hle) fun k id hl => (hopen hle hl).2

/-! ### An interval that turns round -/

section

attribute [local instance] Callables.empty

/-- Needs `f` from three time units after its start until three before its
end, but lasts only four. -/
def early : DurativeAction where
  name := "early"
  duration := lasting 4
  conditions := [(⟨⟨.start, 3⟩, ⟨.stop, -3⟩, false, false⟩, [fluentF])]
  effects := []

def earlyEncoder : Encoder where
  actions := [.durative early]
  conj := FNode.conj
  plus := FNode.sum
  normalizeExpression e := e
  converter := twoFluents
  names_nodup := by decide

def earlyEvents : List (Timing × Event) :=
  [(⟨true, 0⟩, ⟨⟨0⟩, 0, [.constant (.bool true)], [], [], []⟩),
    (⟨false, -3⟩, ⟨⟨0⟩, 1, [.fluent ⟨0⟩], [], [[.fluent ⟨0⟩]], []⟩),
    (⟨true, 3⟩, ⟨⟨0⟩, 2, [.fluent ⟨0⟩], [[.fluent ⟨0⟩]], [], []⟩)]

def earlySpace : SearchSpace :=
  .ofTable [(some (lastingBounds 4), earlyEvents)] [.bool true, .bool false] [.fluent ⟨0⟩]

theorem earlyEncoder_buildEvents :
    earlyEncoder.buildEvents (.durative early) ⟨0⟩ = some earlyEvents := by decide +kernel

/-- No timed effects, no timed goals, and the goal `f`. -/
def untimed : TimedProblem := ⟨[], [], [fluentF]⟩

theorem earlyEncoder_encodes : earlyEncoder.Encodes earlySpace := by
  have h0 : earlySpace.events ⟨0⟩ = earlyEncoder.buildEvents (.durative early) ⟨0⟩ := by
    rw [earlyEncoder_buildEvents]
    rfl
  refine ⟨fun {a le} hle _ => ?_, .inl rfl⟩
  obtain ⟨i⟩ := a
  match i with
  | 0 => exact ⟨.durative early, by simp [earlyEncoder], by decide, h0 ▸ hle⟩
  | n + 1 => simp [earlySpace, SearchSpace.ofTable] at hle

theorem keepEncoder_encodesTimed : keepEncoder.EncodesTimed untimed keepSpace :=
  ⟨⟨∅, rfl, .inl ⟨rfl, rfl⟩⟩, .inl rfl, rfl⟩

theorem earlyEncoder_encodesTimed : earlyEncoder.EncodesTimed untimed earlySpace :=
  ⟨⟨∅, rfl, .inl ⟨rfl, rfl⟩⟩, .inl rfl, rfl⟩

theorem keepEncoder_opensFirst (a : Action) : keepEncoder.OpensFirst a := by
  intro u hu _
  obtain rfl : u = keeping := by simpa [keepEncoder] using hu
  decide

theorem end_conditions_active_keep : ∃ s₀ s m, keepSpace.initial .earliest 0 = some s₀ ∧
    Run keepSpace .earliest true s₀ (initialCounter keepSpace 0) [⟨0⟩] s m ∧
    (∀ te, keepSpace.nextEvent s ⟨0⟩ = some te →
      Multiset.ofList te.2.endConditions ≤ s.activeConditions) ∧
    ∀ counter b', keepSpace.getSuccessorStateRust .earliest counter s ⟨0⟩ b' =
      keepSpace.getSuccessorStateWithCompression .earliest counter s ⟨0⟩ b' := by
  have hx := DeltaSimpleTemporalNetwork.earliest_exact
  have hsch : Schedulable keepSpace keepDone := fun _ => ⟨fun _ => (0, 2), by decide +kernel⟩
  obtain ⟨s₀, s, m, ids, h₀, hrun, -⟩ := exists_run hx rfl keep_run hsch 0
  exact ⟨s₀, s, m, h₀, hrun, end_conditions_active keepEncoder_encodes keepEncoder_encodesTimed h₀
    hrun (fun a _ => keepEncoder_opensFirst a) fun _ => keepEncoder_opensFirst _⟩

def earlyStart : Config := ⟨[.bool true, .bool false], ∅, 0, [], []⟩

/-- The action has started; next it closes what it has not opened. -/
def earlyRunning : Config :=
  ⟨[.bool true, .bool false], AList.singleton ⟨0⟩ (1, 0), 0, [⟨⟨0⟩, 4, 4, false⟩], [(0, 0)]⟩

theorem early_running : earlyStart.runWith earlySpace true [⟨0⟩] = some earlyRunning := rfl

theorem end_conditions_not_active : earlyEncoder.Encodes earlySpace ∧
    earlyEncoder.EncodesTimed untimed earlySpace ∧ ¬ ∀ n s₀ as s m,
      earlySpace.initial .earliest n = some s₀ →
      Run earlySpace .earliest true s₀ (initialCounter earlySpace n) as s m →
      ∀ a te, earlySpace.nextEvent s a = some te →
        Multiset.ofList te.2.endConditions ≤ s.activeConditions := by
  refine ⟨earlyEncoder_encodes, earlyEncoder_encodesTimed, fun h => ?_⟩
  have hx := DeltaSimpleTemporalNetwork.earliest_exact
  have hsch : Schedulable earlySpace earlyRunning := fun _ => ⟨fun _ => (0, 4), by decide +kernel⟩
  obtain ⟨s₀, s, m, ids, h₀, hrun, href⟩ := exists_run hx rfl early_running hsch 0
  have hl : s.todo.lookup ⟨0⟩ = some (1, ids.getD 0 0 + 1 + 1) := by
    rw [href.todo]
    rfl
  obtain ⟨te, hte, hends⟩ : ∃ te, earlySpace.event ⟨0⟩ 1 = some te ∧
      te.2.endConditions = [[.fluent ⟨0⟩]] := ⟨_, rfl, rfl⟩
  have hnext : earlySpace.nextEvent s ⟨0⟩ = some te := by
    rw [SearchSpace.nextEvent, hl]
    exact hte
  have hle := h 0 s₀ _ s m h₀ hrun ⟨0⟩ te hnext
  rw [hends, href.active] at hle
  exact absurd hle (by decide)

end

end TamerLite
