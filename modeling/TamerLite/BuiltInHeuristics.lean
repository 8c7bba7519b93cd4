import TamerLite.Expansion
import TamerLite.HMaxAdmissible
import TamerLite.RelaxedEvaluation
import TamerLite.Search

/-! The heuristics of the core in a search. They are built from the events of the
considered actions, and these fire the same events in the space that has no others: a goal
that a search can still reach is ahead there too, so no heuristic of the core calls the
state a dead end. -/

namespace TamerLite

open SearchSpace

/-! ### The considered actions -/

theorem events_of_considered {events : Action → Option (List (Timing × Event))} {considered : List Action}
    {a : Action} {le : List (Timing × Event)}
    (h : (if a ∈ considered then events a else none) = some le) : events a = some le := by
  by_cases ha : a ∈ considered
  · rwa [if_pos ha] at h
  · rw [if_neg ha] at h
    contradiction

/-- The space with the events of the considered actions only. -/
def SearchSpace.considering (ss : SearchSpace) (considered : List Action) : SearchSpace :=
  { ss with
    events := fun a => if a ∈ considered then ss.events a else none
    events_numbered := fun h => ss.events_numbered (events_of_considered h)
    events_instantaneous := fun h => ss.events_instantaneous (events_of_considered h)
    events_opening := fun h => ss.events_opening (events_of_considered h)
    events_balanced := fun ht h => ss.events_balanced ht (events_of_considered h)
    timed_absolute := fun ht h => ss.timed_absolute ht (events_of_considered h) }

section Considering

variable {ss : SearchSpace} {considered : List Action} {a : Action}

theorem considering_events (ha : a ∈ considered) : (ss.considering considered).events a = ss.events a :=
  if_pos ha

theorem events_of_not_considered (ha : a ∉ considered) : (ss.considering considered).events a = none :=
  if_neg ha

variable [Callables] {b : Bool} {c c' : Config} {as : List Action}

theorem considering_step (ha : a ∈ considered) : c.step (ss.considering considered) a = c.step ss a := by
  rw [Config.step, Config.step, considering_events ha]
  rfl

theorem considering_stepWith (ha : a ∈ considered) :
    c.stepWith (ss.considering considered) b a = c.stepWith ss b a := by
  rw [Config.stepWith, Config.stepWith, considering_step ha, Config.compresses, Config.compresses,
    considering_events ha]
  rfl

theorem considering_runWith (hrel : ∀ a ∈ as, a ∈ considered) :
    c.runWith (ss.considering considered) b as = c.runWith ss b as := by
  induction as generalizing c with
  | nil => rfl
  | cons a as ih =>
    rw [Config.runWith, Config.runWith, List.foldlM_cons, List.foldlM_cons,
      considering_stepWith (hrel a List.mem_cons_self)]
    refine bind_congr fun d => ?_
    exact ih fun x hx => hrel x (List.mem_cons_of_mem a hx)

theorem considering_initial (htimed : ∀ a, ss.timedAction = some a → a ∈ considered) :
    Config.initial (ss.considering considered) = Config.initial ss := by
  have hsame : (ss.considering considered).timedAction = ss.timedAction := rfl
  rw [Config.initial, Config.initial, hsame]
  cases ht : ss.timedAction with
  | none => rfl
  | some a =>
    dsimp only
    rw [considering_events (htimed a ht)]
    rfl

theorem considering_covered (h : ss.Covered a) : (ss.considering considered).Covered a := by
  intro le hle k te hte hk assignments hopen
  exact h (events_of_considered hle) hte hk assignments hopen

end Considering

/-! ### The heuristics of the core -/

section Heuristics

variable [Callables] {ss : SearchSpace} {tn : DeltaSimpleTemporalNetwork} {considered : List Action}
  {events : List (Action × List (Timing × Event))} {s : State} {d : ℕ}

/-- A goal that considered actions lead to is ahead, event by event, where there are no others. -/
theorem exists_considered_plan (htimed : ∀ a, ss.timedAction = some a → a ∈ considered)
    (hcov : ∀ a ∈ considered, ss.isCompressionSafe a = true → ss.Covered a)
    (hs : ReachableWithin ss tn true considered s d)
    (hgoal : ∃ as t e, (∀ a ∈ as, a ∈ considered) ∧ Run ss tn true s d as t e ∧
      ss.goalReached t = true) :
    ∃ c c' bs, Shows s c ∧ Config.Reachable (ss.considering considered) true c ∧
      c.run (ss.considering considered) bs = some c' ∧
      c'.goalReached (ss.considering considered) = true := by
  obtain ⟨n, s₀, m, as₀, h₀, hr, hm, hrel₀⟩ := hs
  obtain ⟨as, t, e, hrel, hplan, hg⟩ := hgoal
  obtain ⟨c₀, ids₀, hc₀, href₀, -⟩ := refines_initial h₀
  obtain ⟨c, ids, hc, href, -⟩ := href₀.run (Config.wellFormed_initial hc₀) hr
  have hwf := (Config.wellFormed_initial hc₀).runWith hc
  obtain ⟨c', ids', hc', href', -⟩ := (href.mono hm).run hwf hplan
  rw [← considering_initial htimed] at hc₀
  rw [← considering_runWith hrel₀] at hc
  rw [← considering_runWith hrel] at hc'
  have hreach : Config.Reachable (ss.considering considered) true c := ⟨c₀, as₀, hc₀, hc⟩
  obtain ⟨bs, hbs⟩ := Config.exists_run_of_runWith hreach.wellFormed
    (fun a ha hsafe => considering_covered (hcov a (hrel a ha) hsafe)) hc'
  rw [href'.goalReached_eq] at hg
  exact ⟨c, c', bs, href.shows, hreach, hbs, hg⟩

/-- `f` is a delete-relaxation heuristic built from the considered actions: on the states
that the search reaches it is what an evaluation ends with. -/
structure EvaluatesRelaxation (ss : SearchSpace) (tn : DeltaSimpleTemporalNetwork) (considered : List Action)
    (events : List (Action × List (Timing × Event))) (kind : HeuristicKind) (disable : Bool)
    (f : State → Option ℚ) (domains : List FluentDomain) : Prop where
  encoding : HeuristicEncoding (ss.considering considered) events domains
  evaluates : ∃ inadmissible h, DeleteRelaxationHeuristic.new kind domains events ss.goal ss.timedAction
      inadmissible disable = some h ∧
    ∀ s d, ReachableWithin ss tn true considered s d → ∃ radix binary fuel v,
      h.evalCore (DeleteRelaxationHeuristic.operatorQueue (h.relaxedTask s.assignments s.todo) radix binary)
        s.assignments s.todo fuel = some (.value v) ∧ f s = v.map fun x => (x : ℚ)

/-- An evaluation that raises nothing has found a value for every condition it looks at. -/
theorem hasValues_of_evalCore {h : DeleteRelaxationHeuristic} {queue : PriorityQueue costLt}
    {assignments : Assignments} {todo : AList (fun _ : Action => ℕ × ℕ)} {fuel : ℕ} {v : Option ℤ}
    (heval : h.evalCore queue assignments todo fuel = some (.value v)) : h.HasValues assignments := by
  intro e he hc
  by_contra hnot
  have hnone : evaluate e assignments = none := by
    simpa [Option.eq_none_iff_forall_ne_some] using hnot
  rw [DeleteRelaxationHeuristic.evalCore, if_pos ⟨e, he, hc, hnone⟩] at heval
  have hne := Option.some.inj heval
  contradiction

theorem EvaluatesRelaxation.seesGoals {kind : HeuristicKind} {disable : Bool} {f : State → Option ℚ}
    {domains : List FluentDomain} (hf : EvaluatesRelaxation ss tn considered events kind disable f domains)
    (htimed : ∀ a, ss.timedAction = some a → a ∈ considered)
    (hcov : ∀ a ∈ considered, ss.isCompressionSafe a = true → ss.Covered a) :
    SeesGoals ss tn considered f := by
  intro s d hs hgoal
  obtain ⟨inadmissible, h, hnew, hevaluates⟩ := hf.evaluates
  obtain ⟨radix, binary, fuel, v, heval, hfs⟩ := hevaluates s d hs
  obtain ⟨c, c', bs, hshow, hreach, hrun, hg⟩ := exists_considered_plan htimed hcov hs hgoal
  have hb : DeleteRelaxationHeuristic.Built kind domains events (ss.considering considered).goal
      (ss.considering considered).timedAction inadmissible disable h :=
    DeleteRelaxationHeuristic.new_spec hnew
  obtain ⟨x, -, hends, -⟩ := DeleteRelaxationHeuristic.exists_number hb hf.encoding hshow hreach
    (hasValues_of_evalCore heval) hrun hg
  obtain ⟨k, hk⟩ := hends radix binary
  have hboth := (DeleteRelaxationHeuristic.evalCore_of_le heval (le_max_left fuel k)).symm.trans
    (hk (max fuel k) (le_max_right fuel k))
  obtain rfl : v = some x := Evaluation.value.inj (Option.some.inj hboth)
  rw [hfs]
  rfl

/-- `f` is `HMaxExplicit` built from the considered actions of a problem that is not
empty, and every expression has a value on the sets of every round. -/
structure EvaluatesExplicit (ss : SearchSpace) (tn : DeltaSimpleTemporalNetwork) (considered : List Action)
    (events : List (Action × List (Timing × Event))) (f : State → Option ℚ) (fluents : List ValueType) :
    Prop where
  encoding : Encoding (ss.considering considered) events fluents
  nonempty : ss.initialState ≠ [] ∨ events ≠ []
  evaluates : ∀ s d, ReachableWithin ss tn true considered s d → ∃ order,
    (∀ k l, (ss.hmaxExplicit events).evalCore .python order s k = .inr l →
      ∀ exp ∈ (ss.hmaxExplicit events).expressions, DefinedOn .python exp l.assignments) ∧
    ∃ fuel v, (ss.hmaxExplicit events).evalCore .python order s fuel = .inl (some v) ∧
      f s = v.map fun x => (x : ℚ)

theorem EvaluatesExplicit.seesGoals {f : State → Option ℚ} {fluents : List ValueType}
    (hf : EvaluatesExplicit ss tn considered events f fluents)
    (htimed : ∀ a, ss.timedAction = some a → a ∈ considered)
    (hcov : ∀ a ∈ considered, ss.isCompressionSafe a = true → ss.Covered a) :
    SeesGoals ss tn considered f := by
  intro s d hs hgoal
  obtain ⟨order, hdef, fuel, v, heval, hfs⟩ := hf.evaluates s d hs
  obtain ⟨c, c', bs, hshow, hreach, hrun, hg⟩ := exists_considered_plan htimed hcov hs hgoal
  obtain ⟨depth, -, hdepth⟩ := exists_depth_of_run hf.encoding order hshow hreach hrun hg hdef hf.nonempty
  have hboth := (Exploration.iterate_of_le heval (le_max_left fuel (depth + 1))).symm.trans
    (Exploration.iterate_of_le hdepth (le_max_right fuel (depth + 1)))
  obtain rfl : v = some depth := Option.some.inj (Sum.inl.inj hboth)
  rw [hfs]
  rfl

end Heuristics

section Switch

attribute [local instance] Callables.empty

def switchOn : Timing × Event :=
  (⟨true, 0⟩, ⟨⟨0⟩, 0, [.constant (.bool true)], [], [], [⟨⟨0⟩, [.constant (.bool true)]⟩]⟩)

def switchEvents : List (Action × List (Timing × Event)) := [(⟨0⟩, [switchOn])]

def switchDomains : List FluentDomain := [⟨.bool, []⟩]

theorem switch_events {a : Action} {le : List (Timing × Event)} :
    (a, le) ∈ switchEvents ↔ (switch.considering [⟨0⟩]).events a = some le := by
  obtain ⟨i⟩ := a
  cases i with
  | zero =>
    have hev : (switch.considering [⟨0⟩]).events ⟨0⟩ = some [switchOn] := rfl
    rw [hev, Option.some.injEq, eq_comm]
    simp [switchEvents]
  | succ i =>
    have hev : (switch.considering [⟨0⟩]).events ⟨i + 1⟩ = none := events_of_not_considered (by simp)
    simp [hev, switchEvents]

theorem switch_event {a : Action} {k : ℕ} {te : Timing × Event}
    (h : (switch.considering [⟨0⟩]).event a k = some te) : te = switchOn := by
  obtain ⟨le, hle, hte⟩ := Option.bind_eq_some_iff.mp h
  have hmem := switch_events.mpr hle
  obtain ⟨-, rfl⟩ : a = ⟨0⟩ ∧ le = [switchOn] := by simpa [switchEvents] using hmem
  exact List.mem_singleton.mp (List.mem_of_getElem? hte)

theorem switch_encoding : HeuristicEncoding (switch.considering [⟨0⟩]) switchEvents switchDomains where
  events_iff := switch_events
  initial := by
    refine ⟨rfl, fun i d hd => ?_⟩
    have hi : i = 0 := by
      have hlt := (List.getElem?_eq_some_iff.mp hd).1
      simpa [switchDomains] using hlt
    subst hi
    obtain rfl := Option.some.inj hd
    exact ⟨.bool false, rfl, rfl⟩
  conditions := by
    intro a k te h x hx
    rw [switch_event h] at hx
    obtain rfl := List.mem_singleton.mp hx
    exact ⟨.node (.constant (.bool true)) [], rfl, rfl, rfl, .true, fun _ _ => by
      simp [ExprTree.ComparesAlike, ExprTree.AllCompareAlike]⟩
  goal := by
    have hfluent : ExprTree.Atom switchDomains (.node (.fluent ⟨0⟩) []) := .fluent rfl rfl
    exact ⟨.node (.fluent ⟨0⟩) [], rfl, rfl, rfl, .literal (.atom hfluent) (by simp), fun _ _ => by
      simp [ExprTree.ComparesAlike, ExprTree.AllCompareAlike]⟩
  effects := by
    intro a k te h eff he
    rw [switch_event h] at he
    obtain rfl := List.mem_singleton.mp he
    refine ⟨⟨.node (.constant (.bool true)) [], rfl, rfl, rfl⟩, _, rfl, fun assignments _ v hv => ?_⟩
    obtain rfl : ConstantNode.bool true = v := Option.some.inj hv
    rfl

def switchNewHff : Option DeleteRelaxationHeuristic :=
  DeleteRelaxationHeuristic.new .hff switchDomains switchEvents switch.goal switch.timedAction false false

theorem switchNewHff_isSome : switchNewHff.isSome = true := by decide +kernel

/-- One more event where the switch is off. -/
def switchHff (s : State) : Option ℚ := if s.assignments = [.bool true] then some 0 else some 1

theorem switch_evaluates :
    EvaluatesRelaxation switch .earliest [⟨0⟩] switchEvents .hff false switchHff switchDomains := by
  refine ⟨switch_encoding, false, _, (Option.some_get switchNewHff_isSome).symm, fun s d hs => ?_⟩
  obtain ⟨hall, hrel⟩ := hs.path (by decide)
  have hidle := (hs.classical (by decide)).idle
  refine ⟨binaryHeap.byCost, binaryHeap, 10, ?_⟩
  rw [hidle]
  rcases switch_assignments _ hrel (.inl rfl) hall with hoff | hon
  · refine ⟨some 1, ?_, ?_⟩
    · rw [hoff]
      decide +kernel
    · rw [switchHff, hoff]
      rfl
  · refine ⟨some 0, ?_, ?_⟩
    · rw [hon]
      decide +kernel
    · rw [switchHff, hon]
      rfl

end Switch

end TamerLite
