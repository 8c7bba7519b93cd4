import TamerLite.EnforcedHillClimbing
import TamerLite.PathSoundness

/-! Enforced hill climbing with a heuristic that sees the whole state, as on temporal
problems. Where it sees the assignments only, this is the search of the classical ones. -/

namespace TamerLite

open SearchSpace

/-- The arguments of `ehc_search`. -/
structure StateClimbing (V : Type) where
  ss : SearchSpace
  tn : DeltaSimpleTemporalNetwork
  relevantActions : List Action
  heuristic : State → Option V
  maxExpandedStates : Option ℕ
  earlyTermination : Bool
  weakEquality : Bool

namespace StateClimbing

variable {V : Type} [LinearOrder V] (sc : StateClimbing V)

section

variable [Callables]

def isEarlyGoal (s : State) : Bool := sc.earlyTermination && sc.ss.goalReached s

def isRedundant (l : ClimbingLoop V) (s : State) : Bool :=
  VisitedStates.isRedundant sc.ss sc.tn sc.weakEquality l.closed s

/-- The Python loop over the successors, which comes before any evaluation. -/
def candidates (l : ClimbingLoop V) : List State → Except (List Action) (List State)
  | [] => .ok []
  | s :: states =>
    if sc.isEarlyGoal s then .error (extractPath s)
    else (candidates l states).map fun c => if sc.isRedundant l s then c else s :: c

/-- The Python loop over the candidates, left at the first better one. -/
def evaluate (l : ClimbingLoop V) : List State → ClimbingLoop V
  | [] => l
  | s :: states =>
    let l := { l with generatedStates := l.generatedStates + 1 }
    match sc.heuristic s with
    | none => evaluate l states
    | some h =>
      if h < l.bestH then EnforcedHillClimbing.improve l s h
      else evaluate { l with openStates := l.openStates ++ [s] } states

/-- The Rust loop, which filters, tests and evaluates one successor at a time. -/
def evaluateEach (l : ClimbingLoop V) : List State → Except (List Action) (ClimbingLoop V)
  | [] => .ok l
  | s :: states =>
    if sc.isRedundant l s then evaluateEach l states
    else
      let l := { l with generatedStates := l.generatedStates + 1 }
      if sc.isEarlyGoal s then .error (extractPath s)
      else
        match sc.heuristic s with
        | none => evaluateEach l states
        | some h =>
          if h < l.bestH then .ok (EnforcedHillClimbing.improve l s h)
          else evaluateEach { l with openStates := l.openStates ++ [s] } states

/-- One expansion, after the popped state was recorded and found to be no goal. -/
def expand (core : Core) (state : State) (l : ClimbingLoop V) :
    Except (List Action) (ClimbingLoop V) :=
  let successors := sc.ss.getSuccessorStates sc.tn l.counter state sc.relevantActions
  let l := { l with counter := successors.2 }
  match core with
  | .python => (sc.candidates l successors.1).map (sc.evaluate l)
  | .rust => sc.evaluateEach l successors.1

/-- The loop's body. The Rust core records the popped state after it tested it. -/
def step (core : Core) (l : ClimbingLoop V) : SearchOutcome ⊕ ClimbingLoop V :=
  match l.openStates with
  | [] => .inl .noPath
  | state :: rest =>
    if expansionLimitReached l.expandedStates sc.maxExpandedStates then .inl .expansionLimitReached
    else
      let closed := l.closed.insert sc.ss sc.tn sc.weakEquality state
      if !sc.earlyTermination && sc.ss.goalReached state then .inl (.path (extractPath state))
      else
        match sc.expand core state
          { l with openStates := rest, closed := closed, expandedStates := l.expandedStates + 1 } with
        | .error path => .inl (.path path)
        | .ok l => .inr l

/-- What comes before the loop, with the id counter at `counter`. -/
def start (counter : ℕ) : SearchOutcome ⊕ ClimbingLoop V :=
  match sc.ss.initial sc.tn counter with
  | none => .inl .noPath
  | some init =>
    if sc.isEarlyGoal init then .inl (.path (extractPath init))
    else
      match sc.heuristic init with
      | none => .inl .noPath
      | some h => .inr ⟨[init], ⟨[], []⟩, h, initialCounter sc.ss counter, 0, 1⟩

/-- The search, cut off after `n` iterations of its loop. -/
def run (core : Core) (counter n : ℕ) : SearchOutcome ⊕ ClimbingLoop V :=
  Exploration.iterate (sc.step core) n (sc.start counter)

end

variable {sc} {core : Core} {l l' : ClimbingLoop V} {s : State} {states kept : List State} {p : List Action}

/-! ### Paths -/

/-- What an expansion that goes on leaves. -/
structure Climbed (states : List State) (l l' : ClimbingLoop V) : Prop where
  counter : l'.counter = l.counter
  expandedStates : l'.expandedStates = l.expandedStates
  opened : ∀ t ∈ l'.openStates, t ∈ l.openStates ∨ t ∈ states

omit [LinearOrder V] in
theorem Climbed.mono {states' : List State} (h : Climbed states l l') (hsub : states ⊆ states') :
    Climbed states' l l' :=
  ⟨h.counter, h.expandedStates, fun t ht => (h.opened t ht).imp_right fun ht => hsub ht⟩

omit [LinearOrder V] in
/-- A queued state is one of those that were looked at. -/
theorem Climbed.queue {n : ℕ}
    (h : Climbed states { l with generatedStates := n, openStates := l.openStates ++ [s] } l') :
    Climbed (s :: states) l l' := by
  refine ⟨h.counter, h.expandedStates, fun t ht => ?_⟩
  rcases h.opened t ht with ht | ht
  · rcases List.mem_append.mp ht with ht | ht
    · exact .inl ht
    · exact .inr (List.mem_singleton.mp ht ▸ List.mem_cons_self)
  · exact .inr (List.mem_cons_of_mem _ ht)

theorem climbed_evaluate : Climbed states l (sc.evaluate l states) := by
  induction states generalizing l with
  | nil => exact ⟨rfl, rfl, fun t ht => .inl ht⟩
  | cons s states ih =>
    rw [evaluate]
    cases hv : sc.heuristic s with
    | none =>
      obtain ⟨hcounter, hexp, hopen⟩ := @ih { l with generatedStates := l.generatedStates + 1 }
      exact ⟨hcounter, hexp, fun t ht => (hopen t ht).imp_right fun ht => List.mem_cons_of_mem _ ht⟩
    | some v =>
      dsimp only
      by_cases hlt : v < l.bestH
      · rw [if_pos hlt]
        refine ⟨rfl, rfl, fun t ht => .inr ?_⟩
        rw [List.mem_singleton.mp ht]
        exact List.mem_cons_self
      · rw [if_neg hlt]
        exact ih.queue

variable [Callables]

omit [LinearOrder V] in
theorem candidates_ok (h : sc.candidates l states = .ok kept) : kept ⊆ states := by
  induction states generalizing kept with
  | nil =>
    obtain rfl := Except.ok.inj h
    exact List.Subset.refl _
  | cons s states ih =>
    rw [candidates] at h
    by_cases hg : sc.isEarlyGoal s = true
    · rw [if_pos hg] at h
      contradiction
    rw [if_neg hg] at h
    cases hc : sc.candidates l states with
    | error q =>
      rw [hc] at h
      contradiction
    | ok c =>
      rw [hc] at h
      obtain rfl := Except.ok.inj h
      dsimp only
      by_cases hr : sc.isRedundant l s = true
      · rw [if_pos hr]
        exact List.subset_cons_of_subset s (ih hc)
      · rw [if_neg hr]
        exact List.cons_subset_cons s (ih hc)

omit [LinearOrder V] in
theorem candidates_error (h : sc.candidates l states = .error p) :
    ∃ s ∈ states, sc.isEarlyGoal s = true ∧ p = extractPath s := by
  induction states generalizing p with
  | nil => contradiction
  | cons s states ih =>
    rw [candidates] at h
    by_cases hg : sc.isEarlyGoal s = true
    · rw [if_pos hg] at h
      exact ⟨s, List.mem_cons_self, hg, (Except.error.inj h).symm⟩
    rw [if_neg hg] at h
    cases hc : sc.candidates l states with
    | ok c =>
      rw [hc] at h
      contradiction
    | error q =>
      rw [hc] at h
      obtain rfl := Except.error.inj h
      obtain ⟨t, ht, hgoal⟩ := ih hc
      exact ⟨t, List.mem_cons_of_mem _ ht, hgoal⟩

theorem evaluateEach_ok (h : sc.evaluateEach l states = .ok l') : Climbed states l l' := by
  induction states generalizing l with
  | nil =>
    obtain rfl := Except.ok.inj h
    exact ⟨rfl, rfl, fun t ht => .inl ht⟩
  | cons s states ih =>
    rw [evaluateEach] at h
    by_cases hr : sc.isRedundant l s = true
    · rw [if_pos hr] at h
      exact (ih h).mono (List.subset_cons_self s states)
    rw [if_neg hr] at h
    by_cases hg : sc.isEarlyGoal s = true
    · rw [if_pos hg] at h
      contradiction
    rw [if_neg hg] at h
    cases hv : sc.heuristic s with
    | none =>
      rw [hv] at h
      obtain ⟨hcounter, hexp, hopen⟩ := ih h
      exact ⟨hcounter, hexp, fun t ht => (hopen t ht).imp_right fun ht => List.mem_cons_of_mem _ ht⟩
    | some v =>
      rw [hv] at h
      dsimp only at h
      by_cases hlt : v < l.bestH
      · rw [if_pos hlt] at h
        obtain rfl := Except.ok.inj h
        refine ⟨rfl, rfl, fun t ht => .inr ?_⟩
        rw [List.mem_singleton.mp ht]
        exact List.mem_cons_self
      · rw [if_neg hlt] at h
        exact (ih h).queue

theorem evaluateEach_error (h : sc.evaluateEach l states = .error p) :
    ∃ s ∈ states, sc.isEarlyGoal s = true ∧ p = extractPath s := by
  induction states generalizing l with
  | nil => contradiction
  | cons s states ih =>
    have hrest : (∃ l, sc.evaluateEach l states = .error p) →
        ∃ t ∈ s :: states, sc.isEarlyGoal t = true ∧ p = extractPath t := by
      intro hex
      obtain ⟨l, hl⟩ := hex
      obtain ⟨t, ht, hgoal⟩ := ih hl
      exact ⟨t, List.mem_cons_of_mem _ ht, hgoal⟩
    rw [evaluateEach] at h
    by_cases hr : sc.isRedundant l s = true
    · rw [if_pos hr] at h
      exact hrest ⟨_, h⟩
    rw [if_neg hr] at h
    by_cases hg : sc.isEarlyGoal s = true
    · rw [if_pos hg] at h
      exact ⟨s, List.mem_cons_self, hg, (Except.error.inj h).symm⟩
    rw [if_neg hg] at h
    cases hv : sc.heuristic s with
    | none =>
      rw [hv] at h
      exact hrest ⟨_, h⟩
    | some v =>
      rw [hv] at h
      dsimp only at h
      by_cases hlt : v < l.bestH
      · rw [if_pos hlt] at h
        contradiction
      · rw [if_neg hlt] at h
        exact hrest ⟨_, h⟩

theorem expand_ok (h : sc.expand core s l = .ok l') :
    Climbed (sc.ss.getSuccessorStates sc.tn l.counter s sc.relevantActions).1
      { l with counter := (sc.ss.getSuccessorStates sc.tn l.counter s sc.relevantActions).2 } l' := by
  cases core with
  | python =>
    rw [expand] at h
    cases hc : sc.candidates
        { l with counter := (sc.ss.getSuccessorStates sc.tn l.counter s sc.relevantActions).2 }
        (sc.ss.getSuccessorStates sc.tn l.counter s sc.relevantActions).1 with
    | error q =>
      rw [hc] at h
      contradiction
    | ok c =>
      rw [hc] at h
      obtain rfl := Except.ok.inj h
      exact climbed_evaluate.mono (candidates_ok hc)
  | rust => exact evaluateEach_ok h

theorem expand_error (h : sc.expand core s l = .error p) :
    ∃ t ∈ (sc.ss.getSuccessorStates sc.tn l.counter s sc.relevantActions).1,
      sc.isEarlyGoal t = true ∧ p = extractPath t := by
  cases core with
  | python =>
    rw [expand] at h
    cases hc : sc.candidates
        { l with counter := (sc.ss.getSuccessorStates sc.tn l.counter s sc.relevantActions).2 }
        (sc.ss.getSuccessorStates sc.tn l.counter s sc.relevantActions).1 with
    | error q =>
      rw [hc] at h
      obtain rfl := Except.error.inj h
      exact candidates_error hc
    | ok c =>
      rw [hc] at h
      contradiction
  | rust => exact evaluateEach_error h

theorem step_next (h : sc.step core l = .inr l') : ∃ s rest, l.openStates = s :: rest ∧
    l'.counter = (sc.ss.getSuccessorStates sc.tn l.counter s sc.relevantActions).2 ∧
    ∀ t ∈ l'.openStates,
      t ∈ rest ∨ t ∈ (sc.ss.getSuccessorStates sc.tn l.counter s sc.relevantActions).1 := by
  rw [step] at h
  cases ho : l.openStates with
  | nil =>
    rw [ho] at h
    contradiction
  | cons s rest =>
    rw [ho] at h
    dsimp only at h
    by_cases hlimit : expansionLimitReached l.expandedStates sc.maxExpandedStates = true
    · rw [if_pos hlimit] at h
      contradiction
    rw [if_neg hlimit] at h
    by_cases hg : (!sc.earlyTermination && sc.ss.goalReached s) = true
    · rw [if_pos hg] at h
      contradiction
    rw [if_neg hg] at h
    cases he : sc.expand core s
        { l with
          openStates := rest
          closed := l.closed.insert sc.ss sc.tn sc.weakEquality s
          expandedStates := l.expandedStates + 1 } with
    | error q =>
      rw [he] at h
      contradiction
    | ok m =>
      rw [he] at h
      obtain rfl := Sum.inr.inj h
      obtain ⟨hcounter, -, hopen⟩ := expand_ok he
      exact ⟨s, rest, rfl, hcounter, hopen⟩

theorem step_path (h : sc.step core l = .inl (.path p)) : ∃ s rest t, l.openStates = s :: rest ∧
    sc.ss.goalReached t = true ∧ p = extractPath t ∧
    (t = s ∨ t ∈ (sc.ss.getSuccessorStates sc.tn l.counter s sc.relevantActions).1) := by
  rw [step] at h
  cases ho : l.openStates with
  | nil =>
    rw [ho] at h
    have hne := Sum.inl.inj h
    contradiction
  | cons s rest =>
    rw [ho] at h
    dsimp only at h
    by_cases hlimit : expansionLimitReached l.expandedStates sc.maxExpandedStates = true
    · rw [if_pos hlimit] at h
      have hne := Sum.inl.inj h
      contradiction
    rw [if_neg hlimit] at h
    by_cases hg : (!sc.earlyTermination && sc.ss.goalReached s) = true
    · rw [if_pos hg] at h
      obtain rfl := SearchOutcome.path.inj (Sum.inl.inj h)
      rw [Bool.and_eq_true] at hg
      exact ⟨s, rest, _, rfl, hg.2, rfl, .inl rfl⟩
    rw [if_neg hg] at h
    cases he : sc.expand core s
        { l with
          openStates := rest
          closed := l.closed.insert sc.ss sc.tn sc.weakEquality s
          expandedStates := l.expandedStates + 1 } with
    | ok m =>
      rw [he] at h
      contradiction
    | error q =>
      rw [he] at h
      obtain rfl := SearchOutcome.path.inj (Sum.inl.inj h)
      obtain ⟨t, ht, hearly, rfl⟩ := expand_error he
      rw [isEarlyGoal, Bool.and_eq_true] at hearly
      exact ⟨s, rest, t, rfl, hearly.2, rfl, .inr ht⟩

theorem expandsStates (sc : StateClimbing V) (core : Core) :
    ExpandsStates sc.ss sc.tn sc.relevantActions (sc.step core) (fun l => {s | s ∈ l.openStates})
      ClimbingLoop.counter where
  next := by
    intro l l' hs
    right
    obtain ⟨s, rest, hopen, hcounter, hall⟩ := step_next hs
    refine ⟨s, hopen ▸ List.mem_cons_self, hcounter, ?_⟩
    intro t ht
    rcases hall t ht with ht | ht
    · exact .inl (hopen ▸ List.mem_cons_of_mem s ht)
    · exact .inr ht
  path := by
    intro l p hs
    obtain ⟨s, rest, t, hopen, hg, hpath, ht⟩ := step_path hs
    exact ⟨s, hopen ▸ List.mem_cons_self, t, hg, hpath, ht⟩

omit [LinearOrder V] in
theorem start_reachable (sc : StateClimbing V) (counter : ℕ) :
    (∀ p, sc.start counter = .inl (.path p) → LeadsToGoal sc.ss sc.tn sc.relevantActions p) ∧
    ∀ l, sc.start counter = .inr l → ∀ s ∈ l.openStates,
      ReachableWithin sc.ss sc.tn true sc.relevantActions s l.counter := by
  rw [start]
  cases h₀ : sc.ss.initial sc.tn counter with
  | none => exact ⟨nofun, nofun⟩
  | some init =>
    have hreach : ReachableWithin sc.ss sc.tn true sc.relevantActions init
        (initialCounter sc.ss counter) := reachableWithin_iff.mpr ⟨[], .initial h₀⟩
    dsimp only
    by_cases hg : sc.isEarlyGoal init = true
    · rw [if_pos hg]
      rw [isEarlyGoal, Bool.and_eq_true] at hg
      refine ⟨fun p hp => ?_, nofun⟩
      obtain rfl := SearchOutcome.path.inj (Sum.inl.inj hp)
      exact .of_reachable hreach hg.2
    rw [if_neg hg]
    cases hv : sc.heuristic init with
    | none => exact ⟨nofun, nofun⟩
    | some v =>
      refine ⟨nofun, fun l hl s hs => ?_⟩
      obtain rfl := Sum.inr.inj hl
      rw [List.mem_singleton.mp hs]
      exact hreach

theorem run_path {counter n : ℕ} (h : sc.run core counter n = .inl (.path p)) :
    LeadsToGoal sc.ss sc.tn sc.relevantActions p := by
  obtain ⟨hpath, hstart⟩ := sc.start_reachable counter
  exact (sc.expandsStates core).path_of_run (hpath p) hstart h

end StateClimbing

/-! ### Heuristics that see the assignments only -/

namespace EnforcedHillClimbing

variable {V : Type} [LinearOrder V] (ehc : EnforcedHillClimbing V)

def onStates : StateClimbing V where
  ss := ehc.ss
  tn := ehc.tn
  relevantActions := ehc.relevantActions
  heuristic := fun s => ehc.heuristic s.assignments
  maxExpandedStates := ehc.maxExpandedStates
  earlyTermination := ehc.earlyTermination
  weakEquality := ehc.weakEquality

theorem evaluate_onStates (l : ClimbingLoop V) (states : List State) :
    ehc.onStates.evaluate l states = ehc.evaluate l states := by
  induction states generalizing l with
  | nil => rfl
  | cons s states ih =>
    have hv : ehc.onStates.heuristic s = ehc.heuristic s.assignments := rfl
    rw [StateClimbing.evaluate, evaluate, hv]
    cases ehc.heuristic s.assignments with
    | none => exact ih _
    | some v =>
      dsimp only
      rw [ih]

variable [Callables]

omit [LinearOrder V] in
theorem candidates_onStates (l : ClimbingLoop V) (states : List State) :
    ehc.onStates.candidates l states = ehc.candidates l states := by
  induction states with
  | nil => rfl
  | cons s states ih =>
    rw [StateClimbing.candidates, candidates, ih]
    rfl

theorem evaluateEach_onStates (l : ClimbingLoop V) (states : List State) :
    ehc.onStates.evaluateEach l states = ehc.evaluateEach l states := by
  induction states generalizing l with
  | nil => rfl
  | cons s states ih =>
    have hv : ehc.onStates.heuristic s = ehc.heuristic s.assignments := rfl
    have hg : ehc.onStates.isEarlyGoal s = ehc.isEarlyGoal s := rfl
    have hr : ehc.onStates.isRedundant l s = ehc.isRedundant l s := rfl
    rw [StateClimbing.evaluateEach, evaluateEach, hv, hg, hr, ih]
    cases ehc.heuristic s.assignments with
    | none =>
      dsimp only
      rw [ih]
    | some v =>
      dsimp only
      rw [ih]

theorem expand_onStates (core : Core) (s : State) (l : ClimbingLoop V) :
    ehc.onStates.expand core s l = ehc.expand core s l := by
  cases core with
  | python =>
    rw [StateClimbing.expand, expand]
    rw [candidates_onStates, funext (ehc.evaluate_onStates _)]
    rfl
  | rust => exact ehc.evaluateEach_onStates _ _

/-- Where the heuristic sees the assignments only, the two searches are one. -/
theorem run_onStates (core : Core) (counter n : ℕ) :
    ehc.onStates.run core counter n = ehc.run core counter n := by
  have hstep : ehc.onStates.step core = ehc.step core := by
    funext l
    rw [StateClimbing.step, step]
    cases l.openStates with
    | nil => rfl
    | cons s rest =>
      dsimp only
      rw [expand_onStates]
      rfl
  rw [StateClimbing.run, run, hstep]
  rfl

end EnforcedHillClimbing

end TamerLite
