import TamerLite.BasicSearch
import TamerLite.BuiltInHeuristics
import TamerLite.ClimbingStates
import TamerLite.Enumeration
import TamerLite.MemoryBoundedAnswers
import TamerLite.TemporalMultiqueue

/-! The one-shot solve of a ground problem: which search the parameters select, the retry
without weak equality, and what the verdict says of the problem. -/

namespace TamerLite

open SearchSpace

inductive HeuristicName
  | custom | blind | hff | hadd | hmax | hmaxExplicit | hffNoNumbers | haddNoNumbers | hmaxNoNumbers
deriving DecidableEq, Repr

inductive SearchName
  | wastar | astar | gbfs | dfs | bfs | ehc | novbfsHg | novbfsLg
deriving DecidableEq, Repr

structure HeuristicParams where
  heuristic : Option HeuristicName
  weight : Option ℚ

structure SearchParams extends HeuristicParams where
  search : SearchName
  earlyTermination : Bool
  weakEquality : Bool
  incompleteMemoryBoundedSearch : Bool

structure MultiqueueParams where
  queues : List HeuristicParams
  earlyTermination : Bool
  weakEquality : Bool

inductive Params
  | search (params : SearchParams)
  | multiqueue (params : MultiqueueParams)

/-- How `novbfs_search` makes its items, which their novelty puts in order. -/
structure NoveltyItems where
  st : SearchStrategy ℚ
  queue : PriorityQueue st.lt
  heap : MinMaxHeap st.lt

/-- What a solve gets of the encoder and of its caller, and the heaps and the filter it
is built with. `custom` is the caller's callable, `hhMap` has the heuristics of the core. -/
structure GroundTask where
  ss : SearchSpace
  tn : DeltaSimpleTemporalNetwork
  consideredActions : List Action
  custom : Option (State → Option ℚ)
  hhMap : HeuristicName → State → Option ℚ
  novelty : Bool → NoveltyItems
  heap : MinMaxHeap PrioritizedItem.lt
  containers : PriorityQueue (ContainerItem.lt fun v w : ℚ => decide (v < w))
  filter : BloomFilter
  queueBound : ℕ
  queueBound_pos : 0 < queueBound
  maxExpandedStates : Option ℕ

inductive PlanGenerationResultStatus
  | solvedSatisficing | intermediate | unsolvableProven | unsolvableIncompletely
deriving DecidableEq, Repr

/-- What `_solve_ground_problem` returns, the path in place of the plan built from it. -/
structure SolveResult where
  status : PlanGenerationResultStatus
  path : Option (List Action)
  solutionMightExist : Bool

/-- A solve that is cut off is still running, unless it has raised or returned. -/
inductive SolveOutcome
  | running
  | raised
  | returned (result : SolveResult)

/-! ### The parameters -/

def heuristicName (params : HeuristicParams) (custom : Option (State → Option ℚ)) : HeuristicName :=
  params.heuristic.getD (if custom.isSome then .custom else .hff)

/-- Whether the heuristic can take a state for a dead end that a plan exists from. -/
def heuristicMayPruneSolvable (params : HeuristicParams) (custom : Option (State → Option ℚ)) : Bool :=
  heuristicName params custom = .custom

/-- Whether the search, when it returns no path, proves that there is none. -/
def searchIsComplete (params : Params) (custom : Option (State → Option ℚ)) : Bool :=
  match params with
  | .multiqueue params => !params.queues.any fun q => heuristicMayPruneSolvable q custom
  | .search params =>
    if params.search = .dfs ∨ params.search = .bfs then true
    else if heuristicMayPruneSolvable params.toHeuristicParams custom then false
    else params.search ≠ .ehc && !params.incompleteMemoryBoundedSearch

/-- The delete-relaxation heuristic that a name stands for, and whether it is one without
numeric reasoning. -/
def HeuristicName.relaxation : HeuristicName → Option (HeuristicKind × Bool)
  | .hff => some (.hff, false)
  | .hadd => some (.hadd, false)
  | .hmax => some (.hmax, false)
  | .hffNoNumbers => some (.hff, true)
  | .haddNoNumbers => some (.hadd, true)
  | .hmaxNoNumbers => some (.hmax, true)
  | _ => none

/-- The heuristics a search asks for values: `dfs` and `bfs` build one and never read it. -/
def heuristicsRead (params : Params) (custom : Option (State → Option ℚ)) : List HeuristicName :=
  match params with
  | .multiqueue params => params.queues.map fun q => heuristicName q custom
  | .search params =>
    if params.search = .dfs ∨ params.search = .bfs then []
    else [heuristicName params.toHeuristicParams custom]

section Solve

namespace GroundTask

variable (task : GroundTask)

section

variable [Callables]

/-- The heuristic and its weight; `none` where a custom one is asked for and not given. -/
def getHeuristic (params : HeuristicParams) : Option ((State → Option ℚ) × ℚ) :=
  match heuristicName params task.custom with
  | .custom => task.custom.map fun h => (h, params.weight.getD 1)
  | .blind => some (fun _ => some 0, 0)
  | name => some (task.hhMap name, params.weight.getD (4 / 5))

/-- A priority search with the items of `st`. -/
def prioritySearch (params : SearchParams) (weakEquality : Bool) (h : State → Option ℚ)
    (st : SearchStrategy ℚ) (queue : PriorityQueue st.lt) : PrioritySearch ℚ where
  ss := task.ss
  tn := task.tn
  relevantActions := task.consideredActions
  heuristic := h
  st := st
  queue := queue
  maxExpandedStates := task.maxExpandedStates
  earlyTermination := params.earlyTermination
  weakEquality := weakEquality

/-- The search or its memory-bounded counterpart, cut off after `n` iterations. -/
def runPriority (core : Core) (params : SearchParams) (weakEquality : Bool) (h : State → Option ℚ)
    (st : SearchStrategy ℚ) (queue : PriorityQueue st.lt) (heap : MinMaxHeap st.lt) (counter n : ℕ) :
    Option SearchOutcome :=
  let ps := task.prioritySearch params weakEquality h st queue
  if params.incompleteMemoryBoundedSearch then
    ((ps.memoryBounded task.filter heap task.queueBound task.queueBound_pos).run core counter n).getLeft?
  else (ps.run core counter n).getLeft?

def basicSearch (params : SearchParams) (bfs : Bool) : BasicSearch where
  ss := task.ss
  tn := task.tn
  relevantActions := task.consideredActions
  bfs := bfs
  maxExpandedStates := task.maxExpandedStates
  earlyTermination := params.earlyTermination

def ehcSearch (params : SearchParams) (weakEquality : Bool) (h : State → Option ℚ) : StateClimbing ℚ where
  ss := task.ss
  tn := task.tn
  relevantActions := task.consideredActions
  heuristic := h
  maxExpandedStates := task.maxExpandedStates
  earlyTermination := params.earlyTermination
  weakEquality := weakEquality

/-- The search `_get_search` binds, called; its heuristic is built even if it reads none. -/
def runSearch (core : Core) (params : SearchParams) (weakEquality : Bool) (counter n : ℕ) :
    Option SearchOutcome :=
  match task.getHeuristic params.toHeuristicParams with
  | none => some .raised
  | some (h, weight) =>
    match params.search with
    | .wastar => task.runPriority core params weakEquality h (wastar weight) PrioritizedItem.queue
        task.heap counter n
    | .astar => task.runPriority core params weakEquality h (wastar (1 / 2)) PrioritizedItem.queue
        task.heap counter n
    | .gbfs => task.runPriority core params weakEquality h (wastar 1) PrioritizedItem.queue
        task.heap counter n
    | .dfs => ((task.basicSearch params false).run counter n).getLeft?
    | .bfs => ((task.basicSearch params true).run counter n).getLeft?
    | .ehc => ((task.ehcSearch params weakEquality h).run core counter n).getLeft?
    | .novbfsHg => task.runPriority core params weakEquality h (task.novelty true).st
        (task.novelty true).queue (task.novelty true).heap counter n
    | .novbfsLg => task.runPriority core params weakEquality h (task.novelty false).st
        (task.novelty false).queue (task.novelty false).heap counter n

def multiqueueSearch (params : MultiqueueParams) (weakEquality : Bool)
    (heuristics : List ((State → Option ℚ) × ℚ)) : MultiqueueSearch ℚ where
  ss := task.ss
  tn := task.tn
  relevantActions := task.consideredActions
  heuristics := heuristics.map fun hw => ⟨hw.1, fun s v => (1 - hw.2) * s.g + hw.2 * v⟩
  lt := fun v w => v < w
  zero := 0
  queue := task.containers
  maxExpandedStates := task.maxExpandedStates
  earlyTermination := params.earlyTermination
  weakEquality := weakEquality

def runMultiqueue (core : Core) (params : MultiqueueParams) (weakEquality : Bool) (counter n : ℕ) :
    Option SearchOutcome :=
  match params.queues.mapM task.getHeuristic with
  | none => some .raised
  | some heuristics => ((task.multiqueueSearch params weakEquality heuristics).run core counter n).getLeft?

/-- Whether the search that the parameters select is first tried with weak equality. -/
def triesWeakEquality : Params → Bool
  | .multiqueue params => params.weakEquality
  | .search params => params.weakEquality && !(params.search = .dfs || params.search = .bfs)

def run (core : Core) (params : Params) (weakEquality : Bool) (counter n : ℕ) : Option SearchOutcome :=
  match params with
  | .search params => task.runSearch core params weakEquality counter n
  | .multiqueue params => task.runMultiqueue core params weakEquality counter n

/-- The search, and where it finds nothing in a temporal space with weak equality, again
without. `first` and `second` are where the id counter is before each. -/
def runTwice (core : Core) (params : Params) (first second n : ℕ) : Option SearchOutcome :=
  match task.run core params (triesWeakEquality params) first n with
  | some .noPath =>
    if triesWeakEquality params && task.ss.isTemporal then task.run core params false second n
    else some .noPath
  | outcome => outcome

/-- `_solve_ground_problem`, its searches cut off after `n` iterations. -/
def solveGroundProblem (core : Core) (params : Params) (isIntermediateSolution : Bool)
    (first second n : ℕ) : SolveOutcome :=
  match task.ss.initial task.tn first with
  | none => .returned ⟨.unsolvableProven, none, false⟩
  | some _ =>
    match task.runTwice core params first second n with
    | none => .running
    | some .raised => .raised
    | some .expansionLimitReached => .returned ⟨.unsolvableIncompletely, none, true⟩
    | some (.path p) =>
      .returned ⟨if isIntermediateSolution then .intermediate else .solvedSatisficing, some p, true⟩
    | some .noPath => .returned ⟨.unsolvableIncompletely, none, !searchIsComplete params task.custom⟩

end

variable {task} {core : Core} {params : SearchParams} {weakEquality : Bool} {h : State → Option ℚ}
  {weight : ℚ} {counter n : ℕ} {p : List Action}

/-! ### Paths -/

theorem of_getLeft {L : Type} {x : SearchOutcome ⊕ L} {r : SearchOutcome} (h : x.getLeft? = some r) :
    x = .inl r := by
  cases x with
  | inl r' => exact congrArg Sum.inl (Option.some.inj h)
  | inr l => contradiction

variable [Callables]

theorem runPriority_path {st : SearchStrategy ℚ} {queue : PriorityQueue st.lt} {heap : MinMaxHeap st.lt}
    (hr : task.runPriority core params weakEquality h st queue heap counter n = some (.path p)) :
    LeadsToGoal task.ss task.tn task.consideredActions p := by
  rw [runPriority] at hr
  by_cases hbound : params.incompleteMemoryBoundedSearch = true
  · rw [if_pos hbound] at hr
    exact BoundedSearch.run_path (of_getLeft hr)
  · rw [if_neg hbound] at hr
    exact PrioritySearch.run_path (of_getLeft hr)

theorem runSearch_path (hx : task.tn.Exact)
    (hr : task.runSearch core params weakEquality counter n = some (.path p)) :
    LeadsToGoal task.ss task.tn task.consideredActions p := by
  have hbasic : ∀ bfs, ((task.basicSearch params bfs).run counter n).getLeft? = some (.path p) →
      LeadsToGoal task.ss task.tn task.consideredActions p := by
    intro bfs hr
    exact (BasicSearch.run_returns hx (of_getLeft hr)).right
  rw [runSearch] at hr
  cases hh : task.getHeuristic params.toHeuristicParams with
  | none =>
    rw [hh] at hr
    have hne := Option.some.inj hr
    contradiction
  | some hw =>
    rw [hh] at hr
    dsimp only at hr
    cases hs : params.search <;> rw [hs] at hr
    case dfs => exact hbasic false hr
    case bfs => exact hbasic true hr
    case ehc => exact StateClimbing.run_path (of_getLeft hr)
    all_goals exact runPriority_path hr

theorem runMultiqueue_path {params : MultiqueueParams}
    (hr : task.runMultiqueue core params weakEquality counter n = some (.path p)) :
    LeadsToGoal task.ss task.tn task.consideredActions p := by
  rw [runMultiqueue] at hr
  cases hh : params.queues.mapM task.getHeuristic with
  | none =>
    rw [hh] at hr
    have hne := Option.some.inj hr
    contradiction
  | some heuristics =>
    rw [hh] at hr
    exact MultiqueueSearch.run_path (of_getLeft hr)

theorem run_path {params : Params} (hx : task.tn.Exact)
    (hr : task.run core params weakEquality counter n = some (.path p)) :
    LeadsToGoal task.ss task.tn task.consideredActions p := by
  cases params with
  | search params => exact runSearch_path hx hr
  | multiqueue params => exact runMultiqueue_path hr

/-! ### No path -/

/-- The heuristics of the core that a search reads are built from the considered actions,
among them the timed one, and evaluated without an exception; `hmax_explicit` is that of the
Python core, for a problem that is not empty. -/
structure ReadsHeuristics (task : GroundTask) (core : Core) (params : Params) : Prop where
  timed : ∀ a, task.ss.timedAction = some a → a ∈ task.consideredActions
  covered : ∀ a ∈ task.consideredActions, task.ss.isCompressionSafe a = true → task.ss.Covered a
  relaxation : ∃ events domains, ∀ name ∈ heuristicsRead params task.custom, ∀ kind disable,
    name.relaxation = some (kind, disable) →
      EvaluatesRelaxation task.ss task.tn task.consideredActions events kind disable (task.hhMap name) domains
  explicit : .hmaxExplicit ∈ heuristicsRead params task.custom → core = .python ∧
    ∃ events fluents, EvaluatesExplicit task.ss task.tn task.consideredActions events
      (task.hhMap .hmaxExplicit) fluents

/-- A heuristic that cannot take a state with a plan for a dead end. -/
theorem seesGoals_of_getHeuristic {params : Params} {q : HeuristicParams}
    (hreads : task.ReadsHeuristics core params)
    (hname : heuristicName q task.custom ∈ heuristicsRead params task.custom)
    (hprune : heuristicMayPruneSolvable q task.custom = false)
    (hh : task.getHeuristic q = some (h, weight)) :
    SeesGoals task.ss task.tn task.consideredActions h := by
  obtain ⟨htimed, hcov, ⟨events, domains, hrelax⟩, hexplicit⟩ := hreads
  rw [heuristicMayPruneSolvable, decide_eq_false_iff_not] at hprune
  rw [getHeuristic] at hh
  have hrelaxed : ∀ kind disable, (heuristicName q task.custom).relaxation = some (kind, disable) →
      SeesGoals task.ss task.tn task.consideredActions (task.hhMap (heuristicName q task.custom)) :=
    fun kind disable hkind => (hrelax _ hname kind disable hkind).seesGoals htimed hcov
  cases hcase : heuristicName q task.custom <;> rw [hcase] at hh hrelaxed hname
  case custom => exact absurd hcase hprune
  case blind =>
    obtain rfl := (Prod.mk.inj (Option.some.inj hh)).1
    exact fun _ _ _ _ => rfl
  case hmaxExplicit =>
    obtain rfl := (Prod.mk.inj (Option.some.inj hh)).1
    obtain ⟨-, events, fluents, hevaluates⟩ := hexplicit hname
    exact hevaluates.seesGoals htimed hcov
  all_goals
    obtain rfl := (Prod.mk.inj (Option.some.inj hh)).1
    exact hrelaxed _ _ rfl

theorem runPriority_noPath {st : SearchStrategy ℚ} {queue : PriorityQueue st.lt} {heap : MinMaxHeap st.lt}
    (hsafe : PruningSafe task.ss task.tn task.consideredActions weakEquality)
    (hh : SeesGoals task.ss task.tn task.consideredActions h)
    (hbound : params.incompleteMemoryBoundedSearch = false)
    (hr : task.runPriority core params weakEquality h st queue heap counter n = some .noPath) :
    ∀ as, ¬ AcceptedWithin task.ss task.tn true task.consideredActions as := by
  rw [runPriority, hbound, if_neg Bool.false_ne_true] at hr
  exact PrioritySearch.run_right hsafe hh counter n (of_getLeft hr)

theorem runSearch_noPath (hsafe : PruningSafe task.ss task.tn task.consideredActions weakEquality)
    (hreads : task.ReadsHeuristics core (.search params))
    (hcomplete : searchIsComplete (.search params) task.custom = true)
    (hr : task.runSearch core params weakEquality counter n = some .noPath) :
    ∀ as, ¬ AcceptedWithin task.ss task.tn true task.consideredActions as := by
  have hbasic : ∀ bfs, ((task.basicSearch params bfs).run counter n).getLeft? = some .noPath →
      ∀ as, ¬ AcceptedWithin task.ss task.tn true task.consideredActions as := by
    intro bfs hr
    exact (BasicSearch.run_returns hsafe.exact (of_getLeft hr)).right
  rw [runSearch] at hr
  cases hh : task.getHeuristic params.toHeuristicParams with
  | none =>
    rw [hh] at hr
    have hne := Option.some.inj hr
    contradiction
  | some hw =>
    rw [hh] at hr
    dsimp only at hr
    have hpriority : ¬ (params.search = .dfs ∨ params.search = .bfs) →
        SeesGoals task.ss task.tn task.consideredActions hw.1 ∧ params.search ≠ .ehc ∧
          params.incompleteMemoryBoundedSearch = false := by
      intro hne
      rw [searchIsComplete, if_neg hne] at hcomplete
      have hname : heuristicName params.toHeuristicParams task.custom ∈
          heuristicsRead (.search params) task.custom := by
        rw [heuristicsRead, if_neg hne]
        exact List.mem_singleton.mpr rfl
      by_cases hprune : heuristicMayPruneSolvable params.toHeuristicParams task.custom = true
      · rw [if_pos hprune] at hcomplete
        contradiction
      rw [if_neg hprune, Bool.and_eq_true, decide_eq_true_eq, Bool.not_eq_true'] at hcomplete
      exact ⟨seesGoals_of_getHeuristic hreads hname (eq_false_of_ne_true hprune) hh, hcomplete⟩
    cases hs : params.search <;> rw [hs] at hr hpriority
    case dfs => exact hbasic false hr
    case bfs => exact hbasic true hr
    case ehc => exact absurd rfl (hpriority (by simp)).2.1
    all_goals
      obtain ⟨hsees, -, hbound⟩ := hpriority (by simp)
      exact runPriority_noPath hsafe hsees hbound hr

/-- Without a queue the loop raises. -/
theorem noPath_of_no_queues {ms : MultiqueueSearch ℚ} (hx : ms.tn.Exact) (hnil : ms.heuristics = [])
    (hr : ms.run core counter n = .inl .noPath) :
    ∀ as, ¬ AcceptedWithin ms.ss ms.tn true ms.relevantActions as := by
  rw [MultiqueueSearch.run] at hr
  cases h₀ : ms.ss.initial ms.tn counter with
  | none => exact fun as => not_accepted_of_initial hx h₀
  | some init =>
    rw [MultiqueueSearch.start, h₀] at hr
    dsimp only at hr
    by_cases hg : ms.isEarlyGoal init = true
    · rw [if_pos hg, Exploration.iterate_inl] at hr
      have hne := Sum.inl.inj hr
      contradiction
    rw [if_neg hg, hnil, List.map_nil] at hr
    have hstep : ∀ l : MultiqueueLoop ℚ, l.opens = [] → ms.step core l = .inl .raised := by
      intro l hl
      cases core with
      | python =>
        rw [MultiqueueSearch.step, MultiqueueLoop.someQueueEmpty, hl, List.any_nil,
          if_neg Bool.false_ne_true, MultiqueueSearch.popAndExpand, hnil]
        rfl
      | rust =>
        rw [MultiqueueSearch.step, MultiqueueLoop.lastQueueEmpty, hl]
        rfl
    cases n with
    | zero => contradiction
    | succ n =>
      rw [Exploration.iterate, hstep _ rfl, Exploration.iterate_inl] at hr
      have hne := Sum.inl.inj hr
      contradiction

theorem runMultiqueue_noPath {params : MultiqueueParams}
    (hsafe : PruningSafe task.ss task.tn task.consideredActions weakEquality)
    (hreads : task.ReadsHeuristics core (.multiqueue params))
    (hcomplete : searchIsComplete (.multiqueue params) task.custom = true)
    (hr : task.runMultiqueue core params weakEquality counter n = some .noPath) :
    ∀ as, ¬ AcceptedWithin task.ss task.tn true task.consideredActions as := by
  rw [runMultiqueue] at hr
  cases hh : params.queues.mapM task.getHeuristic with
  | none =>
    rw [hh] at hr
    have hne := Option.some.inj hr
    contradiction
  | some heuristics =>
    rw [hh] at hr
    have hrun := of_getLeft hr
    by_cases hnil : heuristics = []
    · rw [hnil] at hrun
      exact noPath_of_no_queues hsafe.exact rfl hrun
    · refine MultiqueueSearch.run_right hsafe ?_ ?_ counter n hrun
      · exact fun hmapnil => hnil (List.map_eq_nil_iff.mp hmapnil)
      · intro hw hmem
        obtain ⟨g, hg, rfl⟩ := List.mem_map.mp hmem
        obtain ⟨q, hq, hgq⟩ := (Enumeration.mapM_eq_some hh).2 g hg
        rw [searchIsComplete, Bool.not_eq_true', List.any_eq_false] at hcomplete
        exact seesGoals_of_getHeuristic hreads (List.mem_map_of_mem hq)
          (eq_false_of_ne_true (hcomplete q hq)) hgq

theorem run_noPath {params : Params}
    (hsafe : PruningSafe task.ss task.tn task.consideredActions weakEquality)
    (hreads : task.ReadsHeuristics core params)
    (hcomplete : searchIsComplete params task.custom = true)
    (hr : task.run core params weakEquality counter n = some .noPath) :
    ∀ as, ¬ AcceptedWithin task.ss task.tn true task.consideredActions as := by
  cases params with
  | search params => exact runSearch_noPath hsafe hreads hcomplete hr
  | multiqueue params => exact runMultiqueue_noPath hsafe hreads hcomplete hr

/-! ### The retry -/

theorem runTwice_path {params : Params} {first second : ℕ} (hx : task.tn.Exact)
    (hr : task.runTwice core params first second n = some (.path p)) :
    LeadsToGoal task.ss task.tn task.consideredActions p := by
  rw [runTwice] at hr
  cases hfirst : task.run core params (triesWeakEquality params) first n with
  | none =>
    rw [hfirst] at hr
    contradiction
  | some r =>
    rw [hfirst] at hr
    cases r with
    | path q =>
      obtain rfl := SearchOutcome.path.inj (Option.some.inj hr)
      exact run_path hx hfirst
    | noPath =>
      dsimp only at hr
      by_cases hretry : (triesWeakEquality params && task.ss.isTemporal) = true
      · rw [if_pos hretry] at hr
        exact run_path hx hr
      · rw [if_neg hretry] at hr
        have hne := Option.some.inj hr
        contradiction
    | expansionLimitReached =>
      have hne := Option.some.inj hr
      contradiction
    | raised =>
      have hne := Option.some.inj hr
      contradiction

/-- No path is only believed of a search that tells states apart for good. -/
theorem runTwice_noPath {params : Params} {first second : ℕ}
    (hsafe : PruningSafe task.ss task.tn task.consideredActions false)
    (hreads : task.ReadsHeuristics core params)
    (hcomplete : searchIsComplete params task.custom = true)
    (hr : task.runTwice core params first second n = some .noPath) :
    ∀ as, ¬ AcceptedWithin task.ss task.tn true task.consideredActions as := by
  rw [runTwice] at hr
  cases hfirst : task.run core params (triesWeakEquality params) first n with
  | none =>
    rw [hfirst] at hr
    contradiction
  | some r =>
    rw [hfirst] at hr
    cases r with
    | path q =>
      have hne := Option.some.inj hr
      contradiction
    | noPath =>
      dsimp only at hr
      by_cases hretry : (triesWeakEquality params && task.ss.isTemporal) = true
      · rw [if_pos hretry] at hr
        exact run_noPath hsafe hreads hcomplete hr
      · have hweak : PruningSafe task.ss task.tn task.consideredActions (triesWeakEquality params) := by
          refine ⟨hsafe.exact, hsafe.symmetry, fun hweak ht => hretry ?_, hsafe.tolerance, hsafe.nonneg⟩
          rw [hweak, ht]
          rfl
        exact run_noPath hweak hreads hcomplete hfirst
    | expansionLimitReached =>
      have hne := Option.some.inj hr
      contradiction
    | raised =>
      have hne := Option.some.inj hr
      contradiction

/-- What a solve returns is right: a path is that of a goal state that is reached, and
where no solution might exist there is none. -/
theorem solve_right (task : GroundTask) (core : Core) (params : Params) (isIntermediateSolution : Bool)
    (first second n : ℕ) (hsafe : PruningSafe task.ss task.tn task.consideredActions false)
    (hreads : task.ReadsHeuristics core params) (result : SolveResult)
    (hr : task.solveGroundProblem core params isIntermediateSolution first second n = .returned result) :
    (∀ p, result.path = some p → LeadsToGoal task.ss task.tn task.consideredActions p) ∧
    (result.solutionMightExist = false ∨ result.status = .unsolvableProven →
      ∀ as, ¬ AcceptedWithin task.ss task.tn true task.consideredActions as) ∧
    (result.path.isSome = true ↔
      result.status = .solvedSatisficing ∨ result.status = .intermediate) := by
  rw [solveGroundProblem] at hr
  cases h₀ : task.ss.initial task.tn first with
  | none =>
    rw [h₀] at hr
    obtain rfl := SolveOutcome.returned.inj hr
    exact ⟨nofun, fun _ as => not_accepted_of_initial hsafe.exact h₀, by simp⟩
  | some init =>
    rw [h₀] at hr
    dsimp only at hr
    cases ho : task.runTwice core params first second n with
    | none =>
      rw [ho] at hr
      contradiction
    | some r =>
      rw [ho] at hr
      cases r with
      | raised => contradiction
      | expansionLimitReached =>
        obtain rfl := SolveOutcome.returned.inj hr
        exact ⟨nofun, by simp, by simp⟩
      | path p =>
        obtain rfl := SolveOutcome.returned.inj hr
        refine ⟨fun q hq => ?_, ?_, ?_⟩
        · obtain rfl := Option.some.inj hq
          exact runTwice_path hsafe.exact ho
        · cases isIntermediateSolution <;> simp
        · cases isIntermediateSolution <;> simp
      | noPath =>
        obtain rfl := SolveOutcome.returned.inj hr
        refine ⟨nofun, fun hnone => ?_, by simp⟩
        have hcomplete : searchIsComplete params task.custom = true := by simpa using hnone
        exact runTwice_noPath hsafe hreads hcomplete ho

end GroundTask

end Solve

section Switch

attribute [local instance] Callables.empty

theorem switch_pruningSafe : PruningSafe switch .earliest [⟨0⟩] false where
  exact := DeltaSimpleTemporalNetwork.earliest_exact
  symmetry := fun _ _ => rfl
  weak := nofun
  tolerance := fun _ => rfl
  nonneg := fun h => h.elim nofun nofun

/-- The switch, with what hff says of it. -/
noncomputable def switchTask : GroundTask where
  ss := switch
  tn := .earliest
  consideredActions := [⟨0⟩]
  custom := none
  hhMap := fun _ => switchHff
  novelty := fun _ => ⟨wastar 1, PrioritizedItem.queue, PrioritizedItem.heap⟩
  heap := PrioritizedItem.heap
  containers := .ofKey (fun x => toLex (x.heuristic, x.state.todo.entries.length)) raceItem_lt
  filter := .exact
  queueBound := 400000
  queueBound_pos := by decide
  maxExpandedStates := none

def switchParams : Params := .search ⟨⟨none, none⟩, .wastar, false, true, false⟩

theorem switch_readsHeuristics : switchTask.ReadsHeuristics .python switchParams where
  timed := nofun
  covered := nofun
  relaxation := by
    refine ⟨switchEvents, switchDomains, fun name hname kind disable hkind => ?_⟩
    obtain rfl : name = .hff := List.mem_singleton.mp hname
    obtain ⟨rfl, rfl⟩ := Prod.mk.inj (Option.some.inj hkind)
    exact switch_evaluates
  explicit := fun hname => absurd (List.mem_singleton.mp hname) HeuristicName.noConfusion

theorem solve_right_switch : ∃ result,
    switchTask.solveGroundProblem .python switchParams false 0 0 2 = .returned result ∧
      result.path = some [⟨0⟩] ∧ LeadsToGoal switch .earliest [⟨0⟩] [⟨0⟩] := by
  refine ⟨⟨.solvedSatisficing, some [⟨0⟩], true⟩, rfl, rfl, ?_⟩
  have hright := GroundTask.solve_right switchTask .python switchParams false 0 0 2 switch_pruningSafe
    switch_readsHeuristics ⟨.solvedSatisficing, some [⟨0⟩], true⟩ rfl
  exact hright.1 _ rfl

end Switch

end TamerLite
