import Mathlib.Data.Prod.Lex
import TamerLite.Interchange

/-! The multiqueue search: states wait in one queue per heuristic and are
expanded from whichever the rotation picks. The cores tell that it is over by
different tests. -/

namespace TamerLite

open SearchSpace

/-- `PrioritizedItem` of the multiqueue search. The flag of its container is
kept by the loop, under the container's number. -/
structure ContainerItem (V : Type) where
  heuristic : V
  container : ℕ
  state : State

def ContainerItem.lt {V : Type} (lt : V → V → Bool) (p q : ContainerItem V) : Bool :=
  if lt p.heuristic q.heuristic then true
  else if lt q.heuristic p.heuristic then false
  else p.state.todo.entries.length < q.state.todo.entries.length

/-- A queue's heuristic, and the weighted sum of a state's cost and its value. -/
structure WeightedHeuristic (V : Type) where
  eval : State → Option V
  f : State → V → V

/-- The arguments of a search, with the comparison and the zero of its values. -/
structure MultiqueueSearch (V : Type) where
  ss : SearchSpace
  tn : DeltaSimpleTemporalNetwork
  relevantActions : List Action
  heuristics : List (WeightedHeuristic V)
  lt : V → V → Bool
  zero : V
  queue : PriorityQueue (ContainerItem.lt lt)
  maxExpandedStates : Option ℕ
  earlyTermination : Bool
  weakEquality : Bool

/-- The variables of the loop. `last` is the queue it last popped from. -/
structure MultiqueueLoop (V : Type) where
  opens : List (List (ContainerItem V))
  containers : ℕ
  expanded : List ℕ
  visitedStates : VisitedStates
  counter : ℕ
  statesExpanded : ℕ
  generatedStates : ℕ
  last : ℕ

namespace MultiqueueLoop

variable {V : Type} (l : MultiqueueLoop V)

/-- The test of the Python loop. -/
def someQueueEmpty : Bool := l.opens.any List.isEmpty

/-- The test of the Rust loop; `none` where the index is out of range. -/
def lastQueueEmpty : Option Bool := l.opens[l.last]?.map List.isEmpty

end MultiqueueLoop

/-- `RoundRobinSwitchPolicy`; `none` is Python's `ZeroDivisionError`. -/
def switchingPolicy (numQueues i : ℕ) : Option ℕ :=
  if numQueues = 0 then none else some (i % numQueues)

namespace MultiqueueSearch

variable {V : Type} (ms : MultiqueueSearch V)

section

variable [Callables]

def isEarlyGoal (s : State) : Bool := ms.earlyTermination && ms.ss.goalReached s

/-- What one queue gets of the candidates, whose containers are numbered from `base`. -/
def pushCandidates (h : WeightedHeuristic V) (queue : List (ContainerItem V)) :
    List State → ℕ → List (ContainerItem V)
  | [], _ => queue
  | s :: candidates, base =>
    let queue := match h.eval s with
      | none => queue
      | some v => ⟨h.f s v, base, s⟩ :: queue
    pushCandidates h queue candidates (base + 1)

/-- The rest of an iteration, once an item that was not expanded yet is popped. -/
def expand (item : ContainerItem V) (l : MultiqueueLoop V) : SearchOutcome ⊕ MultiqueueLoop V :=
  if expansionLimitReached l.statesExpanded ms.maxExpandedStates then .inl .expansionLimitReached
  else if !ms.earlyTermination && ms.ss.goalReached item.state then
    .inl (.path (extractPath item.state))
  else
    let successors := ms.ss.getSuccessorStates ms.tn l.counter item.state ms.relevantActions
    match l.visitedStates.collect ms.ss ms.tn ms.weakEquality ms.isEarlyGoal successors.1 with
    | .error path => .inl (.path path)
    | .ok (candidates, visitedStates) => .inr { l with
        opens := List.zipWith (fun h q => pushCandidates h q candidates l.containers) ms.heuristics
          l.opens
        containers := l.containers + candidates.length
        expanded := item.container :: l.expanded
        visitedStates := visitedStates
        counter := successors.2
        statesExpanded := l.statesExpanded + 1
        generatedStates := l.generatedStates + successors.1.length }

/-- The part of the body after the test for exhaustion. -/
def popAndExpand (core : Core) (l : MultiqueueLoop V) : SearchOutcome ⊕ MultiqueueLoop V :=
  match switchingPolicy ms.heuristics.length l.statesExpanded with
  | none => .inl .raised
  | some i =>
    match l.opens[i]? with
    | none => .inl .raised
    | some q =>
      match ms.queue.pop q with
      | none =>
        match core with
        | .python => .inl .raised
        | .rust => .inr { l with last := i }
      | some (item, rest) =>
        let l := { l with opens := l.opens.set i rest, last := i }
        if item.container ∈ l.expanded then .inr l else ms.expand item l

def step (core : Core) (l : MultiqueueLoop V) : SearchOutcome ⊕ MultiqueueLoop V :=
  match core with
  | .python => if l.someQueueEmpty then .inl .noPath else ms.popAndExpand core l
  | .rust =>
    match l.lastQueueEmpty with
    | none => .inl .raised
    | some true => .inl .noPath
    | some false => ms.popAndExpand core l

/-- What comes before the loop: the initial state's only container is in every queue. -/
def start (counter : ℕ) : SearchOutcome ⊕ MultiqueueLoop V :=
  match ms.ss.initial ms.tn counter with
  | none => .inl .noPath
  | some init =>
    let visitedStates := VisitedStates.insert ms.ss ms.tn ms.weakEquality ⟨[], []⟩ init
    if ms.isEarlyGoal init then .inl (.path (extractPath init))
    else .inr ⟨ms.heuristics.map fun _ => [⟨ms.zero, 0, init⟩], 1, [], visitedStates,
      initialCounter ms.ss counter, 0, 1, 0⟩

/-- The search, cut off after `n` iterations of its loop. -/
def run (core : Core) (counter n : ℕ) : SearchOutcome ⊕ MultiqueueLoop V :=
  Exploration.iterate (ms.step core) n (ms.start counter)

end

/-! ### The queues -/

section Queues

variable {ms} {h : WeightedHeuristic V} {q : List (ContainerItem V)} {candidates : List State}
  {base : ℕ} {x : ContainerItem V}

theorem mem_pushCandidates_of_mem (hx : x ∈ q) : x ∈ pushCandidates h q candidates base := by
  induction candidates generalizing q base with
  | nil => exact hx
  | cons s candidates ih =>
    rw [pushCandidates]
    refine ih ?_
    cases h.eval s with
    | none => exact hx
    | some v => exact List.mem_cons_of_mem _ hx

theorem mem_pushCandidates (hx : x ∈ pushCandidates h q candidates base) :
    x ∈ q ∨ ∃ j, candidates[j]? = some x.state ∧ x.container = base + j := by
  induction candidates generalizing q base with
  | nil => exact .inl hx
  | cons s candidates ih =>
    rw [pushCandidates] at hx
    rcases ih hx with hq | ⟨j, hj, hc⟩
    · cases hv : h.eval s with
      | none => rw [hv] at hq; exact .inl hq
      | some v =>
        rw [hv] at hq
        rcases List.mem_cons.mp hq with rfl | hq
        · exact .inr ⟨0, rfl, rfl⟩
        · exact .inl hq
    · exact .inr ⟨j + 1, hj, by omega⟩

theorem eq_nil_of_pushCandidates (hq : pushCandidates h q candidates base = []) : q = [] := by
  refine List.eq_nil_iff_forall_not_mem.mpr fun x hx => ?_
  have hmem : x ∈ pushCandidates h q candidates base := mem_pushCandidates_of_mem hx
  rw [hq] at hmem
  exact List.not_mem_nil hmem

/-- A candidate the heuristic does not give up is in the queue. -/
theorem exists_mem_pushCandidates {j : ℕ} {s : State} (hj : candidates[j]? = some s)
    (hs : (h.eval s).isSome = true) :
    ∃ x ∈ pushCandidates h q candidates base, x.container = base + j ∧ x.state = s := by
  induction candidates generalizing q base j with
  | nil => simp at hj
  | cons t candidates ih =>
    rw [pushCandidates]
    cases j with
    | zero =>
      obtain rfl := Option.some.inj hj
      obtain ⟨v, hv⟩ := Option.isSome_iff_exists.mp hs
      rw [hv]
      exact ⟨_, mem_pushCandidates_of_mem List.mem_cons_self, rfl, rfl⟩
    | succ j =>
      obtain ⟨x, hx, hc, hxs⟩ := ih hj
      exact ⟨x, hx, by omega, hxs⟩

variable (h q candidates base) in
theorem length_pushCandidates_le :
    (pushCandidates h q candidates base).length ≤ q.length + candidates.length := by
  induction candidates generalizing q base with
  | nil => simp [pushCandidates]
  | cons s candidates ih =>
    rw [pushCandidates]
    refine (ih _ _).trans ?_
    cases h.eval s <;> simp only [List.length_cons] <;> omega

variable (candidates base) in
theorem sum_length_pushCandidates_le (hs : List (WeightedHeuristic V))
    (opens : List (List (ContainerItem V))) :
    ((List.zipWith (fun h q => pushCandidates h q candidates base) hs opens).map List.length).sum ≤
      (opens.map List.length).sum + hs.length * candidates.length := by
  induction hs generalizing opens with
  | nil => simp
  | cons h hs ih =>
    cases opens with
    | nil => simp
    | cons q opens =>
      have hq := length_pushCandidates_le h q candidates base
      have hrest := ih opens
      simp only [List.zipWith_cons_cons, List.map_cons, List.sum_cons, List.length_cons, Nat.add_mul]
      omega

end Queues

/-! ### The invariant -/

section

variable [Callables]

/-- The loop's invariant: `states` are those of the containers, and `expanded`
those expanded so far. Only the queue last popped from can be empty, and an
unexpanded container a goal lies ahead of is in every queue. -/
structure Invariant (ms : MultiqueueSearch V) (d : ℕ) (states : List State) (expanded : Set State)
    (l : MultiqueueLoop V) : Prop where
  counter : l.counter = d
  length : l.opens.length = ms.heuristics.length
  last : l.last < l.opens.length
  others : ∀ i, l.opens[i]? = some [] → i = l.last
  containers : l.containers = states.length
  flags : ∀ c ∈ l.expanded, c < states.length
  items : ∀ q ∈ l.opens, ∀ x ∈ q, states[x.container]? = some x.state
  reachable : ∀ s ∈ states, ReachableWithin ms.ss ms.tn true ms.relevantActions s d ∧
    s.assignments ∈ l.visitedStates.seen.map State.assignments
  exploring : Exploring ms.ss ms.tn ms.relevantActions d ms.isEarlyGoal l.visitedStates
    {s | ∃ c, c ∉ l.expanded ∧ ∀ q ∈ l.opens, ∃ x ∈ q, x.container = c ∧ x.state = s} expanded

end

variable {ms} {core : Core} {l l' : MultiqueueLoop V} {d i : ℕ} {states : List State}
  {expanded : Set State} {item : ContainerItem V} {q rest : List (ContainerItem V)}
  {r : SearchOutcome}

theorem ne_nil_of_not_someQueueEmpty (h : l.someQueueEmpty = false) : ∀ q ∈ l.opens, q ≠ [] := by
  rw [MultiqueueLoop.someQueueEmpty, List.any_eq_false] at h
  exact fun q hq he => h q hq (List.isEmpty_iff.mpr he)

/-- The step past the test for exhaustion, when no queue is empty. -/
structure Popped (ms : MultiqueueSearch V) (l : MultiqueueLoop V) (i : ℕ)
    (q rest : List (ContainerItem V)) (item : ContainerItem V) : Prop where
  queue : l.opens[i]? = some q
  pop : q.Perm (item :: rest)
  full : ∀ q ∈ l.opens, q ≠ []

/-- Popping leaves every other queue alone, and every other container in it. -/
theorem Popped.mem (h : Popped ms l i q rest item) {x : ContainerItem V} {q' : List (ContainerItem V)}
    (hq' : q' ∈ l.opens.set i rest) (hx : x ∈ q') : ∃ q'' ∈ l.opens, x ∈ q'' := by
  rcases List.mem_or_eq_of_mem_set hq' with hq' | rfl
  · exact ⟨q', hq', hx⟩
  · exact ⟨q, List.mem_of_getElem? h.queue, h.pop.mem_iff.mpr (List.mem_cons_of_mem _ hx)⟩

theorem Popped.survives (h : Popped ms l i q rest item) {c : ℕ} {s : State}
    (hc : c ≠ item.container)
    (hall : ∀ q ∈ l.opens, ∃ x ∈ q, x.container = c ∧ x.state = s) :
    ∀ q ∈ l.opens.set i rest, ∃ x ∈ q, x.container = c ∧ x.state = s := by
  intro q' hq'
  rcases List.mem_or_eq_of_mem_set hq' with hq' | rfl
  · exact hall q' hq'
  · obtain ⟨x, hx, hxc, hxs⟩ := hall q (List.mem_of_getElem? h.queue)
    rcases List.mem_cons.mp (h.pop.mem_iff.mp hx) with rfl | hx
    · exact absurd hxc.symm hc
    · exact ⟨x, hx, hxc, hxs⟩

theorem Popped.lt (h : Popped ms l i q rest item) : i < l.opens.length :=
  (List.getElem?_eq_some_iff.mp h.queue).1

theorem sum_length_set {α : Type*} {q rest : List α} {opens : List (List α)}
    (hq : opens[i]? = some q) (hlen : q.length = rest.length + 1) :
    ((opens.set i rest).map List.length).sum + 1 = (opens.map List.length).sum := by
  induction opens generalizing i with
  | nil => simp at hq
  | cons p opens ih =>
    cases i with
    | zero =>
      obtain rfl := Option.some.inj hq
      simp only [List.set_cons_zero, List.map_cons, List.sum_cons]
      omega
    | succ i =>
      have hrest := ih hq
      simp only [List.set_cons_succ, List.map_cons, List.sum_cons]
      omega

theorem Popped.sum_length (h : Popped ms l i q rest item) :
    ((l.opens.set i rest).map List.length).sum + 1 = (l.opens.map List.length).sum := by
  refine sum_length_set h.queue ?_
  rw [h.pop.length_eq, List.length_cons]

/-- A queue after pushing comes from one before. -/
theorem exists_of_mem_zipWith {opens : List (List (ContainerItem V))} {candidates : List State}
    {base : ℕ} {q' : List (ContainerItem V)}
    (hq : q' ∈ List.zipWith (fun h q => pushCandidates h q candidates base) ms.heuristics opens) :
    ∃ h ∈ ms.heuristics, ∃ q ∈ opens, q' = pushCandidates h q candidates base := by
  obtain ⟨j, hj⟩ := List.mem_iff_getElem?.mp hq
  obtain ⟨h, q, hh, hqs, rfl⟩ := List.getElem?_zipWith_eq_some.mp hj
  exact ⟨h, List.mem_of_getElem? hh, q, List.mem_of_getElem? hqs, rfl⟩

variable [Callables]

/-- Both cores' tests say whether some queue is empty. -/
theorem Invariant.lastQueueEmpty (h : Invariant ms d states expanded l) :
    l.lastQueueEmpty = some l.someQueueEmpty := by
  rw [MultiqueueLoop.lastQueueEmpty, List.getElem?_eq_getElem h.last, Option.map_some,
    Option.some.injEq, Bool.eq_iff_iff, MultiqueueLoop.someQueueEmpty, List.any_eq_true]
  constructor
  · exact fun he => ⟨_, List.getElem_mem h.last, he⟩
  · rintro ⟨q, hq, he⟩
    obtain ⟨i, hi⟩ := List.mem_iff_getElem?.mp hq
    rw [List.isEmpty_iff] at he
    subst he
    have := h.others i hi
    subst this
    rw [List.getElem?_eq_getElem h.last] at hi
    rw [Option.some.inj hi]
    rfl

theorem Invariant.step_eq (h : Invariant ms d states expanded l) (core : Core) (hne : ms.heuristics ≠ []) :
    (l.someQueueEmpty = true ∧ ms.step core l = .inl .noPath) ∨
    (∃ i q rest item, Popped ms l i q rest item ∧ ms.step core l =
      if item.container ∈ l.expanded then .inr { l with opens := l.opens.set i rest, last := i }
      else ms.expand item { l with opens := l.opens.set i rest, last := i }) := by
  have hstep : ms.step core l = if l.someQueueEmpty then .inl .noPath else ms.popAndExpand core l := by
    cases core with
    | python => rfl
    | rust =>
      rw [step, h.lastQueueEmpty]
      cases l.someQueueEmpty <;> rfl
  cases he : l.someQueueEmpty with
  | true => exact .inl ⟨rfl, by rw [hstep, he]; rfl⟩
  | false =>
    have hfull := ne_nil_of_not_someQueueEmpty he
    have hpos : 0 < ms.heuristics.length := List.length_pos_iff.mpr hne
    have hlt : l.statesExpanded % ms.heuristics.length < l.opens.length := by
      rw [h.length]
      exact Nat.mod_lt _ hpos
    have hq := List.getElem?_eq_getElem hlt
    cases hpop : ms.queue.pop l.opens[l.statesExpanded % ms.heuristics.length] with
    | none => exact absurd (ms.queue.pop_eq_none.mp hpop) (hfull _ (List.getElem_mem hlt))
    | some x =>
      refine .inr ⟨_, _, x.2, x.1, ⟨hq, ms.queue.pop_perm hpop, hfull⟩, ?_⟩
      rw [hstep, he, popAndExpand, switchingPolicy, if_neg hpos.ne']
      simp only [hq, hpop, Bool.false_eq_true, if_false]

/-- A popped item expanded before is skipped. -/
theorem Popped.skip (hp : Popped ms l i q rest item) (h : Invariant ms d states expanded l)
    (hc : item.container ∈ l.expanded) :
    Invariant ms d states expanded { l with opens := l.opens.set i rest, last := i } := by
  refine ⟨h.counter, by simpa using h.length, by simpa using hp.lt, fun j hj => ?_, h.containers,
    h.flags, fun q' hq' x hx => ?_, h.reachable, h.exploring.mono ?_⟩
  · by_contra hne
    dsimp only at hj hne
    rw [List.getElem?_set_ne (Ne.symm hne)] at hj
    exact hp.full _ (List.mem_of_getElem? hj) rfl
  · obtain ⟨q'', hq'', hx⟩ := hp.mem hq' hx
    exact h.items q'' hq'' x hx
  · rintro s ⟨c, hce, hall⟩
    exact ⟨c, hce, hp.survives (fun he => hce (he ▸ hc)) hall⟩

theorem Popped.state (hp : Popped ms l i q rest item) (h : Invariant ms d states expanded l) :
    states[item.container]? = some item.state :=
  h.items q (List.mem_of_getElem? hp.queue) item (hp.pop.mem_iff.mpr List.mem_cons_self)

theorem Popped.fruitless (hp : Popped ms l i q rest item) (ht : ¬ ms.ss.isTemporal = true)
    (h : Invariant ms d states expanded l)
    (hg : ¬ (!ms.earlyTermination && ms.ss.goalReached item.state) = true) :
    holds ms.ss.goal item.state.assignments = false := by
  obtain ⟨hr, hm⟩ := h.reachable _ (List.mem_of_getElem? (hp.state h))
  obtain ⟨t, ht', hts⟩ := List.mem_map.mp hm
  have hgoal := h.exploring.goalless t ht'
  rw [isEarlyGoal, goalReached_classical ((h.exploring.recorded t ht').classical ht), hts] at hgoal
  rw [goalReached_classical (hr.classical ht)] at hg
  cases he : ms.earlyTermination with
  | true => simpa [he] using hgoal
  | false => simpa [he] using hg

/-- The loop's variables once the successors of a popped state are recorded. -/
def record (ms : MultiqueueSearch V) (l : MultiqueueLoop V) (item : ContainerItem V)
    (successors : List State) : MultiqueueLoop V :=
  let candidates := l.visitedStates.fresh ms.ss ms.tn ms.weakEquality successors
  { l with
    opens := List.zipWith (fun h q => pushCandidates h q candidates l.containers) ms.heuristics l.opens
    containers := l.containers + candidates.length
    expanded := item.container :: l.expanded
    visitedStates := l.visitedStates.insertAll ms.ss ms.tn ms.weakEquality successors
    statesExpanded := l.statesExpanded + 1
    generatedStates := l.generatedStates + successors.length }

/-- Recording the successors of a popped state keeps the invariant. -/
theorem Popped.recorded (hp : Popped ms l i q rest item) (ht : ¬ ms.ss.isTemporal = true)
    (hsym : SymmetrySound ms.ss ms.tn true ms.relevantActions)
    (hh : ∀ h ∈ ms.heuristics, SeesGoals ms.ss ms.tn ms.relevantActions h.eval)
    (h : Invariant ms d states expanded l)
    (hgoal : holds ms.ss.goal item.state.assignments = false) {successors : List State}
    (hmem : ∀ t, t ∈ successors ↔ IsSuccessor ms.ss ms.tn ms.relevantActions d item.state t)
    (hgl : ∀ t ∈ successors, ms.isEarlyGoal t = false) :
    Invariant ms d (states ++ l.visitedStates.fresh ms.ss ms.tn ms.weakEquality successors)
      (insert item.state expanded)
      (ms.record { l with opens := l.opens.set i rest, last := i } item successors) := by
  have hstate := hp.state h
  have hreach := (h.reachable _ (List.mem_of_getElem? hstate)).1
  have hsucc : ∀ t ∈ successors, ReachableWithin ms.ss ms.tn true ms.relevantActions t d := by
    intro t hts
    obtain ⟨a, ha, hst⟩ := (hmem t).mp hts
    exact hreach.step ht ha hst
  obtain ⟨-, hseen, hall⟩ := VisitedStates.insertAll_classical ms.tn ms.weakEquality ht
    h.exploring.classical fun t hts => (hsucc t hts).classical ht
  have hfresh : ∀ {t}, t ∈ l.visitedStates.fresh ms.ss ms.tn ms.weakEquality successors →
      t ∈ successors := VisitedStates.mem_of_fresh
  refine ⟨h.counter, ?_, ?_, ?_, ?_, ?_, ?_, ?_, ?_⟩
  · simp [record, h.length]
  · simpa [record, h.length] using hp.lt
  · intro j hj
    obtain ⟨g, q', hg, hq', he⟩ := List.getElem?_zipWith_eq_some.mp hj
    have hnil : q' = [] := eq_nil_of_pushCandidates he
    dsimp only at hq'
    by_contra hne
    have hji : i ≠ j := Ne.symm hne
    rw [List.getElem?_set_ne hji, hnil] at hq'
    exact hp.full _ (List.mem_of_getElem? hq') rfl
  · simp [record, h.containers]
  · intro c hc
    rw [List.length_append]
    rcases List.mem_cons.mp hc with rfl | hc
    · have := (List.getElem?_eq_some_iff.mp hstate).1
      omega
    · have := h.flags c hc
      omega
  · intro q' hq' x hx
    obtain ⟨g, -, q'', hq'', rfl⟩ := exists_of_mem_zipWith hq'
    rcases mem_pushCandidates hx with hx | ⟨j, hj, hc⟩
    · obtain ⟨q₀, hq₀, hx⟩ := hp.mem hq'' hx
      have hx' := h.items q₀ hq₀ x hx
      rw [List.getElem?_append_left (List.getElem?_eq_some_iff.mp hx').1, hx']
    · have hc' : x.container = states.length + j := by rw [hc, ← h.containers]
      rw [List.getElem?_append_right (by omega), hc', Nat.add_sub_cancel_left, hj]
  · intro s hs
    have hkeys : (ms.record { l with opens := l.opens.set i rest, last := i } item
        successors).visitedStates = l.visitedStates.insertAll ms.ss ms.tn ms.weakEquality successors := rfl
    rw [hkeys]
    rcases List.mem_append.mp hs with hs | hs
    · obtain ⟨hr, hm⟩ := h.reachable s hs
      refine ⟨hr, ?_⟩
      rw [hseen, List.map_append]
      exact List.mem_append_right _ hm
    · exact ⟨hsucc s (hfresh hs), hall s (hfresh hs)⟩
  · refine h.exploring.expand ht hreach hgoal hmem ?_ (fun t hf => hgl t (hfresh hf)) ?_
    · rintro s ⟨c, hce, hin⟩
      by_cases hc : c = item.container
      · obtain ⟨x, hx, hxc, hxs⟩ := hin q (List.mem_of_getElem? hp.queue)
        have hx' := h.items q (List.mem_of_getElem? hp.queue) x hx
        rw [hxc, hc, hstate, hxs] at hx'
        exact .inr (Option.some.inj hx').symm
      · refine .inl ⟨c, ?_, fun q' hq' => ?_⟩
        · simp only [record, List.mem_cons, not_or]
          exact ⟨hc, hce⟩
        · obtain ⟨g, -, q'', hq'', rfl⟩ := exists_of_mem_zipWith hq'
          obtain ⟨x, hx, hxc, hxs⟩ := hp.survives hc hin q'' hq''
          exact ⟨x, mem_pushCandidates_of_mem hx, hxc, hxs⟩
    · rintro t hf hr ⟨k, hk⟩
      obtain ⟨j, hj⟩ := List.mem_iff_getElem?.mp hf
      refine ⟨l.containers + j, ?_, fun q' hq' => ?_⟩
      · simp only [record, List.mem_cons, not_or]
        have := (List.getElem?_eq_some_iff.mp hstate).1
        refine ⟨by rw [h.containers]; omega, fun hc => ?_⟩
        have := h.flags _ hc
        rw [h.containers] at this
        omega
      · obtain ⟨g, hg, q'', hq'', rfl⟩ := exists_of_mem_zipWith hq'
        obtain ⟨as, u, hrel, hrun, hgu⟩ := exists_run_near ht hsym hr hk
        exact exists_mem_pushCandidates hj (hh g hg t d hr ⟨as, u, d, hrel, hrun, hgu⟩)

/-- An expansion ends the search or records the successors of the popped state. -/
theorem Invariant.expand_eq (h : Invariant ms d states expanded l) (ht : ¬ ms.ss.isTemporal = true)
    (item : ContainerItem V) (i : ℕ) (rest : List (ContainerItem V)) :
    let l₁ := { l with opens := l.opens.set i rest, last := i }
    let successors := ms.relevantActions.filterMap fun a =>
      ms.ss.getSuccessorState ms.tn d item.state a
    (∃ r, ms.expand item l₁ = .inl r ∧
      ((r = .expansionLimitReached ∧ ms.maxExpandedStates ≠ none) ∨
        ∃ s, (s = item.state ∨ s ∈ successors) ∧ ms.ss.goalReached s = true ∧
          r = .path (extractPath s))) ∨
    (ms.expand item l₁ = .inr (ms.record l₁ item successors) ∧
      ¬ (!ms.earlyTermination && ms.ss.goalReached item.state) = true ∧
      ∀ t ∈ successors, ms.isEarlyGoal t = false) := by
  intro l₁ successors
  rw [MultiqueueSearch.expand]
  by_cases hlim : expansionLimitReached l₁.statesExpanded ms.maxExpandedStates = true
  · rw [if_pos hlim]
    refine .inl ⟨_, rfl, .inl ⟨rfl, fun hmax => ?_⟩⟩
    simp [hmax, expansionLimitReached] at hlim
  rw [if_neg hlim]
  by_cases hg : (!ms.earlyTermination && ms.ss.goalReached item.state) = true
  · rw [if_pos hg]
    rw [Bool.and_eq_true] at hg
    exact .inl ⟨_, rfl, .inr ⟨_, .inl rfl, hg.2, rfl⟩⟩
  rw [if_neg hg]
  have hsucc : ms.ss.getSuccessorStates ms.tn l₁.counter item.state ms.relevantActions =
      (successors, d) := by
    rw [getSuccessorStates_classical ht, show l₁.counter = d from h.counter]
  rw [hsucc]
  dsimp only
  cases hc : l₁.visitedStates.collect ms.ss ms.tn ms.weakEquality ms.isEarlyGoal successors with
  | error p =>
    obtain ⟨s, hs, hgs, rfl⟩ := VisitedStates.collect_error hc
    rw [isEarlyGoal, Bool.and_eq_true] at hgs
    exact .inl ⟨_, rfl, .inr ⟨s, .inr hs, hgs.2, rfl⟩⟩
  | ok c =>
    obtain ⟨rfl, hgl⟩ := VisitedStates.collect_ok hc
    refine .inr ⟨?_, hg, hgl⟩
    dsimp only
    rw [record, ← h.counter]

theorem mem_successors (ht : ¬ ms.ss.isTemporal = true) (s t : State) :
    t ∈ ms.relevantActions.filterMap (fun a => ms.ss.getSuccessorState ms.tn d s a) ↔
      IsSuccessor ms.ss ms.tn ms.relevantActions d s t := by
  rw [← mem_getSuccessorStates ht, getSuccessorStates_classical ht]

/-- What is left to do: the items in the queues and those still to come. -/
def work (ms : MultiqueueSearch V) (size : ℕ) (l : MultiqueueLoop V) : ℕ :=
  (l.opens.map List.length).sum + ms.heuristics.length * (size - l.visitedStates.seen.length)

/-- Recording adds no more items to a queue than states to the store. -/
theorem Popped.work_lt (hp : Popped ms l i q rest item) (ht : ¬ ms.ss.isTemporal = true)
    (h : Invariant ms d states expanded l) {successors : List State} {size : ℕ}
    (hs : ∀ t ∈ successors, t.Classical)
    (hle : (ms.record { l with opens := l.opens.set i rest, last := i } item
      successors).visitedStates.seen.length ≤ size) :
    ms.work size (ms.record { l with opens := l.opens.set i rest, last := i } item successors) <
      ms.work size l := by
  obtain ⟨-, hseen, -⟩ := VisitedStates.insertAll_classical ms.tn ms.weakEquality ht
    h.exploring.classical hs
  have hsum := sum_length_pushCandidates_le
    (l.visitedStates.fresh ms.ss ms.tn ms.weakEquality successors) l.containers ms.heuristics
    (l.opens.set i rest)
  have hpop := hp.sum_length
  simp only [work, record] at hle ⊢
  rw [hseen, List.length_append, List.length_reverse] at hle ⊢
  obtain ⟨k, hk⟩ := Nat.exists_eq_add_of_le hle
  rw [hk, Nat.add_sub_cancel_left, Nat.add_right_comm, Nat.add_sub_cancel, Nat.mul_add]
  omega

/-- An iteration that goes on keeps the invariant and does some of the work. -/
theorem Invariant.step (h : Invariant ms d states expanded l) (hne : ms.heuristics ≠ [])
    (ht : ¬ ms.ss.isTemporal = true) (hfin : FinitelyManyStates ms.ss ms.tn ms.relevantActions)
    (hsym : SymmetrySound ms.ss ms.tn true ms.relevantActions)
    (hh : ∀ h ∈ ms.heuristics, SeesGoals ms.ss ms.tn ms.relevantActions h.eval)
    (hs : ms.step core l = .inr l') : (∃ states' expanded', Invariant ms d states' expanded' l') ∧
      ms.work (Set.Finite.toFinset hfin).card l' < ms.work (Set.Finite.toFinset hfin).card l := by
  rcases h.step_eq core hne with ⟨-, he⟩ | ⟨i, q, rest, item, hp, he⟩
  · rw [he] at hs
    contradiction
  rw [he] at hs
  split_ifs at hs with hc
  · obtain rfl := Sum.inr.inj hs
    refine ⟨⟨_, _, hp.skip h hc⟩, ?_⟩
    have := hp.sum_length
    simp only [work]
    omega
  · rcases h.expand_eq ht item i rest with ⟨r, hr, -⟩ | ⟨hr, hg, hgl⟩
    · rw [hr] at hs
      contradiction
    · obtain rfl := Sum.inr.inj (hr.symm.trans hs)
      have hinv := hp.recorded ht hsym hh h (hp.fruitless ht h hg) (mem_successors ht _) hgl
      refine ⟨⟨_, _, hinv⟩, hp.work_lt ht h (fun t hts => ?_) (hinv.exploring.length_le hfin)⟩
      obtain ⟨a, ha, hst⟩ := (mem_successors ht _ _).mp hts
      exact ((h.reachable _ (List.mem_of_getElem? (hp.state h))).1.step ht ha hst).classical ht

/-- What ends the loop is a right answer. -/
theorem Invariant.answer (h : Invariant ms d states expanded l) (hne : ms.heuristics ≠ [])
    (ht : ¬ ms.ss.isTemporal = true) (hsym : SymmetrySound ms.ss ms.tn true ms.relevantActions)
    (hs : ms.step core l = .inl r) : Answers ms.ss ms.tn ms.relevantActions r ∧ r ≠ .raised ∧
      (ms.maxExpandedStates = none → r ≠ .expansionLimitReached) := by
  rcases h.step_eq core hne with ⟨hempty, he⟩ | ⟨i, q, rest, item, hp, he⟩
  · rw [he] at hs
    obtain rfl := Sum.inl.inj hs
    refine ⟨fun p => ?_, by simp, by simp⟩
    -- an empty queue holds no container that a goal lies ahead of
    obtain ⟨q, hq, hqe⟩ := List.any_eq_true.mp hempty
    rw [List.isEmpty_iff] at hqe
    have hsub : {s | ∃ c, c ∉ l.expanded ∧
        ∀ q ∈ l.opens, ∃ x ∈ q, x.container = c ∧ x.state = s} ⊆ ∅ := by
      rintro s ⟨c, -, hin⟩
      obtain ⟨x, hx, -⟩ := hin q hq
      rw [hqe] at hx
      exact absurd hx List.not_mem_nil
    exact (h.exploring.mono hsub).noPath ht hsym p
  rw [he] at hs
  split_ifs at hs with hc
  rcases h.expand_eq ht item i rest with ⟨r', hr, hcase⟩ | ⟨hr, -⟩
  · obtain rfl := Sum.inl.inj (hr.symm.trans hs)
    have hreach := (h.reachable _ (List.mem_of_getElem? (hp.state h))).1
    rcases hcase with ⟨rfl, hmax⟩ | ⟨s, hsmem, hg, rfl⟩
    · exact ⟨trivial, by simp, fun hm => absurd hm hmax⟩
    · refine ⟨?_, by simp, by simp⟩
      rcases hsmem with rfl | hsmem
      · exact acceptedWithin_of_goalReached ht hreach hg
      · obtain ⟨a, ha, hst⟩ := (mem_successors ht _ _).mp hsmem
        exact acceptedWithin_of_goalReached ht (hreach.step ht ha hst) hg
  · rw [hr] at hs
    contradiction

/-- Before the loop the initial state waits in every queue, or the search has answered. -/
theorem start_spec (ms : MultiqueueSearch V) (ht : ¬ ms.ss.isTemporal = true) (counter : ℕ) :
    (∃ r, ms.start counter = .inl r ∧ Answers ms.ss ms.tn ms.relevantActions r ∧ r ≠ .raised ∧
      r ≠ .expansionLimitReached) ∨
    ∃ l, ms.start counter = .inr l ∧ l.opens.length = ms.heuristics.length ∧ l.last = 0 ∧
      (ms.heuristics ≠ [] →
        ∃ states, Invariant ms (initialCounter ms.ss counter) states ∅ l) := by
  obtain ⟨init, hi⟩ := exists_initial ms.tn ht counter
  obtain ⟨hc, has, hp⟩ := classical_initial ht hi
  have hreach : ReachableWithin ms.ss ms.tn true ms.relevantActions init
      (initialCounter ms.ss counter) :=
    ⟨counter, init, _, [], hi, .refl _ _, le_rfl, by simp⟩
  rw [start, hi]
  dsimp only
  by_cases hg : ms.isEarlyGoal init = true
  · rw [if_pos hg]
    rw [isEarlyGoal, Bool.and_eq_true] at hg
    exact .inl ⟨_, rfl, acceptedWithin_of_goalReached ht hreach hg.2, by simp, by simp⟩
  rw [if_neg hg]
  have hseen : VisitedStates.insert ms.ss ms.tn ms.weakEquality ⟨[], []⟩ init = ⟨[init], []⟩ := by
    rw [VisitedStates.insert_classical ht, if_neg]
    rw [VisitedStates.isRedundant_classical ms.tn ms.weakEquality ht ⟨by simp, by simp⟩]
    simp
  refine .inr ⟨_, rfl, by simp, rfl, fun hne => ⟨[init], rfl, by simp, ?_, ?_, rfl, by simp, ?_, ?_, ?_⟩⟩
  · simpa using List.length_pos_iff.mpr hne
  · intro j hj
    obtain ⟨g, -, hg⟩ := List.mem_map.mp (List.mem_of_getElem? hj)
    contradiction
  · intro q hq x hx
    obtain ⟨g, -, rfl⟩ := List.mem_map.mp hq
    obtain rfl := List.mem_singleton.mp hx
    rfl
  · simp [hreach, hseen]
  · rw [hseen]
    refine (Exploring.start ht hreach has hg).mono ?_
    rintro s rfl
    refine ⟨0, by simp, fun q hq => ?_⟩
    obtain ⟨g, -, rfl⟩ := List.mem_map.mp hq
    exact ⟨_, List.mem_singleton_self _, rfl, rfl⟩

/-- The search answers, with none only where no goal can be reached, and the two
cores agree on when it is over. -/
theorem queues_complete (ms : MultiqueueSearch V) (counter : ℕ) (ht : ¬ ms.ss.isTemporal = true)
    (hfin : FinitelyManyStates ms.ss ms.tn ms.relevantActions)
    (hsym : SymmetrySound ms.ss ms.tn true ms.relevantActions)
    (hh : ∀ h ∈ ms.heuristics, SeesGoals ms.ss ms.tn ms.relevantActions h.eval) :
    (∀ core, ∃ n r, ms.run core counter n = .inl r ∧ Answers ms.ss ms.tn ms.relevantActions r ∧
      (r = .raised → ms.heuristics = []) ∧
      (ms.maxExpandedStates = none → r ≠ .expansionLimitReached)) ∧
    (ms.heuristics ≠ [] → ∀ core n l, ms.run core counter n = .inr l →
      l.lastQueueEmpty = some l.someQueueEmpty) := by
  rcases ms.start_spec ht counter with ⟨r, hr, ha, hraise, hlim⟩ | ⟨l₀, hl₀, hlen, hlast, hinv⟩
  · refine ⟨fun core => ⟨0, r, hr, ha, fun h => absurd h hraise, fun _ => hlim⟩, fun _ core n l hl => ?_⟩
    rw [run, hr, Exploration.iterate_inl] at hl
    contradiction
  by_cases hne : ms.heuristics = []
  · refine ⟨fun core => ?_, fun h => absurd hne h⟩
    have hopens : l₀.opens = [] := List.length_eq_zero_iff.mp (by rw [hlen, hne]; rfl)
    refine ⟨1, .raised, ?_, trivial, fun _ => hne, by simp⟩
    rw [run, hl₀, Exploration.iterate, Exploration.iterate]
    cases core with
    | python => simp [step, MultiqueueLoop.someQueueEmpty, hopens, popAndExpand, switchingPolicy, hne]
    | rust => simp [step, MultiqueueLoop.lastQueueEmpty, hopens]
  obtain ⟨states, hinv⟩ := hinv hne
  have hstep : ∀ core l l', (∃ states expanded,
      Invariant ms (initialCounter ms.ss counter) states expanded l) → ms.step core l = .inr l' →
      (∃ states expanded, Invariant ms (initialCounter ms.ss counter) states expanded l') ∧
        ms.work (Set.Finite.toFinset hfin).card l' < ms.work (Set.Finite.toFinset hfin).card l := by
    rintro core l l' ⟨states, expanded, h⟩ hs
    exact h.step hne ht hfin hsym hh hs
  refine ⟨fun core => ?_, fun _ core n l hl => ?_⟩
  · obtain ⟨n, r, t, hn, ⟨states, expanded, h⟩, hr⟩ :=
      Exploration.exists_answer (hstep core) ⟨states, ∅, hinv⟩
    obtain ⟨ha, hraise, hlim⟩ := h.answer hne ht hsym hr
    exact ⟨n, r, by rw [run, hl₀, hn], ha, fun h => absurd h hraise, hlim⟩
  · rw [run, hl₀] at hl
    obtain ⟨states, expanded, h⟩ := Exploration.iterate_inv
      (fun s t hs hst => (hstep core s t hs hst).1) ⟨states, ∅, hinv⟩ hl
    exact h.lastQueueEmpty

end MultiqueueSearch

section Lamps

attribute [local instance] Callables.empty

def ContainerItem.queue : PriorityQueue (ContainerItem.lt fun x y : ℚ => x < y) :=
  .ofKey (fun p => toLex (p.heuristic, p.state.todo.entries.length)) (by
    intro p q
    rw [ContainerItem.lt, Bool.eq_iff_iff]
    simp only [Prod.Lex.toLex_lt_toLex, decide_eq_true_eq]
    split_ifs with h h'
    · simp [h]
    · simp [h'.asymm, h'.ne']
    · simp [le_antisymm (not_lt.mp h') (not_lt.mp h)])

/-- A search of the two lamps, with symmetry breaking and two blind queues, one of them greedy. -/
def lampsQueues : MultiqueueSearch ℚ where
  ss := lamps
  tn := .free
  relevantActions := [⟨0⟩, ⟨1⟩]
  heuristics := [⟨fun _ => some 0, fun s h => (1 - 1 / 2) * s.g + 1 / 2 * h⟩,
    ⟨fun _ => some 0, fun _ h => h⟩]
  lt := fun x y => x < y
  zero := 0
  queue := ContainerItem.queue
  maxExpandedStates := none
  earlyTermination := false
  weakEquality := false

theorem queues_complete_lamps :
    (∀ core, ∃ n r, lampsQueues.run core 0 n = .inl r ∧ Answers lamps .free [⟨0⟩, ⟨1⟩] r ∧
      r ≠ .raised) ∧
    ∀ core n l, lampsQueues.run core 0 n = .inr l → l.lastQueueEmpty = some l.someQueueEmpty := by
  have h := MultiqueueSearch.queues_complete lampsQueues 0 (by decide) (lamps_finite .free)
    (lamps_symmetrySound .free true) (fun h hh s d _ _ => by
      simp only [lampsQueues, List.mem_cons, List.not_mem_nil, or_false] at hh
      rcases hh with rfl | rfl <;> rfl)
  refine ⟨fun core => ?_, h.2 (by simp [lampsQueues])⟩
  obtain ⟨n, r, hr, ha, hne, -⟩ := h.1 core
  exact ⟨n, r, hr, ha, fun he => by simpa [lampsQueues] using hne he⟩

end Lamps

end TamerLite
