import TamerLite.MultiqueueSearch
import TamerLite.PrioritySearch
import TamerLite.SearchTree

/-! The path a search returns is that of a goal state, whatever the search drops: every
loop expands one of the states it holds, and holds only states it has expanded its way to. -/

namespace TamerLite

open SearchSpace

section

variable [Callables]

/-- The path of a goal state that relevant actions lead to. -/
def LeadsToGoal (ss : SearchSpace) (tn : DeltaSimpleTemporalNetwork)
    (relevantActions p : List Action) : Prop :=
  ∃ as s d, Leads ss tn relevantActions as s d ∧ ss.goalReached s = true ∧ p = extractPath s

theorem LeadsToGoal.of_reachable {ss : SearchSpace} {tn : DeltaSimpleTemporalNetwork}
    {relevantActions : List Action} {s : State} {d : ℕ}
    (h : ReachableWithin ss tn true relevantActions s d) (hg : ss.goalReached s = true) :
    LeadsToGoal ss tn relevantActions (extractPath s) := by
  obtain ⟨as, hleads⟩ := reachableWithin_iff.mp h
  exact ⟨as, s, d, hleads, hg, rfl⟩

/-- A loop over variables `L` that hold `states` and the id counter: a turn drops states,
or adds successors of one, and a path that ends it is that of a goal among these. -/
structure ExpandsStates (ss : SearchSpace) (tn : DeltaSimpleTemporalNetwork) (relevantActions : List Action)
    {L : Type} (step : L → SearchOutcome ⊕ L) (states : L → Set State) (counter : L → ℕ) : Prop where
  next : ∀ {l l'}, step l = .inr l' → (counter l' = counter l ∧ states l' ⊆ states l) ∨
    ∃ s ∈ states l, counter l' = (ss.getSuccessorStates tn (counter l) s relevantActions).2 ∧
      ∀ t ∈ states l', t ∈ states l ∨ t ∈ (ss.getSuccessorStates tn (counter l) s relevantActions).1
  path : ∀ {l p}, step l = .inl (.path p) → ∃ s ∈ states l, ∃ t, ss.goalReached t = true ∧
    p = extractPath t ∧
      (t = s ∨ t ∈ (ss.getSuccessorStates tn (counter l) s relevantActions).1)

namespace ExpandsStates

variable {ss : SearchSpace} {tn : DeltaSimpleTemporalNetwork} {relevantActions p : List Action} {L : Type}
  {step : L → SearchOutcome ⊕ L} {states : L → Set State} {counter : L → ℕ} {l l' : L} {n : ℕ}

theorem reachable_step (h : ExpandsStates ss tn relevantActions step states counter)
    (hl : ∀ s ∈ states l, ReachableWithin ss tn true relevantActions s (counter l))
    (hs : step l = .inr l') :
    ∀ s ∈ states l', ReachableWithin ss tn true relevantActions s (counter l') := by
  intro t ht
  rcases h.next hs with ⟨hcounter, hsub⟩ | ⟨s, hmem, hcounter, hall⟩
  · rw [hcounter]
    exact hl t (hsub ht)
  · obtain ⟨hle, hsucc⟩ := (hl s hmem).relevantSuccessors
    rw [hcounter]
    rcases hall t ht with ht | ht
    · exact (hl t ht).mono hle
    · exact hsucc t ht

/-- Every state a run holds is reached. -/
theorem reachable_run (h : ExpandsStates ss tn relevantActions step states counter)
    (hl : ∀ s ∈ states l, ReachableWithin ss tn true relevantActions s (counter l))
    (hs : Exploration.iterate step n (.inr l) = .inr l') :
    ∀ s ∈ states l', ReachableWithin ss tn true relevantActions s (counter l') := by
  let Inv : L → Prop := fun l => ∀ s ∈ states l, ReachableWithin ss tn true relevantActions s (counter l)
  have hstep : ∀ l l', Inv l → step l = .inr l' → Inv l' := fun l l' hl hs => h.reachable_step hl hs
  exact Exploration.iterate_inv hstep hl hs

/-- A run that begins with reached states returns the path of a goal state. -/
theorem path_of_run (h : ExpandsStates ss tn relevantActions step states counter)
    {start : SearchOutcome ⊕ L} (hpath : start = .inl (.path p) → LeadsToGoal ss tn relevantActions p)
    (hstart : ∀ l, start = .inr l → ∀ s ∈ states l, ReachableWithin ss tn true relevantActions s (counter l))
    (hr : Exploration.iterate step n start = .inl (.path p)) : LeadsToGoal ss tn relevantActions p := by
  cases hbegin : start with
  | inl r =>
    rw [hbegin, Exploration.iterate_inl] at hr
    obtain rfl := Sum.inl.inj hr
    exact hpath hbegin
  | inr l =>
    rw [hbegin] at hr
    obtain ⟨m, l', hl', hs⟩ := Exploration.exists_last hr
    have hreach := h.reachable_run (hstart l hbegin) hl'
    obtain ⟨s, hmem, t, hg, rfl, ht⟩ := h.path hs
    rcases ht with rfl | ht
    · exact .of_reachable (hreach _ hmem) hg
    · exact .of_reachable ((hreach s hmem).relevantSuccessors.2 t ht) hg

end ExpandsStates

end

/-! ### Priority search -/

section

variable [Callables]

namespace PrioritySearch

variable {V : Type} {ps : PrioritySearch V} {core : Core} {l : PriorityLoop ps.st} {p : List Action}

/-- A path that ends the loop is that of the popped state, or of one of its successors. -/
theorem step_path (h : ps.step core l = .inl (.path p)) : ∃ item rest t,
    ps.queue.pop l.openItems = some (item, rest) ∧ ps.ss.goalReached t = true ∧ p = extractPath t ∧
    (t = ps.st.stateOf item ∨
      t ∈ (ps.ss.getSuccessorStates ps.tn l.counter (ps.st.stateOf item) ps.relevantActions).1) := by
  rw [step] at h
  cases hp : ps.queue.pop l.openItems with
  | none =>
    rw [hp] at h
    have hne := Sum.inl.inj h
    contradiction
  | some x =>
    obtain ⟨item, rest⟩ := x
    rw [hp] at h
    dsimp only at h
    by_cases hlimit : expansionLimitReached l.expandedStates ps.maxExpandedStates = true
    · rw [if_pos hlimit] at h
      have hne := Sum.inl.inj h
      contradiction
    rw [if_neg hlimit] at h
    by_cases hg : (!ps.earlyTermination && ps.ss.goalReached (ps.st.stateOf item)) = true
    · rw [if_pos hg] at h
      obtain rfl := SearchOutcome.path.inj (Sum.inl.inj h)
      rw [Bool.and_eq_true] at hg
      exact ⟨item, rest, _, rfl, hg.2, rfl, .inl rfl⟩
    rw [if_neg hg] at h
    cases he : ps.expand core item { l with openItems := rest, expandedStates := l.expandedStates + 1 } with
    | ok m =>
      rw [he] at h
      contradiction
    | error q =>
      rw [he] at h
      obtain rfl := SearchOutcome.path.inj (Sum.inl.inj h)
      obtain ⟨t, ht, hearly, rfl⟩ := expand_error he
      rw [isEarlyGoal, Bool.and_eq_true] at hearly
      exact ⟨item, rest, t, rfl, hearly.2, rfl, .inr ht⟩

/-- What an iteration that goes on did, once it had popped an item. -/
theorem expanded_of_step {l' : PriorityLoop ps.st} {item : ps.st.Item} {rest : List ps.st.Item}
    (hp : ps.queue.pop l.openItems = some (item, rest)) (h : ps.step core l = .inr l') : Expanded ps
      (ps.ss.getSuccessorStates ps.tn l.counter (ps.st.stateOf item) ps.relevantActions).1
      { l with
        openItems := rest
        expandedStates := l.expandedStates + 1
        counter := (ps.ss.getSuccessorStates ps.tn l.counter (ps.st.stateOf item) ps.relevantActions).2 }
      l' := by
  rw [step, hp] at h
  dsimp only at h
  by_cases hlimit : expansionLimitReached l.expandedStates ps.maxExpandedStates = true
  · rw [if_pos hlimit] at h
    contradiction
  rw [if_neg hlimit] at h
  by_cases hg : (!ps.earlyTermination && ps.ss.goalReached (ps.st.stateOf item)) = true
  · rw [if_pos hg] at h
    contradiction
  rw [if_neg hg] at h
  cases he : ps.expand core item { l with openItems := rest, expandedStates := l.expandedStates + 1 } with
  | error q =>
    rw [he] at h
    contradiction
  | ok m =>
    rw [he] at h
    obtain rfl := Sum.inr.inj h
    exact expand_ok he

theorem exists_popped {l' : PriorityLoop ps.st} (h : ps.step core l = .inr l') :
    ∃ item rest, ps.queue.pop l.openItems = some (item, rest) := by
  rw [step] at h
  cases hp : ps.queue.pop l.openItems with
  | none =>
    rw [hp] at h
    contradiction
  | some x => exact ⟨x.1, x.2, rfl⟩

theorem expandsStates (ps : PrioritySearch V) (core : Core) :
    ExpandsStates ps.ss ps.tn ps.relevantActions (ps.step core)
      (fun l => {s | ∃ i ∈ l.openItems, ps.st.stateOf i = s}) PriorityLoop.counter where
  next := by
    intro l l' hs
    right
    obtain ⟨item, rest, hp⟩ := exists_popped hs
    obtain ⟨-, hcounter, ⟨items, hitems, hmap⟩, -⟩ := expanded_of_step hp hs
    have hperm := ps.queue.pop_perm hp
    refine ⟨_, ⟨item, hperm.mem_iff.mpr List.mem_cons_self, rfl⟩, hcounter, ?_⟩
    intro t ht
    obtain ⟨i, hi, rfl⟩ := ht
    rw [hitems] at hi
    rcases List.mem_append.mp hi with hi | hi
    · right
      have hmem := List.mem_map_of_mem (f := ps.st.stateOf) hi
      rw [hmap, List.mem_reverse] at hmem
      exact VisitedStates.mem_of_fresh (List.mem_filter.mp hmem).1
    · left
      exact ⟨i, hperm.mem_iff.mpr (List.mem_cons_of_mem _ hi), rfl⟩
  path := by
    intro l p hs
    obtain ⟨item, rest, t, hp, hg, hpath, ht⟩ := step_path hs
    exact ⟨_, ⟨item, (ps.queue.pop_perm hp).mem_iff.mpr List.mem_cons_self, rfl⟩, t, hg, hpath, ht⟩

/-- Before the loop the initial state is open, or its path has been returned. -/
theorem start_reachable (ps : PrioritySearch V) (counter : ℕ) :
    (∀ p, ps.start counter = .inl (.path p) → LeadsToGoal ps.ss ps.tn ps.relevantActions p) ∧
    ∀ l, ps.start counter = .inr l → ∀ i ∈ l.openItems,
      ReachableWithin ps.ss ps.tn true ps.relevantActions (ps.st.stateOf i) l.counter := by
  rw [start]
  cases h₀ : ps.ss.initial ps.tn counter with
  | none => exact ⟨fun p hp => (by cases hp), fun l hl => (by cases hl)⟩
  | some init =>
    have hreach : ReachableWithin ps.ss ps.tn true ps.relevantActions init
        (initialCounter ps.ss counter) := reachableWithin_iff.mpr ⟨[], .initial h₀⟩
    dsimp only
    by_cases hg : ps.isEarlyGoal init = true
    · rw [if_pos hg]
      rw [isEarlyGoal, Bool.and_eq_true] at hg
      refine ⟨fun p hp => ?_, fun l hl => (by cases hl)⟩
      obtain rfl := SearchOutcome.path.inj (Sum.inl.inj hp)
      exact .of_reachable hreach hg.2
    rw [if_neg hg]
    cases hv : ps.heuristic init with
    | none => exact ⟨fun p hp => (by cases hp), fun l hl => (by cases hl)⟩
    | some v =>
      refine ⟨fun p hp => (by cases hp), fun l hl i hi => ?_⟩
      obtain rfl := Sum.inr.inj hl
      rw [List.mem_singleton.mp hi, ps.st.stateOf_root]
      exact hreach

theorem run_path {counter n : ℕ} (h : ps.run core counter n = .inl (.path p)) :
    LeadsToGoal ps.ss ps.tn ps.relevantActions p := by
  obtain ⟨hpath, hstart⟩ := ps.start_reachable counter
  refine (ps.expandsStates core).path_of_run (hpath p) ?_ h
  intro l hl s hs
  obtain ⟨i, hi, rfl⟩ := hs
  exact hstart l hl i hi

end PrioritySearch

end

/-! ### Multiqueue search -/

namespace MultiqueueSearch

variable {V : Type} {ms : MultiqueueSearch V} {core : Core} {l l' : MultiqueueLoop V} {p : List Action}

/-- The states of the items that wait in the queues. -/
def waitingStates (l : MultiqueueLoop V) : Set State := {s | ∃ q ∈ l.opens, ∃ x ∈ q, x.state = s}

theorem waitingStates_set {i : ℕ} {q rest : List (ContainerItem V)} {item : ContainerItem V}
    (hq : l.opens[i]? = some q) (hp : ms.queue.pop q = some (item, rest)) (last : ℕ) :
    item.state ∈ waitingStates l ∧
      waitingStates { l with opens := l.opens.set i rest, last := last } ⊆ waitingStates l := by
  have hperm := ms.queue.pop_perm hp
  have hmem := List.mem_of_getElem? hq
  constructor
  · exact ⟨q, hmem, item, hperm.mem_iff.mpr List.mem_cons_self, rfl⟩
  · intro s hs
    obtain ⟨q', hq', x, hx, rfl⟩ := hs
    rcases List.mem_or_eq_of_mem_set hq' with hq' | rfl
    · exact ⟨q', hq', x, hx, rfl⟩
    · exact ⟨q, hmem, x, hperm.mem_iff.mpr (List.mem_cons_of_mem _ hx), rfl⟩

variable [Callables]

/-- Both cores end the loop, wait for the next turn, or go on with a popped item. -/
theorem step_cases (core : Core) (l : MultiqueueLoop V) :
    (∃ r, ms.step core l = .inl r ∧ ∀ p, r ≠ .path p) ∨
    (∃ i, ms.step core l = .inr { l with last := i }) ∨
    ∃ i q item rest, l.opens[i]? = some q ∧ ms.queue.pop q = some (item, rest) ∧
      ms.step core l =
        if item.container ∈ l.expanded then .inr { l with opens := l.opens.set i rest, last := i }
        else ms.expand item { l with opens := l.opens.set i rest, last := i } := by
  have hbody : (∃ r, ms.step core l = .inl r ∧ ∀ p, r ≠ .path p) ∨
      ms.step core l = ms.popAndExpand core l := by
    cases core with
    | python =>
      rw [step]
      by_cases hempty : l.someQueueEmpty = true
      · rw [if_pos hempty]
        exact .inl ⟨_, rfl, fun p hp => (by cases hp)⟩
      · rw [if_neg hempty]
        exact .inr rfl
    | rust =>
      rw [step]
      cases l.lastQueueEmpty with
      | none => exact .inl ⟨_, rfl, fun p hp => (by cases hp)⟩
      | some empty =>
        cases empty with
        | true => exact .inl ⟨_, rfl, fun p hp => (by cases hp)⟩
        | false => exact .inr rfl
  rcases hbody with hend | hbody
  · exact .inl hend
  rw [hbody, popAndExpand]
  cases hi : switchingPolicy ms.heuristics.length l.statesExpanded with
  | none => exact .inl ⟨_, rfl, fun p hp => (by cases hp)⟩
  | some i =>
    dsimp only
    cases hq : l.opens[i]? with
    | none => exact .inl ⟨_, rfl, fun p hp => (by cases hp)⟩
    | some q =>
      dsimp only
      cases hp : ms.queue.pop q with
      | none =>
        cases core with
        | python => exact .inl ⟨_, rfl, fun p hp => (by cases hp)⟩
        | rust => exact .inr (.inl ⟨i, rfl⟩)
      | some x => exact .inr (.inr ⟨i, q, x.1, x.2, hq, hp, rfl⟩)

theorem expand_next {item : ContainerItem V} (h : ms.expand item l = .inr l') :
    l'.counter = (ms.ss.getSuccessorStates ms.tn l.counter item.state ms.relevantActions).2 ∧
      ∀ t ∈ waitingStates l', t ∈ waitingStates l ∨
        t ∈ (ms.ss.getSuccessorStates ms.tn l.counter item.state ms.relevantActions).1 := by
  rw [expand] at h
  by_cases hlimit : expansionLimitReached l.statesExpanded ms.maxExpandedStates = true
  · rw [if_pos hlimit] at h
    contradiction
  rw [if_neg hlimit] at h
  by_cases hg : (!ms.earlyTermination && ms.ss.goalReached item.state) = true
  · rw [if_pos hg] at h
    contradiction
  rw [if_neg hg] at h
  dsimp only at h
  cases hc : l.visitedStates.collect ms.ss ms.tn ms.weakEquality ms.isEarlyGoal
      (ms.ss.getSuccessorStates ms.tn l.counter item.state ms.relevantActions).1 with
  | error q =>
    rw [hc] at h
    contradiction
  | ok c =>
    rw [hc] at h
    obtain ⟨rfl, -⟩ := VisitedStates.collect_ok hc
    obtain rfl := Sum.inr.inj h
    refine ⟨rfl, fun t ht => ?_⟩
    obtain ⟨q', hq', x, hx, rfl⟩ := ht
    obtain ⟨g, -, q, hq, rfl⟩ := exists_of_mem_zipWith hq'
    rcases mem_pushCandidates hx with hx | ⟨j, hj, -⟩
    · exact .inl ⟨q, hq, x, hx, rfl⟩
    · exact .inr (VisitedStates.mem_of_fresh (List.mem_of_getElem? hj))

theorem expand_path {item : ContainerItem V} (h : ms.expand item l = .inl (.path p)) : ∃ t,
    ms.ss.goalReached t = true ∧ p = extractPath t ∧ (t = item.state ∨
      t ∈ (ms.ss.getSuccessorStates ms.tn l.counter item.state ms.relevantActions).1) := by
  rw [expand] at h
  by_cases hlimit : expansionLimitReached l.statesExpanded ms.maxExpandedStates = true
  · rw [if_pos hlimit] at h
    have hne := Sum.inl.inj h
    contradiction
  rw [if_neg hlimit] at h
  by_cases hg : (!ms.earlyTermination && ms.ss.goalReached item.state) = true
  · rw [if_pos hg] at h
    obtain rfl := SearchOutcome.path.inj (Sum.inl.inj h)
    rw [Bool.and_eq_true] at hg
    exact ⟨_, hg.2, rfl, .inl rfl⟩
  rw [if_neg hg] at h
  dsimp only at h
  cases hc : l.visitedStates.collect ms.ss ms.tn ms.weakEquality ms.isEarlyGoal
      (ms.ss.getSuccessorStates ms.tn l.counter item.state ms.relevantActions).1 with
  | ok c =>
    rw [hc] at h
    contradiction
  | error q =>
    rw [hc] at h
    obtain rfl := SearchOutcome.path.inj (Sum.inl.inj h)
    obtain ⟨t, ht, hearly, rfl⟩ := VisitedStates.collect_error hc
    rw [isEarlyGoal, Bool.and_eq_true] at hearly
    exact ⟨t, hearly.2, rfl, .inr ht⟩

theorem expandsStates (ms : MultiqueueSearch V) (core : Core) :
    ExpandsStates ms.ss ms.tn ms.relevantActions (ms.step core) waitingStates MultiqueueLoop.counter where
  next := by
    intro l l' hs
    rcases step_cases core l with ⟨r, hr, -⟩ | ⟨i, hi⟩ | ⟨i, q, item, rest, hq, hp, hstep⟩
    · rw [hr] at hs
      contradiction
    · rw [hi] at hs
      obtain rfl := Sum.inr.inj hs
      exact .inl ⟨rfl, fun s hs => hs⟩
    · obtain ⟨hmem, hsub⟩ := waitingStates_set hq hp i
      rw [hstep] at hs
      by_cases hc : item.container ∈ l.expanded
      · rw [if_pos hc] at hs
        obtain rfl := Sum.inr.inj hs
        exact .inl ⟨rfl, hsub⟩
      · rw [if_neg hc] at hs
        obtain ⟨hcounter, hall⟩ := expand_next hs
        exact .inr ⟨_, hmem, hcounter, fun t ht => (hall t ht).imp_left fun ht => hsub ht⟩
  path := by
    intro l p hs
    rcases step_cases core l with ⟨r, hr, hne⟩ | ⟨i, hi⟩ | ⟨i, q, item, rest, hq, hp, hstep⟩
    · rw [hr] at hs
      exact absurd (Sum.inl.inj hs) (hne p)
    · rw [hi] at hs
      contradiction
    · rw [hstep] at hs
      by_cases hc : item.container ∈ l.expanded
      · rw [if_pos hc] at hs
        contradiction
      · rw [if_neg hc] at hs
        obtain ⟨t, hg, hpath, ht⟩ := expand_path hs
        exact ⟨_, (waitingStates_set hq hp i).1, t, hg, hpath, ht⟩

theorem start_reachable (ms : MultiqueueSearch V) (counter : ℕ) :
    (∀ p, ms.start counter = .inl (.path p) → LeadsToGoal ms.ss ms.tn ms.relevantActions p) ∧
    ∀ l, ms.start counter = .inr l → ∀ s ∈ waitingStates l,
      ReachableWithin ms.ss ms.tn true ms.relevantActions s l.counter := by
  rw [start]
  cases h₀ : ms.ss.initial ms.tn counter with
  | none => exact ⟨fun p hp => (by cases hp), fun l hl => (by cases hl)⟩
  | some init =>
    have hreach : ReachableWithin ms.ss ms.tn true ms.relevantActions init
        (initialCounter ms.ss counter) := reachableWithin_iff.mpr ⟨[], .initial h₀⟩
    dsimp only
    by_cases hg : ms.isEarlyGoal init = true
    · rw [if_pos hg]
      rw [isEarlyGoal, Bool.and_eq_true] at hg
      refine ⟨fun p hp => ?_, fun l hl => (by cases hl)⟩
      obtain rfl := SearchOutcome.path.inj (Sum.inl.inj hp)
      exact .of_reachable hreach hg.2
    rw [if_neg hg]
    refine ⟨fun p hp => (by cases hp), fun l hl s hs => ?_⟩
    obtain rfl := Sum.inr.inj hl
    obtain ⟨q, hq, x, hx, rfl⟩ := hs
    obtain ⟨h, -, rfl⟩ := List.mem_map.mp hq
    rw [List.mem_singleton.mp hx]
    exact hreach

theorem run_path {counter n : ℕ} (h : ms.run core counter n = .inl (.path p)) :
    LeadsToGoal ms.ss ms.tn ms.relevantActions p := by
  obtain ⟨hpath, hstart⟩ := ms.start_reachable counter
  exact (ms.expandsStates core).path_of_run (hpath p) hstart h

end MultiqueueSearch

end TamerLite
