import Mathlib.Data.Prod.Lex
import TamerLite.Interchange

/-! The priority search: its loop in both cores, over any open list that pops a
least item, any heuristic and any way of making items. -/

namespace TamerLite

open SearchSpace

/-- How a search makes its items. `memory` is what the callbacks share. -/
structure SearchStrategy (V : Type) where
  Item : Type
  Memory : Type
  lt : Item → Item → Bool
  stateOf : Item → State
  start : Memory
  root : Memory → State → V → Item × Memory
  beginExpansion : Memory → Memory
  child : Memory → Item → State → V → ℕ → Item × Memory
  stateOf_root : ∀ m s h, stateOf (root m s h).1 = s
  stateOf_child : ∀ m i s h idx, stateOf (child m i s h idx).1 = s

structure PrioritizedItem where
  heuristic : ℚ
  state : State
  idx : ℕ

/-- `PrioritizedItem.__lt__`, the order of tuples. -/
def PrioritizedItem.lt (p q : PrioritizedItem) : Bool :=
  p.heuristic < q.heuristic || (p.heuristic = q.heuristic &&
    (p.state.todo.entries.length < q.state.todo.entries.length ||
      (p.state.todo.entries.length = q.state.todo.entries.length && p.idx < q.idx)))

def PrioritizedItem.queue : PriorityQueue PrioritizedItem.lt :=
  .ofKey (fun p => toLex (p.heuristic, toLex (p.state.todo.entries.length, p.idx))) (by
    intro p q
    rw [Bool.eq_iff_iff]
    simp [PrioritizedItem.lt, Prod.Lex.toLex_lt_toLex])

/-- The items of `wastar_search`. -/
def wastar (weight : ℚ) : SearchStrategy ℚ where
  Item := PrioritizedItem
  Memory := Unit
  lt := PrioritizedItem.lt
  stateOf := PrioritizedItem.state
  start := ()
  root := fun m s h => (⟨h, s, 0⟩, m)
  beginExpansion := id
  child := fun m _ s h idx => (⟨(1 - weight) * s.g + weight * h, s, idx⟩, m)
  stateOf_root := fun _ _ _ => rfl
  stateOf_child := fun _ _ _ _ _ => rfl

/-- The variables of the loop. -/
structure PriorityLoop {V : Type} (st : SearchStrategy V) where
  openItems : List st.Item
  dedup : VisitedStates
  counter : ℕ
  expandedStates : ℕ
  generatedStates : ℕ
  memory : st.Memory

/-- The arguments of a search. -/
structure PrioritySearch (V : Type) where
  ss : SearchSpace
  tn : DeltaSimpleTemporalNetwork
  relevantActions : List Action
  heuristic : State → Option V
  st : SearchStrategy V
  queue : PriorityQueue st.lt
  maxExpandedStates : Option ℕ
  earlyTermination : Bool
  weakEquality : Bool

namespace PrioritySearch

variable {V : Type} (ps : PrioritySearch V)

/-- Evaluates a candidate and pushes it unless the heuristic gives it up. -/
def push (parent : ps.st.Item) (l : PriorityLoop ps.st) (s : State) : PriorityLoop ps.st :=
  match ps.heuristic s with
  | none => { l with generatedStates := l.generatedStates + 1 }
  | some h =>
    let made := ps.st.child l.memory parent s h l.generatedStates
    { l with
      openItems := made.1 :: l.openItems
      memory := made.2
      generatedStates := l.generatedStates + 1 }

theorem reverse_filter_cons {α : Type*} (f : α → Bool) (x : α) (l : List α) :
    ((x :: l).filter f).reverse = (l.filter f).reverse ++ [x].filter f := by
  rw [List.filter_cons]
  cases hx : f x <;> simp [hx]

section

variable [Callables]

def isEarlyGoal (s : State) : Bool := ps.earlyTermination && ps.ss.goalReached s

/-- The Rust loop over the successors, which evaluates each recorded one at once. -/
def expandEach (parent : ps.st.Item) (l : PriorityLoop ps.st) :
    List State → Except (List Action) (PriorityLoop ps.st)
  | [] => .ok l
  | s :: states =>
    let dedup := l.dedup.insert ps.ss ps.tn ps.weakEquality s
    if VisitedStates.isRedundant ps.ss ps.tn ps.weakEquality l.dedup s then
      expandEach parent { l with dedup := dedup } states
    else if ps.isEarlyGoal s then .error (extractPath s)
    else expandEach parent (ps.push parent { l with dedup := dedup } s) states

/-- One expansion, after the popped item was found not to end the search. Only
the Python core looks at all the successors before it evaluates one. -/
def expand (core : Core) (item : ps.st.Item) (l : PriorityLoop ps.st) :
    Except (List Action) (PriorityLoop ps.st) :=
  let successors := ps.ss.getSuccessorStates ps.tn l.counter (ps.st.stateOf item) ps.relevantActions
  let l := { l with counter := successors.2 }
  match core with
  | .python => (l.dedup.collect ps.ss ps.tn ps.weakEquality ps.isEarlyGoal successors.1).map fun c =>
      c.1.foldl (ps.push item)
        { l with dedup := c.2, memory := ps.st.beginExpansion l.memory }
  | .rust => ps.expandEach item { l with memory := ps.st.beginExpansion l.memory } successors.1

/-- The loop's body. -/
def step (core : Core) (l : PriorityLoop ps.st) : SearchOutcome ⊕ PriorityLoop ps.st :=
  match ps.queue.pop l.openItems with
  | none => .inl .noPath
  | some (item, rest) =>
    if expansionLimitReached l.expandedStates ps.maxExpandedStates then .inl .expansionLimitReached
    else
      let state := ps.st.stateOf item
      if !ps.earlyTermination && ps.ss.goalReached state then .inl (.path (extractPath state))
      else
        match ps.expand core item
          { l with openItems := rest, expandedStates := l.expandedStates + 1 } with
        | .error path => .inl (.path path)
        | .ok l => .inr l

/-- What comes before the loop, with the id counter at `counter`. -/
def start (counter : ℕ) : SearchOutcome ⊕ PriorityLoop ps.st :=
  match ps.ss.initial ps.tn counter with
  | none => .inl .noPath
  | some init =>
    let dedup := VisitedStates.insert ps.ss ps.tn ps.weakEquality ⟨[], []⟩ init
    if ps.isEarlyGoal init then .inl (.path (extractPath init))
    else
      match ps.heuristic init with
      | none => .inl .noPath
      | some h =>
        let made := ps.st.root ps.st.start init h
        .inr ⟨[made.1], dedup, initialCounter ps.ss counter, 0, 1, made.2⟩

/-- The search, cut off after `n` iterations of its loop. -/
def run (core : Core) (counter n : ℕ) : SearchOutcome ⊕ PriorityLoop ps.st :=
  Exploration.iterate (ps.step core) n (ps.start counter)

end

variable {ps} {core : Core} {l l' : PriorityLoop ps.st} {item : ps.st.Item} {states : List State}
  {v v' : VisitedStates} {p : List Action}

variable (item l) in
theorem push_spec (s : State) : (ps.push item l s).dedup = l.dedup ∧
    (ps.push item l s).counter = l.counter ∧
    ∃ items, (ps.push item l s).openItems = items ++ l.openItems ∧
      items.map ps.st.stateOf = [s].filter fun s => (ps.heuristic s).isSome := by
  rw [push]
  cases hh : ps.heuristic s with
  | none => exact ⟨rfl, rfl, [], rfl, by simp [hh]⟩
  | some h => exact ⟨rfl, rfl, [_], rfl, by simp [hh, ps.st.stateOf_child]⟩

variable (item l) in
theorem foldl_push (states : List State) : (states.foldl (ps.push item) l).dedup = l.dedup ∧
    (states.foldl (ps.push item) l).counter = l.counter ∧
    ∃ items, (states.foldl (ps.push item) l).openItems = items ++ l.openItems ∧
      items.map ps.st.stateOf = (states.filter fun s => (ps.heuristic s).isSome).reverse := by
  induction states generalizing l with
  | nil => exact ⟨rfl, rfl, [], rfl, rfl⟩
  | cons s states ih =>
    obtain ⟨hd, hc, new, hnew, hmap⟩ := push_spec l item s
    obtain ⟨hd', hc', items, hitems, hmap'⟩ := ih (ps.push item l s)
    refine ⟨hd'.trans hd, hc'.trans hc, items ++ new, ?_, ?_⟩
    · rw [List.foldl_cons, hitems, hnew, List.append_assoc]
    · rw [List.map_append, hmap', hmap, reverse_filter_cons]

variable [Callables]

/-- What an expansion did to the loop's variables, when it did not end the search. -/
structure Expanded (ps : PrioritySearch V) (states : List State) (l l' : PriorityLoop ps.st) :
    Prop where
  dedup : l'.dedup = l.dedup.insertAll ps.ss ps.tn ps.weakEquality states
  counter : l'.counter = l.counter
  opened : ∃ items, l'.openItems = items ++ l.openItems ∧ items.map ps.st.stateOf =
    ((l.dedup.fresh ps.ss ps.tn ps.weakEquality states).filter fun s => (ps.heuristic s).isSome).reverse
  goalless : ∀ s ∈ l.dedup.fresh ps.ss ps.tn ps.weakEquality states, ps.isEarlyGoal s = false

theorem expandEach_error (h : ps.expandEach item l states = .error p) :
    ∃ s ∈ states, ps.isEarlyGoal s = true ∧ p = extractPath s := by
  induction states generalizing l with
  | nil => simp [expandEach] at h
  | cons s states ih =>
    rw [expandEach] at h
    split_ifs at h with hr hg
    · obtain ⟨t, ht, hgt⟩ := ih h
      exact ⟨t, List.mem_cons_of_mem _ ht, hgt⟩
    · exact ⟨s, List.mem_cons_self, hg, (Except.error.inj h).symm⟩
    · obtain ⟨t, ht, hgt⟩ := ih h
      exact ⟨t, List.mem_cons_of_mem _ ht, hgt⟩

theorem expandEach_ok (h : ps.expandEach item l states = .ok l') : Expanded ps states l l' := by
  induction states generalizing l with
  | nil =>
    obtain rfl := Except.ok.inj h
    exact ⟨rfl, rfl, ⟨[], rfl, rfl⟩, by simp [VisitedStates.fresh]⟩
  | cons s states ih =>
    rw [expandEach] at h
    split_ifs at h with hr hg
    · obtain ⟨hd, hc, ho, hg⟩ := ih h
      exact ⟨hd, hc, by simpa [VisitedStates.fresh, hr] using ho, by simpa [VisitedStates.fresh, hr] using hg⟩
    · obtain ⟨hpd, hpc, new, hnew, hmap⟩ := push_spec
        { l with dedup := l.dedup.insert ps.ss ps.tn ps.weakEquality s } item s
      obtain ⟨hd, hc, ⟨items, hitems, hmap'⟩, hrest⟩ := ih h
      rw [hpd] at hd hmap' hrest
      refine ⟨hd, hc.trans hpc, ⟨items ++ new, ?_, ?_⟩, ?_⟩
      · rw [hitems, hnew, List.append_assoc]
      · rw [List.map_append, hmap', hmap, VisitedStates.fresh, if_neg hr, reverse_filter_cons]
      · rw [VisitedStates.fresh, if_neg hr]
        intro t ht
        rcases List.mem_cons.mp ht with rfl | ht
        · simpa using hg
        · exact hrest t ht

/-- Both cores record, open and give up the same states. -/
theorem expand_ok (h : ps.expand core item l = .ok l') : Expanded ps
    (ps.ss.getSuccessorStates ps.tn l.counter (ps.st.stateOf item) ps.relevantActions).1
    { l with counter :=
        (ps.ss.getSuccessorStates ps.tn l.counter (ps.st.stateOf item) ps.relevantActions).2 } l' := by
  cases core with
  | python =>
    simp only [expand] at h
    cases hc : l.dedup.collect ps.ss ps.tn ps.weakEquality ps.isEarlyGoal
        (ps.ss.getSuccessorStates ps.tn l.counter (ps.st.stateOf item) ps.relevantActions).1 with
    | error q => rw [hc] at h; contradiction
    | ok c =>
      rw [hc] at h
      obtain ⟨rfl, hg⟩ := VisitedStates.collect_ok hc
      obtain rfl := Except.ok.inj h
      obtain ⟨hd, hcount, hopen⟩ := foldl_push _ item _
      exact ⟨hd, hcount, hopen, fun s hs => hg s (VisitedStates.mem_of_fresh hs)⟩
  | rust =>
    obtain ⟨hd, hcount, hopen, hg⟩ := expandEach_ok h
    exact ⟨hd, hcount, hopen, hg⟩

theorem expand_error (h : ps.expand core item l = .error p) :
    ∃ s ∈ (ps.ss.getSuccessorStates ps.tn l.counter (ps.st.stateOf item) ps.relevantActions).1,
      ps.isEarlyGoal s = true ∧ p = extractPath s := by
  cases core with
  | python =>
    simp only [expand] at h
    cases hc : l.dedup.collect ps.ss ps.tn ps.weakEquality ps.isEarlyGoal
        (ps.ss.getSuccessorStates ps.tn l.counter (ps.st.stateOf item) ps.relevantActions).1 with
    | error q =>
      rw [hc] at h
      obtain rfl := Except.error.inj h
      exact VisitedStates.collect_error hc
    | ok c => rw [hc] at h; contradiction
  | rust => exact expandEach_error h

/-- The loop's invariant, `expanded` being the states popped so far. -/
structure Invariant (ps : PrioritySearch V) (d : ℕ) (expanded : Set State)
    (l : PriorityLoop ps.st) : Prop where
  counter : l.counter = d
  opened : ∀ i ∈ l.openItems, ReachableWithin ps.ss ps.tn true ps.relevantActions (ps.st.stateOf i) d ∧
    (ps.st.stateOf i).assignments ∈ l.dedup.seen.map State.assignments
  exploring : Exploring ps.ss ps.tn ps.relevantActions d ps.isEarlyGoal l.dedup
    {s | ∃ i ∈ l.openItems, ps.st.stateOf i = s} expanded

variable {d : ℕ} {expanded : Set State} {r : SearchOutcome} {rest : List ps.st.Item}

/-- A popped state that does not end the search is no goal. -/
theorem Invariant.fruitless (ht : ¬ ps.ss.isTemporal = true) (h : Invariant ps d expanded l)
    (hi : item ∈ l.openItems)
    (hg : ¬ (!ps.earlyTermination && ps.ss.goalReached (ps.st.stateOf item)) = true) :
    holds ps.ss.goal (ps.st.stateOf item).assignments = false := by
  obtain ⟨hr, hm⟩ := h.opened item hi
  obtain ⟨t, ht', hts⟩ := List.mem_map.mp hm
  have hgoal := h.exploring.goalless t ht'
  rw [isEarlyGoal, goalReached_classical ((h.exploring.recorded t ht').classical ht), hts] at hgoal
  rw [goalReached_classical (hr.classical ht)] at hg
  cases he : ps.earlyTermination with
  | true => simpa [he] using hgoal
  | false => simpa [he] using hg

/-- Recording the successors of a popped state keeps the invariant, and opens no
more states than it records. -/
theorem Invariant.expand (ht : ¬ ps.ss.isTemporal = true)
    (hsym : SymmetrySound ps.ss ps.tn true ps.relevantActions)
    (hh : SeesGoals ps.ss ps.tn ps.relevantActions ps.heuristic) (h : Invariant ps d expanded l)
    (hperm : l.openItems.Perm (item :: rest))
    (hgoal : holds ps.ss.goal (ps.st.stateOf item).assignments = false)
    (hmem : ∀ t, t ∈ states ↔ IsSuccessor ps.ss ps.tn ps.relevantActions d (ps.st.stateOf item) t)
    {m : PriorityLoop ps.st} (he : Expanded ps states m l') (hmd : m.dedup = l.dedup)
    (hmc : m.counter = d) (hmo : m.openItems = rest) :
    Invariant ps d (insert (ps.st.stateOf item) expanded) l' ∧
      l'.openItems.length + l.dedup.seen.length < l.openItems.length + l'.dedup.seen.length := by
  obtain ⟨hdedup, hcounter, ⟨items, hitems, hmap⟩, hgl⟩ := he
  rw [hmd] at hdedup hmap hgl
  rw [hmo] at hitems
  have hreach := (h.opened item (hperm.mem_iff.mpr List.mem_cons_self)).1
  have hstates : ∀ t ∈ states, ReachableWithin ps.ss ps.tn true ps.relevantActions t d := by
    intro t hts
    obtain ⟨a, ha, hst⟩ := (hmem t).mp hts
    exact hreach.step ht ha hst
  have hitem : ∀ s, (∃ i ∈ items, ps.st.stateOf i = s) ↔
      s ∈ l.dedup.fresh ps.ss ps.tn ps.weakEquality states ∧ (ps.heuristic s).isSome = true := by
    intro s
    rw [← List.mem_map, hmap, List.mem_reverse, List.mem_filter]
  have hexp : Exploring ps.ss ps.tn ps.relevantActions d ps.isEarlyGoal l'.dedup
      {s | ∃ i ∈ l'.openItems, ps.st.stateOf i = s} (insert (ps.st.stateOf item) expanded) := by
    rw [hdedup]
    refine h.exploring.expand ht hreach hgoal hmem ?_ hgl ?_
    · rintro s ⟨i, hi, rfl⟩
      rcases List.mem_cons.mp (hperm.mem_iff.mp hi) with rfl | hi
      · exact .inr rfl
      · exact .inl ⟨i, by rw [hitems]; exact List.mem_append_right _ hi, rfl⟩
    · rintro t hf hr ⟨k, hk⟩
      obtain ⟨as, u, hrel, hrun, hg⟩ := exists_run_near ht hsym hr hk
      obtain ⟨i, hi, hs⟩ := (hitem t).mpr ⟨hf, hh t d hr ⟨as, u, d, hrel, hrun, hg⟩⟩
      exact ⟨i, by rw [hitems]; exact List.mem_append_left _ hi, hs⟩
  obtain ⟨-, hseen, hall⟩ := VisitedStates.insertAll_classical ps.tn ps.weakEquality ht
    h.exploring.classical fun t hts => (hstates t hts).classical ht
  refine ⟨⟨hcounter.trans hmc, ?_, hexp⟩, ?_⟩
  · intro i hi
    rw [hitems] at hi
    rw [hdedup]
    rcases List.mem_append.mp hi with hi | hi
    · have hts := VisitedStates.mem_of_fresh ((hitem _).mp ⟨i, hi, rfl⟩).1
      exact ⟨hstates _ hts, hall _ hts⟩
    · obtain ⟨hr, hm⟩ := h.opened i (hperm.mem_iff.mpr (List.mem_cons_of_mem _ hi))
      refine ⟨hr, ?_⟩
      rw [hseen, List.map_append]
      exact List.mem_append_right _ hm
  · have hlen : items.length ≤ (l.dedup.fresh ps.ss ps.tn ps.weakEquality states).length := by
      rw [← List.length_map ps.st.stateOf, hmap, List.length_reverse]
      exact List.length_filter_le _ _
    rw [hdedup, hseen, hitems, hperm.length_eq]
    simp only [List.length_append, List.length_reverse, List.length_cons]
    omega

/-- An iteration that goes on keeps the invariant, and opens no more states than
it records. -/
theorem Invariant.step (ht : ¬ ps.ss.isTemporal = true)
    (hsym : SymmetrySound ps.ss ps.tn true ps.relevantActions)
    (hh : SeesGoals ps.ss ps.tn ps.relevantActions ps.heuristic) (h : Invariant ps d expanded l)
    (hs : ps.step core l = .inr l') : ∃ expanded', Invariant ps d expanded' l' ∧
      l'.openItems.length + l.dedup.seen.length < l.openItems.length + l'.dedup.seen.length := by
  rw [PrioritySearch.step] at hs
  cases hpop : ps.queue.pop l.openItems with
  | none => rw [hpop] at hs; contradiction
  | some x =>
    obtain ⟨item, rest⟩ := x
    have hperm := ps.queue.pop_perm hpop
    rw [hpop] at hs
    dsimp only at hs
    split_ifs at hs with hlim hg
    cases he : ps.expand core item
        { l with openItems := rest, expandedStates := l.expandedStates + 1 } with
    | error q => rw [he] at hs; contradiction
    | ok m =>
      rw [he] at hs
      obtain rfl := Sum.inr.inj hs
      have hgoal := h.fruitless ht (hperm.mem_iff.mpr List.mem_cons_self) hg
      refine ⟨_, h.expand ht hsym hh hperm hgoal (fun t => ?_) (expand_ok he) rfl ?_ rfl⟩
      · rw [mem_getSuccessorStates ht, h.counter]
      · rw [getSuccessorStates_classical ht, h.counter]

/-- What ends the loop is a right answer. -/
theorem Invariant.answer (ht : ¬ ps.ss.isTemporal = true)
    (hsym : SymmetrySound ps.ss ps.tn true ps.relevantActions) (h : Invariant ps d expanded l)
    (hs : ps.step core l = .inl r) : Answers ps.ss ps.tn ps.relevantActions r ∧
      (ps.maxExpandedStates = none → r ≠ .expansionLimitReached) := by
  rw [PrioritySearch.step] at hs
  cases hpop : ps.queue.pop l.openItems with
  | none =>
    rw [hpop] at hs
    obtain rfl := Sum.inl.inj hs
    have hempty := ps.queue.pop_eq_none.mp hpop
    have hexp := h.exploring
    simp only [hempty, List.not_mem_nil, false_and, exists_false] at hexp
    exact ⟨hexp.noPath ht hsym, by simp⟩
  | some x =>
    obtain ⟨item, rest⟩ := x
    have hitem : item ∈ l.openItems :=
      (ps.queue.pop_perm hpop).mem_iff.mpr List.mem_cons_self
    have hreach := (h.opened item hitem).1
    rw [hpop] at hs
    dsimp only at hs
    split_ifs at hs with hlim hg
    · obtain rfl := Sum.inl.inj hs
      refine ⟨trivial, fun hmax => ?_⟩
      simp [hmax, expansionLimitReached] at hlim
    · obtain rfl := Sum.inl.inj hs
      rw [Bool.and_eq_true] at hg
      exact ⟨acceptedWithin_of_goalReached ht hreach hg.2, by simp⟩
    · cases he : ps.expand core item
          { l with openItems := rest, expandedStates := l.expandedStates + 1 } with
      | ok m => rw [he] at hs; contradiction
      | error q =>
        rw [he] at hs
        obtain rfl := Sum.inl.inj hs
        obtain ⟨t, ht', hg', rfl⟩ := expand_error he
        obtain ⟨a, ha, hst⟩ := (mem_getSuccessorStates ht).mp ht'
        rw [isEarlyGoal, Bool.and_eq_true] at hg'
        rw [h.counter] at hst
        exact ⟨acceptedWithin_of_goalReached ht (hreach.step ht ha hst) hg'.2, by simp⟩

/-- Before the loop the initial state is open, or the search has answered. -/
theorem start_spec (ht : ¬ ps.ss.isTemporal = true)
    (hsym : SymmetrySound ps.ss ps.tn true ps.relevantActions)
    (hh : SeesGoals ps.ss ps.tn ps.relevantActions ps.heuristic) (counter : ℕ) :
    (∃ r, ps.start counter = .inl r ∧ Answers ps.ss ps.tn ps.relevantActions r ∧
      r ≠ .expansionLimitReached) ∨
    ∃ l, ps.start counter = .inr l ∧ Invariant ps (initialCounter ps.ss counter) ∅ l := by
  obtain ⟨init, hi⟩ := exists_initial ps.tn ht counter
  obtain ⟨hc, has, hp⟩ := classical_initial ht hi
  have hreach : ReachableWithin ps.ss ps.tn true ps.relevantActions init
      (initialCounter ps.ss counter) :=
    ⟨counter, init, _, [], hi, .refl _ _, le_rfl, by simp⟩
  rw [start, hi]
  dsimp only
  by_cases hg : ps.isEarlyGoal init = true
  · rw [if_pos hg]
    rw [isEarlyGoal, Bool.and_eq_true] at hg
    exact .inl ⟨_, rfl, acceptedWithin_of_goalReached ht hreach hg.2, by simp⟩
  rw [if_neg hg]
  cases hv : ps.heuristic init with
  | none =>
    refine .inl ⟨_, rfl, fun p hp => ?_, by simp⟩
    have hnear := near_of_acceptedWithin ht hp
    rw [← has] at hnear
    obtain ⟨as, t, hrel, hrun, hgt⟩ := exists_run_near ht hsym hreach hnear
    have := hh init _ hreach ⟨as, t, _, hrel, hrun, hgt⟩
    rw [hv] at this
    contradiction
  | some v =>
    have hseen : VisitedStates.insert ps.ss ps.tn ps.weakEquality ⟨[], []⟩ init = ⟨[init], []⟩ := by
      rw [VisitedStates.insert_classical ht, if_neg]
      rw [VisitedStates.isRedundant_classical ps.tn ps.weakEquality ht ⟨by simp, by simp⟩]
      simp
    refine .inr ⟨_, rfl, rfl, ?_, ?_⟩
    · simp [ps.st.stateOf_root, hreach, hseen]
    · simp only [hseen, List.mem_singleton, exists_eq_left, ps.st.stateOf_root]
      exact .start ht hreach has hg

end PrioritySearch

section Switch

attribute [local instance] Callables.empty

/-- A blind search of the switch. -/
def switchSearch (tn : DeltaSimpleTemporalNetwork) : PrioritySearch ℚ where
  ss := switch
  tn := tn
  relevantActions := [⟨0⟩]
  heuristic := fun _ => some 0
  st := wastar (1 / 2)
  queue := PrioritizedItem.queue
  maxExpandedStates := none
  earlyTermination := false
  weakEquality := false

/-- A blind search of the two lamps, with symmetry breaking. -/
def lampsSearch (tn : DeltaSimpleTemporalNetwork) : PrioritySearch ℚ :=
  { switchSearch tn with
    ss := lamps
    relevantActions := [⟨0⟩, ⟨1⟩] }

example : ∃ n, (lampsSearch .free).run .python 0 n = .inl (.path [⟨0⟩, ⟨1⟩]) := ⟨3, rfl⟩

end Switch

end TamerLite
