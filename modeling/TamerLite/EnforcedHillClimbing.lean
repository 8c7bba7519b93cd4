import Mathlib.Data.Prod.Lex
import Mathlib.Logic.Relation
import TamerLite.Search

/-! Enforced hill climbing: a breadth-first search for a better state, begun
anew, with nothing recorded, at each one it finds. -/

namespace TamerLite

open SearchSpace

/-- The arguments of `ehc_search`, whose heuristic sees the assignments only. -/
structure EnforcedHillClimbing (V : Type) where
  ss : SearchSpace
  tn : DeltaSimpleTemporalNetwork
  relevantActions : List Action
  heuristic : Assignments → Option V
  maxExpandedStates : Option ℕ
  earlyTermination : Bool
  weakEquality : Bool

/-- The variables of the loop, the open states first to last. -/
structure ClimbingLoop (V : Type) where
  openStates : List State
  closed : VisitedStates
  bestH : V
  counter : ℕ
  expandedStates : ℕ
  generatedStates : ℕ

namespace EnforcedHillClimbing

variable {V : Type} (ehc : EnforcedHillClimbing V)

def isRedundant (l : ClimbingLoop V) (s : State) : Bool :=
  VisitedStates.isRedundant ehc.ss ehc.tn ehc.weakEquality l.closed s

section Closed

variable {ehc} {l : ClimbingLoop V} {s : State}

/-- Recording a popped state: nothing is done where its assignments are recorded. -/
theorem insert_closed {v : VisitedStates} (ht : ¬ ehc.ss.isTemporal = true) (hv : v.Classical)
    (hs : s.Classical) :
    (s.assignments ∈ v.seen.map State.assignments ∧ v.insert ehc.ss ehc.tn ehc.weakEquality s = v) ∨
    (s.assignments ∉ v.seen.map State.assignments ∧
      v.insert ehc.ss ehc.tn ehc.weakEquality s = { v with seen := s :: v.seen } ∧
      VisitedStates.Classical { v with seen := s :: v.seen }) := by
  have hiff := VisitedStates.isRedundant_classical (s := s) ehc.tn ehc.weakEquality ht hv
  rw [VisitedStates.insert_classical ht]
  by_cases hm : s.assignments ∈ v.seen.map State.assignments
  · exact .inl ⟨hm, if_pos (hiff.mpr hm)⟩
  · refine .inr ⟨hm, if_neg (mt hiff.mp hm), fun t hts => ?_, List.nodup_cons.mpr ⟨hm, hv.nodup⟩⟩
    rcases List.mem_cons.mp hts with rfl | hts
    · exact hs
    · exact hv.untimed t hts

theorem isRedundant_iff (ht : ¬ ehc.ss.isTemporal = true) (hl : l.closed.Classical) :
    ehc.isRedundant l s = true ↔ s.assignments ∈ l.closed.seen.map State.assignments :=
  VisitedStates.isRedundant_classical ehc.tn ehc.weakEquality ht hl

end Closed

variable [Callables] [LinearOrder V]

def isEarlyGoal (s : State) : Bool := ehc.earlyTermination && ehc.ss.goalReached s

/-- What a better state does: the queue and the store are wiped. -/
def improve (l : ClimbingLoop V) (s : State) (h : V) : ClimbingLoop V :=
  { l with openStates := [s], closed := ⟨[], []⟩, bestH := h }

/-- The Python loop over the successors, which comes before any evaluation. -/
def candidates (l : ClimbingLoop V) : List State → Except (List Action) (List State)
  | [] => .ok []
  | s :: states =>
    if ehc.isEarlyGoal s then .error (extractPath s)
    else (candidates l states).map fun c => if ehc.isRedundant l s then c else s :: c

/-- The Python loop over the candidates, left at the first better one. -/
def evaluate (l : ClimbingLoop V) : List State → ClimbingLoop V
  | [] => l
  | s :: states =>
    let l := { l with generatedStates := l.generatedStates + 1 }
    match ehc.heuristic s.assignments with
    | none => evaluate l states
    | some h =>
      if h < l.bestH then improve l s h
      else evaluate { l with openStates := l.openStates ++ [s] } states

/-- The Rust loop, which filters, tests and evaluates one successor at a time. -/
def evaluateEach (l : ClimbingLoop V) : List State → Except (List Action) (ClimbingLoop V)
  | [] => .ok l
  | s :: states =>
    if ehc.isRedundant l s then evaluateEach l states
    else
      let l := { l with generatedStates := l.generatedStates + 1 }
      if ehc.isEarlyGoal s then .error (extractPath s)
      else
        match ehc.heuristic s.assignments with
        | none => evaluateEach l states
        | some h =>
          if h < l.bestH then .ok (improve l s h)
          else evaluateEach { l with openStates := l.openStates ++ [s] } states

/-- One expansion, after the popped state was recorded and found to be no goal. -/
def expand (core : Core) (state : State) (l : ClimbingLoop V) :
    Except (List Action) (ClimbingLoop V) :=
  let successors := ehc.ss.getSuccessorStates ehc.tn l.counter state ehc.relevantActions
  let l := { l with counter := successors.2 }
  match core with
  | .python => (ehc.candidates l successors.1).map (ehc.evaluate l)
  | .rust => ehc.evaluateEach l successors.1

/-- The loop's body. The Rust core records the popped state after it tested it. -/
def step (core : Core) (l : ClimbingLoop V) : SearchOutcome ⊕ ClimbingLoop V :=
  match l.openStates with
  | [] => .inl .noPath
  | state :: rest =>
    if expansionLimitReached l.expandedStates ehc.maxExpandedStates then .inl .expansionLimitReached
    else
      let closed := l.closed.insert ehc.ss ehc.tn ehc.weakEquality state
      if !ehc.earlyTermination && ehc.ss.goalReached state then .inl (.path (extractPath state))
      else
        match ehc.expand core state
          { l with openStates := rest, closed := closed, expandedStates := l.expandedStates + 1 } with
        | .error path => .inl (.path path)
        | .ok l => .inr l

/-- What comes before the loop, with the id counter at `counter`. -/
def start (counter : ℕ) : SearchOutcome ⊕ ClimbingLoop V :=
  match ehc.ss.initial ehc.tn counter with
  | none => .inl .noPath
  | some init =>
    if ehc.isEarlyGoal init then .inl (.path (extractPath init))
    else
      match ehc.heuristic init.assignments with
      | none => .inl .noPath
      | some h => .inr ⟨[init], ⟨[], []⟩, h, initialCounter ehc.ss counter, 0, 1⟩

/-- The search, cut off after `n` iterations of its loop. -/
def run (core : Core) (counter n : ℕ) : SearchOutcome ⊕ ClimbingLoop V :=
  Exploration.iterate (ehc.step core) n (ehc.start counter)

variable {ehc} {core : Core} {l l' : ClimbingLoop V} {s t : State} {states kept : List State}
  {p : List Action}

/-- Why a successor that was looked at was not queued. -/
def Skipped (ehc : EnforcedHillClimbing V) (l : ClimbingLoop V) (s : State) : Prop :=
  ehc.isRedundant l s = true ∨ ehc.isEarlyGoal s = false ∧ ehc.heuristic s.assignments = none

/-- A successor that was queued: new, no goal that would have ended the search,
and no better than the best. -/
structure Queued (ehc : EnforcedHillClimbing V) (l : ClimbingLoop V) (s : State) : Prop where
  new : ehc.isRedundant l s = false
  goalless : ehc.isEarlyGoal s = false
  valued : ∃ h, ehc.heuristic s.assignments = some h ∧ l.bestH ≤ h

/-- What an expansion that did not end the search did to the variables. -/
inductive Expanded (ehc : EnforcedHillClimbing V) (l : ClimbingLoop V) (states : List State)
    (l' : ClimbingLoop V) : Prop
  | improved (s : State) (h : V) : s ∈ states → ehc.isEarlyGoal s = false →
      ehc.heuristic s.assignments = some h → h < l.bestH → l'.openStates = [s] →
      l'.closed = ⟨[], []⟩ → l'.bestH = h → l'.counter = l.counter → Expanded ehc l states l'
  | queued (kept : List State) : (∀ s ∈ states, s ∈ kept ∨ Skipped ehc l s) →
      (∀ s ∈ kept, s ∈ states ∧ Queued ehc l s) → l'.openStates = l.openStates ++ kept →
      l'.closed = l.closed → l'.bestH = l.bestH → l'.counter = l.counter → Expanded ehc l states l'

theorem Expanded.skip (n : ℕ) (hs : Skipped ehc l s)
    (h : Expanded ehc { l with generatedStates := n } states l') : Expanded ehc l (s :: states) l' := by
  cases h with
  | improved t h ht hg hv hlt hopen hclosed hbest hcount =>
    exact .improved t h (List.mem_cons_of_mem _ ht) hg hv hlt hopen hclosed hbest hcount
  | queued kept hall hkept hopen hclosed hbest hcount =>
    refine .queued kept (fun t ht => ?_) (fun t ht => ?_) hopen hclosed hbest hcount
    · rcases List.mem_cons.mp ht with rfl | ht
      · exact .inr hs
      · exact hall t ht
    · obtain ⟨hmem, hnew, hg, hv⟩ := hkept t ht
      exact ⟨List.mem_cons_of_mem _ hmem, hnew, hg, hv⟩

theorem Expanded.keep (n : ℕ) (hs : Queued ehc l s)
    (h : Expanded ehc { l with generatedStates := n, openStates := l.openStates ++ [s] } states l') :
    Expanded ehc l (s :: states) l' := by
  cases h with
  | improved t h ht hg hv hlt hopen hclosed hbest hcount =>
    exact .improved t h (List.mem_cons_of_mem _ ht) hg hv hlt hopen hclosed hbest hcount
  | queued kept hall hkept hopen hclosed hbest hcount =>
    refine .queued (s :: kept) (fun t ht => ?_) (fun t ht => ?_) ?_ hclosed hbest hcount
    · rcases List.mem_cons.mp ht with rfl | ht
      · exact .inl List.mem_cons_self
      · exact (hall t ht).imp_left (List.mem_cons_of_mem _)
    · rcases List.mem_cons.mp ht with rfl | ht
      · exact ⟨List.mem_cons_self, hs⟩
      · obtain ⟨hmem, hnew, hg, hv⟩ := hkept t ht
        exact ⟨List.mem_cons_of_mem _ hmem, hnew, hg, hv⟩
    · rw [hopen, List.append_assoc, List.singleton_append]

/-- A candidate with a value is queued, unless it is better. -/
theorem queued_of_not_lt {h : V} (hnew : ehc.isRedundant l s = false) (hg : ehc.isEarlyGoal s = false)
    (hv : ehc.heuristic s.assignments = some h) (hlt : ¬ h < l.bestH) : Queued ehc l s :=
  ⟨hnew, hg, h, hv, not_lt.mp hlt⟩

theorem expanded_evaluateEach (h : ehc.evaluateEach l states = .ok l') : Expanded ehc l states l' := by
  induction states generalizing l with
  | nil =>
    obtain rfl := Except.ok.inj h
    exact .queued [] (by simp) (by simp) (by simp) rfl rfl rfl
  | cons s states ih =>
    rw [evaluateEach] at h
    split_ifs at h with hr hg
    · exact .skip l.generatedStates (.inl hr) (ih h)
    · have hgoal : ehc.isEarlyGoal s = false := by simpa using hg
      have hnew : ehc.isRedundant l s = false := by simpa using hr
      cases hv : ehc.heuristic s.assignments with
      | none =>
        rw [hv] at h
        exact .skip _ (.inr ⟨hgoal, hv⟩) (ih h)
      | some v =>
        rw [hv] at h
        dsimp only at h
        split_ifs at h with hlt
        · obtain rfl := Except.ok.inj h
          exact .improved s v List.mem_cons_self hgoal hv hlt rfl rfl rfl rfl
        · exact .keep _ (queued_of_not_lt hnew hgoal hv hlt) (ih h)

theorem evaluateEach_error (h : ehc.evaluateEach l states = .error p) :
    ∃ s ∈ states, ehc.isEarlyGoal s = true ∧ p = extractPath s := by
  induction states generalizing l with
  | nil => simp [evaluateEach] at h
  | cons s states ih =>
    suffices hrest : (∃ l, ehc.evaluateEach l states = .error p) ∨
        ehc.isEarlyGoal s = true ∧ p = extractPath s by
      rcases hrest with ⟨l, hl⟩ | hs
      · obtain ⟨t, ht, hg⟩ := ih hl
        exact ⟨t, List.mem_cons_of_mem _ ht, hg⟩
      · exact ⟨s, List.mem_cons_self, hs⟩
    rw [evaluateEach] at h
    split_ifs at h with hr hg
    · exact .inl ⟨_, h⟩
    · exact .inr ⟨hg, (Except.error.inj h).symm⟩
    · cases hv : ehc.heuristic s.assignments with
      | none => rw [hv] at h; exact .inl ⟨_, h⟩
      | some v =>
        rw [hv] at h
        dsimp only at h
        split_ifs at h
        exact .inl ⟨_, h⟩

omit [LinearOrder V] in
theorem candidates_ok (h : ehc.candidates l states = .ok kept) :
    kept = (states.filter fun s => !ehc.isRedundant l s) ∧ ∀ s ∈ states, ehc.isEarlyGoal s = false := by
  induction states generalizing kept with
  | nil => exact ⟨(Except.ok.inj h).symm, by simp⟩
  | cons s states ih =>
    rw [candidates] at h
    by_cases hg : ehc.isEarlyGoal s = true
    · rw [if_pos hg] at h; contradiction
    rw [if_neg hg] at h
    cases hc : ehc.candidates l states with
    | error q => rw [hc] at h; contradiction
    | ok c =>
      rw [hc] at h
      obtain ⟨rfl, hrest⟩ := ih hc
      obtain rfl := Except.ok.inj h
      refine ⟨?_, fun t ht => ?_⟩
      · cases hr : ehc.isRedundant l s <;> simp [hr]
      · rcases List.mem_cons.mp ht with rfl | ht
        · simpa using hg
        · exact hrest t ht

omit [LinearOrder V] in
theorem candidates_error (h : ehc.candidates l states = .error p) :
    ∃ s ∈ states, ehc.isEarlyGoal s = true ∧ p = extractPath s := by
  induction states generalizing p with
  | nil => simp [candidates] at h
  | cons s states ih =>
    rw [candidates] at h
    by_cases hg : ehc.isEarlyGoal s = true
    · rw [if_pos hg] at h
      exact ⟨s, List.mem_cons_self, hg, (Except.error.inj h).symm⟩
    · rw [if_neg hg] at h
      cases hc : ehc.candidates l states with
      | ok c => rw [hc] at h; contradiction
      | error q =>
        rw [hc] at h
        obtain rfl := Except.error.inj h
        obtain ⟨t, ht, hgoal⟩ := ih hc
        exact ⟨t, List.mem_cons_of_mem _ ht, hgoal⟩

/-- Evaluating the candidates amounts to looking at every successor. -/
theorem expanded_evaluate (hgoal : ∀ s ∈ states, ehc.isEarlyGoal s = false) :
    Expanded ehc l states (ehc.evaluate l (states.filter fun s => !ehc.isRedundant l s)) := by
  induction states generalizing l with
  | nil => exact .queued [] (by simp) (by simp) (by simp [evaluate]) rfl rfl rfl
  | cons s states ih =>
    have hrest : ∀ t ∈ states, ehc.isEarlyGoal t = false := fun t ht => hgoal t (List.mem_cons_of_mem _ ht)
    have hg := hgoal s List.mem_cons_self
    cases hr : ehc.isRedundant l s with
    | true =>
      rw [List.filter_cons_of_neg (by simp [hr])]
      exact .skip l.generatedStates (.inl hr) (ih hrest)
    | false =>
      rw [List.filter_cons_of_pos (by simp [hr]), evaluate]
      cases hv : ehc.heuristic s.assignments with
      | none => exact .skip _ (.inr ⟨hg, hv⟩) (ih hrest)
      | some v =>
        dsimp only
        split_ifs with hlt
        · exact .improved s v List.mem_cons_self hg hv hlt rfl rfl rfl rfl
        · exact .keep _ (queued_of_not_lt hr hg hv hlt) (ih hrest)

/-- Both cores queue or skip each successor for the same reasons. -/
theorem expand_ok (h : ehc.expand core s l = .ok l') : Expanded ehc
    { l with counter := (ehc.ss.getSuccessorStates ehc.tn l.counter s ehc.relevantActions).2 }
    (ehc.ss.getSuccessorStates ehc.tn l.counter s ehc.relevantActions).1 l' := by
  cases core with
  | python =>
    simp only [expand] at h
    cases hc : ehc.candidates
        { l with counter := (ehc.ss.getSuccessorStates ehc.tn l.counter s ehc.relevantActions).2 }
        (ehc.ss.getSuccessorStates ehc.tn l.counter s ehc.relevantActions).1 with
    | error q => rw [hc] at h; contradiction
    | ok c =>
      rw [hc] at h
      obtain ⟨rfl, hg⟩ := candidates_ok hc
      obtain rfl := Except.ok.inj h
      exact expanded_evaluate hg
  | rust => exact expanded_evaluateEach h

theorem expand_error (h : ehc.expand core s l = .error p) :
    ∃ t ∈ (ehc.ss.getSuccessorStates ehc.tn l.counter s ehc.relevantActions).1,
      ehc.isEarlyGoal t = true ∧ p = extractPath t := by
  cases core with
  | python =>
    simp only [expand] at h
    cases hc : ehc.candidates
        { l with counter := (ehc.ss.getSuccessorStates ehc.tn l.counter s ehc.relevantActions).2 }
        (ehc.ss.getSuccessorStates ehc.tn l.counter s ehc.relevantActions).1 with
    | error q =>
      rw [hc] at h
      obtain rfl := Except.error.inj h
      exact candidates_error hc
    | ok c => rw [hc] at h; contradiction
  | rust => exact evaluateEach_error h

/-- What one iteration that goes on did, `m` being the variables it expanded the
popped state with. -/
theorem step_inr (h : ehc.step core l = .inr l') : ∃ s rest m, l.openStates = s :: rest ∧
    (ehc.earlyTermination = false → ehc.ss.goalReached s = false) ∧ m.openStates = rest ∧
    m.closed = l.closed.insert ehc.ss ehc.tn ehc.weakEquality s ∧ m.bestH = l.bestH ∧
    m.counter = (ehc.ss.getSuccessorStates ehc.tn l.counter s ehc.relevantActions).2 ∧
    Expanded ehc m (ehc.ss.getSuccessorStates ehc.tn l.counter s ehc.relevantActions).1 l' := by
  rw [step] at h
  cases ho : l.openStates with
  | nil => simp [ho] at h
  | cons s rest =>
    rw [ho] at h
    dsimp only at h
    split_ifs at h with hlim hg
    cases he : ehc.expand core s
        { l with
          openStates := rest
          closed := l.closed.insert ehc.ss ehc.tn ehc.weakEquality s
          expandedStates := l.expandedStates + 1 } with
    | error q => rw [he] at h; contradiction
    | ok m =>
      rw [he] at h
      obtain rfl := Sum.inr.inj h
      have hexp := expand_ok he
      refine ⟨s, rest, _, rfl, fun hearly => ?_, ?_, ?_, ?_, ?_, hexp⟩
      · simpa [hearly] using hg
      all_goals rfl

/-- What ends the loop, when no limit is given. -/
theorem step_inl {r : SearchOutcome} (hmax : ehc.maxExpandedStates = none)
    (h : ehc.step core l = .inl r) : (l.openStates = [] ∧ r = .noPath) ∨
    ∃ s rest t, l.openStates = s :: rest ∧ r = .path (extractPath t) ∧ ehc.ss.goalReached t = true ∧
      (t = s ∨ t ∈ (ehc.ss.getSuccessorStates ehc.tn l.counter s ehc.relevantActions).1) := by
  rw [step] at h
  cases ho : l.openStates with
  | nil =>
    rw [ho] at h
    exact .inl ⟨rfl, (Sum.inl.inj h).symm⟩
  | cons s rest =>
    right
    rw [ho] at h
    dsimp only at h
    split_ifs at h with hlim hg
    · simp [hmax, expansionLimitReached] at hlim
    · rw [Bool.and_eq_true] at hg
      exact ⟨s, rest, s, rfl, (Sum.inl.inj h).symm, hg.2, .inl rfl⟩
    · cases he : ehc.expand core s
          { l with
            openStates := rest
            closed := l.closed.insert ehc.ss ehc.tn ehc.weakEquality s
            expandedStates := l.expandedStates + 1 } with
      | ok m => rw [he] at h; contradiction
      | error q =>
        rw [he] at h
        obtain ⟨t, ht, hearly, rfl⟩ := expand_error he
        rw [isEarlyGoal, Bool.and_eq_true] at hearly
        exact ⟨s, rest, t, rfl, (Sum.inl.inj h).symm, hearly.2, .inr ht⟩

/-- The loop's invariant. -/
structure Invariant (ehc : EnforcedHillClimbing V) (d : ℕ) (l : ClimbingLoop V) : Prop where
  counter : l.counter = d
  opened : ∀ s ∈ l.openStates, ReachableWithin ehc.ss ehc.tn true ehc.relevantActions s d
  recorded : ∀ s ∈ l.closed.seen, ReachableWithin ehc.ss ehc.tn true ehc.relevantActions s d
  classical : l.closed.Classical

variable {d : ℕ} {origin : Assignments}

omit [LinearOrder V] in
theorem invariant_improved (hs : ReachableWithin ehc.ss ehc.tn true ehc.relevantActions s d)
    (hcount : l.counter = d) (hopen : l.openStates = [s]) (hclosed : l.closed = ⟨[], []⟩) :
    Invariant ehc d l := by
  refine ⟨hcount, ?_, ?_, ?_⟩
  · simp [hopen, hs]
  · simp [hclosed]
  · rw [hclosed]
    exact ⟨by simp, by simp⟩

omit [LinearOrder V] in
theorem Invariant.length_le (hfin : FinitelyManyStates ehc.ss ehc.tn ehc.relevantActions)
    (h : Invariant ehc d l) : l.closed.seen.length ≤ (Set.Finite.toFinset hfin).card := by
  have hnodup := h.classical.nodup
  rw [← List.length_map (f := State.assignments), ← List.toFinset_card_of_nodup hnodup]
  refine Finset.card_le_card fun A hA => ?_
  obtain ⟨s, hs, rfl⟩ := List.mem_map.mp (List.mem_toFinset.mp hA)
  exact (Set.Finite.mem_toFinset hfin).mpr ⟨s, d, h.recorded s hs, rfl⟩

/-- How many reachable states are better than the best. -/
noncomputable def better (hfin : FinitelyManyStates ehc.ss ehc.tn ehc.relevantActions) (h : V) : ℕ :=
  ((Set.Finite.toFinset hfin).filter fun A => ∃ v ∈ ehc.heuristic A, v < h).card

/-- How many open states are to be popped in vain. -/
def repeats (l : ClimbingLoop V) : ℕ :=
  l.openStates.countP fun s => s.assignments ∈ l.closed.seen.map State.assignments

/-- The better states left, then the states left to expand, then the repeats. -/
noncomputable def climbingMeasure (hfin : FinitelyManyStates ehc.ss ehc.tn ehc.relevantActions)
    (l : ClimbingLoop V) : ℕ ×ₗ ℕ ×ₗ ℕ :=
  toLex (better hfin l.bestH, toLex ((Set.Finite.toFinset hfin).card - l.closed.seen.length, repeats l))

theorem better_lt (hfin : FinitelyManyStates ehc.ss ehc.tn ehc.relevantActions) {v best : V}
    (hs : ReachableWithin ehc.ss ehc.tn true ehc.relevantActions s d)
    (hv : ehc.heuristic s.assignments = some v) (hlt : v < best) : better hfin v < better hfin best := by
  refine Finset.card_lt_card (Finset.ssubset_iff_subset_ne.mpr ⟨fun A hA => ?_, fun heq => ?_⟩)
  · obtain ⟨hA, w, hw, hlt'⟩ := Finset.mem_filter.mp hA
    exact Finset.mem_filter.mpr ⟨hA, w, hw, hlt'.trans hlt⟩
  · have hmem : s.assignments ∈ (Set.Finite.toFinset hfin).filter fun A => ∃ w ∈ ehc.heuristic A, w < best :=
      Finset.mem_filter.mpr ⟨(Set.Finite.mem_toFinset hfin).mpr ⟨s, d, hs, rfl⟩, v, hv, hlt⟩
    rw [← heq] at hmem
    obtain ⟨-, w, hw, hlt'⟩ := Finset.mem_filter.mp hmem
    obtain rfl := Option.some.inj (hv.symm.trans hw)
    exact lt_irrefl _ hlt'

/-- An iteration that goes on finds a better state, expands a new one or gets
rid of a repeat, since what it queues is new. -/
theorem Invariant.step (ht : ¬ ehc.ss.isTemporal = true)
    (hfin : FinitelyManyStates ehc.ss ehc.tn ehc.relevantActions) (h : Invariant ehc d l)
    (hs : ehc.step core l = .inr l') :
    Invariant ehc d l' ∧ climbingMeasure hfin l' < climbingMeasure hfin l := by
  obtain ⟨s, rest, m, hopen, -, hmopen, hmclosed, hmbest, hmcount, hexp⟩ := step_inr hs
  have hreach := h.opened s (hopen ▸ List.mem_cons_self)
  have hmd : m.counter = d := by rw [hmcount, getSuccessorStates_classical ht, h.counter]
  have hsucc : ∀ t ∈ (ehc.ss.getSuccessorStates ehc.tn l.counter s ehc.relevantActions).1,
      ReachableWithin ehc.ss ehc.tn true ehc.relevantActions t d := by
    intro t hts
    obtain ⟨a, ha, hst⟩ := (mem_getSuccessorStates ht).mp hts
    exact hreach.step ht ha (h.counter ▸ hst)
  cases hexp with
  | improved t v hts hg hv hlt hopen' hclosed' hbest' hcount' =>
    refine ⟨invariant_improved (hsucc t hts) (hcount'.trans hmd) hopen' hclosed', ?_⟩
    rw [climbingMeasure, climbingMeasure, Prod.Lex.toLex_lt_toLex]
    left
    rw [hbest']
    exact better_lt hfin (hsucc t hts) hv (hmbest ▸ hlt)
  | queued kept hall hkept hopen' hclosed' hbest' hcount' =>
    have hopened : ∀ t ∈ l'.openStates, ReachableWithin ehc.ss ehc.tn true ehc.relevantActions t d := by
      intro t hts
      rw [hopen', hmopen] at hts
      rcases List.mem_append.mp hts with hts | hts
      · exact h.opened t (hopen ▸ List.mem_cons_of_mem _ hts)
      · exact hsucc t (hkept t hts).1
    have hlen := h.length_le hfin
    rw [climbingMeasure, climbingMeasure, Prod.Lex.toLex_lt_toLex, Prod.Lex.toLex_lt_toLex, hbest', hmbest]
    rcases insert_closed ht h.classical (hreach.classical ht) with ⟨hold, hsame⟩ | ⟨hnew, hcons, hclassical⟩
    · have hcl : l'.closed = l.closed := by rw [hclosed', hmclosed, hsame]
      have hmcl : m.closed = l.closed := by rw [hmclosed, hsame]
      refine ⟨⟨hcount'.trans hmd, hopened, hcl ▸ h.recorded, hcl ▸ h.classical⟩, .inr ⟨rfl, .inr ⟨?_, ?_⟩⟩⟩
      · rw [hcl]
      · have hkeptnew : kept.countP (fun t => t.assignments ∈ l.closed.seen.map State.assignments) = 0 := by
          rw [List.countP_eq_zero]
          intro t hts hmem
          have hred := (isRedundant_iff (l := m) ht (hmcl ▸ h.classical)).mpr
            (hmcl ▸ of_decide_eq_true hmem)
          rw [(hkept t hts).2.new] at hred
          contradiction
        simp only [repeats, hcl, hopen', hmopen, hopen, List.countP_append, hkeptnew, List.countP_cons, hold,
          decide_true, if_true]
        omega
    · have hcl : l'.closed = { l.closed with seen := s :: l.closed.seen } := by
        rw [hclosed', hmclosed, hcons]
      have hinv : Invariant ehc d l' := by
        refine ⟨hcount'.trans hmd, hopened, fun t hts => ?_, hcl ▸ hclassical⟩
        rw [hcl] at hts
        rcases List.mem_cons.mp hts with rfl | hts
        · exact hreach
        · exact h.recorded t hts
      have hlen' := hinv.length_le hfin
      rw [hcl, List.length_cons] at hlen'
      refine ⟨hinv, .inr ⟨rfl, .inl ?_⟩⟩
      simp only [hcl, List.length_cons]
      omega

/-- An action leads from `A` to `B`. -/
def Leads (ehc : EnforcedHillClimbing V) (A B : Assignments) : Prop :=
  ∃ a ∈ ehc.relevantActions, ehc.ss.apply A a = some B

/-- `B` is reached from `A` through states the heuristic gives a value to. -/
def Reaches (ehc : EnforcedHillClimbing V) : Assignments → Assignments → Prop :=
  Relation.ReflTransGen fun A B => ehc.Leads A B ∧ (ehc.heuristic B).isSome = true

/-- Symmetry breaking refuses none of the actions, whatever the path. -/
def Unpruned (ehc : EnforcedHillClimbing V) : Prop :=
  ∀ path, ∀ a ∈ ehc.relevantActions, ehc.ss.symmetryAllowsOpening path a = true

/-- The loop begins anew at `s`. -/
structure Begins (ehc : EnforcedHillClimbing V) (s : State) (l : ClimbingLoop V) : Prop where
  openStates : l.openStates = [s]
  closed : l.closed = ⟨[], []⟩
  value : ehc.heuristic s.assignments = some l.bestH
  goalless : ehc.isEarlyGoal s = false

/-- Recorded or waiting in the queue. -/
def Known (l : ClimbingLoop V) (A : Assignments) : Prop :=
  A ∈ l.closed.seen.map State.assignments ∨ ∃ s ∈ l.openStates, s.assignments = A

/-- What the search has seen since it began at `origin`: nothing better, and
every successor of a recorded state that has a value. -/
structure Basin (ehc : EnforcedHillClimbing V) (origin : Assignments) (l : ClimbingLoop V) : Prop where
  value : ehc.heuristic origin = some l.bestH
  covered : Known l origin
  opened : ∀ s ∈ l.openStates,
    ehc.isEarlyGoal s = false ∧ ∃ v, ehc.heuristic s.assignments = some v ∧ l.bestH ≤ v
  recorded : ∀ s ∈ l.closed.seen,
    holds ehc.ss.goal s.assignments = false ∧ ∃ v, ehc.heuristic s.assignments = some v ∧ l.bestH ≤ v
  followed : ∀ s ∈ l.closed.seen, ∀ B, ehc.Leads s.assignments B → Known l B ∨
    ehc.heuristic B = none ∧ (ehc.earlyTermination = true → holds ehc.ss.goal B = false)

theorem Begins.basin (h : Begins ehc s l) : Basin ehc s.assignments l := by
  obtain ⟨hopen, hclosed, hv, hg⟩ := h
  refine ⟨hv, .inr ⟨s, by simp [hopen], rfl⟩, ?_, ?_, ?_⟩
  · intro t ht
    rw [hopen, List.mem_singleton] at ht
    exact ht ▸ ⟨hg, l.bestH, hv, le_rfl⟩
  · simp [hclosed]
  · simp [hclosed]

omit [LinearOrder V] in
theorem exists_successor (ht : ¬ ehc.ss.isTemporal = true) (hun : Unpruned ehc) (hs : s.Classical)
    {B : Assignments} (h : ehc.Leads s.assignments B) :
    ∃ t ∈ (ehc.ss.getSuccessorStates ehc.tn d s ehc.relevantActions).1, t.assignments = B := by
  obtain ⟨a, ha, hB⟩ := h
  exact ⟨s.after a d B, (mem_getSuccessorStates ht).mpr ⟨a, ha,
    (step_classical ht hs).mpr ⟨hun _ a ha, B, hB, rfl⟩⟩, rfl⟩

omit [LinearOrder V] in
theorem holds_goal_of_isEarlyGoal (hs : s.Classical) (hg : ehc.isEarlyGoal s = false)
    (hearly : ehc.earlyTermination = true) : holds ehc.ss.goal s.assignments = false := by
  rw [isEarlyGoal, hearly, Bool.true_and, goalReached_classical hs] at hg
  exact hg

/-- An iteration that goes on keeps the basin, or begins anew. -/
theorem Basin.step (ht : ¬ ehc.ss.isTemporal = true) (hun : Unpruned ehc) (hinv : Invariant ehc d l)
    (h : Basin ehc origin l) (hs : ehc.step core l = .inr l') :
    (Basin ehc origin l' ∧ l'.bestH = l.bestH) ∨ ∃ s, Begins ehc s l' := by
  obtain ⟨s, rest, m, hopen, hlate, hmopen, hmclosed, hmbest, -, hexp⟩ := step_inr hs
  have hreach := hinv.opened s (hopen ▸ List.mem_cons_self)
  have hclassical := hreach.classical ht
  cases hexp with
  | improved t v _ hg hv _ hopen' hclosed' hbest' _ =>
    exact .inr ⟨t, hopen', hclosed', hbest' ▸ hv, hg⟩
  | queued kept hall hkept hopen' hclosed' hbest' _ =>
    have hbest : l'.bestH = l.bestH := hbest'.trans hmbest
    obtain ⟨hgs, hvs⟩ := h.opened s (hopen ▸ List.mem_cons_self)
    have hgoal : holds ehc.ss.goal s.assignments = false := by
      cases he : ehc.earlyTermination with
      | true => exact holds_goal_of_isEarlyGoal hclassical hgs he
      | false => exact goalReached_classical hclassical ▸ hlate he
    have hcl : m.closed.Classical ∧ s.assignments ∈ m.closed.seen.map State.assignments ∧
        l.closed.seen ⊆ m.closed.seen ∧ ∀ t ∈ m.closed.seen, t = s ∨ t ∈ l.closed.seen := by
      rcases insert_closed ht hinv.classical hclassical with ⟨hold, hsame⟩ | ⟨_, hcons, hc⟩
      · rw [hmclosed, hsame]
        exact ⟨hinv.classical, hold, fun t h => h, fun t h => .inr h⟩
      · rw [hmclosed, hcons]
        exact ⟨hc, by simp, List.subset_cons_self _ _, fun t h => List.mem_cons.mp h⟩
    obtain ⟨hmclassical, hin, hsub, hcases⟩ := hcl
    have hknown : ∀ A, Known l A → Known l' A := by
      rintro A (hA | ⟨t, htl, rfl⟩)
      · exact .inl (by rw [hclosed']; exact List.map_subset _ hsub hA)
      · rw [hopen] at htl
        rcases List.mem_cons.mp htl with rfl | htl
        · exact .inl (by rw [hclosed']; exact hin)
        · exact .inr ⟨t, by rw [hopen', hmopen]; exact List.mem_append_left _ htl, rfl⟩
    refine .inl ⟨⟨hbest ▸ h.value, hknown _ h.covered, ?_, ?_, ?_⟩, hbest⟩
    · intro t htl
      rw [hopen', hmopen] at htl
      rcases List.mem_append.mp htl with htl | htl
      · exact hbest ▸ h.opened t (hopen ▸ List.mem_cons_of_mem _ htl)
      · obtain ⟨-, -, hg, hv⟩ := hkept t htl
        exact ⟨hg, hbest' ▸ hv⟩
    · intro t htl
      rw [hclosed'] at htl
      rcases hcases t htl with rfl | htl
      · exact ⟨hgoal, hbest ▸ hvs⟩
      · exact hbest ▸ h.recorded t htl
    · intro t htl B hB
      rw [hclosed'] at htl
      rcases hcases t htl with rfl | htl
      · obtain ⟨u, hu, rfl⟩ := exists_successor (d := l.counter) ht hun hclassical hB
        rcases hall u hu with hk | hred | ⟨hg, hv⟩
        · exact .inl (.inr ⟨u, by rw [hopen']; exact List.mem_append_right _ hk, rfl⟩)
        · exact .inl (.inl (by rw [hclosed']; exact (isRedundant_iff ht hmclassical).mp hred))
        · obtain ⟨a, ha, hst⟩ := (mem_getSuccessorStates ht).mp hu
          have hucl := (hreach.step ht ha (hinv.counter ▸ hst)).classical ht
          exact .inr ⟨hv, holds_goal_of_isEarlyGoal hucl hg⟩
      · exact (h.followed t htl B hB).imp_left (hknown B)

/-- Once the queue is empty, what is recorded is all that can be reached. -/
theorem Basin.exhausted (h : Basin ehc origin l) (hopen : l.openStates = []) {B : Assignments}
    (hB : ehc.Reaches origin B) : holds ehc.ss.goal B = false ∧
      (∀ v, ehc.heuristic B = some v → l.bestH ≤ v) ∧
      (ehc.earlyTermination = true → ∀ C, ehc.Leads B C → holds ehc.ss.goal C = false) := by
  have hrec : ∀ {A}, Known l A → A ∈ l.closed.seen.map State.assignments := by
    rintro A (hA | ⟨t, ht, -⟩)
    · exact hA
    · simp [hopen] at ht
  have hin : B ∈ l.closed.seen.map State.assignments := by
    induction hB with
    | refl => exact hrec h.covered
    | tail _ hstep ih =>
      obtain ⟨t, ht, rfl⟩ := List.mem_map.mp ih
      rcases h.followed t ht _ hstep.1 with hk | ⟨hnone, -⟩
      · exact hrec hk
      · rw [hnone] at hstep
        exact absurd hstep.2 (by simp)
  obtain ⟨t, ht, rfl⟩ := List.mem_map.mp hin
  obtain ⟨hg, v, hv, hle⟩ := h.recorded t ht
  refine ⟨hg, fun w hw => ?_, fun hearly C hC => ?_⟩
  · obtain rfl := Option.some.inj (hv.symm.trans hw)
    exact hle
  · rcases h.followed t ht C hC with hk | ⟨-, hgoal⟩
    · obtain ⟨u, hu, rfl⟩ := List.mem_map.mp (hrec hk)
      exact (h.recorded u hu).1
    · exact hgoal hearly

omit [LinearOrder V] in
/-- The path of a goal state that can be reached. -/
theorem applyAll_extractPath (ht : ¬ ehc.ss.isTemporal = true)
    (hs : ReachableWithin ehc.ss ehc.tn true ehc.relevantActions s d)
    (hg : ehc.ss.goalReached s = true) : (∀ a ∈ extractPath s, a ∈ ehc.relevantActions) ∧
      ∃ B, ehc.ss.applyAll ehc.ss.initialState (extractPath s) = some B ∧ holds ehc.ss.goal B = true := by
  obtain ⟨hall, hrel⟩ := hs.path ht
  exact ⟨hrel, s.assignments, hall, goalReached_classical (hs.classical ht) ▸ hg⟩

omit [LinearOrder V] in
/-- Before the loop the initial state is open, unless it is a goal or without a value. -/
theorem start_spec (ehc : EnforcedHillClimbing V) (ht : ¬ ehc.ss.isTemporal = true) (counter : ℕ) :
    (∃ s, ehc.start counter = .inl (.path (extractPath s)) ∧ ehc.ss.goalReached s = true ∧
      ReachableWithin ehc.ss ehc.tn true ehc.relevantActions s (initialCounter ehc.ss counter)) ∨
    (ehc.start counter = .inl .noPath ∧ ehc.heuristic ehc.ss.initialState = none) ∨
    ∃ l s, ehc.start counter = .inr l ∧ Begins ehc s l ∧
      Invariant ehc (initialCounter ehc.ss counter) l := by
  obtain ⟨init, hi⟩ := exists_initial ehc.tn ht counter
  obtain ⟨-, has, -⟩ := classical_initial ht hi
  have hreach : ReachableWithin ehc.ss ehc.tn true ehc.relevantActions init
      (initialCounter ehc.ss counter) :=
    ⟨counter, init, _, [], hi, .refl _ _, le_rfl, by simp⟩
  rw [start, hi]
  dsimp only
  by_cases hg : ehc.isEarlyGoal init = true
  · rw [if_pos hg]
    rw [isEarlyGoal, Bool.and_eq_true] at hg
    exact .inl ⟨init, rfl, hg.2, hreach⟩
  · rw [if_neg hg]
    cases hv : ehc.heuristic init.assignments with
    | none => exact .inr (.inl ⟨rfl, has ▸ hv⟩)
    | some v =>
      exact .inr (.inr ⟨_, init, rfl, ⟨rfl, rfl, hv, by simpa using hg⟩,
        invariant_improved hreach rfl rfl rfl⟩)

/-- As long as the search runs, some iteration began the phase it is in. -/
theorem run_inr (ht : ¬ ehc.ss.isTemporal = true)
    (hfin : FinitelyManyStates ehc.ss ehc.tn ehc.relevantActions) (hun : Unpruned ehc) {counter n : ℕ}
    (h : ehc.run core counter n = .inr l) : Invariant ehc (initialCounter ehc.ss counter) l ∧
      ∃ m ≤ n, ∃ l₀ s, ehc.run core counter m = .inr l₀ ∧ Begins ehc s l₀ ∧
        (∀ k l₁, m ≤ k → k ≤ n → ehc.run core counter k = .inr l₁ → l₁.bestH = l₀.bestH) ∧
        Basin ehc s.assignments l := by
  induction n generalizing l with
  | zero =>
    rcases ehc.start_spec ht counter with ⟨s, hs, -⟩ | ⟨hs, -⟩ | ⟨l₀, s, hs, hbegins, hinv⟩
    · simp [run, Exploration.iterate, hs] at h
    · simp [run, Exploration.iterate, hs] at h
    · obtain rfl : l₀ = l := Sum.inr.inj (hs.symm.trans h)
      refine ⟨hinv, 0, le_rfl, l₀, s, h, hbegins, fun k l₁ _ hk h₁ => ?_, hbegins.basin⟩
      obtain rfl := Nat.le_zero.mp hk
      rw [Sum.inr.inj (h.symm.trans h₁)]
  | succ n ih =>
    have hsucc := h
    rw [run, Exploration.iterate_succ] at hsucc
    cases hn : Exploration.iterate (ehc.step core) n (ehc.start counter) with
    | inl r => simp [hn] at hsucc
    | inr u =>
      rw [hn] at hsucc
      have hstep : ehc.step core u = .inr l := hsucc
      obtain ⟨hinv, m, hm, l₀, s, hl₀, hbegins, hbest, hbasin⟩ := ih hn
      refine ⟨(hinv.step ht hfin hstep).1, ?_⟩
      rcases hbasin.step ht hun hinv hstep with ⟨hbasin', hsame⟩ | ⟨t, ht'⟩
      · refine ⟨m, Nat.le_succ_of_le hm, l₀, s, hl₀, hbegins, fun k l₁ hmk hk h₁ => ?_, hbasin'⟩
        rcases Nat.le_succ_iff.mp hk with hk | rfl
        · exact hbest k l₁ hmk hk h₁
        · rw [← Sum.inr.inj (h.symm.trans h₁), hsame]
          exact hbest n u hm le_rfl hn
      · refine ⟨n + 1, le_rfl, l, t, h, ht', fun k l₁ hmk hk h₁ => ?_, ht'.basin⟩
        obtain rfl := le_antisymm hk hmk
        rw [Sum.inr.inj (h.symm.trans h₁)]

/-- The search ends: with a plan, or, where the initial state has a value, with a
last phase that misses nothing better and no goal. -/
theorem climbing_ends (ehc : EnforcedHillClimbing V) (core : Core) (counter : ℕ)
    (ht : ¬ ehc.ss.isTemporal = true) (hfin : FinitelyManyStates ehc.ss ehc.tn ehc.relevantActions)
    (hmax : ehc.maxExpandedStates = none) : ∃ n r, ehc.run core counter n = .inl r ∧
      ((∃ p, r = .path p ∧ (∀ a ∈ p, a ∈ ehc.relevantActions) ∧
        ∃ B, ehc.ss.applyAll ehc.ss.initialState p = some B ∧ holds ehc.ss.goal B = true) ∨
      (r = .noPath ∧ (Unpruned ehc → (ehc.heuristic ehc.ss.initialState).isSome = true →
        ∃ m l s, ehc.run core counter m = .inr l ∧ Begins ehc s l ∧
          (∀ k l', m ≤ k → ehc.run core counter k = .inr l' → l'.bestH = l.bestH) ∧
          ∀ B, ehc.Reaches s.assignments B → holds ehc.ss.goal B = false ∧
            (∀ v, ehc.heuristic B = some v → l.bestH ≤ v) ∧
            (ehc.earlyTermination = true → ∀ C, ehc.Leads B C → holds ehc.ss.goal C = false)))) := by
  rcases ehc.start_spec ht counter with ⟨s, hs, hg, hreach⟩ | ⟨hs, hnone⟩ | ⟨l₀, s₀, hs, -, hinv₀⟩
  · exact ⟨0, _, hs, .inl ⟨_, rfl, applyAll_extractPath ht hreach hg⟩⟩
  · refine ⟨0, _, hs, .inr ⟨rfl, fun _ hsome => ?_⟩⟩
    simp [hnone] at hsome
  obtain ⟨n, r, -, hn, -⟩ := Exploration.exists_answer
    (fun l l' hinv (hstep : ehc.step core l = .inr l') => Invariant.step ht hfin hinv hstep) hinv₀
  obtain ⟨q, l, hq, hend⟩ := Exploration.exists_last hn
  have hrun : ∀ k, ehc.run core counter k = Exploration.iterate (ehc.step core) k (.inr l₀) := by
    intro k
    rw [run, hs]
  have hinv : Invariant ehc (initialCounter ehc.ss counter) l :=
    Exploration.iterate_inv (fun l l' hinv hstep => (hinv.step ht hfin hstep).1) hinv₀ hq
  have hlast : ehc.run core counter (q + 1) = .inl r := by
    rw [hrun, Exploration.iterate_succ, hq]
    exact hend
  refine ⟨q + 1, r, hlast, ?_⟩
  rcases step_inl hmax hend with ⟨hopen, rfl⟩ | ⟨s, rest, t, hopen, rfl, hg, hts⟩
  · refine .inr ⟨rfl, fun hun _ => ?_⟩
    obtain ⟨-, m, hm, l₁, s, hl₁, hbegins, hbest, hbasin⟩ := run_inr ht hfin hun ((hrun q).trans hq)
    have hbestH : l.bestH = l₁.bestH := hbest q l hm le_rfl ((hrun q).trans hq)
    refine ⟨m, l₁, s, hl₁, hbegins, fun k l' hmk hk => ?_, fun B hB => ?_⟩
    · rcases Nat.lt_or_ge q k with hqk | hkq
      · rw [run, Exploration.iterate_of_le hlast hqk] at hk
        contradiction
      · exact hbest k l' hmk hkq hk
    · have := hbasin.exhausted hopen hB
      rwa [hbestH] at this
  · have hreach := hinv.opened s (hopen ▸ List.mem_cons_self)
    refine .inl ⟨_, rfl, applyAll_extractPath (d := initialCounter ehc.ss counter) ht ?_ hg⟩
    rcases hts with rfl | hts
    · exact hreach
    · obtain ⟨a, ha, hst⟩ := (mem_getSuccessorStates ht).mp hts
      exact hreach.step ht ha (hinv.counter ▸ hst)

end EnforcedHillClimbing

section Switch

attribute [local instance] Callables.empty

/-- A climb of the switch towards its only other state. -/
def switchClimb : EnforcedHillClimbing ℚ where
  ss := switch
  tn := .free
  relevantActions := [⟨0⟩]
  heuristic := fun A => if A = [.bool true] then some 0 else some 1
  maxExpandedStates := none
  earlyTermination := false
  weakEquality := false

theorem climbing_ends_switch : ∃ n r, switchClimb.run .python 0 n = .inl r ∧
    ((∃ p, r = .path p ∧ (∀ a ∈ p, a ∈ switchClimb.relevantActions) ∧
      ∃ B, switch.applyAll switch.initialState p = some B ∧ holds switch.goal B = true) ∨
    r = .noPath) := by
  obtain ⟨n, r, hr, h⟩ := EnforcedHillClimbing.climbing_ends switchClimb .python 0 (by decide)
    (switch_finite .free) rfl
  exact ⟨n, r, hr, h.imp_right And.left⟩

/-- Two like objects, which `use` needs ready. They get ready at once, or by a
detour that begins to use one of them. -/
def twins : SearchSpace :=
  let cond (positive : ℕ) : Expression := [.fluent ⟨positive⟩]
  let set (fluent : ℕ) (b : Bool) : Effect := ⟨⟨fluent⟩, [.constant (.bool b)]⟩
  let fresh : Expression := [.fluent ⟨0⟩, .fluent ⟨1⟩, .operator .or [0, 1], .operator .not [2]]
  let action (conditions : Expression) (effects : List Effect) : Option Duration × List (Timing × Event) :=
    (none, [(⟨true, 0⟩, ⟨⟨0⟩, 0, conditions, [], [], effects⟩)])
  let actionObjects : List (List Object) := [[], [], [⟨0⟩], [⟨1⟩], [⟨0⟩], [⟨1⟩]]
  { SearchSpace.ofTable
      [action fresh [set 0 true], action fresh [set 1 true],
        action (cond 1) [set 0 true, set 1 false], action (cond 1) [set 0 true, set 1 false],
        action (cond 0) [set 2 true], action (cond 0) [set 3 true]]
      [.bool false, .bool false, .bool false, .bool false] [.constant (.bool false)] with
    actionObjects := some actionObjects
    objToPrevActionsMap := some (computeObjToPrevActionsMap [[⟨0⟩, ⟨1⟩]] actionObjects 2) }

/-- A heuristic that wants only the second of the twins used. -/
def twinsClimb : EnforcedHillClimbing ℚ where
  ss := twins
  tn := .free
  relevantActions := [⟨0⟩, ⟨1⟩, ⟨2⟩, ⟨3⟩, ⟨4⟩, ⟨5⟩]
  heuristic := fun A => if A[2]? = some (.bool false) ∧ A[3]? = some (.bool true) then some 0 else some 1
  maxExpandedStates := none
  earlyTermination := false
  weakEquality := false

/-- The search never improves on the initial state's value 1, and ends, though the
path of the detour, of states with a value, leads to one of value 0. -/
theorem twins_missed : (∀ core, twinsClimb.run core 0 6 = .inl .noPath) ∧
    (∀ core, ∀ n < 6, ∃ l, twinsClimb.run core 0 n = .inr l ∧ l.bestH = 1) ∧
    (∃ s, ReachableWithin twins .free true twinsClimb.relevantActions s 0 ∧
      s.path.map Prod.fst = [⟨1⟩, ⟨2⟩, ⟨5⟩] ∧ twinsClimb.heuristic s.assignments = some 0) ∧
    ∀ A, (twinsClimb.heuristic A).isSome = true := by
  refine ⟨fun core => ?_, fun core n hn => ?_, ?_, ?_⟩
  · cases core <;> rfl
  · match n, hn with
    | 0, _ | 1, _ | 2, _ | 3, _ | 4, _ | 5, _ => cases core <;> exact ⟨_, rfl, rfl⟩
  · have h₁ : Run twins .free true ((twins.initial .free 0).get rfl) 0 [⟨1⟩] _ 0 :=
      (Run.refl _ 0).step (d := 0) le_rfl rfl
    have h₂ := h₁.step (d := 0) (a := ⟨2⟩) le_rfl rfl
    have h₃ := h₂.step (d := 0) (a := ⟨5⟩) le_rfl rfl
    exact ⟨_, ⟨0, _, 0, _, rfl, h₃, le_rfl, by decide⟩, rfl, rfl⟩
  · intro A
    simp only [twinsClimb]
    split_ifs <;> rfl

end Switch

end TamerLite
