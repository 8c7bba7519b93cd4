import TamerLite.MemoryBounded
import TamerLite.PathSoundness

/-! What a memory-bounded search never gets wrong, whatever it loses: it ends, within its
bound, and with no path but that of a goal state. -/

namespace TamerLite

open SearchSpace

section Answers

/-! ### Any filter -/

namespace DedupStore

variable {σ : Type} (d : DedupStore σ)

/-- The states that are let through when `states` are given one after the other. -/
def letThrough (store : d.Store) : List σ → List σ
  | [] => []
  | s :: states =>
    if (d.insertNew store s).1 then s :: letThrough (d.insertNew store s).2 states
    else letThrough (d.insertNew store s).2 states

def afterAll (store : d.Store) (states : List σ) : d.Store :=
  states.foldl (fun store s => (d.insertNew store s).2) store

variable {d} in
theorem letThrough_append (store : d.Store) (given states : List σ) :
    d.letThrough store (given ++ states) =
      d.letThrough store given ++ d.letThrough (d.afterAll store given) states := by
  induction given generalizing store with
  | nil => rfl
  | cons s given ih =>
    have hafter : d.afterAll store (s :: given) = d.afterAll (d.insertNew store s).2 given := rfl
    rw [hafter, List.cons_append, letThrough, letThrough]
    by_cases hnew : (d.insertNew store s).1 = true
    · rw [if_pos hnew, if_pos hnew, ih, List.cons_append]
    · rw [if_neg hnew, if_neg hnew, ih]

/-- Of the classical states, no two with the same assignments are let through. -/
def LettingOnce (d : DedupStore State) : Prop :=
  ∀ given, (∀ s ∈ given, s.Classical) → ((d.letThrough d.empty given).map State.assignments).Nodup

end DedupStore

namespace BoundedSearch

variable {V : Type} {bs : BoundedSearch V} {core : Core} {l l' m : bs.Loop} {item : bs.ps.st.Item}
  {s : State} {states : List State} {store : bs.dedup.Store} {p : List Action} {r : SearchOutcome}

/-- What an expansion did to the loop's variables, when it did not end the search. -/
structure Expanded (bs : BoundedSearch V) (states : List State) (l l' : bs.Loop) : Prop where
  store : l'.store = bs.dedup.afterAll l.store states
  counter : l'.counter = l.counter
  expandedStates : l'.expandedStates = l.expandedStates
  opened : ∀ i ∈ l'.openItems, i ∈ l.openItems ∨ bs.ps.st.stateOf i ∈ states
  length_le : l'.openItems.length ≤ l.openItems.length + (bs.dedup.letThrough l.store states).length
  bound_le : l.openItems.length ≤ bs.bound → l'.openItems.length ≤ bs.bound

/-- A push opens at most the one state. -/
theorem push_spec (item : bs.ps.st.Item) (l : bs.Loop) (s : State) :
    (bs.push item l s).counter = l.counter ∧ (bs.push item l s).expandedStates = l.expandedStates ∧
    (∀ i ∈ (bs.push item l s).openItems, i ∈ l.openItems ∨ bs.ps.st.stateOf i = s) ∧
    (bs.push item l s).openItems.length ≤ l.openItems.length + 1 ∧
    (l.openItems.length ≤ bs.bound → (bs.push item l s).openItems.length ≤ bs.bound) := by
  rw [push]
  cases bs.ps.heuristic s with
  | none => exact ⟨rfl, rfl, fun i hi => .inl hi, Nat.le_succ _, id⟩
  | some v =>
    refine ⟨rfl, rfl, ?_, bs.heap.length_pushWithin _ _ _, bs.heap.length_pushWithin_le⟩
    intro i hi
    rcases MinMaxHeap.mem_pushWithin hi with rfl | hi
    · exact .inr (bs.ps.st.stateOf_child _ _ _ _ _)
    · exact .inl hi

theorem foldl_push_spec (item : bs.ps.st.Item) (l : bs.Loop) (states : List State) :
    (states.foldl (bs.push item) l).store = l.store ∧
    (states.foldl (bs.push item) l).counter = l.counter ∧
    (states.foldl (bs.push item) l).expandedStates = l.expandedStates ∧
    (∀ i ∈ (states.foldl (bs.push item) l).openItems, i ∈ l.openItems ∨ bs.ps.st.stateOf i ∈ states) ∧
    (states.foldl (bs.push item) l).openItems.length ≤ l.openItems.length + states.length ∧
    (l.openItems.length ≤ bs.bound → (states.foldl (bs.push item) l).openItems.length ≤ bs.bound) := by
  induction states generalizing l with
  | nil => exact ⟨rfl, rfl, rfl, fun i hi => .inl hi, le_rfl, id⟩
  | cons s states ih =>
    obtain ⟨hcounter, hexp, hopen, hlen, hbound⟩ := push_spec item l s
    obtain ⟨hstore', hcounter', hexp', hopen', hlen', hbound'⟩ := ih (bs.push item l s)
    rw [List.foldl_cons]
    refine ⟨hstore'.trans (store_push item l s), hcounter'.trans hcounter, hexp'.trans hexp, ?_, ?_, ?_⟩
    · intro i hi
      rcases hopen' i hi with hi | hi
      · rcases hopen i hi with hi | he
        · exact .inl hi
        · exact .inr (he ▸ List.mem_cons_self)
      · exact .inr (List.mem_cons_of_mem _ hi)
    · rw [List.length_cons]
      omega
    · exact fun h => hbound' (hbound h)

theorem letThrough_subset (states : List State) : bs.dedup.letThrough store states ⊆ states := by
  induction states generalizing store with
  | nil => exact List.Subset.refl _
  | cons s states ih =>
    rw [DedupStore.letThrough]
    by_cases hnew : (bs.dedup.insertNew store s).1 = true
    · rw [if_pos hnew]
      exact List.cons_subset_cons s ih
    · rw [if_neg hnew]
      exact List.subset_cons_of_subset s ih

variable [Callables]

theorem collect_ok {c : List State × bs.dedup.Store} (h : bs.collect store states = .ok c) :
    c = (bs.dedup.letThrough store states, bs.dedup.afterAll store states) := by
  induction states generalizing store c with
  | nil => exact (Except.ok.inj h).symm
  | cons s states ih =>
    rw [collect] at h
    by_cases hg : bs.ps.isEarlyGoal s = true
    · rw [if_pos hg] at h
      contradiction
    rw [if_neg hg] at h
    dsimp only at h
    cases hc : bs.collect (bs.dedup.insertNew store s).2 states with
    | error q =>
      rw [hc] at h
      contradiction
    | ok c' =>
      rw [hc] at h
      obtain rfl := Except.ok.inj h
      rw [ih hc, DedupStore.letThrough]
      rfl

theorem collect_error (h : bs.collect store states = .error p) :
    ∃ s ∈ states, bs.ps.isEarlyGoal s = true ∧ p = extractPath s := by
  induction states generalizing store p with
  | nil => contradiction
  | cons s states ih =>
    rw [collect] at h
    by_cases hg : bs.ps.isEarlyGoal s = true
    · rw [if_pos hg] at h
      exact ⟨s, List.mem_cons_self, hg, (Except.error.inj h).symm⟩
    rw [if_neg hg] at h
    dsimp only at h
    cases hc : bs.collect (bs.dedup.insertNew store s).2 states with
    | ok c =>
      rw [hc] at h
      contradiction
    | error q =>
      rw [hc] at h
      obtain rfl := Except.error.inj h
      obtain ⟨t, ht, hgoal⟩ := ih hc
      exact ⟨t, List.mem_cons_of_mem _ ht, hgoal⟩

theorem expandEach_ok (h : bs.expandEach item l states = .ok l') : Expanded bs states l l' := by
  induction states generalizing l with
  | nil =>
    obtain rfl := Except.ok.inj h
    exact ⟨rfl, rfl, rfl, fun i hi => .inl hi, le_rfl, id⟩
  | cons s states ih =>
    rw [expandEach] at h
    by_cases hnew : (bs.dedup.insertNew l.store s).1 = true
    · rw [if_pos hnew] at h
      by_cases hg : bs.ps.isEarlyGoal s = true
      · rw [if_pos hg] at h
        contradiction
      rw [if_neg hg] at h
      obtain ⟨hcounter, hexp, hopen, hlen, hbound⟩ :=
        push_spec item { l with store := (bs.dedup.insertNew l.store s).2 } s
      obtain ⟨hstore', hcounter', hexp', hopen', hlen', hbound'⟩ := ih h
      rw [store_push] at hstore' hlen'
      refine ⟨hstore', hcounter'.trans hcounter, hexp'.trans hexp, ?_, ?_, fun h => hbound' (hbound h)⟩
      · intro i hi
        rcases hopen' i hi with hi | hi
        · rcases hopen i hi with hi | he
          · exact .inl hi
          · exact .inr (he ▸ List.mem_cons_self)
        · exact .inr (List.mem_cons_of_mem _ hi)
      · rw [DedupStore.letThrough, if_pos hnew, List.length_cons]
        dsimp only at hlen hlen'
        omega
    · rw [if_neg hnew] at h
      obtain ⟨hstore', hcounter', hexp', hopen', hlen', hbound'⟩ := ih h
      refine ⟨hstore', hcounter', hexp', ?_, ?_, hbound'⟩
      · exact fun i hi => (hopen' i hi).imp_right fun hi => List.mem_cons_of_mem _ hi
      · rw [DedupStore.letThrough, if_neg hnew]
        exact hlen'

theorem expandEach_error (h : bs.expandEach item l states = .error p) :
    ∃ s ∈ states, bs.ps.isEarlyGoal s = true ∧ p = extractPath s := by
  induction states generalizing l with
  | nil => contradiction
  | cons s states ih =>
    rw [expandEach] at h
    by_cases hnew : (bs.dedup.insertNew l.store s).1 = true
    · rw [if_pos hnew] at h
      by_cases hg : bs.ps.isEarlyGoal s = true
      · rw [if_pos hg] at h
        exact ⟨s, List.mem_cons_self, hg, (Except.error.inj h).symm⟩
      · rw [if_neg hg] at h
        obtain ⟨t, ht, hgoal⟩ := ih h
        exact ⟨t, List.mem_cons_of_mem _ ht, hgoal⟩
    · rw [if_neg hnew] at h
      obtain ⟨t, ht, hgoal⟩ := ih h
      exact ⟨t, List.mem_cons_of_mem _ ht, hgoal⟩

theorem expand_ok (h : bs.expand core item l = .ok l') : Expanded bs
    (bs.ps.ss.getSuccessorStates bs.ps.tn l.counter (bs.ps.st.stateOf item) bs.ps.relevantActions).1
    { l with counter := (bs.ps.ss.getSuccessorStates bs.ps.tn l.counter (bs.ps.st.stateOf item)
      bs.ps.relevantActions).2 } l' := by
  cases core with
  | python =>
    rw [expand] at h
    dsimp only at h
    cases hc : bs.collect l.store (bs.ps.ss.getSuccessorStates bs.ps.tn l.counter
        (bs.ps.st.stateOf item) bs.ps.relevantActions).1 with
    | error q =>
      rw [hc] at h
      contradiction
    | ok c =>
      rw [hc] at h
      obtain rfl := Except.ok.inj h
      obtain rfl := collect_ok hc
      obtain ⟨hstore, hcounter, hexp, hopen, hlen, hbound⟩ := foldl_push_spec item
        { l with
          counter := (bs.ps.ss.getSuccessorStates bs.ps.tn l.counter (bs.ps.st.stateOf item)
            bs.ps.relevantActions).2
          store := bs.dedup.afterAll l.store (bs.ps.ss.getSuccessorStates bs.ps.tn l.counter
            (bs.ps.st.stateOf item) bs.ps.relevantActions).1
          memory := bs.ps.st.beginExpansion l.memory }
        (bs.dedup.letThrough l.store (bs.ps.ss.getSuccessorStates bs.ps.tn l.counter
          (bs.ps.st.stateOf item) bs.ps.relevantActions).1)
      refine ⟨hstore, hcounter, hexp, fun i hi => ?_, hlen, hbound⟩
      exact (hopen i hi).imp_right fun hi => letThrough_subset _ hi
  | rust =>
    obtain ⟨hstore, hcounter, hexp, hopen, hlen, hbound⟩ := expandEach_ok h
    exact ⟨hstore, hcounter, hexp, hopen, hlen, hbound⟩

theorem expand_error (h : bs.expand core item l = .error p) :
    ∃ s ∈ (bs.ps.ss.getSuccessorStates bs.ps.tn l.counter (bs.ps.st.stateOf item)
      bs.ps.relevantActions).1, bs.ps.isEarlyGoal s = true ∧ p = extractPath s := by
  cases core with
  | python =>
    rw [expand] at h
    dsimp only at h
    cases hc : bs.collect l.store (bs.ps.ss.getSuccessorStates bs.ps.tn l.counter
        (bs.ps.st.stateOf item) bs.ps.relevantActions).1 with
    | error q =>
      rw [hc] at h
      obtain rfl := Except.error.inj h
      exact collect_error hc
    | ok c =>
      rw [hc] at h
      contradiction
  | rust => exact expandEach_error h

/-- What an iteration that goes on did. -/
theorem step_inr (h : bs.step core l = .inr l') : ∃ item rest,
    bs.heap.pop l.openItems = some (item, rest) ∧
    expansionLimitReached l.expandedStates bs.ps.maxExpandedStates = false ∧
    Expanded bs (bs.ps.ss.getSuccessorStates bs.ps.tn l.counter (bs.ps.st.stateOf item)
        bs.ps.relevantActions).1
      { l with
        openItems := rest
        expandedStates := l.expandedStates + 1
        counter := (bs.ps.ss.getSuccessorStates bs.ps.tn l.counter (bs.ps.st.stateOf item)
          bs.ps.relevantActions).2 } l' := by
  rw [step] at h
  cases hp : bs.heap.pop l.openItems with
  | none =>
    rw [hp] at h
    contradiction
  | some x =>
    obtain ⟨item, rest⟩ := x
    rw [hp] at h
    dsimp only at h
    by_cases hlimit : expansionLimitReached l.expandedStates bs.ps.maxExpandedStates = true
    · rw [if_pos hlimit] at h
      contradiction
    rw [if_neg hlimit] at h
    by_cases hg : (!bs.ps.earlyTermination && bs.ps.ss.goalReached (bs.ps.st.stateOf item)) = true
    · rw [if_pos hg] at h
      contradiction
    rw [if_neg hg] at h
    cases he : bs.expand core item { l with openItems := rest, expandedStates := l.expandedStates + 1 } with
    | error q =>
      rw [he] at h
      contradiction
    | ok m =>
      rw [he] at h
      obtain rfl := Sum.inr.inj h
      exact ⟨item, rest, rfl, eq_false_of_ne_true hlimit, expand_ok he⟩

/-- A path that ends the loop is that of an open state, or of one of its successors. -/
theorem step_path (h : bs.step core l = .inl (.path p)) : ∃ item rest t,
    bs.heap.pop l.openItems = some (item, rest) ∧ bs.ps.ss.goalReached t = true ∧ p = extractPath t ∧
    (t = bs.ps.st.stateOf item ∨ t ∈ (bs.ps.ss.getSuccessorStates bs.ps.tn l.counter
      (bs.ps.st.stateOf item) bs.ps.relevantActions).1) := by
  rw [step] at h
  cases hp : bs.heap.pop l.openItems with
  | none =>
    rw [hp] at h
    have hne := Sum.inl.inj h
    contradiction
  | some x =>
    obtain ⟨item, rest⟩ := x
    rw [hp] at h
    dsimp only at h
    by_cases hlimit : expansionLimitReached l.expandedStates bs.ps.maxExpandedStates = true
    · rw [if_pos hlimit] at h
      have hne := Sum.inl.inj h
      contradiction
    rw [if_neg hlimit] at h
    by_cases hg : (!bs.ps.earlyTermination && bs.ps.ss.goalReached (bs.ps.st.stateOf item)) = true
    · rw [if_pos hg] at h
      obtain rfl := SearchOutcome.path.inj (Sum.inl.inj h)
      rw [Bool.and_eq_true] at hg
      exact ⟨item, rest, _, rfl, hg.2, rfl, .inl rfl⟩
    rw [if_neg hg] at h
    cases he : bs.expand core item { l with openItems := rest, expandedStates := l.expandedStates + 1 } with
    | ok m =>
      rw [he] at h
      contradiction
    | error q =>
      rw [he] at h
      obtain rfl := SearchOutcome.path.inj (Sum.inl.inj h)
      obtain ⟨t, ht, hearly, rfl⟩ := expand_error he
      rw [PrioritySearch.isEarlyGoal, Bool.and_eq_true] at hearly
      exact ⟨item, rest, t, rfl, hearly.2, rfl, .inr ht⟩

theorem expandsStates (bs : BoundedSearch V) (core : Core) :
    ExpandsStates bs.ps.ss bs.ps.tn bs.ps.relevantActions (bs.step core)
      (fun l => {s | ∃ i ∈ l.openItems, bs.ps.st.stateOf i = s}) BoundedLoop.counter where
  next := by
    intro l l' hs
    right
    obtain ⟨item, rest, hp, -, -, hcounter, -, hopen, -⟩ := step_inr hs
    have hperm := bs.heap.pop_perm hp
    refine ⟨_, ⟨item, hperm.mem_iff.mpr List.mem_cons_self, rfl⟩, hcounter, ?_⟩
    intro t ht
    obtain ⟨i, hi, rfl⟩ := ht
    rcases hopen i hi with hi | hi
    · exact .inl ⟨i, hperm.mem_iff.mpr (List.mem_cons_of_mem _ hi), rfl⟩
    · exact .inr hi
  path := by
    intro l p hs
    obtain ⟨item, rest, t, hp, hg, hpath, ht⟩ := step_path hs
    exact ⟨_, ⟨item, (bs.heap.pop_perm hp).mem_iff.mpr List.mem_cons_self, rfl⟩, t, hg, hpath, ht⟩

/-- The invariant of the loop, whatever was lost. -/
structure Sound (bs : BoundedSearch V) (l : bs.Loop) : Prop where
  opened : ∀ i ∈ l.openItems,
    ReachableWithin bs.ps.ss bs.ps.tn true bs.ps.relevantActions (bs.ps.st.stateOf i) l.counter
  bound : l.openItems.length ≤ bs.bound

theorem Sound.reached (h : bs.Sound l) : ∀ s ∈ {s | ∃ i ∈ l.openItems, bs.ps.st.stateOf i = s},
    ReachableWithin bs.ps.ss bs.ps.tn true bs.ps.relevantActions s l.counter := by
  intro s hs
  obtain ⟨i, hi, rfl⟩ := hs
  exact h.opened i hi

theorem Sound.step (h : bs.Sound l) (hs : bs.step core l = .inr l') : bs.Sound l' := by
  have hreached := (bs.expandsStates core).reachable_step h.reached hs
  obtain ⟨item, rest, hp, -, -, -, -, -, -, hbound⟩ := step_inr hs
  have hlen := (bs.heap.pop_perm hp).length_eq
  rw [List.length_cons] at hlen
  refine ⟨fun i hi => hreached _ ⟨i, hi, rfl⟩, hbound ?_⟩
  have := h.bound
  dsimp only
  omega

theorem start_sound (bs : BoundedSearch V) (counter : ℕ) :
    (∀ p, bs.start counter = .inl (.path p) → LeadsToGoal bs.ps.ss bs.ps.tn bs.ps.relevantActions p) ∧
      ∀ l, bs.start counter = .inr l → bs.Sound l := by
  rw [start]
  cases h₀ : bs.ps.ss.initial bs.ps.tn counter with
  | none => exact ⟨fun p hp => (by cases hp), fun l hl => (by cases hl)⟩
  | some init =>
    have hreach : ReachableWithin bs.ps.ss bs.ps.tn true bs.ps.relevantActions init
        (initialCounter bs.ps.ss counter) := reachableWithin_iff.mpr ⟨[], .initial h₀⟩
    dsimp only
    by_cases hg : bs.ps.isEarlyGoal init = true
    · rw [if_pos hg]
      rw [PrioritySearch.isEarlyGoal, Bool.and_eq_true] at hg
      refine ⟨fun p hp => ?_, fun l hl => (by cases hl)⟩
      obtain rfl := SearchOutcome.path.inj (Sum.inl.inj hp)
      exact .of_reachable hreach hg.2
    rw [if_neg hg]
    cases hv : bs.ps.heuristic init with
    | none => exact ⟨fun p hp => (by cases hp), fun l hl => (by cases hl)⟩
    | some v =>
      refine ⟨fun p hp => (by cases hp), fun l hl => ?_⟩
      obtain rfl := Sum.inr.inj hl
      rw [bs.heap.pushWithin_of_lt bs.bound_pos]
      refine ⟨fun i hi => ?_, bs.bound_pos⟩
      rw [List.mem_singleton.mp hi, bs.ps.st.stateOf_root]
      exact hreach

theorem run_sound {counter n : ℕ} (h : bs.run core counter n = .inr l) : bs.Sound l := by
  rw [run] at h
  cases hstart : bs.start counter with
  | inl r =>
    rw [hstart, Exploration.iterate_inl] at h
    contradiction
  | inr l₀ =>
    rw [hstart] at h
    have h₀ := (start_sound bs counter).2 l₀ hstart
    exact Exploration.iterate_inv (fun l l' hl hs => Sound.step hl hs) h₀ h

theorem run_path {counter n : ℕ} (h : bs.run core counter n = .inl (.path p)) :
    LeadsToGoal bs.ps.ss bs.ps.tn bs.ps.relevantActions p := by
  obtain ⟨hpath, hstart⟩ := bs.start_sound counter
  exact (bs.expandsStates core).path_of_run (hpath p) (fun l hl => (hstart l hl).reached) h

/-- With an expansion limit the search ends. -/
theorem exists_run_of_limit (hmax : bs.ps.maxExpandedStates ≠ none) (core : Core) (counter : ℕ) :
    ∃ n r, bs.run core counter n = .inl r := by
  obtain ⟨limit, hlimit⟩ := Option.ne_none_iff_exists'.mp hmax
  cases hstart : bs.start counter with
  | inl r => exact ⟨0, r, hstart⟩
  | inr l =>
    let Ranked : bs.Loop → ℕ → Prop := fun l k => k = limit - l.expandedStates
    have hrank : Ranked l _ := rfl
    have hstep : ∀ l l' k, Ranked l k → bs.step core l = .inr l' → ∃ j < k, Ranked l' j := by
      intro l l' k hk hs
      obtain ⟨item, rest, -, hlim, -, -, hexp, -⟩ := step_inr hs
      rw [expansionLimitReached, hlimit, Option.any_some, decide_eq_false_iff_not, not_le] at hlim
      refine ⟨_, ?_, rfl⟩
      dsimp only at hexp
      change k = limit - l.expandedStates at hk
      omega
    obtain ⟨n, r, hr⟩ := Exploration.exists_answer_of_rank hstep hrank
    exact ⟨n, r, by rw [run, hstart, hr]⟩

/-- The states that were given to the store. -/
structure Recorded (bs : BoundedSearch V) (given : List State) (l : bs.Loop) : Prop where
  store : l.store = bs.dedup.afterAll bs.dedup.empty given
  reached : ∀ s ∈ given, ReachableWithin bs.ps.ss bs.ps.tn true bs.ps.relevantActions s l.counter

theorem Recorded.length_le {given : List State} (h : bs.Recorded given l) (ht : ¬ bs.ps.ss.isTemporal = true)
    (hfin : FinitelyManyStates bs.ps.ss bs.ps.tn bs.ps.relevantActions) (honce : bs.dedup.LettingOnce) :
    (bs.dedup.letThrough bs.dedup.empty given).length ≤ (Set.Finite.toFinset hfin).card := by
  have hnodup := honce given fun s hs => (h.reached s hs).classical ht
  rw [← List.length_map State.assignments, ← List.toFinset_card_of_nodup hnodup]
  apply Finset.card_le_card
  intro A hA
  obtain ⟨s, hs, rfl⟩ := List.mem_map.mp (List.mem_toFinset.mp hA)
  exact (Set.Finite.mem_toFinset hfin).mpr ⟨s, _, h.reached s (letThrough_subset _ hs), rfl⟩

/-- An iteration that goes on takes one state and opens none but those it lets through. -/
theorem Recorded.step {given : List State} (hsound : bs.Sound l) (h : bs.Recorded given l)
    (hs : bs.step core l = .inr l') : ∃ given', bs.Recorded given' l' ∧
      l'.openItems.length + (bs.dedup.letThrough bs.dedup.empty given).length <
        l.openItems.length + (bs.dedup.letThrough bs.dedup.empty given').length := by
  obtain ⟨item, rest, hp, -, hstore, hcounter, -, -, hlen, -⟩ := step_inr hs
  have hperm := bs.heap.pop_perm hp
  have hitem := hsound.opened item (hperm.mem_iff.mpr List.mem_cons_self)
  obtain ⟨hle, hsucc⟩ := hitem.relevantSuccessors
  refine ⟨given ++ (bs.ps.ss.getSuccessorStates bs.ps.tn l.counter (bs.ps.st.stateOf item)
    bs.ps.relevantActions).1, ⟨?_, fun s hs => ?_⟩, ?_⟩
  · rw [hstore, h.store, DedupStore.afterAll, DedupStore.afterAll, DedupStore.afterAll, List.foldl_append]
  · rw [hcounter]
    rcases List.mem_append.mp hs with hs | hs
    · exact (h.reached s hs).mono hle
    · exact hsucc s hs
  · have hlen' := hperm.length_eq
    rw [List.length_cons] at hlen'
    rw [DedupStore.letThrough_append, List.length_append, ← h.store]
    dsimp only at hlen
    omega

theorem exists_recorded {counter : ℕ} (h : bs.start counter = .inr l) :
    ∃ given, bs.Recorded given l := by
  rw [start] at h
  cases h₀ : bs.ps.ss.initial bs.ps.tn counter with
  | none =>
    rw [h₀] at h
    contradiction
  | some init =>
    rw [h₀] at h
    dsimp only at h
    by_cases hg : bs.ps.isEarlyGoal init = true
    · rw [if_pos hg] at h
      contradiction
    rw [if_neg hg] at h
    cases hv : bs.ps.heuristic init with
    | none =>
      rw [hv] at h
      contradiction
    | some v =>
      rw [hv] at h
      obtain rfl := Sum.inr.inj h
      refine ⟨[init], rfl, fun s hs => ?_⟩
      rw [List.mem_singleton.mp hs]
      exact reachableWithin_iff.mpr ⟨[], .initial h₀⟩

/-- With finitely many states, none of which is let through twice, the search ends. -/
theorem exists_run_of_finite (ht : ¬ bs.ps.ss.isTemporal = true)
    (hfin : FinitelyManyStates bs.ps.ss bs.ps.tn bs.ps.relevantActions) (honce : bs.dedup.LettingOnce)
    (core : Core) (counter : ℕ) : ∃ n r, bs.run core counter n = .inl r := by
  cases hstart : bs.start counter with
  | inl r => exact ⟨0, r, hstart⟩
  | inr l =>
    let Ranked : bs.Loop → ℕ → Prop := fun l k => bs.Sound l ∧ ∃ given, bs.Recorded given l ∧
      k + (bs.dedup.letThrough bs.dedup.empty given).length =
        l.openItems.length + (Set.Finite.toFinset hfin).card
    have hstep : ∀ l l' k, Ranked l k → bs.step core l = .inr l' → ∃ j < k, Ranked l' j := by
      intro l l' k hk hs
      obtain ⟨hsound, given, hrec, hrank⟩ := hk
      obtain ⟨given', hrec', hlt⟩ := hrec.step hsound hs
      have hle := hrec'.length_le ht hfin honce
      refine ⟨l'.openItems.length + (Set.Finite.toFinset hfin).card -
        (bs.dedup.letThrough bs.dedup.empty given').length, ?_, hsound.step hs, given', hrec', ?_⟩
      · omega
      · omega
    obtain ⟨given, hrec⟩ := exists_recorded hstart
    have hle := hrec.length_le ht hfin honce
    have hrank : Ranked l (l.openItems.length + (Set.Finite.toFinset hfin).card -
        (bs.dedup.letThrough bs.dedup.empty given).length) := by
      refine ⟨(start_sound bs counter).2 l hstart, given, hrec, ?_⟩
      omega
    obtain ⟨n, r, hr⟩ := Exploration.exists_answer_of_rank hstep hrank
    exact ⟨n, r, by rw [run, hstart, hr]⟩

end BoundedSearch

/-! ### The Bloom filter -/

/-- `_BloomDedup`, as the store of a search. -/
def BloomDedup.store (B : BloomFilter) (ss : SearchSpace) (weakEquality : Bool) : DedupStore State :=
  ⟨Option B.Filter, BloomDedup.start B ss weakEquality, BloomDedup.insert B ss weakEquality⟩

/-- The memory-bounded counterpart of a search. -/
def PrioritySearch.memoryBounded {V : Type} (ps : PrioritySearch V) (B : BloomFilter)
    (heap : MinMaxHeap ps.st.lt) (bound : ℕ) (hbound : 0 < bound) : BoundedSearch V :=
  ⟨ps, BloomDedup.store B ps.ss ps.weakEquality, heap, bound, hbound⟩

section Filters

variable {B : BloomFilter} {ss : SearchSpace} {weakEquality : Bool} {s t : State} {states : List State}
  {kept : List State}

/-- The key of a classical state is that of its assignments. -/
theorem bloomKey_of_classical (hs : s.Classical) (ht : t.Classical) (h : s.assignments = t.assignments) :
    bloomKey s = bloomKey t := by
  rw [bloomKey, bloomKey, State.todoItems, State.todoItems, h, hs.idle, ht.idle]

theorem bloomRule_of_classical (ht : ¬ ss.isTemporal = true) (s : State) :
    VisitedStates.rule ss weakEquality s = some .equal := by
  have hfalse : ss.isTemporal = false := eq_false_of_ne_true ht
  simp [VisitedStates.rule, DedupPolicy.of, DedupPolicy.rule, hfalse]

/-- Classical states that the filter took for new, and still knows. -/
structure BloomDedup.Kept (B : BloomFilter) (filter : Option B.Filter) (kept : List State) : Prop where
  nodup : (kept.map State.assignments).Nodup
  classical : ∀ s ∈ kept, s.Classical
  known : ∃ f, filter = some f ∧ ∀ s ∈ kept, B.contains f (bloomKey s) = true

/-- What the filter lets through it keeps. -/
theorem BloomDedup.Kept.insertNew (weakEquality : Bool) (ht : ¬ ss.isTemporal = true)
    {filter : Option B.Filter}
    (h : BloomDedup.Kept B filter kept) (hs : s.Classical) :
    ((BloomDedup.insert B ss weakEquality filter s).1 = true ∧
      BloomDedup.Kept B (BloomDedup.insert B ss weakEquality filter s).2 (s :: kept)) ∨
    ((BloomDedup.insert B ss weakEquality filter s).1 = false ∧
      BloomDedup.Kept B (BloomDedup.insert B ss weakEquality filter s).2 kept) := by
  obtain ⟨hnodup, hclassical, f, rfl, hknown⟩ := h
  have hrule : ¬ VisitedStates.rule ss weakEquality s ≠ some .equal :=
    not_not_intro (bloomRule_of_classical ht s)
  rw [BloomDedup.insert, if_neg hrule]
  by_cases hmem : B.contains f (bloomKey s) = true
  · right
    rw [if_pos hmem]
    exact ⟨rfl, hnodup, hclassical, f, rfl, hknown⟩
  left
  rw [if_neg hmem]
  refine ⟨rfl, ?_, ?_, _, rfl, ?_⟩
  · rw [List.map_cons, List.nodup_cons]
    refine ⟨fun hold => ?_, hnodup⟩
    obtain ⟨t, htk, hsame⟩ := List.mem_map.mp hold
    have hkey := bloomKey_of_classical (hclassical t htk) hs hsame
    exact hmem (hkey ▸ hknown t htk)
  · intro t ht
    rcases List.mem_cons.mp ht with rfl | ht
    · exact hs
    · exact hclassical t ht
  · intro t ht
    rcases List.mem_cons.mp ht with rfl | ht
    · exact B.contains_add f _
    · exact B.contains_mono f _ _ (hknown t ht)

theorem BloomDedup.Kept.afterAll (weakEquality : Bool) (ht : ¬ ss.isTemporal = true)
    {filter : Option B.Filter}
    (h : BloomDedup.Kept B filter kept) (hs : ∀ s ∈ states, s.Classical) :
    BloomDedup.Kept B ((BloomDedup.store B ss weakEquality).afterAll filter states)
      (((BloomDedup.store B ss weakEquality).letThrough filter states).reverse ++ kept) := by
  induction states generalizing filter kept with
  | nil => exact h
  | cons s states ih =>
    have hrest : ∀ t ∈ states, t.Classical := fun t ht => hs t (List.mem_cons_of_mem _ ht)
    rcases h.insertNew weakEquality ht (hs s List.mem_cons_self) with
      ⟨hnew, hkept⟩ | ⟨hold, hkept⟩
    · have hnext := ih hkept hrest
      have hthrough : (BloomDedup.store B ss weakEquality).letThrough filter (s :: states) =
          s :: (BloomDedup.store B ss weakEquality).letThrough
            (BloomDedup.insert B ss weakEquality filter s).2 states := if_pos hnew
      rw [hthrough, List.reverse_cons, List.append_assoc]
      exact hnext
    · have hnext := ih hkept hrest
      have hthrough : (BloomDedup.store B ss weakEquality).letThrough filter (s :: states) =
          (BloomDedup.store B ss weakEquality).letThrough
            (BloomDedup.insert B ss weakEquality filter s).2 states :=
        if_neg fun hnew => Bool.false_ne_true (hold.symm.trans hnew)
      rw [hthrough]
      exact hnext

end Filters

/-- The filter lets no classical state through twice. -/
theorem BloomDedup.lettingOnce (B : BloomFilter) {ss : SearchSpace} (weakEquality : Bool)
    (ht : ¬ ss.isTemporal = true) : (BloomDedup.store B ss weakEquality).LettingOnce := by
  intro given hgiven
  have hpolicy : DedupPolicy.of ss weakEquality ≠ .dominance := by
    have hfalse : ss.isTemporal = false := eq_false_of_ne_true ht
    simp [DedupPolicy.of, hfalse]
  have hstart : BloomDedup.Kept B (BloomDedup.start B ss weakEquality) [] :=
    ⟨List.nodup_nil, fun s hs => absurd hs List.not_mem_nil, B.empty, if_neg hpolicy,
      fun s hs => absurd hs List.not_mem_nil⟩
  have hkept := (hstart.afterAll weakEquality ht hgiven).nodup
  rw [List.append_nil, List.map_reverse, List.nodup_reverse] at hkept
  exact hkept

theorem PrioritizedItem.lt_eq_dual (p q : PrioritizedItem) : PrioritizedItem.lt q p =
    decide (OrderDual.toDual (toLex (p.heuristic, toLex (p.state.todo.entries.length, p.idx))) <
      OrderDual.toDual (toLex (q.heuristic, toLex (q.state.todo.entries.length, q.idx)))) := by
  rw [Bool.eq_iff_iff]
  simp [PrioritizedItem.lt, Prod.Lex.toLex_lt_toLex]

variable [Callables]

namespace BoundedSearch

variable {V : Type}

/-- A memory-bounded search returns the paths of goal states only, holds no more open
items than its bound, and ends where there is a limit or finitely many classical states. -/
theorem memoryBounded_answers (ps : PrioritySearch V) (B : BloomFilter) (heap : MinMaxHeap ps.st.lt)
    (bound : ℕ) (hbound : 0 < bound) (core : Core) (counter : ℕ) :
    (∀ n p, (ps.memoryBounded B heap bound hbound).run core counter n = .inl (.path p) → ∃ as s d,
      Leads ps.ss ps.tn ps.relevantActions as s d ∧ ps.ss.goalReached s = true ∧ p = extractPath s) ∧
    (∀ n l, (ps.memoryBounded B heap bound hbound).run core counter n = .inr l →
      l.openItems.length ≤ bound) ∧
    (ps.maxExpandedStates ≠ none ∨
      ps.ss.isTemporal = false ∧ FinitelyManyStates ps.ss ps.tn ps.relevantActions →
      ∃ n r, (ps.memoryBounded B heap bound hbound).run core counter n = .inl r) := by
  refine ⟨fun n p h => run_path h, fun n l h => (run_sound h).bound, ?_⟩
  intro hends
  rcases hends with hmax | ⟨hclassical, hfin⟩
  · exact exists_run_of_limit hmax core counter
  · have ht : ¬ ps.ss.isTemporal = true := ne_true_of_eq_false hclassical
    exact exists_run_of_finite ht hfin (BloomDedup.lettingOnce B ps.weakEquality ht) core counter

end BoundedSearch

/-- A heap for each end. -/
def MinMaxHeap.ofQueues {α : Type} {lt : α → α → Bool} (queue : PriorityQueue lt)
    (reversed : PriorityQueue fun x y => lt y x) : MinMaxHeap lt where
  toPriorityQueue := queue
  popMax := reversed.pop
  popMax_eq_none := reversed.pop_eq_none
  popMax_perm := reversed.pop_perm
  popMax_greatest := reversed.pop_least

/-- A heap of the items of `wastar_search`. -/
def PrioritizedItem.heap : MinMaxHeap PrioritizedItem.lt :=
  .ofQueues PrioritizedItem.queue
    (.ofKey (fun p => OrderDual.toDual (toLex (p.heuristic, toLex (p.state.todo.entries.length, p.idx))))
      lt_eq_dual)

end Answers

section Switch

attribute [local instance] Callables.empty

theorem memoryBounded_answers_switch : ∃ n r,
    ((switchSearch .free).memoryBounded .exact PrioritizedItem.heap 1 Nat.one_pos).run .rust 0 n = .inl r ∧
      ∀ p, r = .path p → ∃ as s d, Leads switch .free [⟨0⟩] as s d ∧ switch.goalReached s = true ∧
        p = extractPath s := by
  obtain ⟨hpath, -, hend⟩ := BoundedSearch.memoryBounded_answers (switchSearch .free) .exact
    PrioritizedItem.heap 1 Nat.one_pos .rust 0
  obtain ⟨n, r, hr⟩ := hend (.inr ⟨rfl, switch_finite .free⟩)
  exact ⟨n, r, hr, fun p hp => hpath n p (hp ▸ hr)⟩

end Switch

end TamerLite
