import TamerLite.EnforcedHillClimbing
import TamerLite.SearchCores

/-! The hill climbing of both cores, over any search space and any duplicate
policy: the goals one core tests and the other leaves behind. -/

namespace TamerLite

namespace DedupStore

variable {σ : Type} (d : DedupStore σ)

/-- The look-up alone, which records nothing. -/
def isRedundant (store : d.Store) (s : σ) : Bool := !(d.insertNew store s).1

def insert (store : d.Store) (s : σ) : d.Store := (d.insertNew store s).2

end DedupStore

/-- What hill climbing asks of its search space, where the successors of a state
depend on the state alone. -/
structure ClimbingSpace (σ π : Type) where
  initialState : Option σ
  getSuccessorStates : σ → List σ
  goalReached : σ → Bool
  extractPath : σ → π

/-- The states that can come up in a climb. -/
inductive ClimbingSpace.Reached {σ π : Type} (ss : ClimbingSpace σ π) : σ → Prop
  | initial {s : σ} : ss.initialState = some s → Reached ss s
  | successor {s t : σ} : Reached ss s → t ∈ ss.getSuccessorStates s → Reached ss t

/-- The arguments of `ehc_search`. -/
structure ClimbingTask (σ π K : Type) where
  ss : ClimbingSpace σ π
  heuristic : σ → Option K
  dedup : DedupStore σ
  maxExpandedStates : Option ℕ
  earlyTermination : Bool

namespace ClimbingTask

variable {σ π K : Type} [LinearOrder K]

/-- The variables of a task's loop, the open states first to last. -/
structure Loop (task : ClimbingTask σ π K) where
  openStates : List σ
  closed : task.dedup.Store
  bestH : K
  expandedStates : ℕ
  generatedStates : ℕ

variable (task : ClimbingTask σ π K)

def isEarlyGoal (s : σ) : Bool := task.earlyTermination && task.ss.goalReached s

/-- What a better state does: the queue and the store are wiped. -/
def improve (l : task.Loop) (s : σ) (h : K) : task.Loop :=
  { l with openStates := [s], closed := task.dedup.empty, bestH := h }

/-- The Python loop over the successors: no value is looked at before all of
them are tested for the goal. -/
def candidates (closed : task.dedup.Store) : List σ → π ⊕ List σ
  | [] => .inr []
  | s :: states =>
    if task.isEarlyGoal s then .inl (task.ss.extractPath s)
    else (candidates closed states).map id fun c => if task.dedup.isRedundant closed s then c else s :: c

/-- The Python loop over the candidates, left at the first better one. -/
def evaluate (l : task.Loop) : List σ → task.Loop
  | [] => l
  | s :: states =>
    let l := { l with generatedStates := l.generatedStates + 1 }
    match task.heuristic s with
    | none => evaluate l states
    | some h =>
      if h < l.bestH then task.improve l s h
      else evaluate { l with openStates := l.openStates ++ [s] } states

/-- The Rust loop, which filters, evaluates and tests one successor at a time,
and is left at the first better one. -/
def evaluateEach (l : task.Loop) : List σ → π ⊕ task.Loop
  | [] => .inr l
  | s :: states =>
    if task.dedup.isRedundant l.closed s then evaluateEach l states
    else
      let l := { l with generatedStates := l.generatedStates + 1 }
      if task.isEarlyGoal s then .inl (task.ss.extractPath s)
      else
        match task.heuristic s with
        | none => evaluateEach l states
        | some h =>
          if h < l.bestH then .inr (task.improve l s h)
          else evaluateEach { l with openStates := l.openStates ++ [s] } states

/-- One expansion, after the popped state was recorded and found to be no goal. -/
def expand (core : Core) (l : task.Loop) (successors : List σ) : π ⊕ task.Loop :=
  match core with
  | .python => (task.candidates l.closed successors).map id (task.evaluate l)
  | .rust => task.evaluateEach l successors

/-- The variables an expansion of `state` begins with. -/
def popped (l : task.Loop) (state : σ) (rest : List σ) : task.Loop :=
  { l with
    openStates := rest
    closed := task.dedup.insert l.closed state
    expandedStates := l.expandedStates + 1 }

/-- The loop's body. The Rust core records the popped state after it tested it. -/
def step (core : Core) (l : task.Loop) : SearchAnswer π ⊕ task.Loop :=
  match l.openStates with
  | [] => .inl (.noPath l.expandedStates)
  | state :: rest =>
    if expansionLimitReached l.expandedStates task.maxExpandedStates then .inl .expansionLimitReached
    else if !task.earlyTermination && task.ss.goalReached state then
      .inl (.path (task.ss.extractPath state) (l.expandedStates + 1))
    else
      (task.expand core (task.popped l state rest) (task.ss.getSuccessorStates state)).map
        (fun p => .path p (l.expandedStates + 1)) id

/-- What comes before the loop. -/
def start : SearchAnswer π ⊕ task.Loop :=
  match task.ss.initialState with
  | none => .inl (.noPath 0)
  | some init =>
    if task.isEarlyGoal init then .inl (.path (task.ss.extractPath init) 0)
    else
      match task.heuristic init with
      | none => .inl (.noPath 0)
      | some h => .inr ⟨[init], task.dedup.empty, h, 0, 1⟩

/-- The search, cut off after `n` iterations of its loop. -/
def run (core : Core) (n : ℕ) : SearchAnswer π ⊕ task.Loop :=
  Exploration.iterate (task.step core) n task.start

/-- The successors the Python core tests before the first goal. -/
def beforeGoal (states : List σ) : List σ := states.takeWhile fun t => !task.ss.goalReached t

/-- No new state that is tested before the goal is better than the best. -/
def Unimproved (l : task.Loop) (states : List σ) : Prop :=
  ∀ t ∈ task.beforeGoal states, task.dedup.isRedundant l.closed t = false →
    ∀ h, task.heuristic t = some h → l.bestH ≤ h

/-- The Rust core gets to the first goal among the successors, if there is one:
its policy lets the goal through, and the batch is not left before. -/
def GetsToGoal (l : task.Loop) (states : List σ) : Prop :=
  ∀ s, states.find? task.ss.goalReached = some s →
    task.dedup.isRedundant l.closed s = false ∧ task.Unimproved l states

def ExpansionGetsToGoal (l : task.Loop) : Prop :=
  ∀ state rest, l.openStates = state :: rest →
    task.GetsToGoal (task.popped l state rest) (task.ss.getSuccessorStates state)

variable {task} {l l' : task.Loop} {s : σ} {states : List σ} {closed : task.dedup.Store}

omit [LinearOrder K] in
theorem isEarlyGoal_of_early (hearly : task.earlyTermination = true) :
    task.isEarlyGoal = task.ss.goalReached := by
  funext s
  simp [isEarlyGoal, hearly]

omit [LinearOrder K] in
theorem candidates_of_goalless (h : ∀ s ∈ states, task.isEarlyGoal s = false) :
    task.candidates closed states = .inr (states.filter fun s => !task.dedup.isRedundant closed s) := by
  induction states with
  | nil => rfl
  | cons s states ih =>
    have hs := h s List.mem_cons_self
    have hrest := ih fun t ht => h t (List.mem_cons_of_mem _ ht)
    cases hr : task.dedup.isRedundant closed s <;> simp [candidates, hs, hr, hrest]

omit [LinearOrder K] in
theorem candidates_of_goal (hearly : task.earlyTermination = true)
    (h : states.find? task.ss.goalReached = some s) :
    task.candidates closed states = .inl (task.ss.extractPath s) := by
  induction states with
  | nil => simp at h
  | cons t states ih =>
    rw [candidates, isEarlyGoal_of_early hearly]
    cases hg : task.ss.goalReached t with
    | true =>
      rw [List.find?_cons_of_pos hg] at h
      simp [Option.some.inj h]
    | false =>
      rw [List.find?_cons_of_neg (by simp [hg])] at h
      simp [ih h]

/-- Without a goal the two loops evaluate the same states and stop at the same one. -/
theorem evaluateEach_of_goalless (h : ∀ s ∈ states, task.isEarlyGoal s = false) :
    task.evaluateEach l states =
      .inr (task.evaluate l (states.filter fun s => !task.dedup.isRedundant l.closed s)) := by
  induction states generalizing l with
  | nil => rfl
  | cons s states ih =>
    have hs := h s List.mem_cons_self
    have hrest : ∀ t ∈ states, task.isEarlyGoal t = false := fun t ht => h t (List.mem_cons_of_mem _ ht)
    rw [evaluateEach]
    by_cases hr : task.dedup.isRedundant l.closed s = true
    · rw [if_pos hr, ih hrest, List.filter_cons_of_neg (by simp [hr])]
    · rw [if_neg hr, List.filter_cons_of_pos (by simp [hr]), evaluate]
      simp only [hs, Bool.false_eq_true, if_false]
      cases hv : task.heuristic s with
      | none => exact ih hrest
      | some v =>
        by_cases hlt : v < l.bestH
        · simp only [hlt, if_true]
        · simp only [hlt, if_false]
          exact ih hrest

/-- The Rust core returns the first goal, if it gets to it. -/
theorem evaluateEach_of_goal (hearly : task.earlyTermination = true)
    (h : states.find? task.ss.goalReached = some s)
    (hnew : task.dedup.isRedundant l.closed s = false) (hun : task.Unimproved l states) :
    task.evaluateEach l states = .inl (task.ss.extractPath s) := by
  induction states generalizing l with
  | nil => simp at h
  | cons t states ih =>
    rw [evaluateEach, isEarlyGoal_of_early hearly]
    cases hg : task.ss.goalReached t with
    | true =>
      rw [List.find?_cons_of_pos hg] at h
      obtain rfl := Option.some.inj h
      simp [hnew]
    | false =>
      rw [List.find?_cons_of_neg (by simp [hg])] at h
      rw [Unimproved, beforeGoal, List.takeWhile_cons_of_pos (by simp [hg])] at hun
      have hrest : task.Unimproved l states := fun u hu => hun u (List.mem_cons_of_mem _ hu)
      by_cases hr : task.dedup.isRedundant l.closed t = true
      · rw [if_pos hr]
        exact ih h hnew hrest
      · rw [if_neg hr]
        simp only [Bool.false_eq_true, if_false]
        cases hv : task.heuristic t with
        | none => exact ih h hnew hrest
        | some v =>
          have hle : l.bestH ≤ v := hun t List.mem_cons_self (by simpa using hr) v hv
          simp only [not_lt.mpr hle, if_false]
          exact ih h hnew hrest

theorem expand_core (h : task.earlyTermination = true → task.GetsToGoal l states) :
    task.expand .python l states = task.expand .rust l states := by
  by_cases hgoal : ∃ s ∈ states, task.isEarlyGoal s = true
  · obtain ⟨t, ht, hgt⟩ := hgoal
    rw [isEarlyGoal, Bool.and_eq_true] at hgt
    obtain ⟨hearly, hgt⟩ := hgt
    have hsome : (states.find? task.ss.goalReached).isSome = true := by
      rw [List.find?_isSome]
      exact ⟨t, ht, hgt⟩
    obtain ⟨s, hs⟩ := Option.isSome_iff_exists.mp hsome
    obtain ⟨hnew, hun⟩ := h hearly s hs
    have hpython : task.candidates l.closed states = .inl (task.ss.extractPath s) :=
      candidates_of_goal hearly hs
    have hrust : task.evaluateEach l states = .inl (task.ss.extractPath s) :=
      evaluateEach_of_goal hearly hs hnew hun
    simp [expand, hpython, hrust]
  · have hnone : ∀ s ∈ states, task.isEarlyGoal s = false := by
      intro s hs
      by_contra hg
      exact hgoal ⟨s, hs, by simpa using hg⟩
    simp [expand, candidates_of_goalless hnone, evaluateEach_of_goalless hnone]

theorem step_core (h : task.earlyTermination = true → task.ExpansionGetsToGoal l) :
    task.step .python l = task.step .rust l := by
  simp only [step]
  cases ho : l.openStates with
  | nil => rfl
  | cons state rest =>
    have he := expand_core fun hearly => h hearly state rest ho
    simp only [he]

theorem run_succ {core : Core} {n : ℕ} :
    task.run core (n + 1) = Sum.elim .inl (task.step core) (task.run core n) :=
  Exploration.iterate_succ _

theorem run_core {n : ℕ} (h : task.earlyTermination = true →
    ∀ m < n, ∀ l, task.run .python m = .inr l → task.ExpansionGetsToGoal l) :
    task.run .python n = task.run .rust n := by
  induction n with
  | zero => rfl
  | succ n ih =>
    have hn := ih fun hearly m hm => h hearly m (Nat.lt_succ_of_lt hm)
    rw [run_succ, run_succ, ← hn]
    cases hl : task.run .python n with
    | inl r => rfl
    | inr l => exact step_core fun hearly => h hearly n (Nat.lt_succ_self n) l hl

/-- The two climbs have given the same answer, or are at the same point, as long
as no expansion passes over its first goal in the Rust core. -/
theorem cores_climb_alike (task : ClimbingTask σ π K) (n : ℕ)
    (h : task.earlyTermination = true →
      ∀ m < n, ∀ l, task.run .python m = .inr l → task.ExpansionGetsToGoal l) :
    (∀ r, task.run .python n = .inl r ↔ task.run .rust n = .inl r) ∧
      ∀ l, task.run .python n = .inr l ↔ task.run .rust n = .inr l := by
  rw [run_core h]
  exact ⟨fun _ => Iff.rfl, fun _ => Iff.rfl⟩

/-! Where a goal is passed over for a better state the two climbs part for good,
since they would answer at different iterations. -/

theorem evaluate_expandedStates : (task.evaluate l states).expandedStates = l.expandedStates := by
  induction states generalizing l with
  | nil => rfl
  | cons s states ih =>
    rw [evaluate]
    cases task.heuristic s with
    | none => exact ih
    | some h =>
      dsimp only
      by_cases hlt : h < l.bestH
      · rw [if_pos hlt]
        rfl
      · rw [if_neg hlt]
        exact ih

theorem evaluateEach_expandedStates (h : task.evaluateEach l states = .inr l') :
    l'.expandedStates = l.expandedStates := by
  induction states generalizing l with
  | nil => exact congrArg Loop.expandedStates (Sum.inr.inj h).symm
  | cons s states ih =>
    rw [evaluateEach] at h
    split_ifs at h with hr hg
    · exact ih h
    · cases hv : task.heuristic s with
      | none =>
        rw [hv] at h
        exact (ih h).trans rfl
      | some v =>
        rw [hv] at h
        dsimp only at h
        split_ifs at h with hlt
        · rw [← Sum.inr.inj h]
          rfl
        · exact (ih h).trans rfl

theorem expand_expandedStates {core : Core} (h : task.expand core l states = .inr l') :
    l'.expandedStates = l.expandedStates := by
  cases core with
  | python =>
    simp only [expand] at h
    cases hc : task.candidates l.closed states with
    | inl p => simp [hc] at h
    | inr c =>
      rw [hc] at h
      rw [← Sum.inr.inj h]
      exact evaluate_expandedStates
  | rust => exact evaluateEach_expandedStates h

theorem step_expandedStates {core : Core} :
    (∀ l', task.step core l = .inr l' → l'.expandedStates = l.expandedStates + 1) ∧
    ∀ p c, task.step core l = .inl (.path p c) → c = l.expandedStates + 1 := by
  rw [step]
  cases l.openStates with
  | nil => simp
  | cons state rest =>
    dsimp only
    split_ifs with hlim hg
    · simp
    · exact ⟨by simp, fun p c h => by simp_all⟩
    · cases he : task.expand core (task.popped l state rest) (task.ss.getSuccessorStates state) with
      | inl p => exact ⟨by simp, fun p c h => by simp_all⟩
      | inr m =>
        refine ⟨fun l' h => ?_, by simp⟩
        rw [← Sum.inr.inj h]
        exact expand_expandedStates he

theorem run_expandedStates {core : Core} {n : ℕ} (h : task.run core n = .inr l) :
    l.expandedStates = n := by
  induction n generalizing l with
  | zero =>
    rw [run, Exploration.iterate, start] at h
    cases hi : task.ss.initialState with
    | none => simp [hi] at h
    | some init =>
      rw [hi] at h
      dsimp only at h
      split_ifs at h
      cases hv : task.heuristic init with
      | none => simp [hv] at h
      | some v =>
        rw [hv] at h
        exact congrArg Loop.expandedStates (Sum.inr.inj h).symm
  | succ n ih =>
    rw [run_succ] at h
    cases hn : task.run core n with
    | inl r => simp [hn] at h
    | inr m =>
      rw [hn] at h
      rw [step_expandedStates.1 l h, ih hn]

/-- A path is returned by the iteration whose number it comes with. -/
theorem run_path {core : Core} {n c : ℕ} {p : π} (h : task.run core n = .inl (.path p c)) :
    task.run core c = .inl (.path p c) := by
  induction n with
  | zero =>
    have hc : c = 0 := by
      rw [run, Exploration.iterate, start] at h
      cases hi : task.ss.initialState with
      | none => simp [hi] at h
      | some init =>
        rw [hi] at h
        dsimp only at h
        split_ifs at h
        · simp_all
        · cases hv : task.heuristic init <;> simp [hv] at h
    rw [hc] at h ⊢
    exact h
  | succ n ih =>
    have hsucc := h
    rw [run_succ] at hsucc
    cases hn : task.run core n with
    | inl r =>
      rw [hn] at hsucc
      exact ih (hn.trans hsucc)
    | inr l =>
      rw [hn] at hsucc
      have hc := step_expandedStates.2 p c hsucc
      rw [run_expandedStates hn] at hc
      rw [hc] at h ⊢
      exact h

/-- The Rust core leaves the batch for a better state it meets before the goal. -/
theorem evaluateEach_of_improved (hearly : task.earlyTermination = true)
    (hun : ¬ task.Unimproved l states) : ∃ l', task.evaluateEach l states = .inr l' := by
  induction states generalizing l with
  | nil => exact absurd (by simp [Unimproved, beforeGoal]) hun
  | cons t states ih =>
    rw [evaluateEach, isEarlyGoal_of_early hearly]
    cases hg : task.ss.goalReached t with
    | true =>
      refine absurd ?_ hun
      rw [Unimproved, beforeGoal, List.takeWhile_cons_of_neg (by simp [hg])]
      simp
    | false =>
      rw [Unimproved, beforeGoal, List.takeWhile_cons_of_pos (by simp [hg]), List.forall_mem_cons] at hun
      by_cases hr : task.dedup.isRedundant l.closed t = true
      · rw [if_pos hr]
        exact ih fun hrest => hun ⟨by simp [hr], hrest⟩
      · rw [if_neg hr]
        simp only [Bool.false_eq_true, if_false]
        cases hv : task.heuristic t with
        | none => exact ih fun hrest => hun ⟨by simp [hv], hrest⟩
        | some v =>
          by_cases hlt : v < l.bestH
          · simp only [hlt, if_true]
            exact ⟨_, rfl⟩
          · simp only [hlt, if_false]
            refine ih fun hrest => hun ⟨fun _ h hh => ?_, hrest⟩
            rw [← Option.some.inj (hv.symm.trans hh)]
            exact not_lt.mp hlt

/-- The Python core answers with a goal that a better state precedes, and the
Rust core never answers so. -/
theorem cores_part {n : ℕ} {state : σ} {rest : List σ} (hearly : task.earlyTermination = true)
    (hpython : task.run .python n = .inr l) (hrust : task.run .rust n = .inr l)
    (hopen : l.openStates = state :: rest)
    (hlim : expansionLimitReached l.expandedStates task.maxExpandedStates = false)
    (hgoal : (task.ss.getSuccessorStates state).find? task.ss.goalReached = some s)
    (hun : ¬ task.Unimproved (task.popped l state rest) (task.ss.getSuccessorStates state)) :
    task.run .python (n + 1) = .inl (.path (task.ss.extractPath s) (n + 1)) ∧
      ∀ m, task.run .rust m ≠ .inl (.path (task.ss.extractPath s) (n + 1)) := by
  have hn := run_expandedStates hpython
  obtain ⟨l', hl'⟩ := evaluateEach_of_improved hearly hun
  have hstep : task.step .rust l = .inr l' := by
    simp [step, hopen, hlim, hearly, expand, hl']
  constructor
  · rw [run_succ, hpython, ← hn]
    simp [step, hopen, hlim, hearly, expand, candidates_of_goal hearly hgoal]
  · intro m hm
    have hm := run_path hm
    rw [run_succ, hrust] at hm
    exact absurd (hstep.symm.trans hm) (by simp)

/-! A policy that lets a goal through, as long as it was given none, leaves only
the order of the successors to part the cores. -/

/-- While the Python core looks for an early goal, nothing it holds is one. -/
structure Goalless (task : ClimbingTask σ π K) (l : task.Loop) : Prop where
  opened : ∀ s ∈ l.openStates, task.ss.Reached s ∧ task.ss.goalReached s = false
  recorded : ∃ given, l.closed = task.dedup.after given ∧
    ∀ s ∈ given, task.ss.Reached s ∧ task.ss.goalReached s = false

omit [LinearOrder K] in
theorem Goalless.popped {state : σ} {rest : List σ} (h : Goalless task l)
    (hopen : l.openStates = state :: rest) : Goalless task (task.popped l state rest) := by
  obtain ⟨given, hclosed, hgiven⟩ := h.recorded
  have hall := h.opened
  rw [hopen, List.forall_mem_cons] at hall
  refine ⟨hall.2, given ++ [state], ?_, ?_⟩
  · rw [DedupStore.after_append_singleton, ← hclosed]
    rfl
  · intro s hs
    rcases List.mem_append.mp hs with hs | hs
    · exact hgiven s hs
    · exact List.mem_singleton.mp hs ▸ hall.1

theorem Goalless.evaluate (h : Goalless task l)
    (hstates : ∀ s ∈ states, task.ss.Reached s ∧ task.ss.goalReached s = false) :
    Goalless task (task.evaluate l states) := by
  induction states generalizing l with
  | nil => exact h
  | cons s states ih =>
    rw [List.forall_mem_cons] at hstates
    rw [ClimbingTask.evaluate]
    cases task.heuristic s with
    | none => exact ih ⟨h.opened, h.recorded⟩ hstates.2
    | some v =>
      dsimp only
      by_cases hlt : v < l.bestH
      · rw [if_pos hlt]
        refine ⟨fun t ht => ?_, [], rfl, by simp⟩
        exact List.mem_singleton.mp ht ▸ hstates.1
      · rw [if_neg hlt]
        refine ih ⟨fun t ht => ?_, h.recorded⟩ hstates.2
        rcases List.mem_append.mp ht with ht | ht
        · exact h.opened t ht
        · exact List.mem_singleton.mp ht ▸ hstates.1

theorem Goalless.step (hearly : task.earlyTermination = true) (h : Goalless task l)
    (hl : task.step .python l = .inr l') : Goalless task l' := by
  rw [ClimbingTask.step] at hl
  cases ho : l.openStates with
  | nil => simp [ho] at hl
  | cons state rest =>
    rw [ho] at hl
    dsimp only at hl
    split_ifs at hl with hlim hg
    have hreach : ∀ t ∈ task.ss.getSuccessorStates state, task.ss.Reached t := fun t ht =>
      .successor (h.opened state (ho ▸ List.mem_cons_self)).1 ht
    cases hf : (task.ss.getSuccessorStates state).find? task.ss.goalReached with
    | some s => simp [expand, candidates_of_goal hearly hf] at hl
    | none =>
      have hnone := List.find?_eq_none.mp hf
      have hgoalless : ∀ t ∈ task.ss.getSuccessorStates state, task.isEarlyGoal t = false := by
        intro t ht
        rw [isEarlyGoal_of_early hearly]
        simpa using hnone t ht
      simp only [expand, candidates_of_goalless hgoalless, Sum.map_inr, id_eq, Sum.inr.injEq] at hl
      rw [← hl]
      refine (h.popped ho).evaluate fun t ht => ?_
      have hmem := List.mem_of_mem_filter ht
      exact ⟨hreach t hmem, by simpa using hnone t hmem⟩

theorem run_goalless (hearly : task.earlyTermination = true) {n : ℕ}
    (h : task.run .python n = .inr l) : Goalless task l := by
  induction n generalizing l with
  | zero =>
    rw [run, Exploration.iterate, start] at h
    cases hi : task.ss.initialState with
    | none => simp [hi] at h
    | some init =>
      rw [hi, isEarlyGoal_of_early hearly] at h
      dsimp only at h
      split_ifs at h with hg
      cases hv : task.heuristic init with
      | none => simp [hv] at h
      | some v =>
        rw [hv] at h
        obtain rfl := Sum.inr.inj h
        refine ⟨fun s hs => ?_, [], rfl, by simp⟩
        obtain rfl := List.mem_singleton.mp hs
        exact ⟨.initial hi, by simpa using hg⟩
  | succ n ih =>
    rw [run_succ] at h
    cases hn : task.run .python n with
    | inl r => simp [hn] at h
    | inr m =>
      rw [hn] at h
      exact (ih hn).step hearly h

/-- Such a policy finds the goal new, so that only a better state can keep the
Rust core from it. -/
theorem expansionGetsToGoal_iff
    (hpass : task.dedup.PassesFirstGoal task.ss.Reached task.ss.goalReached)
    (h : Goalless task l) : task.ExpansionGetsToGoal l ↔
      ∀ state rest s, l.openStates = state :: rest →
        (task.ss.getSuccessorStates state).find? task.ss.goalReached = some s →
        task.Unimproved (task.popped l state rest) (task.ss.getSuccessorStates state) := by
  constructor
  · intro hall state rest s ho hf
    exact (hall state rest ho s hf).2
  · intro hall state rest ho s hf
    refine ⟨?_, hall state rest s ho hf⟩
    obtain ⟨given, hclosed, hgiven⟩ := (h.popped ho).recorded
    have hreach : task.ss.Reached s :=
      .successor (h.opened state (ho ▸ List.mem_cons_self)).1 (List.mem_of_find?_eq_some hf)
    have hgoal : task.ss.goalReached s = true := List.find?_some hf
    rw [DedupStore.isRedundant, hclosed, hpass given s hgiven hreach hgoal]
    rfl

/-- With such a policy, and no limit, the cores agree exactly when no better
state precedes a goal. -/
theorem cores_climb_alike_iff (hearly : task.earlyTermination = true)
    (hmax : task.maxExpandedStates = none)
    (hpass : task.dedup.PassesFirstGoal task.ss.Reached task.ss.goalReached) :
    (∀ n, task.run .python n = task.run .rust n) ↔
      ∀ n l, task.run .python n = .inr l → task.ExpansionGetsToGoal l := by
  constructor
  · intro hall n l hn
    rw [expansionGetsToGoal_iff hpass (run_goalless hearly hn)]
    intro state rest s ho hf
    by_contra hun
    have hlim : expansionLimitReached l.expandedStates task.maxExpandedStates = false := by
      simp [expansionLimitReached, hmax]
    obtain ⟨hp, hr⟩ := cores_part hearly hn ((hall n).symm.trans hn) ho hlim hf hun
    exact hr (n + 1) ((hall (n + 1)).symm.trans hp)
  · intro hall n
    exact run_core fun _ m _ l hm => hall m l hm

end ClimbingTask

/-! The concrete hill climbing of a problem without temporal actions is such a
climb: the id counter never moves. -/

/-- What the concrete search answers, which counts nothing. -/
def SearchAnswer.outcome : SearchAnswer (List Action) → SearchOutcome
  | path p _ => .path p
  | noPath _ => .noPath
  | expansionLimitReached => .expansionLimitReached

namespace EnforcedHillClimbing

variable [Callables] {V : Type} [LinearOrder V] (ehc : EnforcedHillClimbing V) (counter : ℕ)

def climbingTask : ClimbingTask State (List Action) V where
  ss :=
    { initialState := ehc.ss.initial ehc.tn counter
      getSuccessorStates := fun s => (ehc.ss.getSuccessorStates ehc.tn
        (initialCounter ehc.ss counter) s ehc.relevantActions).1
      goalReached := ehc.ss.goalReached
      extractPath := extractPath }
  heuristic := fun s => ehc.heuristic s.assignments
  dedup := VisitedStates.dedupStore ehc.ss ehc.tn ehc.weakEquality
  maxExpandedStates := ehc.maxExpandedStates
  earlyTermination := ehc.earlyTermination

/-- The variables of the concrete loop, with the counter where it stays. -/
def withCounter (l : (ehc.climbingTask counter).Loop) : ClimbingLoop V :=
  ⟨l.openStates, l.closed, l.bestH, initialCounter ehc.ss counter, l.expandedStates, l.generatedStates⟩

variable {ehc counter} {core : Core} {l : (ehc.climbingTask counter).Loop} {states : List State}

omit [LinearOrder V] in
theorem isRedundant_withCounter (s : State) : ehc.isRedundant (ehc.withCounter counter l) s =
    (ehc.climbingTask counter).dedup.isRedundant l.closed s := by
  simp [DedupStore.isRedundant, isRedundant, climbingTask, VisitedStates.dedupStore, withCounter]

variable (counter) in
omit [LinearOrder V] in
theorem isEarlyGoal_withCounter (s : State) :
    ehc.isEarlyGoal s = (ehc.climbingTask counter).isEarlyGoal s := rfl

omit [LinearOrder V] in
theorem candidates_withCounter : ehc.candidates (ehc.withCounter counter l) states =
    Sum.elim .error .ok ((ehc.climbingTask counter).candidates l.closed states) := by
  induction states with
  | nil => rfl
  | cons s states ih =>
    rw [candidates, ClimbingTask.candidates, ih, isRedundant_withCounter,
      isEarlyGoal_withCounter counter]
    by_cases hg : (ehc.climbingTask counter).isEarlyGoal s = true
    · rw [if_pos hg, if_pos hg]
      rfl
    · rw [if_neg hg, if_neg hg]
      cases (ehc.climbingTask counter).candidates l.closed states <;> rfl

theorem evaluate_withCounter : ehc.evaluate (ehc.withCounter counter l) states =
    ehc.withCounter counter ((ehc.climbingTask counter).evaluate l states) := by
  induction states generalizing l with
  | nil => rfl
  | cons s states ih =>
    have hh : (ehc.climbingTask counter).heuristic s = ehc.heuristic s.assignments := rfl
    rw [evaluate, ClimbingTask.evaluate, hh]
    cases ehc.heuristic s.assignments with
    | none => exact ih (l := { l with generatedStates := l.generatedStates + 1 })
    | some h =>
      dsimp only
      by_cases hlt : h < l.bestH
      · rw [if_pos hlt, if_pos (show h < (ehc.withCounter counter l).bestH from hlt)]
        rfl
      · rw [if_neg hlt, if_neg (show ¬ h < (ehc.withCounter counter l).bestH from hlt)]
        exact ih (l := { l with
          generatedStates := l.generatedStates + 1
          openStates := l.openStates ++ [s] })

theorem evaluateEach_withCounter : ehc.evaluateEach (ehc.withCounter counter l) states =
    Sum.elim .error (fun l => .ok (ehc.withCounter counter l))
      ((ehc.climbingTask counter).evaluateEach l states) := by
  induction states generalizing l with
  | nil => rfl
  | cons s states ih =>
    have hh : (ehc.climbingTask counter).heuristic s = ehc.heuristic s.assignments := rfl
    rw [evaluateEach, ClimbingTask.evaluateEach, isRedundant_withCounter,
      isEarlyGoal_withCounter counter, hh]
    by_cases hr : (ehc.climbingTask counter).dedup.isRedundant l.closed s = true
    · rw [if_pos hr, if_pos hr]
      exact ih
    · rw [if_neg hr, if_neg hr]
      dsimp only
      by_cases hg : (ehc.climbingTask counter).isEarlyGoal s = true
      · rw [if_pos hg, if_pos hg]
        rfl
      · rw [if_neg hg, if_neg hg]
        cases ehc.heuristic s.assignments with
        | none => exact ih (l := { l with generatedStates := l.generatedStates + 1 })
        | some h =>
          dsimp only
          by_cases hlt : h < l.bestH
          · rw [if_pos hlt, if_pos (show h < (ehc.withCounter counter l).bestH from hlt)]
            rfl
          · rw [if_neg hlt, if_neg (show ¬ h < (ehc.withCounter counter l).bestH from hlt)]
            exact ih (l := { l with
              generatedStates := l.generatedStates + 1
              openStates := l.openStates ++ [s] })

theorem expand_withCounter (core : Core) (ht : ¬ ehc.ss.isTemporal = true) (s : State) :
    ehc.expand core s (ehc.withCounter counter l) =
      Sum.elim .error (fun l => .ok (ehc.withCounter counter l))
        ((ehc.climbingTask counter).expand core l ((ehc.climbingTask counter).ss.getSuccessorStates s)) := by
  have hcounter : (ehc.ss.getSuccessorStates ehc.tn (ehc.withCounter counter l).counter s
      ehc.relevantActions).2 = initialCounter ehc.ss counter := by
    rw [getSuccessorStates_classical ht]
    rfl
  simp only [expand, hcounter]
  cases core with
  | python =>
    have hc : ehc.candidates (ehc.withCounter counter l)
        ((ehc.climbingTask counter).ss.getSuccessorStates s) = _ := candidates_withCounter
    refine (congrArg (Except.map (ehc.evaluate (ehc.withCounter counter l))) hc).trans ?_
    simp only [ClimbingTask.expand]
    cases (ehc.climbingTask counter).candidates l.closed
        ((ehc.climbingTask counter).ss.getSuccessorStates s) with
    | inl p => rfl
    | inr c => exact congrArg Except.ok evaluate_withCounter
  | rust => exact evaluateEach_withCounter

/-- An iteration of the concrete search, seen as one of the climb. -/
theorem step_withCounter (ht : ¬ ehc.ss.isTemporal = true) :
    ehc.step core (ehc.withCounter counter l) =
      ((ehc.climbingTask counter).step core l).map SearchAnswer.outcome (ehc.withCounter counter) := by
  have hopen : (ehc.withCounter counter l).openStates = l.openStates := rfl
  have hexpanded : (ehc.withCounter counter l).expandedStates = l.expandedStates := rfl
  have hmax : (ehc.climbingTask counter).maxExpandedStates = ehc.maxExpandedStates := rfl
  have hearly : (ehc.climbingTask counter).earlyTermination = ehc.earlyTermination := rfl
  have hgoal : (ehc.climbingTask counter).ss.goalReached = ehc.ss.goalReached := rfl
  rw [step, ClimbingTask.step, hopen, hexpanded, hmax, hearly, hgoal]
  cases l.openStates with
  | nil => rfl
  | cons state rest =>
    dsimp only
    by_cases hlim : expansionLimitReached l.expandedStates ehc.maxExpandedStates = true
    · rw [if_pos hlim, if_pos hlim]
      rfl
    · rw [if_neg hlim, if_neg hlim]
      by_cases hg : (!ehc.earlyTermination && ehc.ss.goalReached state) = true
      · rw [if_pos hg, if_pos hg]
        rfl
      · rw [if_neg hg, if_neg hg]
        have hexp : ehc.expand core state { ehc.withCounter counter l with
            openStates := rest
            closed := (ehc.withCounter counter l).closed.insert ehc.ss ehc.tn ehc.weakEquality state
            expandedStates := l.expandedStates + 1 } = _ :=
          expand_withCounter core ht state (l := (ehc.climbingTask counter).popped l state rest)
        rw [hexp]
        cases (ehc.climbingTask counter).expand core ((ehc.climbingTask counter).popped l state rest)
          ((ehc.climbingTask counter).ss.getSuccessorStates state) <;> rfl

theorem run_withCounter (ht : ¬ ehc.ss.isTemporal = true) (n : ℕ) : ehc.run core counter n =
    ((ehc.climbingTask counter).run core n).map SearchAnswer.outcome (ehc.withCounter counter) := by
  have hstart : ehc.start counter = (ehc.climbingTask counter).start.map SearchAnswer.outcome
      (ehc.withCounter counter) := by
    have hinit : (ehc.climbingTask counter).ss.initialState = ehc.ss.initial ehc.tn counter := rfl
    rw [start, ClimbingTask.start, hinit]
    cases ehc.ss.initial ehc.tn counter with
    | none => rfl
    | some init =>
      dsimp only
      rw [isEarlyGoal_withCounter counter]
      by_cases hg : (ehc.climbingTask counter).isEarlyGoal init = true
      · rw [if_pos hg, if_pos hg]
        rfl
      · rw [if_neg hg, if_neg hg]
        have hh : (ehc.climbingTask counter).heuristic init = ehc.heuristic init.assignments := rfl
        rw [hh]
        cases ehc.heuristic init.assignments <;> rfl
  rw [run, hstart]
  exact Exploration.iterate_map (fun l => step_withCounter ht) _

omit [LinearOrder V] in
theorem climbingTask_passesFirstGoal : (ehc.climbingTask counter).dedup.PassesFirstGoal
    (ehc.climbingTask counter).ss.Reached (ehc.climbingTask counter).ss.goalReached := by
  have hreach : ∀ s, (ehc.climbingTask counter).ss.Reached s →
      (spaceOf ehc.ss ehc.tn ehc.relevantActions counter).Reached s := by
    intro s hs
    induction hs with
    | @initial s hi =>
      have hinit : (spaceOf ehc.ss ehc.tn ehc.relevantActions counter).initialState =
          some (s, initialCounter ehc.ss counter) := congrArg (Option.map _) hi
      exact .initial hinit
    | @successor s t _ ht ih =>
      have hmem : t ∈ ((spaceOf ehc.ss ehc.tn ehc.relevantActions counter).getSuccessorStates
          (initialCounter ehc.ss counter) s).1 := ht
      exact .successor ih hmem
  intro given s hgiven hs hg
  exact VisitedStates.passesFirstGoal ehc.weakEquality given s
    (fun t ht => ⟨hreach t (hgiven t ht).1, (hgiven t ht).2⟩) (hreach s hs) hg

/-- Where nothing is temporal the two cores climb alike, with early termination
as long as no better state precedes a goal. -/
theorem run_core (ht : ¬ ehc.ss.isTemporal = true) {n : ℕ}
    (h : ehc.earlyTermination = true → ∀ m < n, ∀ l,
      (ehc.climbingTask counter).run .python m = .inr l → ∀ state rest s, l.openStates = state :: rest →
        ((ehc.climbingTask counter).ss.getSuccessorStates state).find? ehc.ss.goalReached = some s →
        (ehc.climbingTask counter).Unimproved ((ehc.climbingTask counter).popped l state rest)
          ((ehc.climbingTask counter).ss.getSuccessorStates state)) :
    ehc.run .python counter n = ehc.run .rust counter n := by
  rw [run_withCounter ht, run_withCounter ht, ClimbingTask.run_core]
  intro hearly m hm l hl
  rw [ClimbingTask.expansionGetsToGoal_iff climbingTask_passesFirstGoal
    (ClimbingTask.run_goalless hearly hl)]
  exact h hearly m hm l hl

end EnforcedHillClimbing

section Switch

attribute [local instance] Callables.empty

/-- The climb of the switch, which may end at a successor. -/
def earlySwitchClimb : ClimbingTask State (List Action) ℚ :=
  { switchClimb with earlyTermination := true }.climbingTask 0

theorem cores_climb_alike_switch : earlySwitchClimb.run .rust 1 = .inl (.path [⟨0⟩] 1) := by
  refine ((earlySwitchClimb.cores_climb_alike 1 fun _ m hm l hl => ?_).1 _).mp rfl
  obtain rfl : m = 0 := by omega
  obtain rfl := Sum.inr.inj hl
  intro state rest ho
  obtain ⟨rfl, rfl⟩ := List.cons.inj ho
  intro s hs
  obtain rfl := Option.some.inj hs
  refine ⟨rfl, ?_⟩
  intro t ht
  exact absurd ht List.not_mem_nil

end Switch

/-- A step from `0` to a dead end that looks better, or to the goal `2`. -/
def detourTask : ClimbingTask ℕ ℕ ℕ where
  ss :=
    { initialState := some 0
      getSuccessorStates := fun s => if s = 0 then [1, 2] else []
      goalReached := fun s => s = 2
      extractPath := id }
  heuristic := fun s => some (2 - s)
  dedup :=
    { Store := List ℕ
      empty := []
      insertNew := fun seen s => (!seen.contains s, s :: seen) }
  maxExpandedStates := none
  earlyTermination := true

/-- One core has seen the goal before it looks at a value, the other follows the
better state and never comes back. -/
theorem detour_parts_cores : detourTask.run .python 1 = .inl (.path 2 1) ∧
    detourTask.run .rust 3 = .inl (.noPath 2) := ⟨rfl, rfl⟩

end TamerLite
