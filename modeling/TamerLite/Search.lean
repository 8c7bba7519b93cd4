import Mathlib.Data.Finset.Card
import Mathlib.Data.List.Sort
import Mathlib.Data.Set.Finite.Basic
import TamerLite.Classical
import TamerLite.Dedup
import TamerLite.Exploration

/-! What the searches share: the successors of a state in the order the search
space yields them, and recording those a store does not hold yet. -/

namespace TamerLite

open SearchSpace

/-- What a search returns or raises. -/
inductive SearchOutcome
  | path (path : List Action)
  | noPath
  | expansionLimitReached
  | raised
deriving DecidableEq, Repr

def extractPath (state : State) : List Action := state.path.map Prod.fst

/-- Whether `check_expansion_limit` raises. -/
def expansionLimitReached (expandedStates : ℕ) (maxExpandedStates : Option ℕ) : Bool :=
  maxExpandedStates.any (· ≤ expandedStates)

/-- A heap: which of several least items `pop` takes is left open. -/
structure PriorityQueue {α : Type} (lt : α → α → Bool) where
  pop : List α → Option (α × List α)
  pop_eq_none : ∀ {q}, pop q = none ↔ q = []
  pop_perm : ∀ {q x rest}, pop q = some (x, rest) → q.Perm (x :: rest)
  pop_least : ∀ {q x rest}, pop q = some (x, rest) → ∀ y ∈ rest, lt y x = false

/-- A heap over items compared by a key. -/
def PriorityQueue.ofKey {α κ : Type} [LinearOrder κ] {lt : α → α → Bool} (key : α → κ)
    (hlt : ∀ x y, lt x y = decide (key x < key y)) : PriorityQueue lt where
  pop := fun q => match q.insertionSort fun x y => key x ≤ key y with
    | [] => none
    | x :: rest => some (x, rest)
  pop_eq_none := by
    intro q
    have hlen := List.length_insertionSort (fun x y => key x ≤ key y) q
    cases hq : q.insertionSort fun x y => key x ≤ key y with
    | nil => simpa [hq, eq_comm] using hlen
    | cons x rest =>
      have hne : q ≠ [] := fun h => by simp [h] at hq
      simp [hne]
  pop_perm := by
    intro q x rest h
    have hperm := List.perm_insertionSort (fun x y => key x ≤ key y) q
    cases hq : q.insertionSort fun x y => key x ≤ key y with
    | nil => simp [hq] at h
    | cons y l =>
      simp only [hq, Option.some.injEq, Prod.mk.injEq] at h
      rw [← h.1, ← h.2, ← hq]
      exact hperm.symm
  pop_least := by
    intro q x rest h y hy
    have hsort := List.pairwise_insertionSort (fun x y => key x ≤ key y) q
    cases hq : q.insertionSort fun x y => key x ≤ key y with
    | nil => simp [hq] at h
    | cons z l =>
      simp only [hq, Option.some.injEq, Prod.mk.injEq] at h
      rw [hq] at hsort
      rw [← h.2] at hy
      simpa [hlt, ← h.1] using (List.pairwise_cons.mp hsort).1 y hy

namespace SearchSpace

variable [Callables] (ss : SearchSpace) (tn : DeltaSimpleTemporalNetwork)

/-- Whether a successor gets as far as `_open_action`, which moves the counter. -/
def reachesOpening (state : State) (a : Action) : Bool :=
  (state.todo.lookup a).isNone && ss.timedAction ≠ some a &&
    ss.symmetryAllowsOpening (state.path.map Prod.fst) a &&
    ((ss.event a 0).any fun e => holds e.2.conditions state.assignments &&
      effectIndependentStartConditionsHold e.2 state.assignments)

/-- `get_successor_states`, with the counter it leaves behind. -/
def getSuccessorStates (counter : ℕ) (state : State) : List Action → List State × ℕ
  | [] => ([], counter)
  | a :: relevantActions =>
    let next := if ss.reachesOpening state a then ss.advance counter state a else counter
    let rest := getSuccessorStates next state relevantActions
    (((ss.getSuccessorState tn counter state a).toList ++ rest.1), rest.2)

end SearchSpace

namespace VisitedStates

variable (ss : SearchSpace) (tn : DeltaSimpleTemporalNetwork) (weakEquality : Bool)

/-- The states that are recorded when `states` are inserted one after the other. -/
def fresh (v : VisitedStates) : List State → List State
  | [] => []
  | s :: states =>
    if isRedundant ss tn weakEquality v s then fresh (v.insert ss tn weakEquality s) states
    else s :: fresh (v.insert ss tn weakEquality s) states

def insertAll (v : VisitedStates) (states : List State) : VisitedStates :=
  states.foldl (insert ss tn weakEquality) v

/-- The loop over the successors that comes before any evaluation: it ends the
search at an early goal, and keeps the states it records as candidates. -/
def collect (isEarlyGoal : State → Bool) (v : VisitedStates) :
    List State → Except (List Action) (List State × VisitedStates)
  | [] => .ok ([], v)
  | s :: states =>
    if isEarlyGoal s then .error (extractPath s)
    else
      let redundant := isRedundant ss tn weakEquality v s
      (collect isEarlyGoal (v.insert ss tn weakEquality s) states).map fun c =>
        (if redundant then c.1 else s :: c.1, c.2)

end VisitedStates

variable {ss : SearchSpace} {tn : DeltaSimpleTemporalNetwork} {weakEquality : Bool}
  {relevantActions : List Action} {s t : State} {c : ℕ} {states : List State} {v : VisitedStates}

namespace VisitedStates

/-- The store tells classical states apart by their assignments. -/
structure Classical (v : VisitedStates) : Prop where
  untimed : ∀ t ∈ v.seen, t.Classical
  nodup : (v.seen.map State.assignments).Nodup

variable (tn weakEquality) in
theorem isRedundant_classical (ht : ¬ ss.isTemporal = true) (hv : v.Classical) :
    isRedundant ss tn weakEquality v s = true ↔ s.assignments ∈ v.seen.map State.assignments := by
  have hrule : rule ss weakEquality s = some .equal := by simp [rule, DedupPolicy.of, ht, DedupPolicy.rule]
  rw [isRedundant, hrule]
  simp only [List.any_eq_true, List.mem_map, sameRepresentation, ht, State.eq]
  refine exists_congr fun t => and_congr_right fun hm => ?_
  simp [(hv.untimed t hm).untimed]

theorem insert_classical (ht : ¬ ss.isTemporal = true) :
    insert ss tn weakEquality v s =
      if isRedundant ss tn weakEquality v s then v else { v with seen := s :: v.seen } := by
  have hrule : rule ss weakEquality s = some .equal := by simp [rule, DedupPolicy.of, ht, DedupPolicy.rule]
  rw [insert, isRedundant, hrule]

theorem mem_of_fresh (h : s ∈ v.fresh ss tn weakEquality states) : s ∈ states := by
  induction states generalizing v with
  | nil => simp [fresh] at h
  | cons t states ih =>
    rw [fresh] at h
    split_ifs at h
    · exact List.mem_cons_of_mem _ (ih h)
    · rcases List.mem_cons.mp h with rfl | h
      · exact List.mem_cons_self
      · exact List.mem_cons_of_mem _ (ih h)

variable {isEarlyGoal : State → Bool} {p : List Action}

theorem collect_error (h : v.collect ss tn weakEquality isEarlyGoal states = .error p) :
    ∃ s ∈ states, isEarlyGoal s = true ∧ p = extractPath s := by
  induction states generalizing v p with
  | nil => simp [collect] at h
  | cons s states ih =>
    rw [collect] at h
    split_ifs at h with hg
    · exact ⟨s, List.mem_cons_self, hg, (Except.error.inj h).symm⟩
    · cases hc : (v.insert ss tn weakEquality s).collect ss tn weakEquality isEarlyGoal states with
      | error q =>
        rw [hc] at h
        obtain ⟨t, ht, hgt, hq⟩ := ih hc
        exact ⟨t, List.mem_cons_of_mem _ ht, hgt, (Except.error.inj h).symm.trans hq⟩
      | ok c => rw [hc] at h; contradiction

theorem collect_ok {c : List State × VisitedStates}
    (h : v.collect ss tn weakEquality isEarlyGoal states = .ok c) :
    c = (v.fresh ss tn weakEquality states, v.insertAll ss tn weakEquality states) ∧
      ∀ s ∈ states, isEarlyGoal s = false := by
  induction states generalizing v c with
  | nil => exact ⟨(Except.ok.inj h).symm, by simp⟩
  | cons s states ih =>
    rw [collect] at h
    split_ifs at h with hg
    cases hc : (v.insert ss tn weakEquality s).collect ss tn weakEquality isEarlyGoal states with
    | error q => rw [hc] at h; contradiction
    | ok d =>
      rw [hc] at h
      obtain ⟨rfl, hrest⟩ := ih hc
      refine ⟨?_, fun t ht => ?_⟩
      · rw [← Except.ok.inj h, fresh]
        rfl
      · rcases List.mem_cons.mp ht with rfl | ht
        · simpa using hg
        · exact hrest t ht

variable (tn weakEquality) in
/-- What is recorded when classical states are inserted: each assignment once. -/
theorem insertAll_classical (ht : ¬ ss.isTemporal = true) (hv : v.Classical)
    (hs : ∀ s ∈ states, s.Classical) :
    (v.insertAll ss tn weakEquality states).Classical ∧
      (v.insertAll ss tn weakEquality states).seen =
        (v.fresh ss tn weakEquality states).reverse ++ v.seen ∧
      ∀ s ∈ states, s.assignments ∈ (v.insertAll ss tn weakEquality states).seen.map State.assignments := by
  induction states generalizing v with
  | nil => exact ⟨hv, by simp [insertAll, fresh], by simp⟩
  | cons s states ih =>
    have hrest : ∀ t ∈ states, t.Classical := fun t h => hs t (List.mem_cons_of_mem _ h)
    rw [insertAll, List.foldl_cons, insert_classical ht, fresh, insert_classical ht]
    by_cases hr : isRedundant ss tn weakEquality v s = true
    · simp only [hr, if_true]
      obtain ⟨hc, hseen, hall⟩ := ih hv hrest
      refine ⟨hc, hseen, fun t h => ?_⟩
      rcases List.mem_cons.mp h with rfl | h
      · have := (isRedundant_classical tn weakEquality ht hv).mp hr
        change t.assignments ∈ (v.insertAll ss tn weakEquality states).seen.map _
        rw [hseen, List.map_append]
        exact List.mem_append_right _ this
      · exact hall t h
    · have hnew := mt (isRedundant_classical tn weakEquality ht hv).mpr hr
      have hv' : Classical { v with seen := s :: v.seen } := by
        refine ⟨fun t h => ?_, List.nodup_cons.mpr ⟨hnew, hv.nodup⟩⟩
        rcases List.mem_cons.mp h with rfl | h
        · exact hs t List.mem_cons_self
        · exact hv.untimed t h
      rw [if_neg hr, if_neg hr]
      obtain ⟨hc, hseen, hall⟩ := ih hv' hrest
      refine ⟨hc, ?_, fun t h => ?_⟩
      · refine hseen.trans ?_
        simp
      · rcases List.mem_cons.mp h with rfl | h
        · change t.assignments ∈ (insertAll ss tn weakEquality _ states).seen.map _
          rw [hseen]
          simp
        · exact hall t h

end VisitedStates

variable [Callables]

theorem getSuccessorStates_classical (ht : ¬ ss.isTemporal = true) :
    ss.getSuccessorStates tn c s relevantActions =
      (relevantActions.filterMap fun a => ss.getSuccessorState tn c s a, c) := by
  induction relevantActions with
  | nil => rfl
  | cons a relevantActions ih =>
    have hadv : ss.advance c s a = c := by simp [advance, ht]
    rw [getSuccessorStates, hadv, ite_self, ih, List.filterMap_cons]
    cases ss.getSuccessorState tn c s a <;> rfl

/-- A goal that lies ahead of a generated state is reached by a run. -/
theorem exists_run_near (ht : ¬ ss.isTemporal = true) (hsym : SymmetrySound ss tn true relevantActions)
    {d k : ℕ} (h : ReachableWithin ss tn true relevantActions s d)
    (hn : Near ss relevantActions k s.assignments) :
    ∃ as t, (∀ a ∈ as, a ∈ relevantActions) ∧ Run ss tn true s d as t d ∧
      ss.goalReached t = true := by
  suffices hfrom : ∀ u as, Run ss tn true s d as u d → (∀ a ∈ as, a ∈ relevantActions) →
      ReachableWithin ss tn true relevantActions u d → Near ss relevantActions k u.assignments →
      ∃ as t, (∀ a ∈ as, a ∈ relevantActions) ∧ Run ss tn true s d as t d ∧
        ss.goalReached t = true from
    hfrom s [] (.refl s d) (by simp) h hn
  clear hn
  induction k with
  | zero =>
    rintro u as hr hrel hu ⟨as', B, hlen, -, hB, hg⟩
    rw [List.length_eq_zero_iff.mp hlen] at hB
    obtain rfl := Option.some.inj hB
    exact ⟨as, u, hrel, hr, (goalReached_classical (hu.classical ht)).trans hg⟩
  | succ k ih =>
    intro u as hr hrel hu hn
    obtain ⟨a, ha, t, hstep, hn'⟩ := exists_step_near ht hsym hu hn
    have hadv : ss.advance d u a = d := by simp [advance, ht]
    have hrun := hr.step le_rfl hstep
    rw [hadv] at hrun
    refine ih t (as ++ [a]) hrun (fun x hx => ?_) (hu.step ht ha hstep) hn'
    rcases List.mem_append.mp hx with hx | hx
    · exact hrel x hx
    · exact List.mem_singleton.mp hx ▸ ha

theorem acceptedWithin_of_goalReached (ht : ¬ ss.isTemporal = true) {d : ℕ}
    (h : ReachableWithin ss tn true relevantActions s d) (hg : ss.goalReached s = true) :
    AcceptedWithin ss tn true relevantActions (extractPath s) := by
  obtain ⟨n, s₀, m, as, h₀, hr, -, hrel⟩ := h
  obtain ⟨hs₀, -, hp⟩ := classical_initial ht h₀
  have hpath : extractPath s = as := by
    rw [extractPath, (run_classical ht hs₀ hr).2.2, hp, List.map_nil, List.nil_append]
  rw [hpath]
  exact ⟨⟨n, s₀, s, m, h₀, hr, hg⟩, hrel⟩

theorem near_of_acceptedWithin (ht : ¬ ss.isTemporal = true) {p : List Action}
    (h : AcceptedWithin ss tn true relevantActions p) :
    Near ss relevantActions p.length ss.initialState := by
  obtain ⟨⟨B, hB, hg⟩, hrel⟩ := (acceptedWithin_free ht).mp (acceptedWithin_withoutSymmetry h)
  exact ⟨p, B, rfl, hrel, hB, hg⟩

/-- A heuristic that gives up no state a goal is reachable from. -/
def SeesGoals (ss : SearchSpace) (tn : DeltaSimpleTemporalNetwork) (relevantActions : List Action)
    {V : Type} (heuristic : State → Option V) : Prop :=
  ∀ s d, ReachableWithin ss tn true relevantActions s d →
    (∃ as t e, (∀ a ∈ as, a ∈ relevantActions) ∧ Run ss tn true s d as t e ∧
      ss.goalReached t = true) → (heuristic s).isSome = true

/-- The reachable states differ in finitely many assignments. -/
def FinitelyManyStates (ss : SearchSpace) (tn : DeltaSimpleTemporalNetwork)
    (relevantActions : List Action) : Prop :=
  {A | ∃ s d, ReachableWithin ss tn true relevantActions s d ∧ s.assignments = A}.Finite

/-- What a search may answer: a path to a goal, or that there is none. -/
def Answers (ss : SearchSpace) (tn : DeltaSimpleTemporalNetwork) (relevantActions : List Action) :
    SearchOutcome → Prop
  | .path p => AcceptedWithin ss tn true relevantActions p
  | .noPath => ∀ p, ¬ AcceptedWithin ss tn true relevantActions p
  | _ => True

def IsSuccessor (ss : SearchSpace) (tn : DeltaSimpleTemporalNetwork) (relevantActions : List Action)
    (d : ℕ) (s t : State) : Prop :=
  ∃ a ∈ relevantActions, ss.getSuccessorState tn d s a = some t

theorem mem_getSuccessorStates (ht : ¬ ss.isTemporal = true) :
    t ∈ (ss.getSuccessorStates tn c s relevantActions).1 ↔
      IsSuccessor ss tn relevantActions c s t := by
  rw [getSuccessorStates_classical ht, List.mem_filterMap]
  rfl

/-- What every search keeps of its store and of the states it expanded, the
states in `openStates` waiting their turn. -/
structure Exploring (ss : SearchSpace) (tn : DeltaSimpleTemporalNetwork)
    (relevantActions : List Action) (d : ℕ) (isEarlyGoal : State → Bool) (store : VisitedStates)
    (openStates expanded : Set State) : Prop where
  classical : store.Classical
  recorded : ∀ s ∈ store.seen, ReachableWithin ss tn true relevantActions s d
  goalless : ∀ s ∈ store.seen, isEarlyGoal s = false
  initial : ss.initialState ∈ store.seen.map State.assignments
  fruitless : ∀ s ∈ expanded, ReachableWithin ss tn true relevantActions s d ∧
    holds ss.goal s.assignments = false
  frontier : Exploration.Frontier State.assignments (IsSuccessor ss tn relevantActions d)
    (Near ss relevantActions) {A | A ∈ store.seen.map State.assignments} openStates expanded

namespace Exploring

variable {d : ℕ} {isEarlyGoal : State → Bool} {store : VisitedStates}
  {openStates openStates' expanded : Set State}

theorem length_le (hfin : FinitelyManyStates ss tn relevantActions)
    (h : Exploring ss tn relevantActions d isEarlyGoal store openStates expanded) :
    store.seen.length ≤ (Set.Finite.toFinset hfin).card := by
  have hnodup := h.classical.nodup
  rw [← List.length_map (f := State.assignments), ← List.toFinset_card_of_nodup hnodup]
  refine Finset.card_le_card fun A hA => ?_
  obtain ⟨s, hs, rfl⟩ := List.mem_map.mp (List.mem_toFinset.mp hA)
  exact (Set.Finite.mem_toFinset hfin).mpr ⟨s, d, h.recorded s hs, rfl⟩

/-- The exploration begins with the initial state. -/
theorem start (ht : ¬ ss.isTemporal = true) (hs : ReachableWithin ss tn true relevantActions s d)
    (has : s.assignments = ss.initialState) (hg : ¬ isEarlyGoal s = true) :
    Exploring ss tn relevantActions d isEarlyGoal ⟨[s], []⟩ {t | s = t} ∅ := by
  refine ⟨⟨?_, by simp⟩, ?_, ?_, by simp [has], by simp, ⟨?_, by simp⟩⟩
  · simp [hs.classical ht]
  · simp [hs]
  · simpa using hg
  · intro A hA k _
    simp only [List.map_cons, List.map_nil, List.mem_singleton, Set.mem_ofPred_eq] at hA
    exact ⟨s, .inl rfl, hA.symm⟩

/-- Once nothing is open, no path leads to a goal. -/
theorem noPath (ht : ¬ ss.isTemporal = true) (hsym : SymmetrySound ss tn true relevantActions)
    (h : Exploring ss tn relevantActions d isEarlyGoal store ∅ expanded) (p : List Action) :
    ¬ AcceptedWithin ss tn true relevantActions p := by
  intro hp
  refine h.frontier.exhausted (fun s hs hn => ?_) (fun s hs k hn => ?_) p.length _ h.initial
    (near_of_acceptedWithin ht hp)
  · obtain ⟨as, B, hlen, -, hB, hg⟩ := hn
    rw [List.length_eq_zero_iff.mp hlen] at hB
    obtain rfl := Option.some.inj hB
    rw [(h.fruitless s hs).2] at hg
    contradiction
  · obtain ⟨a, ha, t, hst, ht'⟩ := exists_step_near ht hsym (h.fruitless s hs).1 hn
    exact ⟨t, ⟨a, ha, hst⟩, ht'⟩

theorem mono (h : Exploring ss tn relevantActions d isEarlyGoal store openStates expanded)
    (hopen : openStates ⊆ openStates') :
    Exploring ss tn relevantActions d isEarlyGoal store openStates' expanded :=
  ⟨h.classical, h.recorded, h.goalless, h.initial, h.fruitless, h.frontier.mono hopen⟩

/-- Recording the successors of a fruitless open state. -/
theorem expand (ht : ¬ ss.isTemporal = true)
    (h : Exploring ss tn relevantActions d isEarlyGoal store openStates expanded)
    (hs : ReachableWithin ss tn true relevantActions s d)
    (hgoal : holds ss.goal s.assignments = false)
    (hmem : ∀ t, t ∈ states ↔ IsSuccessor ss tn relevantActions d s t)
    (hopen : ∀ t ∈ openStates, t ∈ openStates' ∨ t = s)
    (hgl : ∀ t ∈ store.fresh ss tn weakEquality states, isEarlyGoal t = false)
    (hnew : ∀ t ∈ store.fresh ss tn weakEquality states,
      ReachableWithin ss tn true relevantActions t d →
      (∃ k, Near ss relevantActions k t.assignments) → t ∈ openStates') :
    Exploring ss tn relevantActions d isEarlyGoal (store.insertAll ss tn weakEquality states)
      openStates' (insert s expanded) := by
  have hreach : ∀ t ∈ states, ReachableWithin ss tn true relevantActions t d := by
    intro t hts
    obtain ⟨a, ha, hst⟩ := (hmem t).mp hts
    exact hs.step ht ha hst
  obtain ⟨hc, hseen, hall⟩ := VisitedStates.insertAll_classical tn weakEquality ht h.classical
    fun t hts => (hreach t hts).classical ht
  have hfresh : ∀ {t}, t ∈ store.fresh ss tn weakEquality states → t ∈ states :=
    VisitedStates.mem_of_fresh
  refine ⟨hc, ?_, ?_, ?_, ?_, ?_⟩
  · rw [hseen]
    intro t hts
    rcases List.mem_append.mp hts with hts | hts
    · exact hreach t (hfresh (List.mem_reverse.mp hts))
    · exact h.recorded t hts
  · rw [hseen]
    intro t hts
    rcases List.mem_append.mp hts with hts | hts
    · exact hgl t (List.mem_reverse.mp hts)
    · exact h.goalless t hts
  · rw [hseen, List.map_append]
    exact List.mem_append_right _ h.initial
  · intro t hts
    rcases Set.mem_insert_iff.mp hts with rfl | hts
    · exact ⟨hs, hgoal⟩
    · exact h.fruitless t hts
  · refine h.frontier.expand (fun A hA => ?_) hopen (fun t hst => hall t ((hmem t).mpr hst)) ?_
    · simp only [Set.mem_ofPred_eq, hseen, List.map_append] at hA ⊢
      exact List.mem_append_right _ hA
    · intro A hA hold k hk
      simp only [Set.mem_ofPred_eq, hseen, List.map_append] at hA hold
      obtain ⟨t, hts, rfl⟩ := List.mem_map.mp ((List.mem_append.mp hA).resolve_right hold)
      have hts' := List.mem_reverse.mp hts
      exact ⟨t, hnew t hts' (hreach t (hfresh hts')) ⟨k, hk⟩, rfl⟩

end Exploring

section Switch

attribute [local instance] Callables.empty

/-- One action, which turns the only fluent on. -/
def switch : SearchSpace := SearchSpace.ofTable
  [(none, [(⟨true, 0⟩, ⟨⟨0⟩, 0, [.constant (.bool true)], [], [], [⟨⟨0⟩, [.constant (.bool true)]⟩]⟩)])]
  [.bool false] [.fluent ⟨0⟩]

theorem switch_apply {A B : Assignments} (hA : A = [.bool false] ∨ A = [.bool true])
    (h : switch.apply A ⟨0⟩ = some B) : B = [.bool true] := by
  rcases hA with rfl | rfl <;> exact (Option.some.inj h).symm

theorem switch_assignments (as : List Action) {A B : Assignments} (hrel : ∀ a ∈ as, a ∈ [⟨0⟩])
    (hA : A = [.bool false] ∨ A = [.bool true]) (h : switch.applyAll A as = some B) :
    B = [.bool false] ∨ B = [.bool true] := by
  induction as generalizing A with
  | nil => exact Option.some.inj h ▸ hA
  | cons a as ih =>
    obtain ⟨A', hA', hrest⟩ := applyAll_cons.mp h
    obtain rfl := List.mem_singleton.mp (hrel a List.mem_cons_self)
    exact ih (fun x hx => hrel x (List.mem_cons_of_mem _ hx)) (.inr (switch_apply hA hA')) hrest

theorem switch_finite (tn : DeltaSimpleTemporalNetwork) : FinitelyManyStates switch tn [⟨0⟩] := by
  refine Set.Finite.subset (Set.toFinite {[.bool false], [.bool true]}) ?_
  rintro A ⟨s, d, hs, rfl⟩
  obtain ⟨hall, hrel⟩ := hs.path (by decide)
  exact switch_assignments _ hrel (.inl rfl) hall

end Switch

end TamerLite
