import TamerLite.Symmetry

/-! Search spaces without temporal actions: a successor depends on the
assignments alone, apart from what symmetry breaking refuses. -/

namespace TamerLite

open SearchSpace

namespace SearchSpace

variable [Callables]

/-- What applying an action does to the assignments. -/
def apply (ss : SearchSpace) (assignments : Assignments) (a : Action) : Option Assignments := do
  let events ← ss.events a
  let e ← events[0]?
  if holds e.2.conditions assignments && effectIndependentStartConditionsHold e.2 assignments then
    let removed ← removeAll e.2.endConditions 0
    let new ← applyEffects e.2.effects assignments assignments
    if e.2.effects ≠ [] ∧ ¬ ∀ c ∈ removed + e.2.startConditions, holds c new then none
    else some new
  else none

def applyAll (ss : SearchSpace) (assignments : Assignments) (as : List Action) :
    Option Assignments :=
  as.foldlM ss.apply assignments

end SearchSpace

/-- A state of a search space without temporal actions. -/
structure State.Classical (s : State) : Prop where
  idle : s.todo = ∅
  inactive : s.activeConditions = 0
  untimed : s.temporalNetwork = none

/-- The state after an action. -/
def State.after (s : State) (a : Action) (counter : ℕ) (assignments : Assignments) : State :=
  { s with assignments := assignments, g := s.g + 1, path := s.path ++ [(a, 0, counter)] }

theorem State.Classical.after {s : State} (h : s.Classical) (a : Action) (n : ℕ)
    (as : Assignments) : (s.after a n as).Classical :=
  ⟨h.idle, h.inactive, h.untimed⟩

variable {ss : SearchSpace} {tn : DeltaSimpleTemporalNetwork} {b : Bool}
  {s t : State} {c d : ℕ} {a : Action} {as : List Action}

theorem removeAll_zero {cs : List Expression} {m : Multiset Expression}
    (h : removeAll cs 0 = some m) : cs = [] ∧ m = 0 := by
  cases cs with
  | nil => exact ⟨rfl, (Option.some.inj h).symm⟩
  | cons c cs => simp [removeAll] at h

/-- The only event of an action opens what it closes. -/
theorem startConditions_of_classical (ht : ¬ ss.isTemporal = true) {le : List (Timing × Event)}
    {te : Timing × Event} (hle : ss.events a = some le) (hte : le[0]? = some te)
    (hc : te.2.endConditions = []) : te.2.startConditions = [] := by
  have hlen := length_eq_one_of_not_temporal ht hle
  obtain ⟨te', rfl⟩ := List.length_eq_one_iff.mp hlen
  obtain rfl := Option.some.inj hte
  have hbal := ss.events_balanced (by simp [timedAction_of_not_temporal ht]) hle
  simpa [opened, closed, hc] using hbal

variable [Callables]

theorem applyAll_append {A : Assignments} {as bs : List Action} :
    ss.applyAll A (as ++ bs) = (ss.applyAll A as).bind fun B => ss.applyAll B bs := by
  simp [applyAll, List.foldlM_append]

theorem applyAll_cons {A B : Assignments} : ss.applyAll A (a :: as) = some B ↔
    ∃ A', ss.apply A a = some A' ∧ ss.applyAll A' as = some B := by
  simp [applyAll, Option.bind_eq_some_iff]

theorem applyAll_concat {A B : Assignments} : ss.applyAll A (as ++ [a]) = some B ↔
    ∃ A', ss.applyAll A as = some A' ∧ ss.apply A' a = some B := by
  rw [applyAll_append, Option.bind_eq_some_iff]
  simp [applyAll]

theorem apply_eq_some (ht : ¬ ss.isTemporal = true) {A B : Assignments} : ss.apply A a = some B ↔
    ∃ le te, ss.events a = some le ∧ le[0]? = some te ∧ holds te.2.conditions A = true ∧
      effectIndependentStartConditionsHold te.2 A = true ∧ te.2.endConditions = [] ∧
      te.2.startConditions = [] ∧ applyEffects te.2.effects A A = some B := by
  simp only [apply, Option.bind_eq_bind, Option.bind_eq_some_iff]
  constructor
  · rintro ⟨le, hle, te, hte, h⟩
    split_ifs at h with hc
    obtain ⟨m, hm, h⟩ := Option.bind_eq_some_iff.mp h
    obtain ⟨new, hnew, h⟩ := Option.bind_eq_some_iff.mp h
    split_ifs at h
    obtain rfl := Option.some.inj h
    obtain ⟨hend, -⟩ := removeAll_zero hm
    rw [Bool.and_eq_true] at hc
    exact ⟨le, te, hle, hte, hc.1, hc.2, hend, startConditions_of_classical ht hle hte hend, hnew⟩
  · rintro ⟨le, te, hle, hte, hc, hi, hend, hstart, hnew⟩
    refine ⟨le, hle, te, hte, ?_⟩
    simp [hc, hi, hend, hstart, hnew, removeAll]

/-- A successor is what the action does to the assignments, unless symmetry
breaking refuses it. -/
theorem step_classical (ht : ¬ ss.isTemporal = true) (hs : s.Classical) :
    ss.getSuccessorStateWithCompression tn d s a b = some t ↔
      ss.symmetryAllowsOpening (s.path.map Prod.fst) a = true ∧
        ∃ A, ss.apply s.assignments a = some A ∧ t = s.after a d A := by
  have hlook : s.todo.lookup a = none := by rw [hs.idle, AList.lookup_empty]
  have hlen : ∀ {le}, ss.events a = some le → le.length = 1 :=
    fun h => length_eq_one_of_not_temporal ht h
  have hplain : compressesState ss b s a = false := by
    cases hle : ss.events a with
    | none => simp [compressesState, hle]
    | some le => simp [compressesState, hle, hlen hle]
  rw [getSuccessorStateWithCompression_eq_some, getSuccessorState_eq_some, hplain]
  simp only [hlook, timedAction_of_not_temporal ht, reduceCtorEq, false_and, and_false, exists_false,
    false_or, or_false, true_and, ne_eq, not_false_eq_true, Bool.false_eq_true]
  constructor
  · rintro ⟨le, te, hle, hsym, hte, hc, hi, h⟩
    rw [openAction_eq hle hte] at h
    obtain ⟨removed, A, hr, hA, -, net, hnet, rfl⟩ := expandEvent_eq_some.mp h
    have hact : s.activeConditions = 0 := hs.inactive
    simp only [hact] at hr
    obtain ⟨hend, rfl⟩ := removeAll_zero hr
    have hstart := startConditions_of_classical ht hle hte hend
    obtain ⟨ha, hp⟩ := (ss.events_numbered hle).2 hte
    refine ⟨hsym, A, (apply_eq_some ht).mpr ⟨le, te, hle, hte, hc, hi, hend, hstart, hA⟩, ?_⟩
    rw [Accepts, if_neg ht] at hnet
    simp [State.after, hlen hle, hstart, hact, ha, hp, hnet, ht, hs.untimed]
  · rintro ⟨hsym, A, hA, rfl⟩
    obtain ⟨le, te, hle, hte, hc, hi, hend, hstart, hA⟩ := (apply_eq_some ht).mp hA
    obtain ⟨ha, hp⟩ := (ss.events_numbered hle).2 hte
    refine ⟨le, te, hle, hsym, hte, hc, hi, ?_⟩
    rw [openAction_eq hle hte]
    refine expandEvent_eq_some.mpr ⟨0, A, ?_, hA, ?_, none, ?_, ?_⟩
    · simp [hend, removeAll, hs.inactive]
    · simp [hstart]
    · rw [Accepts, if_neg ht]
    · simp [State.after, hlen hle, hstart, ha, hp, ht, hs.inactive, hs.untimed]

/-- A state the search can generate from the relevant actions, with the shared
id counter at `d` by then. -/
def ReachableWithin (ss : SearchSpace) (tn : DeltaSimpleTemporalNetwork) (b : Bool)
    (relevantActions : List Action) (s : State) (d : ℕ) : Prop :=
  ∃ n s₀ m as, ss.initial tn n = some s₀ ∧ Run ss tn b s₀ (initialCounter ss n) as s m ∧
    m ≤ d ∧ ∀ a ∈ as, a ∈ relevantActions

/-- A goal lies `k` relevant actions ahead. -/
def Near (ss : SearchSpace) (relevantActions : List Action) (k : ℕ) (A : Assignments) : Prop :=
  ∃ as B, as.length = k ∧ (∀ a ∈ as, a ∈ relevantActions) ∧ ss.applyAll A as = some B ∧
    holds ss.goal B = true

variable {relevantActions : List Action} {n k : ℕ} {s₀ : State}

theorem classical_initial (ht : ¬ ss.isTemporal = true) (h : ss.initial tn n = some s₀) :
    s₀.Classical ∧ s₀.assignments = ss.initialState ∧ s₀.path = [] := by
  simp only [initial, timedAction_of_not_temporal ht, if_neg ht, Option.some.injEq] at h
  subst h
  exact ⟨⟨rfl, rfl, rfl⟩, rfl, rfl⟩

theorem exists_initial (tn : DeltaSimpleTemporalNetwork) (ht : ¬ ss.isTemporal = true) (n : ℕ) :
    ∃ s₀, ss.initial tn n = some s₀ := by
  simp [initial, timedAction_of_not_temporal ht]

/-- What a run does is what its actions do to the assignments. -/
theorem run_classical (ht : ¬ ss.isTemporal = true) (hs : s.Classical)
    (h : Run ss tn b s c as t d) : t.Classical ∧ ss.applyAll s.assignments as = some t.assignments ∧
      t.path.map Prod.fst = s.path.map Prod.fst ++ as := by
  induction h with
  | refl c => exact ⟨hs, rfl, by simp⟩
  | step _ _ hstep ih =>
    obtain ⟨hu, hall, hpath⟩ := ih
    obtain ⟨-, A, hA, rfl⟩ := (step_classical ht hu).mp hstep
    refine ⟨hu.after _ _ A, applyAll_concat.mpr ⟨_, hall, hA⟩, ?_⟩
    simp [State.after, hpath]

variable (tn b) in
theorem exists_run_classical (ht : ¬ ss.isTemporal = true) (hoff : ss.actionObjects = none)
    (hs : s.Classical) (c : ℕ) {A : Assignments} (h : ss.applyAll s.assignments as = some A) :
    ∃ t d, Run ss tn b s c as t d ∧ t.assignments = A := by
  induction as using List.reverseRecOn generalizing A with
  | nil => exact ⟨s, c, .refl s c, Option.some.inj h⟩
  | append_singleton as a ih =>
    obtain ⟨A', hA', hA⟩ := applyAll_concat.mp h
    obtain ⟨t, d, hr, rfl⟩ := ih hA'
    have ht' := (run_classical ht hs hr).1
    refine ⟨t.after a d A, _, hr.step le_rfl ((step_classical ht ht').mpr ⟨?_, A, hA, rfl⟩), rfl⟩
    rw [symmetryAllowsOpening, hoff]

theorem goalReached_classical (hs : s.Classical) :
    ss.goalReached s = holds ss.goal s.assignments := by
  rw [goalReached, hs.idle]
  rfl

namespace ReachableWithin

theorem classical (ht : ¬ ss.isTemporal = true)
    (h : ReachableWithin ss tn b relevantActions s d) : s.Classical := by
  obtain ⟨n, s₀, m, as, h₀, hr, -⟩ := h
  exact (run_classical ht (classical_initial ht h₀).1 hr).1

theorem step (ht : ¬ ss.isTemporal = true) (h : ReachableWithin ss tn b relevantActions s d)
    (ha : a ∈ relevantActions)
    (hs : ss.getSuccessorStateWithCompression tn d s a b = some t) :
    ReachableWithin ss tn b relevantActions t d := by
  obtain ⟨n, s₀, m, as, h₀, hr, hm, hrel⟩ := h
  have hadv : ss.advance d s a = d := by simp [advance, ht]
  refine ⟨n, s₀, d, as ++ [a], h₀, by have := hr.step hm hs; rwa [hadv] at this, le_rfl, ?_⟩
  simp only [List.mem_append, List.mem_singleton]
  rintro x (hx | rfl)
  · exact hrel x hx
  · exact ha

/-- The path of a reachable state is a run of the assignments. -/
theorem path (ht : ¬ ss.isTemporal = true) (h : ReachableWithin ss tn b relevantActions s d) :
    ss.applyAll ss.initialState (s.path.map Prod.fst) = some s.assignments ∧
      ∀ a ∈ s.path.map Prod.fst, a ∈ relevantActions := by
  obtain ⟨n, s₀, m, as, h₀, hr, -, hrel⟩ := h
  obtain ⟨hs₀, has, hp⟩ := classical_initial ht h₀
  obtain ⟨-, hall, hpath⟩ := run_classical ht hs₀ hr
  rw [hp, List.map_nil, List.nil_append] at hpath
  rw [hpath, ← has]
  exact ⟨hall, hrel⟩

theorem closed (ht : ¬ ss.isTemporal = true) {actionObjects groups : List (List Object)}
    (hi : Interchangeable ss tn b relevantActions actionObjects groups)
    (h : ReachableWithin ss tn b relevantActions s d) :
    (discipline actionObjects groups hi.nodup).Closed (s.path.map Prod.fst) := by
  obtain ⟨n, s₀, m, as, h₀, hr, -⟩ := h
  obtain ⟨hs₀, -, hp⟩ := classical_initial ht h₀
  generalize initialCounter ss n = c at hr
  clear h₀
  induction hr with
  | refl c =>
    rw [hp]
    exact FirstUse.Discipline.closed_nil
  | step hr _ hstep ih =>
    obtain ⟨hsym, A, -, rfl⟩ := (step_classical ht (run_classical ht hs₀ hr).1).mp hstep
    simp only [State.after, List.map_append, List.map_cons, List.map_nil]
    exact ih.concat (allows_of_symmetryAllowsOpening hi hsym)

end ReachableWithin

theorem acceptedWithin_classical (ht : ¬ ss.isTemporal = true) (hoff : ss.actionObjects = none) :
    AcceptedWithin ss tn b relevantActions as ↔
      (∃ A, ss.applyAll ss.initialState as = some A ∧ holds ss.goal A = true) ∧
        ∀ a ∈ as, a ∈ relevantActions := by
  refine and_congr_left fun _ => ?_
  constructor
  · rintro ⟨n, s₀, s, m, h₀, hr, hg⟩
    obtain ⟨hs₀, has, -⟩ := classical_initial ht h₀
    obtain ⟨hs, hall, -⟩ := run_classical ht hs₀ hr
    rw [goalReached_classical hs] at hg
    exact ⟨s.assignments, has ▸ hall, hg⟩
  · rintro ⟨A, hA, hg⟩
    obtain ⟨s₀, h₀⟩ := exists_initial tn ht 0
    obtain ⟨hs₀, has, -⟩ := classical_initial ht h₀
    rw [← has] at hA
    obtain ⟨s, m, hr, rfl⟩ := exists_run_classical tn b ht hoff hs₀ (initialCounter ss 0) hA
    exact ⟨0, s₀, s, m, h₀, hr, (goalReached_classical (run_classical ht hs₀ hr).1).symm ▸ hg⟩

theorem acceptedWithin_free (ht : ¬ ss.isTemporal = true) :
    AcceptedWithin ss.withoutSymmetry tn b relevantActions as ↔
      (∃ A, ss.applyAll ss.initialState as = some A ∧ holds ss.goal A = true) ∧
        ∀ a ∈ as, a ∈ relevantActions := by
  have hfree : ¬ ss.withoutSymmetry.isTemporal = true := ht
  exact acceptedWithin_classical hfree rfl

/-- From a state the search generated, a goal that lies ahead without symmetry
breaking has a successor one step closer that symmetry breaking allows. -/
theorem exists_step_near (ht : ¬ ss.isTemporal = true)
    (hsym : SymmetrySound ss tn b relevantActions)
    (h : ReachableWithin ss tn b relevantActions s d) (hn : Near ss relevantActions (k + 1) s.assignments) :
    ∃ a ∈ relevantActions, ∃ t, ss.getSuccessorStateWithCompression tn d s a b = some t ∧
      Near ss relevantActions k t.assignments := by
  have hs := h.classical ht
  obtain ⟨as, B, hlen, hrel, hB, hg⟩ := hn
  obtain ⟨a, as, rfl⟩ := List.exists_cons_of_length_eq_add_one hlen
  have hoff : ss.symmetryAllowsOpening (s.path.map Prod.fst) a = true →
      ∃ a ∈ relevantActions, ∃ t, ss.getSuccessorStateWithCompression tn d s a b = some t ∧
        Near ss relevantActions k t.assignments := by
    intro hallow
    obtain ⟨A, hA, hrest⟩ := applyAll_cons.mp hB
    refine ⟨a, hrel a List.mem_cons_self, s.after a d A,
      (step_classical ht hs).mpr ⟨hallow, A, hA, rfl⟩, as, B, by simpa using hlen,
      fun x hx => hrel x (List.mem_cons_of_mem _ hx), hrest, hg⟩
  rcases hsym with hsym | hsym | ⟨actionObjects, groups, hi⟩
  · exact hoff (by rw [symmetryAllowsOpening, hsym])
  · exact hoff (by rw [symmetryAllowsOpening, hsym]; cases ss.actionObjects <;> rfl)
  · -- rename the rest of the plan, keeping the path that leads here
    obtain ⟨hall, hprel⟩ := h.path ht
    have hgood : AcceptedWithin ss.withoutSymmetry tn b relevantActions
        (s.path.map Prod.fst ++ a :: as) := by
      refine (acceptedWithin_free ht).mpr ⟨⟨B, ?_, hg⟩, fun x hx => ?_⟩
      · rw [applyAll_append, hall]
        exact hB
      · exact (List.mem_append.mp hx).elim (hprel x) (hrel x)
    obtain ⟨a', as', hl', hallow, hgood⟩ :=
      FirstUse.Discipline.exists_allows hi.swaps (h.closed ht hi) hgood
    obtain ⟨⟨B', hB', hg'⟩, hrel'⟩ := (acceptedWithin_free ht).mp hgood
    rw [applyAll_append, hall, Option.bind_some] at hB'
    obtain ⟨A, hA, hrest⟩ := applyAll_cons.mp hB'
    obtain ⟨n, hp, -⟩ := hi.prevActions_eq
    have hsym' := symmetryAllowsOpening_of_allows hi.objects_eq hp hallow
    refine ⟨a', hrel' a' (by simp), s.after a' d A, (step_classical ht hs).mpr ⟨hsym', A, hA, rfl⟩,
      as', B', ?_, fun x hx => hrel' x (by simp [hx]), hrest, hg'⟩
    rw [hl']
    simpa using hlen

end TamerLite
