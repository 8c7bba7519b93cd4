import TamerLite.Acceptance
import TamerLite.ActiveConditions
import TamerLite.Progress

/-! A compressed step against its expansion, the events of the action fired one
after another, each by a step of its own. -/

namespace TamerLite

open Difference SearchSpace

/-- What the events of an action before its event `k` leave active for certain. -/
def openAt (le : List (Timing × Event)) : ℕ → Multiset Expression
  | 0 => 0
  | k + 1 =>
    match le[k]? with
    | none => openAt le k
    | some te => openAt le k - Multiset.ofList te.2.endConditions +
      Multiset.ofList te.2.startConditions

theorem openAt_succ {le : List (Timing × Event)} {k : ℕ} {te : Timing × Event}
    (hte : le[k]? = some te) : openAt le (k + 1) =
      openAt le k - Multiset.ofList te.2.endConditions +
        Multiset.ofList te.2.startConditions := by
  rw [openAt, hte]

theorem erase_insert {todo : AList (fun _ : Action => ℕ × ℕ)} {a : Action} {p : ℕ × ℕ} :
    (todo.insert a p).erase a = todo.erase a := by
  simp [AList.insert, AList.erase]

section

variable [Callables]

/-- The later events of `a` ask for nothing but what `a` itself keeps open. -/
def SearchSpace.Covered (ss : SearchSpace) (a : Action) : Prop :=
  ∀ {le : List (Timing × Event)}, ss.events a = some le →
    ∀ {k : ℕ} {te : Timing × Event}, le[k]? = some te → k ≠ 0 → ∀ assignments,
      (∀ x ∈ openAt le k, holds x assignments = true) → holds te.2.conditions assignments = true

namespace Config

variable {ss : SearchSpace} {c c' : Config} {a : Action} {le rest : List (Timing × Event)}
  {te : Timing × Event} {j k : ℕ}

/-- What the events before `k` leave active for certain is active. -/
theorem openAt_fire {todo : AList (fun _ : Action => ℕ × ℕ)} {is : List Instance}
    (h : openAt le k ≤ c.active) (hte : le[k]? = some te)
    (hf : c.fire te.2 (j, k) todo is = some c') : openAt le (k + 1) ≤ c'.active := by
  obtain ⟨removed, as, hr, -, -, rfl⟩ := fire_eq_some.mp hf
  rw [openAt_succ hte]
  refine add_le_add ?_ le_rfl
  rw [tsub_le_iff_right, removeAll_add hr]
  exact h

/-- Firing does not depend on what is still to do. -/
theorem fire_todo {e : Event} {p : ℕ × ℕ} {todo : AList (fun _ : Action => ℕ × ℕ)}
    {is : List Instance} (t todo' : AList (fun _ : Action => ℕ × ℕ)) :
    fire { c with todo := t } e p todo is = some c' ↔
      ∃ d, c.fire e p todo' is = some d ∧ c' = { d with todo := todo } := by
  simp only [fire_eq_some]
  constructor
  · intro h
    obtain ⟨removed, as, hr, ha, hc, rfl⟩ := h
    exact ⟨_, ⟨removed, as, hr, ha, hc, rfl⟩, rfl⟩
  · intro h
    obtain ⟨d, ⟨removed, as, hr, ha, hc, rfl⟩, rfl⟩ := h
    exact ⟨removed, as, hr, ha, hc, rfl⟩

theorem fireRest_cons_todo {t : AList (fun _ : Action => ℕ × ℕ)}
    (todo : AList (fun _ : Action => ℕ × ℕ)) :
    fireRest { c with todo := t } j (te :: rest) k = some c' ↔
      ∃ d, c.fire te.2 (j, k) todo c.instances = some d ∧
        fireRest { d with todo := t } j rest (k + 1) = some c' := by
  rw [fireRest_cons]
  constructor
  · intro h
    obtain ⟨d, hd, hr⟩ := h
    obtain ⟨d', hd', rfl⟩ := (fire_todo t todo).mp hd
    exact ⟨d', hd', hr⟩
  · intro h
    obtain ⟨d, hd, hr⟩ := h
    exact ⟨_, (fire_todo t todo).mpr ⟨d, hd, rfl⟩, hr⟩

/-- The next event of a running action whose later events are covered. -/
theorem step_of_covered (hcov : ss.Covered a) (hwf : c.WellFormed ss) (hacc : openAt le k ≤ c.active)
    (hle : ss.events a = some le) (hl : c.todo.lookup a = some (k, j)) (hte : le[k]? = some te) :
    c.step ss a = some c' ↔ c.fire te.2 (j, k) (nextTodo c.todo a le.length k j) c.instances =
      some c' := by
  have hk := (hwf.todo hl).2.2.1
  have hconds : holds te.2.conditions c.assignments = true := by
    refine hcov hle hte (by omega) c.assignments fun x hx => ?_
    exact hwf.active x (Multiset.mem_of_le hacc hx)
  rw [step_eq_some]
  constructor
  · intro h
    rcases h with ⟨le', k', j', te', hle', hl', hte', -, hf⟩ | ⟨le', te', b, -, hl', -⟩
    · obtain rfl := Option.some.inj (hle.symm.trans hle')
      obtain ⟨rfl, rfl⟩ : k = k' ∧ j = j' := by simpa [hl] using hl'
      obtain rfl := Option.some.inj (hte.symm.trans hte')
      exact hf
    · rw [hl] at hl'
      contradiction
  · exact fun hf => .inl ⟨le, k, j, te, hle, hl, hte, hconds, hf⟩

/-- Firing the rest of an action in a row is taking a step for each event. -/
theorem fireRest_iff_run (hcov : ss.Covered a) (hwf : c.WellFormed ss) (hacc : openAt le k ≤ c.active)
    (hle : ss.events a = some le) (hl : c.todo.lookup a = some (k, j))
    (hrest : le.drop k = te :: rest) :
    fireRest { c with todo := c.todo.erase a } j (te :: rest) k = some c' ↔
      c.run ss (List.replicate (rest.length + 1) a) = some c' := by
  induction rest generalizing c k te with
  | nil =>
    have hte : le[k]? = some te := by
      have := congrArg (fun l => l[0]?) hrest
      simpa using this
    have hlen : le.length ≤ k + 1 := by
      have := congrArg List.length hrest
      simp at this
      omega
    have hstep : ∀ d, c.step ss a = some d ↔ _ :=
      fun d => step_of_covered hcov hwf hacc hle hl hte
    rw [List.length_nil, zero_add, List.replicate_one, run_cons,
      fireRest_cons_todo (nextTodo c.todo a le.length k j)]
    simp only [hstep]
    refine exists_congr fun d => and_congr_right fun hd => ?_
    obtain ⟨removed, as, -, -, -, rfl⟩ := fire_eq_some.mp hd
    simp only [nextTodo, if_pos hlen]
    rfl
  | cons te' rest ih =>
    have hte : le[k]? = some te := by
      have := congrArg (fun l => l[0]?) hrest
      simpa using this
    have hrest' : le.drop (k + 1) = te' :: rest := by
      have := congrArg List.tail hrest
      simpa using this
    have hlen : ¬ le.length ≤ k + 1 := by
      have := congrArg List.length hrest'
      simp at this
      omega
    have hnext : ∀ {d}, c.fire te.2 (j, k) (nextTodo c.todo a le.length k j) c.instances = some d →
        (fireRest { d with todo := c.todo.erase a } j (te' :: rest) (k + 1) = some c' ↔
          d.run ss (List.replicate (rest.length + 1) a) = some c') := by
      intro d hd
      have hwd := hwf.step ((step_of_covered hcov hwf hacc hle hl hte).mpr hd)
      have had := openAt_fire hacc hte hd
      have htodo : d.todo = c.todo.insert a (k + 1, j) := by
        obtain ⟨removed, as, -, -, -, rfl⟩ := fire_eq_some.mp hd
        simp only [nextTodo, if_neg hlen]
      have hd' := ih hwd had (by rw [htodo, AList.lookup_insert]) hrest'
      rwa [htodo, erase_insert] at hd'
    have hstep : ∀ d, c.step ss a = some d ↔ _ :=
      fun d => step_of_covered hcov hwf hacc hle hl hte
    rw [List.length_cons, List.replicate_succ, run_cons,
      fireRest_cons_todo (nextTodo c.todo a le.length k j)]
    simp only [hstep]
    exact exists_congr fun d => and_congr_right fun hd => hnext hd

/-- A compressed step is the run of its events. -/
theorem stepWith_iff_run {b : Bool} (hcov : ss.Covered a) (hwf : c.WellFormed ss)
    (hc : compresses ss b c a = true) (hle : ss.events a = some le) :
    c.stepWith ss b a = some c' ↔ c.run ss (List.replicate le.length a) = some c' := by
  have hlen : 1 < le.length := by
    simp only [compresses, hle, Bool.and_eq_true, decide_eq_true_eq] at hc
    exact hc.2
  obtain ⟨te, te', rest, rfl⟩ : ∃ te te' rest, le = te :: te' :: rest := by
    rcases le with - | ⟨te, - | ⟨te', rest⟩⟩
    · exact absurd hlen (by simp)
    · exact absurd hlen (by simp)
    · exact ⟨te, te', rest, rfl⟩
  have hrest : ∀ {d}, c.step ss a = some d →
      (fireRest { d with todo := d.todo.erase a } c.instances.length (te' :: rest) 1 = some c' ↔
        d.run ss (List.replicate (rest.length + 1) a) = some c') := by
    intro d hd
    obtain ⟨le', te₀, bounds, hle', -, hl, hte, -, hf⟩ := step_of_compresses hc hd
    obtain rfl := Option.some.inj (hle.symm.trans hle')
    have hacc : openAt (te :: te' :: rest) 0 ≤ c.active := Multiset.zero_le _
    exact fireRest_iff_run hcov (hwf.step hd) (openAt_fire hacc hte hf) hle
      (opened_of_compresses hc hle hd).2.1 rfl
  rw [stepWith_eq_some, List.length_cons, List.replicate_succ, run_cons, hc]
  simp only [Bool.true_eq_false, false_and, false_or, true_and]
  constructor
  · intro h
    obtain ⟨d, le', hle', hd, hf⟩ := h
    obtain rfl := Option.some.inj (hle.symm.trans hle')
    exact ⟨d, hd, (hrest hd).mp hf⟩
  · intro h
    obtain ⟨d, hd, hr⟩ := h
    exact ⟨d, _, hle, hd, (hrest hd).mpr hr⟩

/-- What compression reaches is reached event by event. -/
theorem exists_run_of_runWith {b : Bool} {as : List Action} (hwf : c.WellFormed ss)
    (hcov : ∀ a ∈ as, ss.isCompressionSafe a = true → ss.Covered a)
    (hr : c.runWith ss b as = some c') : ∃ as', c.run ss as' = some c' := by
  induction as generalizing c with
  | nil => exact ⟨[], hr⟩
  | cons a as ih =>
    obtain ⟨d, hd, hr⟩ := runWith_cons.mp hr
    obtain ⟨as', hr'⟩ := ih (hwf.stepWith hd) (fun x hx => hcov x (List.mem_cons_of_mem _ hx)) hr
    cases hc : compresses ss b c a with
    | false =>
      rcases stepWith_eq_some.mp hd with ⟨-, hs⟩ | ⟨_, _, hc', -⟩
      · exact ⟨a :: as', run_cons.mpr ⟨d, hs, hr'⟩⟩
      · rw [hc] at hc'
        contradiction
    | true =>
      obtain ⟨le, hle⟩ : ∃ le, ss.events a = some le := by
        cases hle : ss.events a with
        | none => simp [compresses, hle] at hc
        | some le => exact ⟨le, rfl⟩
      have hsafe : ss.isCompressionSafe a = true := by
        simp only [compresses, Bool.and_eq_true] at hc
        exact hc.1.1.2
      have hrun := (stepWith_iff_run (hcov a List.mem_cons_self hsafe) hwf hc hle).mp hd
      refine ⟨List.replicate le.length a ++ as', ?_⟩
      rw [← runWith_false] at hrun hr' ⊢
      rw [runWith_append, hrun]
      exact hr'

end Config

end

/-! ### States -/

/-- Two states that differ in how their constraints are written down at most. -/
structure SameState (s t : State) : Prop where
  assignments : s.assignments = t.assignments
  todo : ∀ a, s.todo.lookup a = t.todo.lookup a
  active : s.activeConditions = t.activeConditions
  path : s.path = t.path
  network : s.temporalNetwork.isSome = t.temporalNetwork.isSome ∧
    ∀ τ, Solves τ (s.temporalNetwork.getD []) ↔ Solves τ (t.temporalNetwork.getD [])

theorem SameState.refl (s : State) : SameState s s :=
  ⟨rfl, fun _ => rfl, rfl, rfl, rfl, fun _ => Iff.rfl⟩

section

variable [Callables]

namespace SearchSpace

variable (ss : SearchSpace) (tn : DeltaSimpleTemporalNetwork)

/-- Events of `a` fired one after another, each as a successor of its own. -/
def fireEvents (a : Action) : ℕ → ℕ → State → Option State
  | 0, _, s => some s
  | n + 1, counter, s => do
    let t ← ss.getSuccessorStateWithCompression tn counter s a false
    fireEvents a n (ss.advance counter s a) t

/-- All the events a compressed successor fires, without compression. -/
def stepwise (counter : ℕ) (s : State) (a : Action) : Option State := do
  let events ← ss.events a
  ss.fireEvents tn a (if (s.todo.lookup a).isNone then events.length else 1) counter s

end SearchSpace

end

variable {ss : SearchSpace} {tn : DeltaSimpleTemporalNetwork}

section

variable [Callables]

theorem fireEvents_succ {a : Action} {n d : ℕ} {s t : State} :
    ss.fireEvents tn a (n + 1) d s = some t ↔
      ∃ s', ss.getSuccessorStateWithCompression tn d s a false = some s' ∧
        ss.fireEvents tn a n (ss.advance d s a) s' = some t := by
  rw [fireEvents, Option.bind_eq_bind, Option.bind_eq_some_iff]

end

namespace Refines

variable {s t : State} {counter d n : ℕ} {c c' : Config} {ids : List ℕ} {a : Action}
  {le : List (Timing × Event)}

/-- States for one configuration, with the same instance ids, are the same. -/
theorem sameState {counter' : ℕ} (htemp : ss.isTemporal = true) (h : Refines ss s counter c ids)
    (h' : Refines ss t counter' c ids) : SameState s t := by
  obtain ⟨hp, -, -, log, hlog, hsol⟩ := h.timed htemp
  obtain ⟨hp', -, -, log', hlog', hsol'⟩ := h'.timed htemp
  refine ⟨h.assignments.trans h'.assignments.symm, fun b => (h.todo b).trans (h'.todo b).symm,
    h.active.trans h'.active.symm, hp.trans hp'.symm, by rw [hlog, hlog']; rfl, fun τ => ?_⟩
  rw [hlog, hlog']
  exact (hsol τ).trans (hsol' τ).symm

variable [Callables]

/-- Firing events of a running action keeps the instances. -/
theorem fireEvents (h : Refines ss s counter c ids) (hwf : c.WellFormed ss) (hd : counter ≤ d)
    (hle : ss.events a = some le)
    (hl : n = 0 ∨ ∃ k j, c.todo.lookup a = some (k, j) ∧ k + n ≤ le.length)
    (hf : ss.fireEvents tn a n d s = some t) :
    ∃ c' m, c.run ss (List.replicate n a) = some c' ∧ Refines ss t m c' ids ∧
      (n = 0 ∨ Checked ss tn t) := by
  induction n generalizing s c counter d with
  | zero =>
    obtain rfl := Option.some.inj hf
    exact ⟨c, counter, rfl, h, .inl rfl⟩
  | succ n ih =>
    obtain ⟨k, j, hl, hk⟩ := hl.resolve_left (by omega)
    obtain ⟨s', hs', hf⟩ := fireEvents_succ.mp hf
    obtain ⟨c', hstep, hr, hc⟩ := h.succ_running hwf hd hl hs'
    have hl' : n = 0 ∨ ∃ k j, c'.todo.lookup a = some (k, j) ∧ k + n ≤ le.length := by
      by_cases hn : n = 0
      · exact .inl hn
      · refine .inr ⟨k + 1, j, ?_, by omega⟩
        rcases Config.step_eq_some.mp hstep with ⟨le', k', j', te, hle', hl', -, -, hfire⟩ |
          ⟨_, _, _, -, hl', -⟩
        · obtain rfl := Option.some.inj (hle.symm.trans hle')
          obtain ⟨rfl, rfl⟩ : k = k' ∧ j = j' := by simpa [hl] using hl'
          obtain ⟨removed, as, -, -, -, rfl⟩ := Config.fire_eq_some.mp hfire
          rw [Config.lookup_nextTodo, if_pos rfl, if_neg (by omega)]
        · rw [hl] at hl'
          contradiction
    obtain ⟨d', m, hrun, ht, hk'⟩ := ih hr (hwf.step hstep) le_rfl hl' hf
    refine ⟨d', m, Config.run_cons.mpr ⟨c', hstep, hrun⟩, ht, .inr ?_⟩
    rcases hk' with rfl | hk'
    · obtain rfl := Option.some.inj hf
      exact hc
    · exact hk'

/-- Steps of the configuration that can be scheduled are successors. -/
theorem exists_fireEvents (hx : tn.Exact) (h : Refines ss s counter c ids) (hwf : c.WellFormed ss)
    (hd : counter ≤ d) (hr : c.run ss (List.replicate n a) = some c') (hsch : Schedulable ss c') :
    ∃ t, ss.fireEvents tn a n d s = some t := by
  induction n generalizing s c counter d ids with
  | zero => exact ⟨s, rfl⟩
  | succ n ih =>
    obtain ⟨c₁, hstep, hr⟩ := Config.run_cons.mp hr
    have hwf₁ := hwf.step hstep
    have hr' : c₁.runWith ss false (List.replicate n a) = some c' := by
      rw [Config.runWith_false]
      exact hr
    obtain ⟨s', ids', hs', href⟩ := h.step hwf hd hstep
      ((hsch.of_runWith hwf₁ hr').acceptable hx hwf₁)
    obtain ⟨t, ht⟩ := ih href hwf₁ le_rfl hr
    exact ⟨t, fireEvents_succ.mpr ⟨s', hs', ht⟩⟩

/-- The first event of an expansion opens the instance the others belong to. -/
theorem fireEvents_opening {b : Bool} (h : Refines ss s counter c ids) (hwf : c.WellFormed ss)
    (hd : counter ≤ d) (hc : c.compresses ss b a = true) (hle : ss.events a = some le)
    (ht : ss.fireEvents tn a le.length d s = some t) :
    ∃ s₁ c₁ ids₁ c' m, ss.getSuccessorStateWithCompression tn d s a false = some s₁ ∧
      c.step ss a = some c₁ ∧ Refines ss s₁ (ss.advance d s a) c₁ ids₁ ∧
      c.run ss (List.replicate le.length a) = some c' ∧ Refines ss t m c' ids₁ ∧
      Checked ss tn t := by
  have hlen : 1 < le.length := by
    simp only [Config.compresses, hle, Bool.and_eq_true, decide_eq_true_eq] at hc
    exact hc.2
  obtain ⟨n, hn⟩ : ∃ n, le.length = n + 1 := ⟨le.length - 1, by omega⟩
  rw [hn] at ht ⊢
  obtain ⟨s₁, hs₁, ht⟩ := fireEvents_succ.mp ht
  obtain ⟨c₁, ids₁, hstep, hr₁, -⟩ := h.succ hwf hd hs₁
  obtain ⟨-, hl₁, -, -⟩ := Config.opened_of_compresses hc hle hstep
  obtain ⟨c', m, hrun, hr, hk⟩ := hr₁.fireEvents (hwf.step hstep) le_rfl hle
    (.inr ⟨1, _, hl₁, by omega⟩) ht
  exact ⟨s₁, c₁, ids₁, c', m, hs₁, hstep, hr₁, Config.run_cons.mpr ⟨c₁, hstep, hrun⟩, hr,
    hk.resolve_left (by omega)⟩

/-- A compressed successor and its expansion are the same state. -/
theorem sameState_of_compressed (h : Refines ss s counter c ids) (hwf : c.WellFormed ss)
    (hd : counter ≤ d) (hcov : ss.Covered a) (hc : c.compresses ss true a = true)
    (hle : ss.events a = some le) {s' : State}
    (hs : ss.getSuccessorStateWithCompression tn d s a true = some s')
    (ht : ss.fireEvents tn a le.length d s = some t) : SameState s' t := by
  obtain ⟨s₁, c₁, ids₁, c', m, hs₁, hstep, hr₁, hrun, hr, -⟩ :=
    h.fireEvents_opening hwf hd hc hle ht
  rcases getSuccessorStateWithCompression_eq_some.mp hs with ⟨hc', -⟩ |
    ⟨-, le', s₁', next, hle', hs₁', hnext, hrest⟩
  · rw [h.compressesState_eq, hc] at hc'
    contradiction
  · obtain rfl := Option.some.inj (hle.symm.trans hle')
    obtain rfl := Option.some.inj (hs₁.symm.trans hs₁')
    -- both go on from the state after the first event, so the ids agree
    obtain ⟨hlen, hl₁, hj, ha⟩ := Config.opened_of_compresses hc hle hstep
    obtain ⟨d', hfire, hr', -⟩ := hr₁.succ_rest (hwf.step hstep) hle hlen hl₁ hj ha hnext hrest
    have hwith : c.stepWith ss true a = some d' :=
      Config.stepWith_eq_some.mpr (.inr ⟨c₁, le, hc, hle, hstep, hfire⟩)
    have hall := (Config.stepWith_iff_run hcov hwf hc hle).mp hwith
    obtain rfl := Option.some.inj (hall.symm.trans hrun)
    have htemp : ss.isTemporal = true := by
      by_contra hnt
      have := length_eq_one_of_not_temporal hnt hle
      omega
    exact hr'.sameState htemp hr

theorem isSome_compressed_iff (hx : tn.Exact) (h : Refines ss s counter c ids)
    (hwf : c.WellFormed ss) (hd : counter ≤ d) (hcov : ss.Covered a)
    (hc : c.compresses ss true a = true) (hle : ss.events a = some le) :
    (ss.getSuccessorStateWithCompression tn d s a true).isSome ↔
      (ss.fireEvents tn a le.length d s).isSome := by
  constructor
  · intro hs
    obtain ⟨s', hs'⟩ := Option.isSome_iff_exists.mp hs
    obtain ⟨c', ids', hwith, hr', hk⟩ := h.succWith hwf hd hs'
    obtain ⟨t, ht⟩ := h.exists_fireEvents hx hwf hd
      ((Config.stepWith_iff_run hcov hwf hc hle).mp hwith)
      (hr'.schedulable (hwf.stepWith hwith) hx hk)
    exact Option.isSome_iff_exists.mpr ⟨t, ht⟩
  · intro ht
    obtain ⟨t, ht⟩ := Option.isSome_iff_exists.mp ht
    obtain ⟨_, _, _, c', m, -, -, -, hrun, hr, hk⟩ := h.fireEvents_opening hwf hd hc hle ht
    have hwith := (Config.stepWith_iff_run hcov hwf hc hle).mpr hrun
    obtain ⟨s', -, hs', -⟩ := h.stepWith hx hwf hd hwith
      (hr.schedulable (hwf.stepWith hwith) hx hk)
    exact Option.isSome_iff_exists.mpr ⟨s', hs'⟩

/-- Where nothing is compressed, a single event is fired either way. -/
theorem stepwise_of_single (tn : DeltaSimpleTemporalNetwork) (d : ℕ) (hle : ss.events a = some le)
    (hsafe : ss.isCompressionSafe a = true)
    (hc : ¬ compressesState ss true s a = true) :
    ss.getSuccessorStateWithCompression tn d s a true =
        ss.getSuccessorStateWithCompression tn d s a false ∧
      ss.stepwise tn d s a = ss.getSuccessorStateWithCompression tn d s a false := by
  have hn : (if (s.todo.lookup a).isNone then le.length else 1) = 1 := by
    split_ifs with hl
    · have hpos := List.length_pos_iff.mpr (ss.events_numbered hle).1
      simp [compressesState, hsafe, hl, hle] at hc
      omega
    · rfl
  constructor
  · refine Option.ext fun s' => ?_
    rw [getSuccessorStateWithCompression_eq_some]
    simp [hc]
  · simp only [stepwise, hle, Option.bind_eq_bind, Option.bind_some, hn,
      SearchSpace.fireEvents, Option.bind_fun_some]

/-- A compressed successor of a covered action is defined exactly when its
expansion is, and is then the same state. -/
theorem compressed_iff_stepwise (hx : tn.Exact) (h : Refines ss s counter c ids)
    (hwf : c.WellFormed ss) (hd : counter ≤ d) (hcov : ss.Covered a)
    (hsafe : ss.isCompressionSafe a = true) :
    ((ss.getSuccessorStateWithCompression tn d s a true).isSome ↔
      (ss.stepwise tn d s a).isSome) ∧
    ∀ s' t, ss.getSuccessorStateWithCompression tn d s a true = some s' →
      ss.stepwise tn d s a = some t → SameState s' t := by
  cases hle : ss.events a with
  | none => simp [getSuccessorStateWithCompression, stepwise, hle]
  | some le =>
    by_cases hc : compressesState ss true s a = true
    · have hnone : s.todo.lookup a = none := by
        simp only [compressesState, Bool.and_eq_true, Option.isNone_iff_eq_none] at hc
        exact hc.1.2
      rw [h.compressesState_eq] at hc
      have hstepwise : ss.stepwise tn d s a = ss.fireEvents tn a le.length d s := by
        simp [stepwise, hle, hnone]
      rw [hstepwise]
      exact ⟨h.isSome_compressed_iff hx hwf hd hcov hc hle,
        fun s' t hs ht => h.sameState_of_compressed hwf hd hcov hc hle hs ht⟩
    · obtain ⟨hsingle, hstepwise⟩ := stepwise_of_single tn d hle hsafe hc
      rw [hsingle, hstepwise]
      refine ⟨Iff.rfl, fun s' t hs' ht => ?_⟩
      obtain rfl := Option.some.inj (hs'.symm.trans ht)
      exact .refl s'

end Refines

end TamerLite
