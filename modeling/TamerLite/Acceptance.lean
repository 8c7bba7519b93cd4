import TamerLite.Compression

/-! Which sequences of events the search space accepts: those a configuration
runs to the goal and that have a schedule. -/

namespace TamerLite

open Difference SearchSpace

open Classical in
/-- The network that answers exactly, with the earliest times as distances. -/
noncomputable def DeltaSimpleTemporalNetwork.earliest : DeltaSimpleTemporalNetwork where
  checkStn := fun cs => decide (Consistent cs)
  distances := fun cs v =>
    if h : Consistent cs then -(exists_least h).choose v else 0
  tolerance := 0

theorem DeltaSimpleTemporalNetwork.earliest_exact : DeltaSimpleTemporalNetwork.earliest.Exact := by
  have hd : ∀ {cs} (h : Consistent cs) (v : Timepoint),
      -DeltaSimpleTemporalNetwork.earliest.distances cs v = (exists_least h).choose v := by
    intro cs h v
    simp [DeltaSimpleTemporalNetwork.earliest, h]
  refine ⟨fun cs => by simp [DeltaSimpleTemporalNetwork.earliest], fun cs h => ?_, fun cs v h => ?_,
    fun cs τ hτ h0 v => ?_⟩
  · simp only [hd h]
    exact (exists_least h).choose_spec.1
  · rw [hd h]
    exact (exists_least h).choose_spec.2.1 v
  · rw [hd ⟨τ, hτ⟩]
    exact (exists_least ⟨τ, hτ⟩).choose_spec.2.2 τ hτ h0 v

theorem isEmpty_entries_iff {t : AList (fun _ : Action => ℕ × ℕ)} :
    t.entries.isEmpty = true ↔ ∀ a, t.lookup a = none := by
  rw [List.isEmpty_iff]
  constructor
  · intro he a
    cases hl : t.lookup a with
    | none => rfl
    | some v =>
      have hm := AList.mem_lookup_iff.mp hl
      rw [he] at hm
      contradiction
  · intro hn
    apply List.eq_nil_iff_forall_not_mem.mpr
    intro x hx
    have hl := AList.mem_lookup_iff.mpr hx
    rw [hn] at hl
    contradiction

variable [Callables] {ss : SearchSpace} {tn : DeltaSimpleTemporalNetwork}

theorem Schedulable.of_runWith {b : Bool} {c c' : Config} {as : List Action}
    (hwf : c.WellFormed ss) (hr : c.runWith ss b as = some c') (h : Schedulable ss c') :
    Schedulable ss c := by
  induction as generalizing c with
  | nil =>
    obtain rfl := Option.some.inj hr
    exact h
  | cons a as ih =>
    obtain ⟨d, hd, hr⟩ := Config.runWith_cons.mp hr
    exact (ih (hwf.stepWith hd) hr).of_stepWith hwf hd

theorem Refines.run {b : Bool} {s t : State} {n m : ℕ} {c : Config} {ids : List ℕ}
    {as : List Action} (h : Refines ss s n c ids) (hwf : c.WellFormed ss)
    (hr : Run ss tn b s n as t m) :
    ∃ c' ids', c.runWith ss b as = some c' ∧ Refines ss t m c' ids' ∧
      (c' = c ∨ Checked ss tn t) := by
  induction hr with
  | refl n => exact ⟨c, ids, rfl, h, .inl rfl⟩
  | step _ hd hs ih =>
    obtain ⟨c', ids', hr, hc', -⟩ := ih h
    obtain ⟨c'', ids'', hstep, hc'', hk⟩ := hc'.succWith (hwf.runWith hr) hd hs
    exact ⟨c'', ids'', Config.runWith_concat.mpr ⟨c', hr, hstep⟩, hc'', .inr hk⟩

theorem Refines.run_of_config {b : Bool} {s : State} {n : ℕ} {c c' : Config} {ids : List ℕ}
    {as : List Action} (hx : tn.Exact) (h : Refines ss s n c ids) (hwf : c.WellFormed ss)
    (hr : c.runWith ss b as = some c') (hsch : Schedulable ss c') :
    ∃ t m ids', Run ss tn b s n as t m ∧ Refines ss t m c' ids' := by
  induction as using List.reverseRecOn generalizing c' with
  | nil =>
    obtain rfl := Option.some.inj hr
    exact ⟨s, n, ids, .refl s n, h⟩
  | append_singleton as a ih =>
    obtain ⟨d, hd, hstep⟩ := Config.runWith_concat.mp hr
    have hwfd := hwf.runWith hd
    obtain ⟨t, m, ids', hrun, ht⟩ := ih hd (hsch.of_stepWith hwfd hstep)
    obtain ⟨t', ids'', hs, ht'⟩ := ht.stepWith hx hwfd le_rfl hstep hsch
    exact ⟨t', _, ids'', .step hrun le_rfl hs, ht'⟩

/-- A run of configurations with a schedule is a run of the search space. -/
theorem exists_run {b : Bool} {c₀ c : Config} {as : List Action} (hx : tn.Exact)
    (h₀ : Config.initial ss = some c₀) (hr : c₀.runWith ss b as = some c) (hsch : Schedulable ss c)
    (n : ℕ) : ∃ s₀ s m ids, ss.initial tn n = some s₀ ∧
      Run ss tn b s₀ (initialCounter ss n) as s m ∧ Refines ss s m c ids := by
  have hwf := Config.wellFormed_initial h₀
  obtain ⟨s₀, ids₀, hs₀, href₀⟩ := initial_of_config n h₀
    ((hsch.of_runWith hwf hr).acceptable hx hwf)
  obtain ⟨s, m, ids, hrun, href⟩ := href₀.run_of_config hx hwf hr hsch
  exact ⟨s₀, s, m, ids, hs₀, hrun, href⟩

theorem Refines.goalReached_eq {s : State} {n : ℕ} {c : Config} {ids : List ℕ}
    (h : Refines ss s n c ids) : ss.goalReached s = c.goalReached ss := by
  have hd : s.todo.entries.isEmpty = c.todo.entries.isEmpty := by
    rw [Bool.eq_iff_iff, isEmpty_entries_iff, isEmpty_entries_iff]
    exact forall_congr' fun a => by rw [h.todo, Option.map_eq_none_iff]
  rw [SearchSpace.goalReached, Config.goalReached, hd, h.assignments]

/-- A state the search reaches stands for a configuration that has a schedule. -/
theorem config_of_run {b : Bool} {n m : ℕ} {s₀ s : State} {as : List Action} (hx : tn.Exact)
    (h₀ : ss.initial tn n = some s₀) (hr : Run ss tn b s₀ (initialCounter ss n) as s m) :
    ∃ c₀ c ids, Config.initial ss = some c₀ ∧ c₀.runWith ss b as = some c ∧
      Refines ss s m c ids ∧ Schedulable ss c := by
  obtain ⟨c₀, ids, hc₀, href, hk⟩ := refines_initial h₀
  have hwf := Config.wellFormed_initial hc₀
  obtain ⟨c, ids', hc, href', hk'⟩ := href.run hwf hr
  refine ⟨c₀, c, ids', hc₀, hc, href', ?_⟩
  rcases hk' with rfl | hk'
  · rcases hk with rfl | hk
    · exact schedulable_empty
    · exact href.schedulable hwf hx hk
  · exact href'.schedulable (hwf.runWith hc) hx hk'

/-- The search space accepts `as` step by step, from an initial state built
with some id counter, to a goal state. -/
def Accepted (ss : SearchSpace) (tn : DeltaSimpleTemporalNetwork) (compression : Bool)
    (as : List Action) : Prop :=
  ∃ n s₀ s m, ss.initial tn n = some s₀ ∧
    Run ss tn compression s₀ (initialCounter ss n) as s m ∧ ss.goalReached s = true

/-- What a sequence of events needs to be accepted: it runs to the goal, and
the events have a schedule. -/
theorem accepted_iff_runWith (hx : tn.Exact) {b : Bool} {as : List Action} :
    Accepted ss tn b as ↔ ∃ c₀ c, Config.initial ss = some c₀ ∧ c₀.runWith ss b as = some c ∧
      c.goalReached ss = true ∧ Schedulable ss c := by
  constructor
  · rintro ⟨n, s₀, s, m, h₀, hr, hg⟩
    obtain ⟨c₀, c, ids, hc₀, hc, href, hsch⟩ := config_of_run hx h₀ hr
    exact ⟨c₀, c, hc₀, hc, href.goalReached_eq ▸ hg, hsch⟩
  · rintro ⟨c₀, c, hc₀, hc, hg, hsch⟩
    obtain ⟨s₀, s, m, ids, h₀, hr, href⟩ := exists_run hx hc₀ hc hsch 0
    exact ⟨0, s₀, s, m, h₀, hr, href.goalReached_eq.symm ▸ hg⟩

theorem accepted_iff (hx : tn.Exact) {as : List Action} : Accepted ss tn false as ↔
    ∃ c₀ c, Config.initial ss = some c₀ ∧ c₀.run ss as = some c ∧ c.goalReached ss = true ∧
      Schedulable ss c := by
  rw [accepted_iff_runWith hx, Config.runWith_false]

end TamerLite
