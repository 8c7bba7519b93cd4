import TamerLite.CompressionSafety

/-! The network of a rebuilt plan has a solution, and the plan read off it
respects the duration bounds, the separation of mutex events and the absolute
times. -/

namespace TamerLite

open Difference SearchSpace

/-- A length of time within the bounds evaluated in a state, strictly inside open ones. -/
def Duration.Contains [Callables] (d : Duration) (epsilon : ℚ) (assignments : Assignments)
    (q : ℚ) : Prop :=
  ∃ lower upper, evaluateBound d.lower assignments = some lower ∧
    evaluateBound d.upper assignments = some upper ∧ lower ≤ q ∧ q ≤ upper ∧
    (0 < epsilon → (d.leftOpen = true → lower < q) ∧ (d.rightOpen = true → q < upper))

section

section

variable [Callables]

/-- What the plan of a state's path, an entry for each position of the path,
has to do with the path, the durations and the network. -/
structure Respects (ss : SearchSpace) (tn : DeltaSimpleTemporalNetwork) (n : ℕ) (s₀ s : State)
    (network : List Edge) (opened : List (Action × ℕ)) (plan : List PlanEntry)
    (entry : ℕ → PlanEntry) : Prop where
  plan : plan.Perm (((List.range s.path.length).filter fun i =>
    (s.path[i]?).any fun x => x.2.1 = 0 ∧ ss.timedAction ≠ some x.1).map entry)
  action : ∀ {i : ℕ} {x : Action × ℕ × ℕ}, s.path[i]? = some x → (entry i).action = x.1
  same : ∀ {i i' : ℕ} {x x' : Action × ℕ × ℕ}, s.path[i]? = some x → s.path[i']? = some x' →
    x.2.2 + x'.2.1 = x'.2.2 + x.2.1 → entry i = entry i'
  duration : ∀ {as as' : List Action} {a : Action},
    s.path.map Prod.fst = s₀.path.map Prod.fst ++ as ++ a :: as' →
    ∃ t m, Run ss tn false s₀ (initialCounter ss n) as t m ∧ (t.todo.lookup a = none →
      ∀ d, ss.duration a = some d →
        d.Contains ss.epsilon t.assignments ((entry t.path.length).duration.getD 0))
  separated : ∀ {i i' : ℕ} {x x' : Action × ℕ × ℕ}, i < i' → s.path[i]? = some x →
    s.path[i']? = some x' → ss.mutex (x.1, x.2.1) (x'.1, x'.2.1) = true →
      (entry i).time ss x.2.1 + ss.epsilon ≤ (entry i').time ss x'.2.1
  start : ∀ {i : ℕ} {x : Action × ℕ × ℕ}, s.path[i]? = some x →
    ∃ q, (entry i).start = some q ∧ 0 ≤ q
  absolute : ∀ {a : Action} {id k : ℕ} {te : Timing × Event}, ss.timedAction = some a →
    (a, id) ∈ opened → ss.event a k = some te →
      -tn.distances network (.event a k (id + 1 + k)) - -tn.distances network .startPlan =
        te.1.delay

end

variable {ss : SearchSpace} {tn : DeltaSimpleTemporalNetwork} {c c₀ : Config} {ids : List ℕ}
  {p : PlanState} {τ : Timepoint → ℚ}

theorem entryOf_duration {j : ℕ} (ht : ss.timedAction ≠ some (c.actionOf j)) :
    (entryOf ss c ids τ j).duration.getD 0 =
      τ (anchor c ids false j) - τ (anchor c ids true j) := by
  unfold entryOf
  simp only [if_neg ht]
  generalize (if ss.timedAction.isSome = true then τ Timepoint.startPlan else 0) = origin
  split_ifs with hz
  · rw [Option.getD_none]
    linarith
  · rw [Option.getD_some]
    linarith

theorem entryOf_start (h0 : ∀ v, 0 ≤ τ v)
    (hstart : ∀ j < c.instances.length, ss.timedAction.isSome = true →
      τ .startPlan ≤ τ (anchor c ids true j)) {j : ℕ} (hj : j < c.instances.length) :
    ∃ q, (entryOf ss c ids τ j).start = some q ∧ 0 ≤ q := by
  unfold entryOf
  by_cases ht : ss.timedAction = some (c.actionOf j)
  · exact ⟨0, by simp [ht], le_rfl⟩
  · simp only [if_neg ht]
    refine ⟨_, rfl, ?_⟩
    split_ifs with hs
    · linarith [hstart j hj hs]
    · linarith [h0 (anchor c ids true j)]

variable [Callables]

theorem opening_of_step {d : Config} {a : Action} (hs : c.step ss a = some d)
    (hl : c.todo.lookup a = none) : ∃ b, ss.durationBounds a c.assignments = some b ∧
      ss.timedAction ≠ some a ∧ d.instances = c.instances ++ [⟨a, b.1, b.2, false⟩] ∧
      d.fired = c.fired ++ [(c.instances.length, 0)] := by
  rcases Config.step_eq_some.mp hs with ⟨le, k, j, te, -, hl', -, -, -⟩ |
    ⟨le, te, b, -, -, ht, -, -, -, hb, hf⟩
  · rw [hl] at hl'
    contradiction
  · obtain ⟨removed, as, -, -, -, rfl⟩ := Config.fire_eq_some.mp hf
    exact ⟨b, hb, ht, rfl, rfl⟩

theorem fired_prefix_of_run {d : Config} {as : List Action} (hr : c.run ss as = some d) :
    c.fired <+: d.fired := by
  induction as generalizing c with
  | nil =>
    obtain rfl := Option.some.inj hr
    exact List.prefix_rfl
  | cons a as ih =>
    obtain ⟨e, he, hr⟩ := Config.run_cons.mp hr
    refine List.IsPrefix.trans ?_ (ih hr)
    rcases Config.step_eq_some.mp he with ⟨le, k, j, te, -, -, -, -, hf⟩ |
      ⟨le, te, b, -, -, -, -, -, -, -, hf⟩
    all_goals
      obtain ⟨removed, as, -, -, -, rfl⟩ := Config.fire_eq_some.mp hf
      exact List.prefix_append _ _

theorem contains_of_durationBounds {a : Action} {d : Duration} {assignments : Assignments}
    {b : ℚ × ℚ} {q : ℚ} (hd : ss.duration a = some d)
    (hb : ss.durationBounds a assignments = some b) (hl : b.1 ≤ q) (hu : q ≤ b.2) :
    d.Contains ss.epsilon assignments q := by
  simp only [durationBounds, hd, Option.bind_eq_bind, Option.bind_eq_some_iff] at hb
  obtain ⟨lower, hlower, upper, hupper, hb⟩ := hb
  obtain rfl := Option.some.inj hb
  have hε := ss.epsilon_nonneg
  simp only at hl hu
  refine ⟨lower, upper, hlower, hupper, ?_, ?_, fun hpos => ⟨fun ho => ?_, fun ho => ?_⟩⟩
  · split_ifs at hl <;> linarith
  · split_ifs at hu <;> linarith
  · rw [if_pos ho] at hl
    linarith
  · rw [if_pos ho] at hu
    linarith

/-- The positions of the first events of all instances but the timed one. -/
theorem openings_perm (hp : Config.Progress ss c) (hwf : c.WellFormed ss) :
    (((List.range c.fired.length).filter fun i =>
      (c.fired[i]?).any fun q => q.2 = 0 ∧ ss.timedAction ≠ some (c.actionOf q.1)).map
        fun i => (c.fired.getD i (0, 0)).1).Perm
      ((List.range c.instances.length).filter fun j => ss.timedAction ≠ some (c.actionOf j)) := by
  have hmem : ∀ i, i ∈ ((List.range c.fired.length).filter fun i =>
      (c.fired[i]?).any fun q => q.2 = 0 ∧ ss.timedAction ≠ some (c.actionOf q.1)) ↔
      ∃ j, c.fired[i]? = some (j, 0) ∧ ss.timedAction ≠ some (c.actionOf j) := by
    intro i
    simp only [List.mem_filter, List.mem_range, Option.any_eq_true, decide_eq_true_eq]
    constructor
    · intro h
      obtain ⟨-, ⟨j, k⟩, hq, rfl, ht⟩ := h
      exact ⟨j, hq, ht⟩
    · intro h
      obtain ⟨j, hq, ht⟩ := h
      exact ⟨(List.getElem?_eq_some_iff.mp hq).1, (j, 0), hq, rfl, ht⟩
  have hget : ∀ {i : ℕ} {q : ℕ × ℕ}, c.fired[i]? = some q → c.fired.getD i (0, 0) = q := by
    intro i q hq
    rw [List.getD_eq_getElem?_getD, hq, Option.getD_some]
  refine (List.perm_ext_iff_of_nodup (List.Nodup.map_on (fun i hi i' hi' he => ?_)
    (List.nodup_range.filter _)) (List.nodup_range.filter _)).mpr fun j => ?_
  · obtain ⟨j, hq, -⟩ := (hmem i).mp hi
    obtain ⟨j', hq', -⟩ := (hmem i').mp hi'
    rw [hget hq, hget hq'] at he
    obtain rfl : j = j' := he
    obtain ⟨hlt, hq⟩ := List.getElem?_eq_some_iff.mp hq
    obtain ⟨hlt', hq'⟩ := List.getElem?_eq_some_iff.mp hq'
    exact (nodup_fired hp).getElem_inj_iff.mp (hq.trans hq'.symm)
  · simp only [List.mem_map, hmem]
    rw [List.mem_filter, List.mem_range, decide_eq_true_eq]
    constructor
    · intro h
      obtain ⟨i, ⟨j', hq, ht⟩, rfl⟩ := h
      rw [hget hq]
      exact ⟨(hwf.fired _ (List.mem_of_getElem? hq)).1, ht⟩
    · intro h
      obtain ⟨i, hi⟩ := List.mem_iff_getElem?.mp (hp.first j h.1)
      exact ⟨i, ⟨j, hi, h.2⟩, by rw [hget hi]⟩

/-- The entries of the instances respect what the schedule of the network does. -/
theorem respects_of_placed {n m : ℕ} {s₀ s : State} {ids' : List ℕ} {as : List Action}
    {plan : List PlanEntry} {ids₀ : List ℕ} (hx : tn.Exact) (htemp : ss.isTemporal = true)
    (href₀ : Refines ss s₀ (initialCounter ss n) c₀ ids₀) (hc₀ : Config.initial ss = some c₀)
    (hrun : c₀.run ss as = some c) (hsch : Schedulable ss c) (href : Refines ss s m c ids')
    (hreb : Rebuilds ss p c ids) (hcons : Consistent p.network)
    (hplan : plan.Perm (((List.range c.instances.length).filter fun j =>
      ss.timedAction ≠ some (c.actionOf j)).map
        (entryOf ss c ids fun v => -tn.distances p.network v))) :
    Respects ss tn n s₀ s p.network p.opened plan fun i =>
      entryOf ss c ids (fun v => -tn.distances p.network v) (c.fired.getD i (0, 0)).1 := by
  have hwf₀ := Config.wellFormed_initial hc₀
  have hreach : Config.Reachable ss false c := ⟨c₀, as, hc₀, by rwa [Config.runWith_false]⟩
  have hwf := hreach.wellFormed
  have hprog := hreach.progress
  have hplaced := hreb.sound _ (hx.solves _ hcons)
  have hfirst : ∀ a, ss.timedAction = some a →
      ∀ j < c.instances.length, c.actionOf j = a ↔ j = 0 := fun a ha j hj => timed_iff hreach ha hj
  obtain ⟨hpath, hnodup, -, -⟩ := href.timed htemp
  -- a position of the path is an event of an instance
  have hpos : ∀ {i : ℕ} {x : Action × ℕ × ℕ}, s.path[i]? = some x →
      ∃ q, c.fired[i]? = some q ∧ c.fired.getD i (0, 0) = q ∧ x = key c ids' q ∧
        q.1 < c.instances.length ∧ (ss.event (c.actionOf q.1) q.2).isSome := by
    intro i x hx
    rw [hpath, List.getElem?_map] at hx
    obtain ⟨q, hq, rfl⟩ := Option.map_eq_some_iff.mp hx
    obtain ⟨hj, hk⟩ := hwf.fired q (List.mem_of_getElem? hq)
    exact ⟨q, hq, by rw [List.getD_eq_getElem?_getD, hq, Option.getD_some], rfl, hj, hk⟩
  refine ⟨?_, fun {i x} hi => ?_, fun {i i' x x'} hi hi' he => ?_, fun {as₁ as₂ a} hsplit => ?_,
    fun {i i' x x'} hlt hi hi' hmutex => ?_, fun {i x} hi => ?_, fun {a id k te} ha hid hte => ?_⟩
  · refine hplan.trans (((openings_perm hprog hwf).map _).symm.trans (List.Perm.of_eq ?_))
    rw [List.map_map, hpath]
    simp only [List.length_map, List.getElem?_map, Option.any_map, key]
    rfl
  · obtain ⟨q, -, hq, rfl, -, -⟩ := hpos hi
    simp only [hq, entryOf_action, key]
  · obtain ⟨q, -, hq, rfl, hj, -⟩ := hpos hi
    obtain ⟨q', -, hq', rfl, hj', -⟩ := hpos hi'
    simp only [key] at he
    have hids : ids'.getD q.1 0 = ids'.getD q'.1 0 := by omega
    have hjj : q.1 = q'.1 := by
      rw [← href.length] at hj hj'
      simp only [List.getD_eq_getElem?_getD, List.getElem?_eq_getElem hj,
        List.getElem?_eq_getElem hj', Option.getD_some] at hids
      exact hnodup.getElem_inj_iff.mp hids
    simp only [hq, hq', hjj]
  · have has : as = as₁ ++ a :: as₂ := by
      rw [href.path, actions_run hwf₀ hrun, ← href₀.path, List.append_assoc] at hsplit
      exact List.append_cancel_left hsplit
    rw [has, ← Config.runWith_false, Config.runWith_append] at hrun
    obtain ⟨d, hd, hrest⟩ := Option.bind_eq_some_iff.mp hrun
    obtain ⟨d', hd', hrest'⟩ := Config.runWith_cons.mp hrest
    have hwfd := hwf₀.runWith hd
    obtain ⟨t, m', ids'', hrun', ht⟩ :=
      href₀.run_of_config hx hwf₀ hd (hsch.of_runWith hwfd hrest)
    refine ⟨t, m', hrun', fun hl dur hdur => ?_⟩
    rw [ht.todo, Option.map_eq_none_iff] at hl
    rw [Config.stepWith_false] at hd'
    obtain ⟨b, hb, hta, hinst, hfired⟩ := opening_of_step hd' hl
    obtain ⟨is, his, -⟩ := new_of_runWith hrest'
    have hi : c.instances[d.instances.length]? = some ⟨a, b.1, b.2, false⟩ := by
      rw [his, hinst]
      simp
    have hentry : c.fired.getD t.path.length (0, 0) = (d.instances.length, 0) := by
      have hlen : t.path.length = d.fired.length := by
        rw [(ht.timed htemp).path, List.length_map]
      rw [Config.runWith_false] at hrest'
      obtain ⟨r, hr⟩ := fired_prefix_of_run hrest'
      rw [List.getD_eq_getElem?_getD, hlen, ← hr, hfired]
      simp
    have hact : c.actionOf d.instances.length = a := Config.actionOf_eq hi
    simp only [hentry]
    rw [entryOf_duration (hact ▸ hta), ht.assignments]
    obtain ⟨hlo, hup⟩ := hplaced.bounds _ _ hi
    exact contains_of_durationBounds hdur hb hlo hup
  · obtain ⟨q, hq₁, hq, rfl, hj, hk⟩ := hpos hi
    obtain ⟨q', hq₁', hq', rfl, hj', hk'⟩ := hpos hi'
    obtain ⟨hi, hqi⟩ := List.getElem?_eq_some_iff.mp hq₁
    obtain ⟨hi', hqi'⟩ := List.getElem?_eq_some_iff.mp hq₁'
    have hord := List.pairwise_iff_getElem.mp hplaced.ordered _ _ hi hi' hlt
    rw [hqi, hqi'] at hord
    simp only [hq, hq', key]
    rw [entryOf_time hplaced hfirst hj hk, entryOf_time hplaced hfirst hj' hk']
    have hsep := hord.1 ((mutex_comm _ _).trans hmutex)
    linarith
  · obtain ⟨q, -, hq, rfl, hj, -⟩ := hpos hi
    rw [hq]
    exact entryOf_start (fun v => hx.nonneg _ v hcons) (fun j hj hs => hplaced.origin hs j hj) hj
  · rw [opened_eq hreb] at hid
    obtain ⟨j, hj, he⟩ := List.mem_map.mp hid
    obtain ⟨haj, rfl⟩ : c.actionOf j = a ∧ ids.getD j 0 = id := Prod.mk.inj he
    obtain rfl := (hfirst a ha j (List.mem_range.mp hj)).mp haj
    obtain ⟨le, hle, hk⟩ := Option.bind_eq_some_iff.mp hte
    have hstart := ss.timed_absolute ha hle te (List.mem_of_getElem? hk)
    have hrigid := hplaced.rigid 0 (List.mem_range.mp hj) (haj ▸ hte)
    rw [hstart, (hplaced.pinned a ha).2, point, haj] at hrigid
    linarith

/-- For every path the search accepts, the network has a solution and the plan
respects every bound. -/
theorem build_plan_respects (hx : tn.Exact) {b : Bool} {n m : ℕ} {s₀ s : State} {as : List Action}
    (h₀ : ss.initial tn n = some s₀) (hr : Run ss tn b s₀ (initialCounter ss n) as s m)
    (hcov : b = true → ∀ a ∈ as, ss.isCompressionSafe a = true → ss.Covered a) (counter : ℕ) :
    ∃ plan, ss.buildPlan tn counter (s.path.map Prod.fst) = some plan ∧
      (ss.isTemporal = true → ∃ p entry,
        ss.planState tn counter (s.path.map Prod.fst) = some p ∧ Consistent p.network ∧
          Respects ss tn n s₀ s p.network p.opened plan entry) := by
  by_cases ht : ss.isTemporal = true
  · obtain ⟨c₀, c, ids, hc₀, hc, href, hsch⟩ := config_of_run hx h₀ hr
    obtain ⟨c₀', ids₀, hc₀', href₀, -⟩ := refines_initial h₀
    obtain rfl := Option.some.inj (hc₀.symm.trans hc₀')
    obtain ⟨as', hrun⟩ : ∃ as', c₀.run ss as' = some c := by
      cases b with
      | false => exact ⟨as, by rwa [Config.runWith_false] at hc⟩
      | true => exact Config.exists_run_of_runWith (Config.wellFormed_initial hc₀) (hcov rfl) hc
    obtain ⟨p, ids', hp, hreb, hcons⟩ := exists_planState hx ht hc₀ hrun hsch counter
    obtain ⟨plan, hplan, hperm⟩ := buildPlan_of_planState ht hp hreb
    rw [← href.path] at hplan hp
    exact ⟨plan, hplan, fun _ => ⟨p, _, hp, hcons,
      respects_of_placed hx ht href₀ hc₀ hrun hsch href hreb hcons hperm⟩⟩
  · exact ⟨_, by rw [SearchSpace.buildPlan, if_neg ht], fun h => absurd h ht⟩

/-! ### A path that is not replayed -/

theorem successor_of_planStep {p' : PlanState} {a : Action} (h : ss.planStep tn p a = some p') :
    ss.getSuccessorStateWithCompression tn p.searchCounter p.state a false = some p'.state ∧
      p'.searchCounter = ss.advance p.searchCounter p.state a := by
  obtain ⟨events, -, h⟩ := Option.bind_eq_some_iff.mp h
  cases hl : p.todo.lookup a with
  | none =>
    simp only [hl, Option.bind_eq_bind, Option.bind_eq_some_iff] at h
    obtain ⟨edges, -, te, -, s', hs', h⟩ := h
    obtain rfl := Option.some.inj h
    exact ⟨hs', rfl⟩
  | some q =>
    simp only [hl, Option.bind_eq_bind, Option.bind_eq_some_iff] at h
    obtain ⟨te, -, s', hs', h⟩ := h
    obtain rfl := Option.some.inj h
    exact ⟨hs', rfl⟩

/-- Replaying a path is a run without compression. -/
theorem run_of_planStep {p' : PlanState} {as : List Action}
    (h : as.foldlM (ss.planStep tn) p = some p') :
    Run ss tn false p.state p.searchCounter as p'.state p'.searchCounter := by
  induction as using List.reverseRecOn generalizing p' with
  | nil =>
    obtain rfl := Option.some.inj h
    exact .refl _ _
  | append_singleton as a ih =>
    rw [List.foldlM_append, Option.bind_eq_bind, Option.bind_eq_some_iff] at h
    obtain ⟨q, hq, h⟩ := h
    rw [List.foldlM_cons, Option.bind_eq_bind, Option.bind_eq_some_iff] at h
    obtain ⟨r, hr, h⟩ := h
    obtain rfl := Option.some.inj h
    obtain ⟨hs, hc⟩ := successor_of_planStep hr
    rw [hc]
    exact .step (ih hq) le_rfl hs

end

section

attribute [local instance] Callables.empty

/-- Both actions have ended. -/
def turnGoal : Config :=
  ⟨[.bool true, .bool false], ∅, 0, [⟨⟨0⟩, 2, 2, false⟩, ⟨⟨1⟩, 1, 1, false⟩],
    [(0, 0), (1, 0), (1, 1), (0, 1)]⟩

theorem turn_goal : turnStart.runWith turnSpace true [⟨0⟩, ⟨1⟩, ⟨0⟩] = some turnGoal := rfl

theorem turn_path : turnStart.run turnSpace [⟨0⟩, ⟨1⟩, ⟨1⟩, ⟨0⟩] = none := rfl

theorem buildPlan_turn (counter : ℕ) :
    turnSpace.buildPlan .earliest counter [⟨0⟩, ⟨1⟩, ⟨1⟩, ⟨0⟩] = none := by
  rw [SearchSpace.buildPlan, if_pos (by decide)]
  cases hi : turnSpace.initial .earliest counter with
  | none => simp [SearchSpace.planInitial, hi]
  | some s₀ =>
    have hp : turnSpace.planInitial .earliest counter [⟨0⟩, ⟨1⟩, ⟨1⟩, ⟨0⟩] =
        some (⟨[], [], ∅, [], 0, s₀, counter⟩, [⟨0⟩, ⟨1⟩, ⟨1⟩, ⟨0⟩]) := by
      simp only [SearchSpace.planInitial, hi, Option.bind_eq_bind, Option.bind_some]
      rfl
    rw [hp, Option.bind_eq_bind, Option.bind_some, Option.bind_eq_bind]
    cases hf : [(⟨0⟩ : Action), ⟨1⟩, ⟨1⟩, ⟨0⟩].foldlM (turnSpace.planStep .earliest)
        ⟨[], [], ∅, [], 0, s₀, counter⟩ with
    | none =>
      simp only [hf]
      rfl
    | some p =>
      obtain ⟨c₀, c, -, hc₀, hc, -, -⟩ :=
        config_of_run DeltaSimpleTemporalNetwork.earliest_exact hi (run_of_planStep hf)
      obtain rfl := Option.some.inj (hc₀.symm.trans (b := some turnStart) rfl)
      rw [Config.runWith_false] at hc
      have := turn_path.symm.trans hc
      contradiction

/-- Without the condition on compression, an accepted path to the goal is not
replayed. -/
theorem build_plan_not_respects : turnEncoder.Encodes turnSpace ∧
    ∃ s₀ s m, turnSpace.initial .earliest 0 = some s₀ ∧
      Run turnSpace .earliest true s₀ (initialCounter turnSpace 0) [⟨0⟩, ⟨1⟩, ⟨0⟩] s m ∧
      turnSpace.goalReached s = true ∧
      ∀ counter, turnSpace.buildPlan .earliest counter (s.path.map Prod.fst) = none := by
  have hx := DeltaSimpleTemporalNetwork.earliest_exact
  have hsch : Schedulable turnSpace turnGoal := fun _ => ⟨turnSchedule, by decide +kernel⟩
  obtain ⟨s₀, s, m, ids, h₀, hrun, href⟩ := exists_run hx rfl turn_goal hsch 0
  refine ⟨turnEncoder_encodes, s₀, s, m, h₀, hrun, href.goalReached_eq.trans (by decide +kernel),
    fun counter => ?_⟩
  rw [href.path]
  exact buildPlan_turn counter

theorem build_plan_respects_keep : ∃ s₀ s m plan, keepSpace.initial .earliest 0 = some s₀ ∧
    Run keepSpace .earliest true s₀ (initialCounter keepSpace 0) [⟨0⟩] s m ∧
    keepSpace.buildPlan .earliest 0 (s.path.map Prod.fst) = some plan ∧
    ∃ p entry, keepSpace.planState .earliest 0 (s.path.map Prod.fst) = some p ∧
      Consistent p.network ∧
      Respects keepSpace .earliest 0 s₀ s p.network p.opened plan entry := by
  have hx := DeltaSimpleTemporalNetwork.earliest_exact
  have hsch : Schedulable keepSpace keepDone := fun _ => ⟨fun _ => (0, 2), by decide +kernel⟩
  obtain ⟨s₀, s, m, ids, h₀, hrun, -⟩ := exists_run hx rfl keep_run hsch 0
  obtain ⟨plan, hplan, hres⟩ := build_plan_respects hx h₀ hrun (fun _ a ha hsafe => by
    rw [List.mem_singleton.mp ha] at hsafe ⊢
    exact Encoder.covered keepEncoder_encodes keepEncoder_keepsConjunctions hsafe
      keepEncoder_forward) 0
  exact ⟨s₀, s, m, plan, h₀, hrun, hplan, hres (by decide)⟩

end

end TamerLite
