import TamerLite.Simulation

/-! Compressed expansions: the remaining events of a compression-safe action
fired in a row, in states and in configurations. -/

namespace TamerLite

open Difference SearchSpace

variable {ss : SearchSpace} {tn : DeltaSimpleTemporalNetwork}

/-- State `s` stands for configuration `c` while the events of an instance that
was opened in `c₁` are fired in a row. -/
structure Expanding (ss : SearchSpace) (c₁ : Config) (s : State) (c : Config) (ids : List ℕ) :
    Prop where
  assignments : s.assignments = c.assignments
  active : s.activeConditions = c.active
  path : s.path = c.fired.map (key c ids)
  todo : ∀ a, s.todo.lookup a =
    (c.todo.lookup a).map fun p => (p.1, ids.getD p.2 0 + 1 + p.1)
  network : ∃ log, s.temporalNetwork = some log ∧
    ∀ τ, Solves τ log ↔ Placed ss c₁ ids τ ∧ Placed ss c ids τ

section

variable [Callables]

theorem expandRest_cons {te : Timing × Event} {rest : List (Timing × Event)} {k id : ℕ}
    {s s' : State} : ss.expandRest tn (te :: rest) k id s = some s' ↔
      ∃ t, (effectIndependentStartConditionsHold te.2 s.assignments = true ∧
        ss.expandEvent tn { s with temporalNetwork := none } { s with g := s.g + 1 } te.2 k id
          none = some t) ∧ ss.expandRest tn rest (k + 1) (id + 1) t = some s' := by
  rw [SearchSpace.expandRest]
  by_cases hi : effectIndependentStartConditionsHold te.2 s.assignments = true
  · rw [if_pos hi]
    simp [hi, Option.bind_eq_some_iff]
  · simp [hi]

namespace Expanding

variable {c₁ c c' : Config} {s s' : State} {ids : List ℕ} {a : Action}
  {le rest : List (Timing × Event)} {te : Timing × Event} {j k : ℕ} {net : Option (List Edge)}

theorem exists_network (c' : Config) (h : Expanding ss c₁ s c ids) (hwf : c.WellFormed ss)
    (hj : j < c.instances.length) (ha : c.actionOf j = a) (hle : ss.events a = some le)
    (hte : le[k]? = some te) (hi : c'.instances = c.instances) (ht : c'.todo = c.todo)
    (hf : c'.fired = c.fired ++ [(j, k)]) :
    ∃ log, TamerLite.network ss { s with temporalNetwork := none } { s with g := s.g + 1 } te.2 k
        (ids.getD j 0 + 1 + k) none = some log ∧
      ∀ τ, Solves τ log ↔ Placed ss c₁ ids τ ∧ Placed ss c' ids τ := by
  obtain ⟨log, hlog, hsol⟩ := h.network
  have hn := (ss.events_numbered hle).2 hte
  have hk : (ss.event (c.actionOf j) k).isSome := by
    rw [ha, Config.event_isSome hle]
    exact (List.getElem?_eq_some_iff.mp hte).1
  refine ⟨_, network_eq (by rw [hlog]; rfl) rfl, fun τ => ?_⟩
  have hplace : Placed ss c' ids τ ↔ _ := placed_append_iff hwf hj hk hi ht hf
  rw [List.append_nil, solves_append, solves_append, hsol, hplace, and_assoc, and_assoc]
  refine and_congr_right fun _ => and_congr_right fun hp => ?_
  have := solves_eventPlacement (c := c) (τ := τ) c.fired (j, k) (hp.chain hwf)
    (mem_pendingEvents_iff_key hwf h.todo)
  rw [hn.1, hn.2, h.path]
  simpa only [point, ha] using this

theorem expanded (h : Expanding ss c₁ s c ids) (hwf : c.WellFormed ss) (htemp : ss.isTemporal = true)
    (hj : j < c.instances.length) (ha : c.actionOf j = a) (hle : ss.events a = some le)
    (hte : le[k]? = some te) (hf : c.fire te.2 (j, k) c.todo c.instances = some c')
    (hacc : Accepts ss tn { s with temporalNetwork := none } { s with g := s.g + 1 } te.2 k
      (ids.getD j 0 + 1 + k) none net) :
    Expanding ss c₁ { s with
      g := s.g + 1
      assignments := c'.assignments
      activeConditions := c'.active
      path := s.path ++ [(te.2.action, te.2.pos, ids.getD j 0 + 1 + k)]
      temporalNetwork := net } c' ids := by
  obtain ⟨removed, as, -, -, -, rfl⟩ := Config.fire_eq_some.mp hf
  have hn := (ss.events_numbered hle).2 hte
  obtain ⟨log, hlog, hsol⟩ := h.exists_network ⟨as, c.todo, _, c.instances, _⟩ hwf hj ha
    hle hte rfl rfl rfl
  refine ⟨rfl, rfl, ?_, h.todo, log, ?_, hsol⟩
  · change s.path ++ _ = List.map _ (c.fired ++ [(j, k)])
    rw [h.path, List.map_append, hn.1, hn.2, ← ha]
    rfl
  · rw [Accepts, if_pos htemp, hlog] at hacc
    obtain ⟨log', hl', -, rfl⟩ := hacc
    exact hl'.symm

/-- Every expansion of the rest of an instance is one of the configuration. -/
theorem expandRest (h : Expanding ss c₁ s c ids) (hwf : c.WellFormed ss)
    (htemp : ss.isTemporal = true) (hj : j < c.instances.length) (ha : c.actionOf j = a)
    (hle : ss.events a = some le) (hrest : rest = le.drop k)
    (hs : ss.expandRest tn rest k (ids.getD j 0 + 1 + k) s = some s') :
    ∃ c', c.fireRest j rest k = some c' ∧ Expanding ss c₁ s' c' ids ∧
      (rest = [] ∨ Checked ss tn s') := by
  induction rest generalizing s c k with
  | nil =>
    obtain rfl := Option.some.inj hs
    exact ⟨c, rfl, h, .inl rfl⟩
  | cons te rest ih =>
    have hte : le[k]? = some te := by
      have := congrArg (fun l => l[0]?) hrest
      simpa using this.symm
    have hrest' : rest = le.drop (k + 1) := by
      have := congrArg List.tail hrest
      simpa using this
    obtain ⟨t, ht, hs⟩ := expandRest_cons.mp hs
    obtain ⟨d, hf, net, hacc, rfl⟩ := (expandEvent_iff_fire
      (s := { s with temporalNetwork := none }) hwf (j, k) c.todo c.instances h.assignments
      (by exact h.assignments) (by exact h.active)).mp ht
    have hk : (ss.event (c.actionOf j) k).isSome := by
      rw [ha, Config.event_isSome hle]
      exact (List.getElem?_eq_some_iff.mp hte).1
    have hwd := hwf.append hj hk hf
    have hd := h.expanded hwf htemp hj ha hle hte hf hacc
    obtain ⟨removed, as, -, -, -, rfl⟩ := Config.fire_eq_some.mp hf
    obtain ⟨c', hf', h', hk'⟩ := ih hd hwd hj ha hrest' hs
    refine ⟨c', Config.fireRest_cons.mpr ⟨_, hf, hf'⟩, h', .inr ?_⟩
    rcases hk' with rfl | hk'
    · obtain rfl := Option.some.inj hs
      exact hacc.checked rfl
    · exact hk'

theorem placed_of_fireRest (hwf : c.WellFormed ss) (hj : j < c.instances.length)
    (ha : c.actionOf j = a) (hle : ss.events a = some le) (hrest : rest = le.drop k)
    (hf : c.fireRest j rest k = some c') {τ : Timepoint → ℚ} (hτ : Placed ss c' ids τ) :
    Placed ss c ids τ := by
  induction rest generalizing c k with
  | nil =>
    obtain rfl := Option.some.inj hf
    exact hτ
  | cons te rest ih =>
    have hte : le[k]? = some te := by
      have := congrArg (fun l => l[0]?) hrest
      simpa using this.symm
    have hrest' : rest = le.drop (k + 1) := by
      have := congrArg List.tail hrest
      simpa using this
    have hk : (ss.event (c.actionOf j) k).isSome := by
      rw [ha, Config.event_isSome hle]
      exact (List.getElem?_eq_some_iff.mp hte).1
    obtain ⟨d, hd, hf⟩ := Config.fireRest_cons.mp hf
    have hwd := hwf.append hj hk hd
    obtain ⟨removed, as, -, -, -, rfl⟩ := Config.fire_eq_some.mp hd
    have hpd := ih hwd hj ha hrest' hf
    exact ((placed_append_iff hwf hj hk (by rfl) (by rfl) (by rfl)).mp hpd).1

/-- Firing the rest of an instance in a configuration does it in the states
for it, as long as the whole can be scheduled. -/
theorem of_fireRest (h : Expanding ss c₁ s c ids) (hx : tn.Exact) (hwf : c.WellFormed ss)
    (htemp : ss.isTemporal = true) (hj : j < c.instances.length) (ha : c.actionOf j = a)
    (hle : ss.events a = some le) (hrest : rest = le.drop k)
    (hf : c.fireRest j rest k = some c') {τ : Timepoint → ℚ} (hτ₁ : Placed ss c₁ ids τ)
    (hτ : Placed ss c' ids τ) :
    ∃ s', ss.expandRest tn rest k (ids.getD j 0 + 1 + k) s = some s' ∧
      Expanding ss c₁ s' c' ids := by
  induction rest generalizing s c k with
  | nil =>
    obtain rfl := Option.some.inj hf
    exact ⟨s, rfl, h⟩
  | cons te rest ih =>
    have hte : le[k]? = some te := by
      have := congrArg (fun l => l[0]?) hrest
      simpa using this.symm
    have hrest' : rest = le.drop (k + 1) := by
      have := congrArg List.tail hrest
      simpa using this
    have hk : (ss.event (c.actionOf j) k).isSome := by
      rw [ha, Config.event_isSome hle]
      exact (List.getElem?_eq_some_iff.mp hte).1
    obtain ⟨d, hd, hf⟩ := Config.fireRest_cons.mp hf
    have hwd := hwf.append hj hk hd
    have hd' := hd
    obtain ⟨removed, as, -, -, -, rfl⟩ := Config.fire_eq_some.mp hd'
    have hpd := placed_of_fireRest hwd hj ha hle hrest' hf hτ
    obtain ⟨log, hlog, hsol⟩ := h.exists_network ⟨as, c.todo, removed + te.2.startConditions,
      c.instances, c.fired ++ [(j, k)]⟩ hwf hj ha hle hte rfl rfl rfl
    have hacc : Accepts ss tn { s with temporalNetwork := none } { s with g := s.g + 1 } te.2 k
        (ids.getD j 0 + 1 + k) none (some log) := by
      rw [Accepts, if_pos htemp]
      exact ⟨log, hlog, (hx.check_iff log).mpr ⟨τ, (hsol τ).mpr ⟨hτ₁, hpd⟩⟩, rfl⟩
    have ht := (expandEvent_iff_fire (s := { s with temporalNetwork := none }) hwf (j, k) c.todo
      c.instances h.assignments (by exact h.assignments) (by exact h.active)).mpr
      ⟨_, hd, _, hacc, rfl⟩
    obtain ⟨s', hs', h'⟩ := ih (h.expanded hwf htemp hj ha hle hte hd hacc) hwd hj ha hrest' hf
    exact ⟨s', expandRest_cons.mpr ⟨_, ht, hs'⟩, h'⟩

end Expanding

/-- Whether a successor fires all the events of the action it opens. -/
def compressesState (ss : SearchSpace) (b : Bool) (s : State) (a : Action) : Bool :=
  b && ss.isCompressionSafe a && (s.todo.lookup a).isNone && 1 < ((ss.events a).getD []).length

theorem getSuccessorStateWithCompression_eq_some {b : Bool} {d : ℕ} {s s' : State} {a : Action} :
    ss.getSuccessorStateWithCompression tn d s a b = some s' ↔
      (compressesState ss b s a = false ∧
        ss.getSuccessorStateWithCompression tn d s a false = some s') ∨
      (compressesState ss b s a = true ∧ ∃ le t next, ss.events a = some le ∧
        ss.getSuccessorStateWithCompression tn d s a false = some t ∧
        t.todo.lookup a = some next ∧
        ss.expandRest tn le.tail 1 next.2 { t with todo := t.todo.erase a } = some s') := by
  cases hle : ss.events a with
  | none => simp [getSuccessorStateWithCompression, hle]
  | some le =>
    cases hl : s.todo.lookup a with
    | some p =>
      have hc : compressesState ss b s a = false := by simp [compressesState, hl]
      simp only [hc, true_and, Bool.false_eq_true, false_and, or_false]
      simp [getSuccessorStateWithCompression, hle, hl]
    | none =>
      have hc : compressesState ss b s a = (b && ss.isCompressionSafe a && 1 < le.length) := by
        simp [compressesState, hl, hle]
      rw [hc]
      by_cases hb : (b && ss.isCompressionSafe a && decide (1 < le.length)) = true
      · simp only [hb, Bool.true_eq_false, false_and, true_and, false_or]
        simp only [getSuccessorStateWithCompression, hle, hl, Option.bind_eq_bind,
          Option.bind_some, hb, if_true, Bool.false_and, Bool.false_eq_true, if_false]
        split_ifs
        · simp
        · simp
        · cases le[0]? with
          | none => simp
          | some te =>
            simp only [Option.bind_some]
            split_ifs
            · simp [Option.bind_eq_some_iff]
            · simp
      · rw [Bool.not_eq_true] at hb
        simp only [hb, true_and, Bool.false_eq_true, false_and, or_false]
        simp only [getSuccessorStateWithCompression, hle, hl, Option.bind_eq_bind,
          Option.bind_some, hb, Bool.false_and, Bool.false_eq_true, if_false]

end

namespace Refines

variable {s s' : State} {counter d : ℕ} {c c' : Config} {ids : List ℕ} {a : Action} {b : Bool}

/-- A state whose action has just been opened, with the action off its `todo`. -/
theorem expanding {j : ℕ} (h : Refines ss s counter c ids) (htemp : ss.isTemporal = true)
    (hl : c.todo.lookup a = some (1, j)) :
    Expanding ss c { s with todo := s.todo.erase a } { c with todo := c.todo.erase a } ids := by
  obtain ⟨hpath, -, -, log, hlog, hsol⟩ := h.timed htemp
  refine ⟨h.assignments, h.active, hpath, fun b => ?_, log, hlog, fun τ => ?_⟩
  · change (s.todo.erase a).lookup b = ((c.todo.erase a).lookup b).map _
    by_cases hba : b = a
    · subst hba
      simp
    · rw [AList.lookup_erase_ne hba, AList.lookup_erase_ne hba, h.todo]
  · rw [hsol]
    refine ⟨fun hp => ⟨hp, hp.transfer (by rfl) ⟨hp.valid.bounds, hp.valid.origin,
      hp.valid.ordered, fun p hpm q hq => ?_⟩⟩, fun hp => hp.1⟩
    refine hp.valid.pending p hpm q ?_
    obtain ⟨e, k, i, he, hqk, hs⟩ := Schedule.mem_pending.mp hq
    refine Schedule.mem_pending.mpr ⟨e, k, i, ?_, hqk, hs⟩
    by_cases hea : e = a
    · subst hea
      simp at he
    · simpa [AList.lookup_erase_ne hea] using he

/-- The state reached when the whole action has fired. -/
theorem of_expanding {c₁ : Config} (h : Expanding ss c₁ s' c' ids)
    (h₁ : Refines ss s counter c₁ ids) (htemp : ss.isTemporal = true)
    (hi : c'.instances = c₁.instances)
    (hp : ∀ τ, Placed ss c' ids τ → Placed ss c₁ ids τ) : Refines ss s' counter c' ids := by
  obtain ⟨log, hlog, hsol⟩ := h.network
  refine ⟨h.assignments, h.active, by rw [h₁.length, hi], ?_, h.todo, fun _ =>
    ⟨h.path, (h₁.timed htemp).nodup, (h₁.timed htemp).below, log, hlog, fun τ => ?_⟩⟩
  · rw [h.path, List.map_map]
    rfl
  · rw [hsol]
    exact and_iff_right_of_imp (hp τ)

theorem compressesState_eq (h : Refines ss s counter c ids) :
    compressesState ss b s a = c.compresses ss b a := by
  rw [compressesState, Config.compresses, h.lookup_isNone]

variable [Callables]

/-- The rest of an action just opened, fired in a row, keeps the instances. -/
theorem succ_rest {j : ℕ} {le : List (Timing × Event)} {next : ℕ × ℕ}
    (h : Refines ss s counter c ids) (hwf : c.WellFormed ss) (hle : ss.events a = some le)
    (hlen : 1 < le.length) (hl : c.todo.lookup a = some (1, j)) (hj : j < c.instances.length)
    (ha : c.actionOf j = a) (hnext : s.todo.lookup a = some next)
    (hrest : ss.expandRest tn le.tail 1 next.2 { s with todo := s.todo.erase a } = some s') :
    ∃ c', Config.fireRest { c with todo := c.todo.erase a } j le.tail 1 = some c' ∧
      Refines ss s' counter c' ids ∧ Checked ss tn s' := by
  have htemp : ss.isTemporal = true := by
    by_contra ht
    have := length_eq_one_of_not_temporal ht hle
    omega
  have hn : next.2 = ids.getD j 0 + 1 + 1 := by
    have := h.todo a
    rw [hnext, hl] at this
    exact congrArg Prod.snd (Option.some.inj this)
  rw [hn] at hrest
  obtain ⟨c', hfire, hexp, hk'⟩ := (h.expanding htemp hl).expandRest (hwf.erase a) htemp hj ha
    hle (by simp) hrest
  have hspec := Config.fireRest_spec hfire
  refine ⟨c', hfire, ?_, ?_⟩
  · refine of_expanding hexp h htemp hspec.2.1 fun τ hτ => ?_
    refine hτ.transfer hspec.2.1.symm ?_
    exact Schedule.valid_of_rest hle hl (by rw [hspec.2.1]) hspec.1 hspec.2.2
      (scheduleOf_congr hspec.2.1 ▸ hτ.valid)
  · rcases hk' with hk' | hk'
    · have := congrArg List.length hk'
      simp at this
      omega
    · exact hk'

/-- Every successor, compressed or not, stands for a step of the configuration. -/
theorem succWith (h : Refines ss s counter c ids) (hwf : c.WellFormed ss) (hd : counter ≤ d)
    (hs : ss.getSuccessorStateWithCompression tn d s a b = some s') :
    ∃ c' ids', c.stepWith ss b a = some c' ∧ Refines ss s' (ss.advance d s a) c' ids' ∧
      Checked ss tn s' := by
  rcases getSuccessorStateWithCompression_eq_some.mp hs with ⟨hc, hs⟩ |
    ⟨hc, le, t, next, hle, hs, hnext, hrest⟩
  · rw [h.compressesState_eq] at hc
    obtain ⟨c', ids', hstep, hr, hk⟩ := h.succ hwf hd hs
    exact ⟨c', ids', Config.stepWith_eq_some.mpr (.inl ⟨hc, hstep⟩), hr, hk⟩
  · rw [h.compressesState_eq] at hc
    obtain ⟨d', ids', hstep, hr, hk⟩ := h.succ hwf hd hs
    obtain ⟨hlen, hl, hj, ha⟩ := Config.opened_of_compresses hc hle hstep
    obtain ⟨c', hfire, hr', hk'⟩ := hr.succ_rest (hwf.step hstep) hle hlen hl hj ha hnext hrest
    exact ⟨c', ids', Config.stepWith_eq_some.mpr (.inr ⟨d', le, hc, hle, hstep, hfire⟩), hr', hk'⟩

/-- Every schedulable step gives a successor, compressed or not. -/
theorem stepWith (hx : tn.Exact) (h : Refines ss s counter c ids) (hwf : c.WellFormed ss)
    (hd : counter ≤ d) (hs : c.stepWith ss b a = some c') (hsch : Schedulable ss c') :
    ∃ s' ids', ss.getSuccessorStateWithCompression tn d s a b = some s' ∧
      Refines ss s' (ss.advance d s a) c' ids' := by
  rcases Config.stepWith_eq_some.mp hs with ⟨hc, hs⟩ | ⟨d', le, hc, hle, hs, hf⟩
  · obtain ⟨s', ids', hs', hr⟩ := h.step hwf hd hs (hsch.acceptable hx (hwf.step hs))
    refine ⟨s', ids', getSuccessorStateWithCompression_eq_some.mpr (.inl ⟨?_, hs'⟩), hr⟩
    rw [h.compressesState_eq, hc]
  · obtain ⟨hlen, hl, hj, ha⟩ := Config.opened_of_compresses hc hle hs
    have htemp : ss.isTemporal = true := by
      by_contra ht
      have := length_eq_one_of_not_temporal ht hle
      omega
    have hwd := hwf.step hs
    have hspec := Config.fireRest_spec hf
    have hrest : ∀ {σ}, Schedule.Valid ss c' σ → Schedule.Valid ss d' σ := fun hv =>
      Schedule.valid_of_rest hle hl (by rw [hspec.2.1]) hspec.1 hspec.2.2 hv
    have hschd : Schedulable ss d' := by
      intro _
      obtain ⟨σ, hv, hm⟩ := hsch htemp
      exact ⟨σ, hrest hv, fun D hD j hj => hm D hD j (hspec.2.1 ▸ hj)⟩
    obtain ⟨t, ids', ht, hr⟩ := h.step hwf hd hs (hschd.acceptable hx hwd)
    have hwf' : c'.WellFormed ss := (hwd.erase a).rest hj (fun i hi => by
      change (ss.event (d'.actionOf c.instances.length) (1 + i)).isSome = true
      rw [ha, Config.event_isSome hle]
      simp only [List.length_tail] at hi
      omega) hf
    obtain ⟨τ, hτ⟩ := (exists_placed_iff hwf' (hr.timed htemp).nodup
      (by rw [hr.length, hspec.2.1])).mpr (hsch htemp)
    have hplaced : ∀ τ, Placed ss c' ids' τ → Placed ss d' ids' τ := fun τ hτ =>
      hτ.transfer hspec.2.1.symm (hrest (scheduleOf_congr hspec.2.1 ▸ hτ.valid))
    obtain ⟨s', hs', hexp⟩ := (hr.expanding htemp hl).of_fireRest hx (hwd.erase a) htemp hj ha hle
      (by simp) hf (hplaced τ hτ) hτ
    refine ⟨s', ids', getSuccessorStateWithCompression_eq_some.mpr (.inr ⟨?_, le, t,
      (1, ids'.getD c.instances.length 0 + 1 + 1), hle, ht, ?_, hs'⟩),
    of_expanding hexp hr htemp hspec.2.1 hplaced⟩
    · rw [h.compressesState_eq, hc]
    · rw [hr.todo, hl, Option.map_some]

end Refines

variable [Callables]

theorem instances_of_stepWith {c c' : Config} {a : Action} {b : Bool}
    (hs : c.stepWith ss b a = some c') : ∃ is, c'.instances = c.instances ++ is := by
  rcases Config.stepWith_eq_some.mp hs with ⟨-, hs⟩ | ⟨d, le, -, -, hs, hf⟩
  · exact instances_of_step hs
  · obtain ⟨is, his⟩ := instances_of_step hs
    exact ⟨is, (Config.fireRest_spec hf).2.1.trans his⟩

/-- What schedules the outcome of a step schedules what it started from. -/
theorem valid_of_stepWith {c c' : Config} {a : Action} {b : Bool} {σ : Schedule}
    (hwf : c.WellFormed ss) (hs : c.stepWith ss b a = some c') (hv : Schedule.Valid ss c' σ) :
    Schedule.Valid ss c σ := by
  rcases Config.stepWith_eq_some.mp hs with ⟨-, hs⟩ | ⟨d, le, hc, hle, hs, hf⟩
  · exact valid_of_step hwf hs hv
  · obtain ⟨-, hl, -, -⟩ := Config.opened_of_compresses hc hle hs
    have hspec := Config.fireRest_spec hf
    exact valid_of_step hwf hs
      (Schedule.valid_of_rest hle hl (by rw [hspec.2.1]) hspec.1 hspec.2.2 hv)

theorem Schedulable.of_stepWith {c c' : Config} {a : Action} {b : Bool} (hwf : c.WellFormed ss)
    (hs : c.stepWith ss b a = some c') (h : Schedulable ss c') : Schedulable ss c := by
  intro ht
  obtain ⟨σ, hv, hm⟩ := h ht
  obtain ⟨is, his⟩ := instances_of_stepWith hs
  refine ⟨σ, valid_of_stepWith hwf hs hv, fun d hd j hj => hm d hd j ?_⟩
  rw [his, List.length_append]
  omega

end TamerLite
