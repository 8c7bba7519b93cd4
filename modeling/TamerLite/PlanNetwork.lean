import TamerLite.Plan

/-! The network of a rebuilt plan: its solutions keep the order of the path
between mutex events and around interval conditions, and every schedule of the
path is one of them. -/

namespace TamerLite

open Difference SearchSpace

section Edges

variable {ss : SearchSpace} {τ : Timepoint → ℚ}

theorem solves_planPastEdges {eId : Action × ℕ} {ev : Timepoint} {past : List (Action × ℕ × ℕ)} :
    Solves τ (ss.planPastEdges eId ev past) ↔ ∀ q ∈ past,
      (ss.mutex eId (q.1, q.2.1) = true → τ (.event q.1 q.2.1 q.2.2) + ss.epsilon ≤ τ ev) ∧
      (ss.precedence (q.1, q.2.1) eId = true → τ (.event q.1 q.2.1 q.2.2) ≤ τ ev) := by
  have hε := ss.epsilon_nonneg
  simp only [Solves, planPastEdges, List.mem_filterMap]
  constructor
  · intro h q hq
    by_cases hm : ss.mutex eId (q.1, q.2.1) = true
    · have he := h ⟨.event q.1 q.2.1 q.2.2, ev, -ss.epsilon⟩ ⟨q, hq, by rw [if_pos hm]⟩
      exact ⟨fun _ => by linarith, fun _ => by linarith⟩
    · refine ⟨fun hm' => absurd hm' hm, fun hp => ?_⟩
      have he := h ⟨.event q.1 q.2.1 q.2.2, ev, 0⟩ ⟨q, hq, by rw [if_neg hm, if_pos hp]⟩
      linarith
  · intro h e he
    obtain ⟨q, hq, he⟩ := he
    split_ifs at he with hm hp
    · obtain rfl := Option.some.inj he
      have := (h q hq).1 hm
      show τ (.event q.1 q.2.1 q.2.2) - τ ev ≤ -ss.epsilon
      linarith
    · obtain rfl := Option.some.inj he
      have := (h q hq).2 hp
      show τ (.event q.1 q.2.1 q.2.2) - τ ev ≤ 0
      linarith

theorem solves_planTodoEdges {eId : Action × ℕ} {ev : Timepoint}
    {todo : AList (fun _ : Action => ℕ × ℕ)} (h : ∀ q ∈ ss.pendingEvents todo,
      ss.mutex eId (q.1, q.2.1) = true → τ ev + ss.epsilon ≤ τ (.event q.1 q.2.1 q.2.2)) :
    Solves τ (ss.planTodoEdges eId ev todo) := by
  intro e he
  obtain ⟨q, hq, he⟩ := List.mem_filterMap.mp he
  split_ifs at he with hm
  obtain rfl := Option.some.inj he
  have := h q hq hm
  show τ ev - τ (.event q.1 q.2.1 q.2.2) ≤ -ss.epsilon
  linarith

end Edges

variable {ss : SearchSpace} {tn : DeltaSimpleTemporalNetwork} {c c' : Config}
  {ids : List ℕ} {p : PlanState} {a : Action}

/-- `q` comes after `p`, as far as the network of a plan says. -/
def PlanFollows (ss : SearchSpace) (c : Config) (t : ℕ × ℕ → ℚ) (p q : ℕ × ℕ) : Prop :=
  (Schedule.mutex ss c p q → t p + ss.epsilon ≤ t q) ∧
    (ss.precedence (c.actionOf p.1, p.2) (c.actionOf q.1, q.2) = true → t p ≤ t q)

/-- What the network of a plan says of the instances of a configuration. -/
structure PlanPlaced (ss : SearchSpace) (c : Config) (ids : List ℕ) (τ : Timepoint → ℚ) : Prop where
  bounds : ∀ (j : ℕ) (i : Instance), c.instances[j]? = some i →
    i.lower ≤ τ (anchor c ids false j) - τ (anchor c ids true j) ∧
      τ (anchor c ids false j) - τ (anchor c ids true j) ≤ i.upper
  rigid : ∀ j < c.instances.length, ∀ {k : ℕ} {te : Timing × Event},
    ss.event (c.actionOf j) k = some te →
      τ (point c ids (j, k)) = τ (anchor c ids te.1.start j) + te.1.delay
  pinned : ∀ a, ss.timedAction = some a → c.actionOf 0 = a ∧ τ (anchor c ids true 0) = τ .startPlan
  origin : ss.timedAction.isSome = true → ∀ j < c.instances.length,
    τ .startPlan ≤ τ (anchor c ids true j)
  ordered : c.fired.Pairwise (PlanFollows ss c fun p => τ (point c ids p))

/-- The variables of `build_plan` after the events of a configuration, whose
instances have ids `ids` in its network. -/
structure Rebuilds (ss : SearchSpace) (p : PlanState) (c : Config) (ids : List ℕ) : Prop where
  opened : p.opened = (c.instances.map Instance.action).zip ids
  length : ids.length = c.instances.length
  nodup : ids.Nodup
  below : ∀ id ∈ ids, id < p.counter
  path : p.eventPath = c.fired.map (key c ids)
  todo : ∀ a, p.todo.lookup a = (c.todo.lookup a).map fun q => (q.1, ids.getD q.2 0 + 1 + q.1)
  sound : ∀ τ, Solves τ p.network → PlanPlaced ss c ids τ
  complete : ∀ τ, Placed ss c ids τ → Solves τ p.network
  state : ∃ ids', Refines ss p.state p.searchCounter c ids'
  timed : ∀ a, ss.timedAction = some a → 0 < c.instances.length

theorem planFollows_of_past {past : List (ℕ × ℕ)} {q : ℕ × ℕ} {τ : Timepoint → ℚ} :
    Solves τ (ss.planPastEdges (c.actionOf q.1, q.2) (point c ids q) (past.map (key c ids))) ↔
      ∀ p ∈ past, PlanFollows ss c (fun p => τ (point c ids p)) p q := by
  rw [solves_planPastEdges, List.forall_mem_map]
  rfl

theorem planFollows_of_follows {t : ℕ × ℕ → ℚ} {q r : ℕ × ℕ}
    (h : Follows (Schedule.mutex ss c) ss.epsilon t q r) : PlanFollows ss c t q r :=
  ⟨h.2, fun _ => h.1⟩

variable [Callables]

theorem planStep_running {le : List (Timing × Event)} {index id : ℕ} {te : Timing × Event}
    {s' : State} (hle : ss.events a = some le) (hl : p.todo.lookup a = some (index, id))
    (hte : le[index]? = some te)
    (hs : ss.getSuccessorStateWithCompression tn p.searchCounter p.state a false = some s') :
    ss.planStep tn p a = some { p with
      network := p.network ++
        ss.planPastEdges (te.2.action, te.2.pos) (.event te.2.action te.2.pos id) p.eventPath ++
        ss.planTodoEdges (te.2.action, te.2.pos) (.event te.2.action te.2.pos id)
          (Config.nextTodo p.todo a le.length index (id + 1))
      todo := Config.nextTodo p.todo a le.length index (id + 1)
      eventPath := p.eventPath ++ [(te.2.action, te.2.pos, id)]
      state := s'
      searchCounter := ss.advance p.searchCounter p.state a } := by
  simp only [planStep, hle, hl, hte, hs, Option.bind_eq_bind, Option.bind_some]
  rfl

theorem planStep_opening {le : List (Timing × Event)} {te : Timing × Event} {b : ℚ × ℚ}
    {s' : State} (hle : ss.events a = some le) (hl : p.todo.lookup a = none)
    (hte : le[0]? = some te) (hb : ss.durationBounds a p.state.assignments = some b)
    (hs : ss.getSuccessorStateWithCompression tn p.searchCounter p.state a false = some s') :
    ss.planStep tn p a = some {
      network := p.network ++ (interval (.anchor a true p.counter) (.anchor a false p.counter) b.1 b.2 ++
          eventEdges a p.counter le (p.counter + 1)) ++
        (if ss.timedAction.isSome then [⟨.startPlan, .anchor a true p.counter, 0⟩] else []) ++
        ss.planPastEdges (te.2.action, te.2.pos) (.event te.2.action te.2.pos (p.counter + 1))
          p.eventPath ++
        ss.planTodoEdges (te.2.action, te.2.pos) (.event te.2.action te.2.pos (p.counter + 1)) p.todo
      opened := p.opened ++ [(a, p.counter)]
      todo := if 1 < le.length then p.todo.insert a (1, p.counter + 1 + 1) else p.todo
      eventPath := p.eventPath ++ [(te.2.action, te.2.pos, p.counter + 1)]
      counter := p.counter + 1 + le.length
      state := s'
      searchCounter := ss.advance p.searchCounter p.state a } := by
  simp only [planStep, addActionToPlanNetwork, hle, hl, hte, hs, hb, Option.bind_eq_bind,
    Option.bind_some]
  rfl

namespace Rebuilds

theorem fire {le : List (Timing × Event)} {k j : ℕ} {te : Timing × Event} (hx : tn.Exact)
    (h : Rebuilds ss p c ids) (hwf : c.WellFormed ss) (hle : ss.events a = some le)
    (hl : c.todo.lookup a = some (k, j)) (hte : le[k]? = some te)
    (hs : c.step ss a = some c') (hwf' : c'.WellFormed ss)
    (ht : c'.todo = Config.nextTodo c.todo a le.length k j)
    (hi : c'.instances = c.instances) (hf : c'.fired = c.fired ++ [(j, k)])
    (hsch : Schedulable ss c') : ∃ p', ss.planStep tn p a = some p' ∧ Rebuilds ss p' c' ids := by
  obtain ⟨ids', href⟩ := h.state
  obtain ⟨s', ids'', hsucc, href'⟩ := href.stepWith (b := false) hx hwf le_rfl
    (by rw [Config.stepWith_false]; exact hs) hsch
  have hn := (ss.events_numbered hle).2 hte
  have ha : ∀ j', c'.actionOf j' = c.actionOf j' := fun j' => by simp only [Config.actionOf, hi]
  have haj : c'.actionOf j = a := (ha j).trans (hwf.todo hl).2.1
  have hkey : key c' ids = key c ids := by
    funext q
    simp only [key, ha]
  have hpoint : point c' ids = point c ids := by
    funext q
    simp only [point, ha]
  have htodo : ∀ b, (Config.nextTodo p.todo a le.length k (ids.getD j 0 + 1 + k + 1)).lookup b =
      (c'.todo.lookup b).map fun q => (q.1, ids.getD q.2 0 + 1 + q.1) := by
    intro b
    rw [ht, Config.lookup_nextTodo, Config.lookup_nextTodo]
    split_ifs with hb hlen
    · rfl
    · rfl
    · exact h.todo b
  have hlp : p.todo.lookup a = some (k, ids.getD j 0 + 1 + k) := by rw [h.todo, hl, Option.map_some]
  have hev : Timepoint.event te.2.action te.2.pos (ids.getD j 0 + 1 + k) = point c' ids (j, k) := by
    rw [hn.1, hn.2, point, haj]
  have heid : (te.2.action, te.2.pos) = (c'.actionOf j, k) := by rw [hn.1, hn.2, haj]
  refine ⟨_, planStep_running hle hlp hte hsucc, ?_⟩
  refine ⟨by rw [hi]; exact h.opened, by rw [hi]; exact h.length, h.nodup, h.below, ?_, htodo,
    fun τ hτ => ?_, fun τ hτ => ?_, ⟨ids'', href'⟩, by rw [hi]; exact h.timed⟩
  · show p.eventPath ++ _ = _
    rw [hf, List.map_append, hkey, h.path, ← hkey, hn.1, hn.2]
    simp only [List.map_cons, List.map_nil, key, haj]
  · rw [solves_append, solves_append] at hτ
    have hold := h.sound τ hτ.1.1
    have hnew := hτ.1.2
    rw [hev, heid, h.path, ← hkey] at hnew
    have hpast := (planFollows_of_past (q := (j, k))).mp hnew
    refine ⟨fun j' i hj' => ?_, fun j' hj' {k' te'} hte' => ?_, fun b hb => ?_,
      fun hs j' hj' => ?_, ?_⟩
    · simpa only [anchor, ha] using hold.bounds j' i (hi ▸ hj')
    · rw [ha] at hte'
      simpa only [point, anchor, ha] using hold.rigid j' (hi ▸ hj') hte'
    · simpa only [anchor, ha] using hold.pinned b hb
    · simpa only [anchor, ha] using hold.origin hs j' (hi ▸ hj')
    · rw [hf, List.pairwise_append]
      refine ⟨?_, List.pairwise_singleton _ _, fun q hq r hr => ?_⟩
      · refine hold.ordered.imp fun {q r} hqr => ?_
        simpa only [PlanFollows, Schedule.mutex, hpoint, ha] using hqr
      · obtain rfl := List.mem_singleton.mp hr
        exact hpast q hq
  · have hk := (List.getElem?_eq_some_iff.mp hte).1
    have hplace : Placed ss c' ids τ ↔ _ := placed_fire_iff (τ := τ) hwf hle hl hk ht hi hf
    have hold := hplace.mp hτ
    rw [solves_append, solves_append]
    refine ⟨⟨h.complete τ hold.1, ?_⟩, solves_planTodoEdges fun q hq hm => ?_⟩
    · rw [hev, heid, h.path, ← hkey]
      apply (planFollows_of_past (q := (j, k))).mpr
      intro q hq
      have hord := hτ.ordered hwf'
      rw [hf, List.pairwise_append] at hord
      exact planFollows_of_follows (hord.2.2 q hq _ (by simp))
    · obtain ⟨q', hq', rfl⟩ := (mem_pendingEvents_iff_key hwf' htodo q).mp hq
      have hfol := hold.2 q' hq'
      rw [hev]
      apply hfol.2
      rw [Schedule.mutex, mutex_comm]
      rw [heid] at hm
      exact hm

theorem opening {le : List (Timing × Event)} {te : Timing × Event} {b : ℚ × ℚ} (hx : tn.Exact)
    (h : Rebuilds ss p c ids) (hwf : c.WellFormed ss) (hle : ss.events a = some le)
    (hl : c.todo.lookup a = none) (hte : le[0]? = some te)
    (hb : ss.durationBounds a c.assignments = some b) (hs : c.step ss a = some c')
    (ht : c'.todo = if 1 < le.length then c.todo.insert a (1, c.instances.length) else c.todo)
    (hi : c'.instances = c.instances ++ [⟨a, b.1, b.2, false⟩])
    (hf : c'.fired = c.fired ++ [(c.instances.length, 0)]) (hsch : Schedulable ss c') :
    ∃ p', ss.planStep tn p a = some p' ∧ Rebuilds ss p' c' (ids ++ [p.counter]) := by
  obtain ⟨ids', href⟩ := h.state
  obtain ⟨s', ids'', hsucc, href'⟩ := href.stepWith (b := false) hx hwf le_rfl
    (by rw [Config.stepWith_false]; exact hs) hsch
  have hn := (ss.events_numbered hle).2 hte
  have hpos : 0 < le.length := (List.getElem?_eq_some_iff.mp hte).1
  have ha : ∀ {j'}, j' < c.instances.length → c'.actionOf j' = c.actionOf j' := fun h => by
    simp only [Config.actionOf, hi, List.getElem?_append_left h]
  have han : c'.actionOf c.instances.length = a := by simp [Config.actionOf, hi]
  have hid : ∀ {j'}, j' < c.instances.length →
      (ids ++ [p.counter]).getD j' 0 = ids.getD j' 0 := by
    intro j' hj'
    simp only [List.getD_eq_getElem?_getD]
    rw [List.getElem?_append_left (by rw [h.length]; exact hj')]
  have hidn : (ids ++ [p.counter]).getD c.instances.length 0 = p.counter := by
    rw [← h.length]
    simp
  have hpoint : ∀ {q : ℕ × ℕ}, q.1 < c.instances.length →
      point c' (ids ++ [p.counter]) q = point c ids q := by
    intro q hq
    simp only [point, ha hq, hid hq]
  have hkey : c.fired.map (key c' (ids ++ [p.counter])) = c.fired.map (key c ids) := by
    apply List.map_congr_left
    intro q hq
    simp only [key, ha (hwf.fired q hq).1, hid (hwf.fired q hq).1]
  have hlp : p.todo.lookup a = none := by rw [h.todo, hl, Option.map_none]
  have hbp : ss.durationBounds a p.state.assignments = some b := by rw [href.assignments, hb]
  have htodo : ∀ e, (if 1 < le.length then p.todo.insert a (1, p.counter + 1 + 1) else p.todo).lookup e =
      (c'.todo.lookup e).map fun q => (q.1, (ids ++ [p.counter]).getD q.2 0 + 1 + q.1) := by
    intro e
    have hold : p.todo.lookup e = (c.todo.lookup e).map
        fun q => (q.1, (ids ++ [p.counter]).getD q.2 0 + 1 + q.1) := by
      rw [h.todo]
      cases he : c.todo.lookup e with
      | none => rfl
      | some q => simp only [Option.map_some, hid (hwf.todo he).1]
    rw [ht]
    split_ifs with hlen
    · by_cases hea : e = a
      · subst hea
        rw [AList.lookup_insert, AList.lookup_insert, Option.map_some, hidn]
      · rw [AList.lookup_insert_ne hea, AList.lookup_insert_ne hea, hold]
    · exact hold
  have hev : Timepoint.event te.2.action te.2.pos (p.counter + 1) =
      point c' (ids ++ [p.counter]) (c.instances.length, 0) := by
    rw [hn.1, hn.2, point, han, hidn, add_zero]
  have heid : (te.2.action, te.2.pos) = (c'.actionOf c.instances.length, 0) := by
    rw [hn.1, hn.2, han]
  refine ⟨_, planStep_opening hle hlp hte hbp hsucc, ?_⟩
  refine ⟨?_, ?_, ?_, ?_, ?_, htodo, fun τ hτ => ?_, fun τ hτ => ?_, ⟨ids'', href'⟩,
    fun _ _ => by simp [hi]⟩
  · rw [hi, List.map_append, List.zip_append (by rw [List.length_map, h.length]), h.opened]
    rfl
  · rw [hi, List.length_append, List.length_append, h.length]
    rfl
  · rw [List.nodup_append]
    refine ⟨h.nodup, List.nodup_singleton _, fun x hx y hy => ?_⟩
    rw [List.mem_singleton] at hy
    have := h.below x hx
    omega
  · intro id hid'
    rcases List.mem_append.mp hid' with hid' | hid'
    · have := h.below id hid'
      show id < p.counter + 1 + le.length
      omega
    · rw [List.mem_singleton.mp hid']
      show p.counter < p.counter + 1 + le.length
      omega
  · show p.eventPath ++ _ = _
    rw [hf, List.map_append, hkey, h.path, hn.1, hn.2]
    simp only [List.map_cons, List.map_nil, key, han, hidn, add_zero]
  · rw [solves_append, solves_append, solves_append, solves_append] at hτ
    obtain ⟨⟨⟨⟨hold, hopen⟩, horigin⟩, hnew⟩, -⟩ := hτ
    have hold := h.sound τ hold
    rw [hev, heid, h.path, ← hkey] at hnew
    have hpast := (planFollows_of_past (q := (c.instances.length, 0))).mp hnew
    refine ⟨fun j' i hj' => ?_, fun j' hj' {k' te'} hte' => ?_, fun e he => ?_,
      fun hs j' hj' => ?_, ?_⟩
    · by_cases hj : j' < c.instances.length
      · rw [hi, List.getElem?_append_left hj] at hj'
        simpa only [anchor, ha hj, hid hj] using hold.bounds j' i hj'
      · have hlt := (List.getElem?_eq_some_iff.mp hj').1
        rw [hi, List.length_append, List.length_singleton] at hlt
        obtain rfl : j' = c.instances.length := by omega
        rw [hi, List.getElem?_concat_length] at hj'
        obtain rfl := Option.some.inj hj'
        simpa only [anchor, han, hidn] using solves_interval.mp (solves_append.mp hopen).1
    · rw [hi, List.length_append, List.length_singleton] at hj'
      by_cases hj : j' < c.instances.length
      · rw [ha hj] at hte'
        have hr := hold.rigid j' hj hte'
        rw [hpoint hj]
        simpa only [anchor, ha hj, hid hj] using hr
      · obtain rfl : j' = c.instances.length := by omega
        rw [han] at hte'
        rw [Config.event_eq hle] at hte'
        have hr := solves_eventEdges.mp ((solves_append.mp hopen).2) hte'
        have hn' := (ss.events_numbered hle).2 hte'
        rw [hn'.1, hn'.2] at hr
        simpa only [point, anchor, han, hidn] using hr
    · have hj := h.timed e he
      simpa only [anchor, ha hj, hid hj] using hold.pinned e he
    · by_cases hj : j' < c.instances.length
      · simpa only [anchor, ha hj, hid hj] using hold.origin hs j' hj
      · rw [hi, List.length_append, List.length_singleton] at hj'
        obtain rfl : j' = c.instances.length := by omega
        rw [if_pos hs] at horigin
        have hstart := (solves_cons.mp horigin).1
        simp only [anchor, han, hidn]
        linarith
    · rw [hf, List.pairwise_append]
      refine ⟨?_, List.pairwise_singleton _ _, fun q hq r hr => ?_⟩
      · refine hold.ordered.imp_of_mem fun {q r} hq hr hqr => ?_
        have hq' := (hwf.fired q hq).1
        have hr' := (hwf.fired r hr).1
        simpa only [PlanFollows, Schedule.mutex, hpoint hq', hpoint hr', ha hq', ha hr'] using hqr
      · obtain rfl := List.mem_singleton.mp hr
        exact hpast q hq
  · have hplace : Placed ss c' (ids ++ [p.counter]) τ ↔ _ :=
      placed_open_iff (τ := τ) hwf h.length hle hl hpos ht hi rfl hf
    obtain ⟨hold, hopen, hpast, hpend⟩ := hplace.mp hτ
    rw [openingEdges, solves_append, solves_append, solves_append] at hopen
    obtain ⟨⟨⟨hbounds, horigin⟩, -⟩, hevents⟩ := hopen
    rw [solves_append, solves_append, solves_append, solves_append, solves_append]
    refine ⟨⟨⟨⟨h.complete τ hold, hbounds, hevents⟩, ?_⟩, ?_⟩, solves_planTodoEdges fun q hq hm => ?_⟩
    · split_ifs
      · exact horigin
      · exact fun e he => absurd he List.not_mem_nil
    · rw [hev, heid, h.path, ← hkey]
      apply (planFollows_of_past (q := (c.instances.length, 0))).mpr
      exact fun q hq => planFollows_of_follows (hpast q hq)
    · obtain ⟨q', hq', rfl⟩ := (mem_pendingEvents_iff_key hwf h.todo q).mp hq
      have hlt := (Schedule.actionOf_pending hwf hq').1
      have hq'' : q' ∈ Schedule.pending ss c' := (Schedule.mem_pending_open hle hl ht).mpr (.inr hq')
      have hkey' : key c ids q' = key c' (ids ++ [p.counter]) q' := by
        simp only [key, ha hlt, hid hlt]
      rw [hev, hkey']
      apply (hpend q' hq'').2
      rw [Schedule.mutex, mutex_comm]
      rw [heid, hkey'] at hm
      exact hm

theorem step (hx : tn.Exact) (h : Rebuilds ss p c ids) (hwf : c.WellFormed ss)
    (hs : c.step ss a = some c') (hsch : Schedulable ss c') :
    ∃ p' ids', ss.planStep tn p a = some p' ∧ Rebuilds ss p' c' ids' := by
  have hwf' := hwf.step hs
  rcases Config.step_eq_some.mp hs with ⟨le, k, j, te, hle, hl, hte, -, hf⟩ |
    ⟨le, te, b, hle, hl, -, -, hte, -, hb, hf⟩
  · obtain ⟨removed, as, -, -, -, rfl⟩ := Config.fire_eq_some.mp hf
    obtain ⟨p', hp, h'⟩ := h.fire hx hwf hle hl hte hs hwf' rfl rfl rfl hsch
    exact ⟨p', _, hp, h'⟩
  · obtain ⟨removed, as, -, -, -, rfl⟩ := Config.fire_eq_some.mp hf
    obtain ⟨p', hp, h'⟩ := h.opening hx hwf hle hl hte hb hs rfl rfl rfl hsch
    exact ⟨p', _, hp, h'⟩

theorem run {as : List Action} (hx : tn.Exact) (h : Rebuilds ss p c ids) (hwf : c.WellFormed ss)
    (hr : c.run ss as = some c') (hsch : Schedulable ss c') :
    ∃ p' ids', as.foldlM (ss.planStep tn) p = some p' ∧ Rebuilds ss p' c' ids' := by
  induction as generalizing c p ids with
  | nil =>
    obtain rfl := Option.some.inj hr
    exact ⟨p, ids, rfl, h⟩
  | cons a as ih =>
    obtain ⟨d, hd, hr⟩ := Config.run_cons.mp hr
    have hschd : Schedulable ss d := by
      apply hsch.of_runWith (b := false) (hwf.step hd)
      rw [Config.runWith_false]
      exact hr
    obtain ⟨q, ids', hq, h'⟩ := h.step hx hwf hd hschd
    obtain ⟨p', ids'', hp', h''⟩ := ih h' (hwf.step hd) hr
    exact ⟨p', ids'', by rw [List.foldlM_cons, hq]; exact hp', h''⟩

end Rebuilds

/-- Rebuilding starts from the initial state, the head of the path being the
timed action's first event. -/
theorem rebuilds_initial {n : ℕ} {s₀ : State} {c₀ : Config} (as : List Action)
    (hs : ss.initial tn n = some s₀) (hc : Config.initial ss = some c₀) :
    ∃ p ids, ss.planInitial tn n (c₀.actions ++ as) = some (p, as) ∧ Rebuilds ss p c₀ ids := by
  obtain ⟨c, ids', hc', href, -⟩ := refines_initial hs
  obtain rfl := Option.some.inj (hc.symm.trans hc')
  rcases Config.initial_eq_some.mp hc with ⟨ht, rfl⟩ | ⟨a, le, te, b, ht, hle, hte, -, hb, hf⟩
  · have hcounter : initialCounter ss n = n := by simp [initialCounter, ht]
    rw [hcounter] at href
    have hp : ss.planInitial tn n as = some (⟨[], [], ∅, [], 0, s₀, n⟩, as) := by
      simp [planInitial, hs, ht]
    refine ⟨_, [], hp, ⟨rfl, rfl, List.nodup_nil, by simp, rfl, fun a => rfl,
      fun τ _ => ⟨fun j i hj => absurd hj (by simp), fun j hj => absurd hj (Nat.not_lt_zero j),
        fun a ha => ?_, fun _ j hj => absurd hj (Nat.not_lt_zero j), List.Pairwise.nil⟩,
      fun τ _ => solves_nil, ⟨ids', href⟩, fun a ha => ?_⟩⟩
    · rw [ht] at ha
      contradiction
    · rw [ht] at ha
      contradiction
  · obtain ⟨removed, A, -, -, -, rfl⟩ := Config.fire_eq_some.mp hf
    obtain ⟨q, -, hq⟩ := durationBounds_timed ht
    obtain rfl := Option.some.inj (hb.symm.trans (hq _))
    have hn := (ss.events_numbered hle).2 hte
    have hp : ss.planInitial tn n (a :: as) = some (⟨interval (.anchor a true 0)
        (.anchor a false 0) q q ++ eventEdges a 0 le 1 ++ interval .startPlan (.anchor a true 0) 0 0,
        [(a, 0)], if 1 < le.length then AList.insert a (1, 2) ∅ else ∅,
        [(te.2.action, te.2.pos, 1)], 1 + le.length, s₀, initialCounter ss n⟩, as) := by
      simp [planInitial, addActionToPlanNetwork, hs, ht, hle, hte, hq, initialCounter]
    refine ⟨_, [0], hp, ⟨rfl, rfl, by simp, by simp, ?_, fun e => ?_, fun τ hτ => ?_, fun τ hτ => ?_,
      ⟨ids', href⟩, fun _ _ => Nat.one_pos⟩⟩
    · rw [hn.1, hn.2]
      rfl
    · by_cases hlen : 1 < le.length
      · simp only [if_pos hlen]
        by_cases hea : e = a
        · subst hea
          rw [AList.lookup_insert, AList.lookup_insert]
          rfl
        · rw [AList.lookup_insert_ne hea, AList.lookup_insert_ne hea]
          rfl
      · simp only [if_neg hlen]
        rfl
    · rw [solves_append, solves_append] at hτ
      have hpin := (solves_interval_self.mp hτ.2).trans (add_zero _)
      refine ⟨fun j i hj => ?_, fun j hj {k te'} hte' => ?_, fun e he => ?_, fun _ j hj => ?_,
        List.pairwise_singleton _ _⟩
      · obtain ⟨rfl, rfl⟩ : j = 0 ∧ ⟨a, q, q, true⟩ = i := by
          simpa [Config.fire, List.getElem?_singleton] using hj
        exact solves_interval.mp hτ.1.1
      · obtain rfl : j = 0 := Nat.lt_one_iff.mp hj
        have hte' : ss.event a k = some te' := hte'
        rw [Config.event_eq hle] at hte'
        have hr := solves_eventEdges.mp hτ.1.2 hte'
        have hn' := (ss.events_numbered hle).2 hte'
        rw [hn'.1, hn'.2] at hr
        exact hr
      · obtain rfl := Option.some.inj (ht.symm.trans he)
        exact ⟨rfl, hpin⟩
      · obtain rfl : j = 0 := Nat.lt_one_iff.mp hj
        exact hpin.ge
    · have hplace : ∀ d : Config, d.todo = (if 1 < le.length then AList.insert a (1, 0) ∅ else ∅) →
          d.instances = [⟨a, q, q, true⟩] → d.fired = [(0, 0)] → Placed ss d ([] ++ [0]) τ →
          Solves τ (ss.openingEdges ⟨a, 0, le, true⟩ q q) := fun d hd hi hf h =>
        ((placed_open_iff Config.wellFormed_empty rfl hle (AList.lookup_empty a)
          (List.getElem?_eq_some_iff.mp hte).1 hd hi rfl hf).mp h).2.1
      have hopen := hplace _ rfl rfl rfl hτ
      rw [openingEdges, solves_append, solves_append, solves_append, if_pos rfl] at hopen
      rw [solves_append, solves_append]
      exact ⟨⟨hopen.1.1.1, hopen.2⟩, hopen.1.1.2⟩

end TamerLite
