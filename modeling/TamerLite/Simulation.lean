import TamerLite.Refinement

/-! States of the search space and the configurations they stand for: a
successor exists exactly when the configuration has a step and its network is
accepted, whatever the instance ids. -/

namespace TamerLite

open Difference SearchSpace

variable {ss : SearchSpace} {tn : DeltaSimpleTemporalNetwork}

section

variable [Callables]

/-- The constraints of an expanded state. -/
def network (ss : SearchSpace) (state newState : State) (e : Event) (index id : ℕ)
    (pendingOpening : Option PendingOpening) : Option (List Edge) := do
  let base ← newState.temporalNetwork <|> state.temporalNetwork
  let opening ← ss.addOpeningConstraints state.assignments pendingOpening
  return base ++ opening ++
    ss.predecessorEdges (e.action, index) (.event e.action e.pos id) true state.path.reverse ++
    ss.todoEdges (e.action, index) (.event e.action e.pos id) newState.todo

theorem network_eq {state newState : State} {e : Event} {index id : ℕ}
    {po : Option PendingOpening} {base opening : List Edge}
    (hb : (newState.temporalNetwork <|> state.temporalNetwork) = some base)
    (ho : ss.addOpeningConstraints state.assignments po = some opening) :
    network ss state newState e index id po = some (base ++ opening ++
      ss.predecessorEdges (e.action, index) (.event e.action e.pos id) true state.path.reverse ++
      ss.todoEdges (e.action, index) (.event e.action e.pos id) newState.todo) := by
  simp [network, hb, ho]

/-- `net` is the network of the expanded state, and it was accepted. -/
def Accepts (ss : SearchSpace) (tn : DeltaSimpleTemporalNetwork) (state newState : State)
    (e : Event) (index id : ℕ) (pendingOpening : Option PendingOpening)
    (net : Option (List Edge)) : Prop :=
  if ss.isTemporal then ∃ log, network ss state newState e index id pendingOpening = some log ∧
    tn.checkStn log = true ∧ net = some log
  else net = newState.temporalNetwork

theorem expandEvent_eq_some {state newState s' : State} {e : Event} {index id : ℕ}
    {po : Option PendingOpening} :
    ss.expandEvent tn state newState e index id po = some s' ↔
      ∃ removed assignments, removeAll e.endConditions newState.activeConditions = some removed ∧
        applyEffects e.effects state.assignments newState.assignments = some assignments ∧
        ¬ (e.effects ≠ [] ∧ ¬ ∀ x ∈ removed + e.startConditions, holds x assignments = true) ∧
        ∃ net, Accepts ss tn state newState e index id po net ∧
          s' = { newState with
            assignments := assignments
            activeConditions := removed + e.startConditions
            path := newState.path ++ [(e.action, e.pos, id)]
            temporalNetwork := net } := by
  simp only [expandEvent, Option.bind_eq_bind, Option.bind_eq_some_iff]
  refine exists_congr fun removed => ?_
  constructor
  · rintro ⟨hr, assignments, ha, h⟩
    refine ⟨assignments, hr, ha, ?_⟩
    by_cases hc : e.effects ≠ [] ∧ ¬ ∀ x ∈ removed + e.startConditions, holds x assignments = true
    · rw [if_pos hc] at h
      contradiction
    · rw [if_neg hc] at h
      refine ⟨hc, ?_⟩
      by_cases ht : ss.isTemporal = true
      · rw [if_pos ht] at h
        obtain ⟨base, hb, h⟩ := Option.bind_eq_some_iff.mp h
        obtain ⟨opening, ho, h⟩ := Option.bind_eq_some_iff.mp h
        by_cases hk : tn.checkStn (base ++ opening ++
            ss.predecessorEdges (e.action, index) (.event e.action e.pos id) true
              state.path.reverse ++
            ss.todoEdges (e.action, index) (.event e.action e.pos id) newState.todo) = true
        · rw [if_pos hk] at h
          refine ⟨_, ?_, (Option.some.inj h).symm⟩
          rw [Accepts, if_pos ht]
          exact ⟨_, by simp [network, hb, ho], hk, rfl⟩
        · rw [if_neg hk] at h
          contradiction
      · rw [if_neg ht] at h
        refine ⟨newState.temporalNetwork, ?_, (Option.some.inj h).symm⟩
        rw [Accepts, if_neg ht]
  · rintro ⟨assignments, hr, ha, hc, net, hnet, rfl⟩
    refine ⟨hr, assignments, ha, ?_⟩
    rw [if_neg hc]
    by_cases ht : ss.isTemporal = true
    · rw [Accepts, if_pos ht] at hnet
      obtain ⟨log, hlog, hk, rfl⟩ := hnet
      simp only [network, Option.bind_eq_bind, Option.bind_eq_some_iff] at hlog
      obtain ⟨base, hb, opening, ho, hlog⟩ := hlog
      obtain rfl := Option.some.inj hlog
      rw [if_pos ht]
      refine Option.bind_eq_some_iff.mpr ⟨base, hb, Option.bind_eq_some_iff.mpr ⟨opening, ho, ?_⟩⟩
      rw [if_pos hk]
    · rw [Accepts, if_neg ht] at hnet
      rw [if_neg ht, hnet]

end

/-! ### Refinement -/

/-- What the network and the ids add in a temporal problem. -/
structure Timed (ss : SearchSpace) (s : State) (counter : ℕ) (c : Config) (ids : List ℕ) :
    Prop where
  path : s.path = c.fired.map (key c ids)
  nodup : ids.Nodup
  below : ∀ id ∈ ids, id < counter
  network : ∃ log, s.temporalNetwork = some log ∧ ∀ τ, Solves τ log ↔ Placed ss c ids τ

/-- State `s` stands for configuration `c`, whose instances have ids `ids`. -/
structure Refines (ss : SearchSpace) (s : State) (counter : ℕ) (c : Config) (ids : List ℕ) :
    Prop where
  assignments : s.assignments = c.assignments
  active : s.activeConditions = c.active
  length : ids.length = c.instances.length
  path : s.path.map Prod.fst = c.actions
  todo : ∀ a, s.todo.lookup a =
    (c.todo.lookup a).map fun p => (p.1, ids.getD p.2 0 + 1 + p.1)
  timed : ss.isTemporal = true → Timed ss s counter c ids

/-- State `s` shows the values of configuration `c` and how far its actions are. -/
structure Shows (s : State) (c : Config) : Prop where
  assignments : s.assignments = c.assignments
  next : ∀ a, (s.todo.lookup a).map Prod.fst = (c.todo.lookup a).map Prod.fst

theorem Refines.shows {s : State} {counter : ℕ} {c : Config} {ids : List ℕ}
    (h : Refines ss s counter c ids) : Shows s c := by
  refine ⟨h.assignments, fun a => ?_⟩
  rw [h.todo, Option.map_map]
  rfl

theorem Refines.mono {s : State} {counter counter' : ℕ} {c : Config} {ids : List ℕ}
    (h : Refines ss s counter c ids) (hle : counter ≤ counter') : Refines ss s counter' c ids := by
  refine { h with timed := fun ht => ?_ }
  have htimed := h.timed ht
  exact { htimed with below := fun id hid => (htimed.below id hid).trans_le hle }

section

variable [Callables]

/-- The expansion of a state and the plain rule agree, up to the network. -/
theorem expandEvent_iff_fire {c : Config} {s s' newState : State} (hwf : c.WellFormed ss)
    {e : Event} {index id : ℕ} {po : Option PendingOpening} (p : ℕ × ℕ)
    (todo : AList (fun _ : Action => ℕ × ℕ)) (instances : List Instance)
    (hs : s.assignments = c.assignments) (ha : newState.assignments = c.assignments)
    (hact : newState.activeConditions = c.active) :
    (effectIndependentStartConditionsHold e s.assignments = true ∧
      ss.expandEvent tn s newState e index id po = some s') ↔
    ∃ c', c.fire e p todo instances = some c' ∧ ∃ net,
      Accepts ss tn s newState e index id po net ∧
      s' = { newState with
        assignments := c'.assignments
        activeConditions := c'.active
        path := newState.path ++ [(e.action, e.pos, id)]
        temporalNetwork := net } := by
  rw [expandEvent_eq_some, ha, hact, hs]
  constructor
  · intro h
    obtain ⟨hi, removed, as, hr, happ, hc, net, hnet, rfl⟩ := h
    have hplain := (plain_iff_shortcut hwf.active hr happ).mpr ⟨hi, hc⟩
    exact ⟨_, Config.fire_eq_some.mpr ⟨removed, as, hr, happ, hplain, rfl⟩, net, hnet, rfl⟩
  · intro h
    obtain ⟨c', hf, net, hnet, rfl⟩ := h
    obtain ⟨removed, as, hr, happ, hplain, rfl⟩ := Config.fire_eq_some.mp hf
    have hh := (plain_iff_shortcut hwf.active hr happ).mp hplain
    exact ⟨hh.1, removed, as, hr, happ, hh.2, net, hnet, rfl⟩

theorem mem_pendingEvents_iff_key {c : Config} {ids : List ℕ}
    {todo : AList (fun _ : Action => ℕ × ℕ)} (hwf : c.WellFormed ss)
    (ht : ∀ a, todo.lookup a = (c.todo.lookup a).map fun p => (p.1, ids.getD p.2 0 + 1 + p.1))
    (q : Action × ℕ × ℕ) :
    q ∈ ss.pendingEvents todo ↔ ∃ q' ∈ Schedule.pending ss c, q = key c ids q' := by
  simp only [mem_pendingEvents, Schedule.mem_pending]
  constructor
  · rintro ⟨k, id, i, hl, hq, hs⟩
    rw [ht] at hl
    obtain ⟨⟨k', j⟩, hl', he⟩ := Option.map_eq_some_iff.mp hl
    obtain ⟨rfl, rfl⟩ : k' = k ∧ ids.getD j 0 + 1 + k' = id := by simpa using he
    refine ⟨(j, k' + i), ⟨q.1, k', i, hl', rfl, hs⟩, ?_⟩
    rw [key, (hwf.todo hl').2.1, ← add_assoc, ← hq]
  · rintro ⟨⟨j, l⟩, ⟨a, k, i, hl, rfl, hs⟩, rfl⟩
    refine ⟨k, ids.getD j 0 + 1 + k, i, ?_, ?_, ?_⟩
    · simp only [key]
      rw [(hwf.todo hl).2.1, ht, hl, Option.map_some]
    · simp only [key, add_assoc]
    · simp only [key]
      rwa [(hwf.todo hl).2.1]

end

namespace Refines

variable {s s' newState : State} {counter d id : ℕ} {c c' : Config} {ids : List ℕ} {a : Action}
  {le : List (Timing × Event)} {te : Timing × Event} {j k : ℕ} {net : Option (List Edge)}

theorem lookup_fired (h : Refines ss s counter c ids) (a : Action) (j k n : ℕ) (b : Action) :
    (Config.nextTodo s.todo a n k (ids.getD j 0 + 1 + k + 1)).lookup b =
      ((Config.nextTodo c.todo a n k j).lookup b).map
        fun p => (p.1, ids.getD p.2 0 + 1 + p.1) := by
  rw [Config.lookup_nextTodo, Config.lookup_nextTodo]
  split_ifs with hb hlen
  · rfl
  · rfl
  · exact h.todo b

theorem getD_old (h : Refines ss s counter c ids) (hj : j < c.instances.length) :
    (ids ++ [d]).getD j 0 = ids.getD j 0 := by
  simp only [List.getD_eq_getElem?_getD]
  rw [List.getElem?_append_left (by rw [h.length]; exact hj)]

theorem getD_new (h : Refines ss s counter c ids) :
    (ids ++ [d]).getD c.instances.length 0 = d := by
  rw [← h.length]
  simp

theorem nodup_opened (h : Timed ss s counter c ids) (hd : counter ≤ d) : (ids ++ [d]).Nodup := by
  rw [List.nodup_append]
  refine ⟨h.nodup, List.nodup_singleton _, fun x hx y hy => ?_⟩
  rw [List.mem_singleton] at hy
  have := h.below x hx
  omega

theorem recount (h : Refines ss s counter c ids) (hd : ss.isTemporal = true → counter ≤ d) :
    Refines ss s d c ids :=
  ⟨h.assignments, h.active, h.length, h.path, h.todo, fun ht =>
    ⟨(h.timed ht).path, (h.timed ht).nodup,
      fun id hid => ((h.timed ht).below id hid).trans_le (hd ht), (h.timed ht).network⟩⟩

variable [Callables]

/-- The network built for the next event of a running action. -/
theorem network_fire (newState : State) (h : Refines ss s counter c ids) (hwf : c.WellFormed ss)
    (hwf' : c'.WellFormed ss) (ht : ss.isTemporal = true) (hle : ss.events a = some le)
    (hl : c.todo.lookup a = some (k, j)) (hte : le[k]? = some te)
    (hnet : newState.temporalNetwork = none)
    (htodo : ∀ a, newState.todo.lookup a =
      (c'.todo.lookup a).map fun p => (p.1, ids.getD p.2 0 + 1 + p.1))
    (hct : c'.todo = Config.nextTodo c.todo a le.length k j) (hi : c'.instances = c.instances)
    (hf : c'.fired = c.fired ++ [(j, k)]) :
    ∃ log, network ss s newState te.2 k (ids.getD j 0 + 1 + k) none = some log ∧
      ∀ τ, Solves τ log ↔ Placed ss c' ids τ := by
  obtain ⟨hpath, -, -, log, hlog, hsol⟩ := h.timed ht
  have hk : k < le.length := (List.getElem?_eq_some_iff.mp hte).1
  have hn := (ss.events_numbered hle).2 hte
  have ha : ∀ j', c'.actionOf j' = c.actionOf j' := fun j' => by simp only [Config.actionOf, hi]
  have haj : c'.actionOf j = a := (ha j).trans (hwf.todo hl).2.1
  have hkey : key c' ids = key c ids := by
    funext p
    simp only [key, ha]
  refine ⟨_, network_eq (by rw [hnet]; exact hlog) rfl, fun τ => ?_⟩
  have hplace : Placed ss c' ids τ ↔ _ := placed_fire_iff (τ := τ) hwf hle hl hk hct hi hf
  rw [List.append_nil, solves_append, solves_append, hsol, hpath, and_assoc, hn.1, hn.2]
  have hev : Placed ss c ids τ → ((Solves τ (ss.predecessorEdges (a, k)
      (.event a k (ids.getD j 0 + 1 + k)) true (c.fired.map (key c ids)).reverse) ∧
      Solves τ (ss.todoEdges (a, k) (.event a k (ids.getD j 0 + 1 + k)) newState.todo)) ↔
      (∀ q ∈ c.fired, Follows (Schedule.mutex ss c') ss.epsilon
        (fun p => τ (point c' ids p)) q (j, k)) ∧
      ∀ q ∈ Schedule.pending ss c', Follows (Schedule.mutex ss c') ss.epsilon
        (fun p => τ (point c' ids p)) (j, k) q) := by
    intro hp
    have := solves_eventPlacement (c := c') (τ := τ) c.fired (j, k)
      (by rw [hkey]; exact hp.chain hwf) (mem_pendingEvents_iff_key hwf' htodo)
    simpa only [point, haj, hkey] using this
  constructor
  · rintro ⟨hp, hrest⟩
    exact hplace.mpr ⟨hp, ((hev hp).mp hrest).2⟩
  · intro hp'
    obtain ⟨hp, hq⟩ := hplace.mp hp'
    refine ⟨hp, (hev hp).mpr ⟨fun q hqm => ?_, hq⟩⟩
    have hord := hp'.ordered hwf'
    rw [hf, List.pairwise_append] at hord
    exact hord.2.2 q hqm _ (by simp)

/-- The network built when an action opens. -/
theorem network_open {b : ℚ × ℚ} (pin : Bool) (newState : State) (h : Refines ss s counter c ids)
    (hwf : c.WellFormed ss) (hwf' : c'.WellFormed ss) (ht : ss.isTemporal = true)
    (hle : ss.events a = some le) (hl : c.todo.lookup a = none) (hte : le[0]? = some te)
    (hb : ss.durationBounds a c.assignments = some b)
    (hnet : newState.temporalNetwork = none)
    (htodo : ∀ a, newState.todo.lookup a =
      (c'.todo.lookup a).map fun p => (p.1, (ids ++ [d]).getD p.2 0 + 1 + p.1))
    (hct : c'.todo = if 1 < le.length then c.todo.insert a (1, c.instances.length) else c.todo)
    (hi : c'.instances = c.instances ++ [⟨a, b.1, b.2, pin⟩])
    (hf : c'.fired = c.fired ++ [(c.instances.length, 0)]) :
    ∃ log, network ss s newState te.2 0 (d + 1) (some ⟨a, d, le, pin⟩) = some log ∧
      ∀ τ, Solves τ log ↔ Placed ss c' (ids ++ [d]) τ := by
  obtain ⟨hpath, -, -, log, hlog, hsol⟩ := h.timed ht
  have hpos : 0 < le.length := (List.getElem?_eq_some_iff.mp hte).1
  have hn := (ss.events_numbered hle).2 hte
  have ha : ∀ {j'}, j' < c.instances.length → c'.actionOf j' = c.actionOf j' := fun h => by
    simp only [Config.actionOf, hi, List.getElem?_append_left h]
  have han : c'.actionOf c.instances.length = a := by simp [Config.actionOf, hi]
  have hidn : (ids ++ [d]).getD c.instances.length 0 = d := by
    rw [← h.length]
    simp
  have hkey : c.fired.map (key c' (ids ++ [d])) = c.fired.map (key c ids) := by
    refine List.map_congr_left fun p hp => ?_
    have hlt := (hwf.fired p hp).1
    simp only [key, ha hlt, List.getD_eq_getElem?_getD]
    rw [List.getElem?_append_left (by rw [h.length]; exact hlt)]
  have hopening : ss.addOpeningConstraints s.assignments (some ⟨a, d, le, pin⟩) =
      some (ss.openingEdges ⟨a, d, le, pin⟩ b.1 b.2) := by
    simp [addOpeningConstraints, h.assignments, hb]
  refine ⟨_, network_eq (by rw [hnet]; exact hlog) hopening, fun τ => ?_⟩
  rw [solves_append, solves_append, solves_append, hsol, hpath, and_assoc, and_assoc, hn.1, hn.2]
  have hplace : Placed ss c' (ids ++ [d]) τ ↔ _ :=
    placed_open_iff hwf h.length hle hl hpos hct hi rfl hf
  rw [hplace]
  refine and_congr_right fun hp => and_congr_right fun _ => ?_
  have := solves_eventPlacement (c := c') (τ := τ) c.fired (c.instances.length, 0)
    (by rw [hkey]; exact hp.chain hwf)
    (mem_pendingEvents_iff_key hwf' htodo)
  simpa only [point, han, hkey, hidn, add_zero] using this

theorem lookup_opened (h : Refines ss s counter c ids) (a : Action) (d : ℕ)
    (hwf : c.WellFormed ss) (n : ℕ) (b : Action) :
    (if 1 < n then s.todo.insert a (1, d + 1 + 1) else s.todo).lookup b =
      ((if 1 < n then c.todo.insert a (1, c.instances.length) else c.todo).lookup b).map
        fun p => (p.1, (ids ++ [d]).getD p.2 0 + 1 + p.1) := by
  have hold : s.todo.lookup b = (c.todo.lookup b).map
      fun p => (p.1, (ids ++ [d]).getD p.2 0 + 1 + p.1) := by
    rw [h.todo]
    cases hb : c.todo.lookup b with
    | none => rfl
    | some p => simp only [Option.map_some, h.getD_old (hwf.todo hb).1]
  split_ifs with hlen
  · by_cases hba : b = a
    · subst hba
      rw [AList.lookup_insert, AList.lookup_insert, Option.map_some, h.getD_new]
    · rw [AList.lookup_insert_ne hba, AList.lookup_insert_ne hba, hold]
  · exact hold

theorem fired (h : Refines ss s counter c ids) (hwf : c.WellFormed ss)
    (hwf' : c'.WellFormed ss) (hle : ss.events a = some le) (hl : c.todo.lookup a = some (k, j))
    (hte : le[k]? = some te)
    (hf : c.fire te.2 (j, k) (Config.nextTodo c.todo a le.length k j) c.instances = some c')
    (hnet : newState.temporalNetwork = none) (hpath : newState.path = s.path)
    (htodo : newState.todo = Config.nextTodo s.todo a le.length k (ids.getD j 0 + 1 + k + 1))
    (hacc : Accepts ss tn s newState te.2 k (ids.getD j 0 + 1 + k) none net) :
    Refines ss { newState with
      assignments := c'.assignments
      activeConditions := c'.active
      path := newState.path ++ [(te.2.action, te.2.pos, ids.getD j 0 + 1 + k)]
      temporalNetwork := net } counter c' ids := by
  obtain ⟨removed, as, hr, happ, hplain, rfl⟩ := Config.fire_eq_some.mp hf
  have hn := (ss.events_numbered hle).2 hte
  have haj := (hwf.todo hl).2.1
  have htodo' := h.lookup_fired a j k le.length
  rw [← htodo] at htodo'
  refine ⟨rfl, rfl, h.length, ?_, htodo', fun ht => ?_⟩
  · rw [hpath, List.map_append, h.path, hn.1]
    simp only [Config.actions, List.map_append, List.map_cons, List.map_nil, ← haj]
    rfl
  · obtain ⟨hp, hnd, hb, -⟩ := h.timed ht
    obtain ⟨log, hlog, hsol⟩ := h.network_fire newState hwf hwf' ht hle hl hte hnet
      htodo' rfl rfl rfl
    refine ⟨?_, hnd, hb, log, ?_, hsol⟩
    · rw [hpath, hp, List.map_append, hn.1, hn.2, ← haj]
      rfl
    · rw [Accepts, if_pos ht, hlog] at hacc
      obtain ⟨log', hl', -, rfl⟩ := hacc
      exact hl'.symm

theorem opened {b : ℚ × ℚ} {pin : Bool} {po : Option PendingOpening} (newState : State)
    (h : Refines ss s counter c ids) (hwf : c.WellFormed ss) (hwf' : c'.WellFormed ss)
    (hd : counter ≤ d) (hle : ss.events a = some le)
    (hl : c.todo.lookup a = none) (hte : le[0]? = some te)
    (hb : ss.durationBounds a c.assignments = some b)
    (hf : c.fire te.2 (c.instances.length, 0)
      (if 1 < le.length then c.todo.insert a (1, c.instances.length) else c.todo)
      (c.instances ++ [⟨a, b.1, b.2, pin⟩]) = some c')
    (hnet : newState.temporalNetwork = none) (hpath : newState.path = s.path)
    (htodo : newState.todo = if 1 < le.length then s.todo.insert a (1, d + 1 + 1) else s.todo)
    (hid : ss.isTemporal = true → id = d + 1 ∧ po = some ⟨a, d, le, pin⟩)
    (hacc : Accepts ss tn s newState te.2 0 id po net) :
    Refines ss { newState with
      assignments := c'.assignments
      activeConditions := c'.active
      path := newState.path ++ [(te.2.action, te.2.pos, id)]
      temporalNetwork := net } (d + 1 + le.length) c' (ids ++ [d]) := by
  obtain ⟨removed, as, hr, happ, hplain, rfl⟩ := Config.fire_eq_some.mp hf
  have hn := (ss.events_numbered hle).2 hte
  have htodo' := h.lookup_opened a d hwf le.length
  rw [← htodo] at htodo'
  refine ⟨rfl, rfl, by simp [h.length], ?_, htodo', fun ht => ?_⟩
  · rw [hpath, List.map_append, h.path, hn.1]
    simp only [Config.actions, List.map_append, List.map_cons, List.map_nil, Config.actionOf_new]
    congr 1
    exact List.map_congr_left fun p hp => (Config.actionOf_append (hwf.fired p hp).1).symm
  · obtain ⟨hp, -, hb', -⟩ := h.timed ht
    obtain ⟨rfl, rfl⟩ := hid ht
    obtain ⟨log, hlog, hsol⟩ := h.network_open pin newState hwf hwf' ht hle hl hte hb
      hnet htodo' rfl rfl rfl
    refine ⟨?_, ?_, ?_, log, ?_, hsol⟩
    · rw [hpath, hp, List.map_append, hn.1, hn.2]
      refine congrArg₂ (· ++ ·) ?_ ?_
      · refine List.map_congr_left fun p hp => ?_
        have hlt := (hwf.fired p hp).1
        simp only [key, Config.actionOf_append hlt, h.getD_old hlt]
      · simp only [key, List.map_cons, List.map_nil, Config.actionOf_new, h.getD_new, add_zero]
    · exact nodup_opened (h.timed ht) hd
    · intro x hx
      rcases List.mem_append.mp hx with hx | hx
      · have := hb' x hx
        omega
      · rw [List.mem_singleton] at hx
        omega
    · rw [Accepts, if_pos ht, hlog] at hacc
      obtain ⟨log', hl', -, rfl⟩ := hacc
      exact hl'.symm

end Refines

/-! ### Steps -/

/-- Every network the search keeps has been accepted. -/
def Checked (ss : SearchSpace) (tn : DeltaSimpleTemporalNetwork) (s : State) : Prop :=
  ss.isTemporal = true → ∃ log, s.temporalNetwork = some log ∧ tn.checkStn log = true

/-- Every network whose solutions place the nodes of `c` is accepted. -/
def Acceptable (ss : SearchSpace) (tn : DeltaSimpleTemporalNetwork) (c : Config) : Prop :=
  ss.isTemporal = true → ∀ {ids : List ℕ} {log : List Edge}, ids.Nodup →
    ids.length = c.instances.length → (∀ τ, Solves τ log ↔ Placed ss c ids τ) →
    tn.checkStn log = true

theorem length_eq_one_of_not_temporal {a : Action} {le : List (Timing × Event)}
    (ht : ¬ ss.isTemporal = true) (hle : ss.events a = some le) : le.length = 1 := by
  refine ss.events_instantaneous hle ?_
  cases hd : ss.actionsDuration[a.idx]? with
  | none => rfl
  | some d =>
    have hmem := List.mem_of_getElem? hd
    cases d with
    | none => rfl
    | some d =>
      refine absurd ?_ ht
      rw [isTemporal, List.any_eq_true]
      exact ⟨_, hmem, rfl⟩

theorem timedAction_of_not_temporal (ht : ¬ ss.isTemporal = true) : ss.timedAction = none := by
  cases hta : ss.timedAction with
  | none => rfl
  | some a =>
    obtain ⟨q, -, hd⟩ := ss.timed_duration hta
    have hmem : some _ ∈ ss.actionsDuration := List.mem_of_getElem? (Option.join_eq_some_iff.mp hd)
    exact absurd (List.any_eq_true.mpr ⟨_, hmem, rfl⟩) ht

section

variable [Callables]

theorem Accepts.checked {state newState : State} {e : Event} {index id : ℕ}
    {po : Option PendingOpening} {net : Option (List Edge)} {s : State}
    (h : Accepts ss tn state newState e index id po net) (hs : s.temporalNetwork = net) :
    Checked ss tn s := by
  intro ht
  rw [Accepts, if_pos ht] at h
  obtain ⟨log, -, hk, rfl⟩ := h
  exact ⟨log, hs, hk⟩

theorem durationBounds_of_not_temporal {a : Action} {as : Assignments}
    (ht : ¬ ss.isTemporal = true) : ss.durationBounds a as = some (0, 0) := by
  have hd : ss.duration a = none := by
    unfold SearchSpace.duration
    cases hd : ss.actionsDuration[a.idx]? with
    | none => rfl
    | some d =>
      have hmem := List.mem_of_getElem? hd
      cases d with
      | none => rfl
      | some d =>
        refine absurd ?_ ht
        rw [isTemporal, List.any_eq_true]
        exact ⟨_, hmem, rfl⟩
  rw [durationBounds, hd]

theorem getSuccessorState_eq_some {d : ℕ} {s s' : State} {a : Action} :
    ss.getSuccessorStateWithCompression tn d s a false = some s' ↔
      (∃ le k id te, ss.events a = some le ∧ s.todo.lookup a = some (k, id) ∧
        le[k]? = some te ∧ holds te.2.conditions s.assignments = true ∧
        effectIndependentStartConditionsHold te.2 s.assignments = true ∧
        ss.expandEvent tn s { s with
          temporalNetwork := none
          g := s.g + 1
          todo := Config.nextTodo s.todo a le.length k (id + 1) } te.2 k id none = some s') ∨
      (∃ le te, ss.events a = some le ∧ s.todo.lookup a = none ∧ ss.timedAction ≠ some a ∧
        ss.symmetryAllowsOpening (s.path.map Prod.fst) a = true ∧ le[0]? = some te ∧
        holds te.2.conditions s.assignments = true ∧
        effectIndependentStartConditionsHold te.2 s.assignments = true ∧
        ss.openAction tn d s { s with temporalNetwork := none, g := s.g + 1 } a le false =
          some s') := by
  simp only [getSuccessorStateWithCompression, Option.bind_eq_bind, Option.bind_eq_some_iff]
  constructor
  · rintro ⟨le, hle, h⟩
    split at h
    · rename_i k id hl
      obtain ⟨te, hte, h⟩ := Option.bind_eq_some_iff.mp h
      split_ifs at h with hc hn
      · rw [Bool.and_eq_true] at hc
        exact .inl ⟨le, k, id, te, hle, hl, hte, hc.1, hc.2,
          by rw [Config.nextTodo, if_pos hn]; exact h⟩
      · rw [Bool.and_eq_true] at hc
        exact .inl ⟨le, k, id, te, hle, hl, hte, hc.1, hc.2,
          by rw [Config.nextTodo, if_neg hn]; exact h⟩
    · rename_i hl
      by_cases ht : ss.timedAction = some a
      · simp [ht] at h
      by_cases hs : ss.symmetryAllowsOpening (s.path.map Prod.fst) a = true
      · rw [if_neg ht, if_neg (by simp [hs])] at h
        obtain ⟨te, hte, h⟩ := Option.bind_eq_some_iff.mp h
        by_cases hc : (holds te.2.conditions s.assignments &&
            effectIndependentStartConditionsHold te.2 s.assignments) = true
        · rw [if_pos hc] at h
          rw [Bool.and_eq_true] at hc
          obtain ⟨t, ht', h⟩ := Option.bind_eq_some_iff.mp h
          simp only [Bool.false_and, Bool.false_eq_true, if_false, Option.some.injEq] at h
          subst h
          exact .inr ⟨le, te, hle, hl, ht, hs, hte, hc.1, hc.2, ht'⟩
        · rw [if_neg hc] at h
          contradiction
      · simp [ht, hs] at h
  · rintro (⟨le, k, id, te, hle, hl, hte, hc, hi, h⟩ | ⟨le, te, hle, hl, ht, hs, hte, hc, hi, h⟩)
    · refine ⟨le, hle, ?_⟩
      simp only [hl, hte, Option.bind_some, hc, hi, Bool.and_self, if_true]
      rw [Config.nextTodo] at h
      exact h
    · refine ⟨le, hle, ?_⟩
      simp [hl, ht, hs, hte, hc, hi, h]

theorem openAction_eq {d : ℕ} {s newState : State} {a : Action} {le : List (Timing × Event)}
    {te : Timing × Event} {pin : Bool} (hle : ss.events a = some le) (hte : le[0]? = some te) :
    ss.openAction tn d s newState a le pin = ss.expandEvent tn s
      { newState with
        todo := if 1 < le.length then newState.todo.insert a (1, d + 1 + 1) else newState.todo }
      te.2 0 (if ss.isTemporal then d + 1 else d)
      (if ss.isTemporal then some ⟨a, d, le, pin⟩ else none) := by
  rw [openAction, hte]
  by_cases ht : ss.isTemporal = true
  · simp only [Option.bind_eq_bind, Option.bind_some, ht, if_true]
    split_ifs <;> rfl
  · have hlen := length_eq_one_of_not_temporal ht hle
    simp [ht, hlen]

end

namespace Refines

variable {s s' newState : State} {counter d : ℕ} {c c' : Config} {ids : List ℕ} {a : Action}
  {le : List (Timing × Event)} {te : Timing × Event} {pin : Bool}

theorem lookup_isNone (h : Refines ss s counter c ids) :
    (s.todo.lookup a).isNone = (c.todo.lookup a).isNone := by
  rw [h.todo, Option.isNone_map]

theorem advance_eq (h : Refines ss s counter c ids) (d : ℕ) (a : Action) :
    ss.advance d s a = if ss.isTemporal && (c.todo.lookup a).isNone then
      d + 1 + ((ss.events a).getD []).length else d := by
  rw [advance, h.lookup_isNone]

variable [Callables]

/-- Opening an action in a state opens it in the configuration. -/
theorem openAction (h : Refines ss s counter c ids) (hwf : c.WellFormed ss) (hd : counter ≤ d)
    (hle : ss.events a = some le) (hl : c.todo.lookup a = none) (hte : le[0]? = some te)
    (ha : newState.assignments = s.assignments)
    (hact : newState.activeConditions = s.activeConditions)
    (hnet : newState.temporalNetwork = none) (hpath : newState.path = s.path)
    (htodo : newState.todo = s.todo)
    (hi : effectIndependentStartConditionsHold te.2 s.assignments = true)
    (hs : ss.openAction tn d s newState a le pin = some s') :
    ∃ b c', ss.durationBounds a c.assignments = some b ∧
      c.fire te.2 (c.instances.length, 0)
        (if 1 < le.length then c.todo.insert a (1, c.instances.length) else c.todo)
        (c.instances ++ [⟨a, b.1, b.2, pin⟩]) = some c' ∧
      Refines ss s' (d + 1 + le.length) c' (ids ++ [d]) ∧ Checked ss tn s' := by
  rw [openAction_eq hle hte] at hs
  obtain ⟨b, hb⟩ : ∃ b, ss.durationBounds a c.assignments = some b := by
    by_cases ht : ss.isTemporal = true
    · obtain ⟨removed, as, -, -, -, net, hacc, -⟩ := expandEvent_eq_some.mp hs
      rw [Accepts, if_pos ht] at hacc
      obtain ⟨log, hlog, -⟩ := hacc
      simp only [network, Option.bind_eq_bind, Option.bind_eq_some_iff, ht, if_true,
        addOpeningConstraints, Option.map_eq_some_iff] at hlog
      obtain ⟨-, -, -, ⟨b, hb, -⟩, -⟩ := hlog
      exact ⟨b, h.assignments ▸ hb⟩
    · exact ⟨_, durationBounds_of_not_temporal ht⟩
  obtain ⟨c', hf, net, hacc, rfl⟩ := (expandEvent_iff_fire hwf (c.instances.length, 0)
    (if 1 < le.length then c.todo.insert a (1, c.instances.length) else c.todo)
    (c.instances ++ [⟨a, b.1, b.2, pin⟩]) h.assignments
    (by exact ha.trans h.assignments) (by exact hact.trans h.active)).mp
    ⟨hi, hs⟩
  have hwf' := hwf.open hle rfl (List.getElem?_eq_some_iff.mp hte).1 hf
  refine ⟨b, c', hb, hf, ?_, hacc.checked rfl⟩
  exact h.opened { newState with
      todo := if 1 < le.length then newState.todo.insert a (1, d + 1 + 1) else newState.todo }
    hwf hwf' hd hle hl hte hb hf (by exact hnet) (by exact hpath) (by rw [htodo])
    (fun ht => by simp [ht]) hacc

/-- Opening an action in the configuration opens it in every state for it. -/
theorem openAction_of_fire {b : ℚ × ℚ} (pin : Bool) (newState : State)
    (h : Refines ss s counter c ids) (hwf : c.WellFormed ss)
    (hd : counter ≤ d) (hle : ss.events a = some le) (hl : c.todo.lookup a = none)
    (hte : le[0]? = some te) (ha : newState.assignments = s.assignments)
    (hact : newState.activeConditions = s.activeConditions)
    (hnet : newState.temporalNetwork = none) (hpath : newState.path = s.path)
    (htodo : newState.todo = s.todo) (hb : ss.durationBounds a c.assignments = some b)
    (hf : c.fire te.2 (c.instances.length, 0)
      (if 1 < le.length then c.todo.insert a (1, c.instances.length) else c.todo)
      (c.instances ++ [⟨a, b.1, b.2, pin⟩]) = some c')
    (hcheck : Acceptable ss tn c') :
    effectIndependentStartConditionsHold te.2 s.assignments = true ∧
      ∃ s', ss.openAction tn d s newState a le pin = some s' ∧
        Refines ss s' (d + 1 + le.length) c' (ids ++ [d]) := by
  have hwf' := hwf.open hle rfl (List.getElem?_eq_some_iff.mp hte).1 hf
  rw [openAction_eq hle hte]
  obtain ⟨net, hacc⟩ : ∃ net, Accepts ss tn s { newState with
      todo := if 1 < le.length then newState.todo.insert a (1, d + 1 + 1) else newState.todo }
      te.2 0 (if ss.isTemporal then d + 1 else d)
      (if ss.isTemporal then some ⟨a, d, le, pin⟩ else none) net := by
    by_cases ht : ss.isTemporal = true
    · obtain ⟨removed, as, -, -, -, rfl⟩ := Config.fire_eq_some.mp hf
      obtain ⟨log, hlog, hsol⟩ := h.network_open pin { newState with
          todo := if 1 < le.length then newState.todo.insert a (1, d + 1 + 1)
            else newState.todo } hwf hwf' ht hle hl hte hb (by exact hnet)
        (by rw [htodo]; exact h.lookup_opened a d hwf le.length) rfl rfl rfl
      refine ⟨some log, ?_⟩
      simp only [Accepts, ht, if_true]
      exact ⟨log, hlog, hcheck ht (nodup_opened (h.timed ht) hd) (by simp [h.length]) hsol, rfl⟩
    · exact ⟨newState.temporalNetwork, by rw [Accepts, if_neg ht]⟩
  obtain ⟨hi, hs⟩ := (expandEvent_iff_fire hwf _ _ _ h.assignments
    (by exact ha.trans h.assignments) (by exact hact.trans h.active)).mpr
    ⟨c', hf, net, hacc, rfl⟩
  refine ⟨hi, _, hs, ?_⟩
  exact h.opened { newState with
      todo := if 1 < le.length then newState.todo.insert a (1, d + 1 + 1) else newState.todo }
    hwf hwf' hd hle hl hte hb hf (by exact hnet) (by exact hpath) (by rw [htodo])
    (fun ht => by simp [ht]) hacc

/-- Firing the next event of a running action keeps the instances. -/
theorem succ_running {j k : ℕ} (h : Refines ss s counter c ids) (hwf : c.WellFormed ss)
    (hd : counter ≤ d) (hl : c.todo.lookup a = some (k, j))
    (hs : ss.getSuccessorStateWithCompression tn d s a false = some s') :
    ∃ c', c.step ss a = some c' ∧ Refines ss s' (ss.advance d s a) c' ids ∧ Checked ss tn s' := by
  rcases getSuccessorState_eq_some.mp hs with ⟨le, k', id, te, hle, hl', hte, hc, hi, hs⟩ |
    ⟨le, te, -, hl', -⟩
  · rw [h.todo, hl] at hl'
    obtain ⟨rfl, rfl⟩ : k = k' ∧ ids.getD j 0 + 1 + k = id := by simpa using hl'
    obtain ⟨c', hf, net, hacc, rfl⟩ := (expandEvent_iff_fire hwf (j, k)
      (Config.nextTodo c.todo a le.length k j) c.instances h.assignments
      (by exact h.assignments) (by exact h.active)).mp
      ⟨hi, hs⟩
    rw [h.assignments] at hc
    have hstep : c.step ss a = some c' :=
      Config.step_eq_some.mpr (.inl ⟨le, k, j, te, hle, hl, hte, hc, hf⟩)
    refine ⟨c', hstep, ?_, hacc.checked rfl⟩
    refine Refines.recount ?_ fun _ => (?_ : counter ≤ _)
    rotate_left
    · simpa [h.advance_eq, hl] using hd
    exact h.fired hwf (hwf.step hstep) hle hl hte hf rfl rfl rfl hacc
  · rw [h.todo, hl, Option.map_some] at hl'
    contradiction

/-- Every successor of a state stands for a step of the configuration. -/
theorem succ (h : Refines ss s counter c ids) (hwf : c.WellFormed ss) (hd : counter ≤ d)
    (hs : ss.getSuccessorStateWithCompression tn d s a false = some s') :
    ∃ c' ids', c.step ss a = some c' ∧ Refines ss s' (ss.advance d s a) c' ids' ∧
      Checked ss tn s' := by
  cases hlc : c.todo.lookup a with
  | some p =>
    obtain ⟨c', hstep, hr, hk⟩ := h.succ_running hwf hd hlc hs
    exact ⟨c', ids, hstep, hr, hk⟩
  | none =>
    rcases getSuccessorState_eq_some.mp hs with ⟨le, k, id, te, -, hl, -⟩ |
      ⟨le, te, hle, hl, ht, hsym, hte, hc, hi, hs⟩
    · rw [h.todo, hlc] at hl
      contradiction
    · obtain ⟨b, c', hb, hf, hr, hk⟩ := h.openAction hwf hd hle hlc hte (by rfl) (by rfl)
        (by rfl) (by rfl) (by rfl) hi hs
      rw [h.assignments] at hc
      rw [h.path] at hsym
      refine ⟨c', ids ++ [d], Config.step_eq_some.mpr (.inr ⟨le, te, b, hle, hlc, ht, hsym, hte, hc,
        hb, hf⟩), hr.recount fun ht => ?_, hk⟩
      simp [h.advance_eq, ht, hlc, hle]

/-- Every step whose network is acceptable gives a successor. -/
theorem step (h : Refines ss s counter c ids) (hwf : c.WellFormed ss) (hd : counter ≤ d)
    (hs : c.step ss a = some c') (hcheck : Acceptable ss tn c') :
    ∃ s' ids', ss.getSuccessorStateWithCompression tn d s a false = some s' ∧
      Refines ss s' (ss.advance d s a) c' ids' := by
  have hwf' := hwf.step hs
  rcases Config.step_eq_some.mp hs with ⟨le, k, j, te, hle, hl, hte, hc, hf⟩ |
    ⟨le, te, b, hle, hl, ht, hsym, hte, hc, hb, hf⟩
  · have hacc : ∃ net, Accepts ss tn s { s with
        temporalNetwork := none
        g := s.g + 1
        todo := Config.nextTodo s.todo a le.length k (ids.getD j 0 + 1 + k + 1) }
        te.2 k (ids.getD j 0 + 1 + k) none net := by
      by_cases ht : ss.isTemporal = true
      · obtain ⟨removed, as, -, -, -, rfl⟩ := Config.fire_eq_some.mp hf
        obtain ⟨log, hlog, hsol⟩ := h.network_fire { s with
          temporalNetwork := none
          g := s.g + 1
          todo := Config.nextTodo s.todo a le.length k (ids.getD j 0 + 1 + k + 1) }
          hwf hwf' ht hle hl hte rfl (h.lookup_fired a j k le.length) rfl rfl rfl
        refine ⟨some log, ?_⟩
        rw [Accepts, if_pos ht]
        exact ⟨log, hlog, hcheck ht (h.timed ht).nodup h.length hsol, rfl⟩
      · exact ⟨none, by rw [Accepts, if_neg ht]⟩
    obtain ⟨net, hacc⟩ := hacc
    obtain ⟨hi, hs'⟩ := (expandEvent_iff_fire hwf _ _ _ h.assignments (by exact h.assignments)
      (by exact h.active)).mpr
      ⟨c', hf, net, hacc, rfl⟩
    refine ⟨_, ids, getSuccessorState_eq_some.mpr (.inl ⟨le, k, _, te, hle, ?_, hte,
      h.assignments ▸ hc, hi, hs'⟩), ?_⟩
    · rw [h.todo, hl, Option.map_some]
    · refine Refines.recount ?_ fun _ => (?_ : counter ≤ _)
      rotate_left
      · simpa [h.advance_eq, hl] using hd
      exact h.fired hwf hwf' hle hl hte hf rfl rfl rfl hacc
  · obtain ⟨hi, s', hs', hr⟩ := h.openAction_of_fire false { s with
      temporalNetwork := none
      g := s.g + 1 } hwf hd hle hl hte rfl rfl rfl rfl rfl hb hf hcheck
    refine ⟨s', ids ++ [d], getSuccessorState_eq_some.mpr (.inr ⟨le, te, hle, ?_, ht,
      h.path ▸ hsym, hte, h.assignments ▸ hc, hi, hs'⟩), hr.recount fun ht => ?_⟩
    · rw [h.todo, hl, Option.map_none]
    · simp [h.advance_eq, ht, hl, hle]

end Refines

/-! ### Initial states and runs -/

/-- The state `initial` starts from, before the timed action opens. -/
def emptyState (ss : SearchSpace) : State where
  assignments := ss.initialState
  temporalNetwork := if ss.isTemporal then some ss.deadlineEdges else none
  todo := ∅
  activeConditions := 0
  g := 0
  path := []

theorem placed_empty_iff {τ : Timepoint → ℚ} :
    Placed ss ⟨ss.initialState, ∅, 0, [], []⟩ [] τ ↔ Solves τ ss.deadlineEdges := by
  have hd : Solves τ ss.deadlineEdges ↔
      ∀ d, ss.deadline = some d → τ .endPlan = τ .startPlan + d := by
    cases hdl : ss.deadline with
    | none => simp [deadlineEdges, hdl]
    | some d => simp [deadlineEdges, hdl, solves_interval_self]
  rw [hd]
  constructor
  · exact fun h => h.deadline
  · intro h
    refine ⟨h, fun j hj => absurd hj (by simp), fun j hj => absurd hj (by simp), ?_⟩
    refine ⟨fun j i hj => by simp at hj, fun j i hj => by simp at hj, List.Pairwise.nil, ?_⟩
    exact fun p hp => absurd hp List.not_mem_nil

theorem refines_empty (counter : ℕ) :
    Refines ss (emptyState ss) counter ⟨ss.initialState, ∅, 0, [], []⟩ [] := by
  refine ⟨rfl, rfl, rfl, rfl, fun a => ?_, fun ht => ⟨rfl, List.nodup_nil, by simp, ?_⟩⟩
  · simp [emptyState]
  · exact ⟨ss.deadlineEdges, by simp [emptyState, ht], fun τ => placed_empty_iff.symm⟩

section

variable [Callables]

theorem initial_eq_some {counter : ℕ} {s : State} : ss.initial tn counter = some s ↔
    (ss.timedAction = none ∧ s = emptyState ss) ∨
    (∃ a le te, ss.timedAction = some a ∧ ss.events a = some le ∧ le[0]? = some te ∧
      holds te.2.conditions ss.initialState = true ∧
      effectIndependentStartConditionsHold te.2 ss.initialState = true ∧
      ss.openAction tn counter (emptyState ss) { emptyState ss with temporalNetwork := none }
        a le true = some s) := by
  unfold initial
  cases ht : ss.timedAction with
  | none =>
    constructor
    · exact fun h => .inl ⟨rfl, (Option.some.inj h).symm⟩
    · rintro (⟨-, rfl⟩ | ⟨_, _, _, h, _⟩)
      · rfl
      · contradiction
  | some a =>
    change ss.openTimedAction tn counter (emptyState ss) a = some s ↔ _
    simp only [reduceCtorEq, false_and, false_or, openTimedAction, Option.bind_eq_bind,
      Option.bind_eq_some_iff]
    constructor
    · rintro ⟨le, hle, te, hte, h⟩
      split_ifs at h with hc
      rw [Bool.and_eq_true] at hc
      exact ⟨a, le, te, rfl, hle, hte, hc.1, hc.2, h⟩
    · rintro ⟨a', le, te, ha, hle, hte, hc, hi, h⟩
      obtain rfl := Option.some.inj ha
      refine ⟨le, hle, te, hte, ?_⟩
      rw [if_pos (by rw [Bool.and_eq_true]; exact ⟨hc, hi⟩)]
      exact h

/-- How far building the initial state moves the counter. -/
def initialCounter (ss : SearchSpace) (counter : ℕ) : ℕ :=
  match ss.timedAction with
  | none => counter
  | some a => counter + 1 + ((ss.events a).getD []).length

theorem refines_initial {counter : ℕ} {s : State} (h : ss.initial tn counter = some s) :
    ∃ c ids, Config.initial ss = some c ∧ Refines ss s (initialCounter ss counter) c ids ∧
      (c = ⟨ss.initialState, ∅, 0, [], []⟩ ∨ Checked ss tn s) := by
  rcases initial_eq_some.mp h with ⟨ht, rfl⟩ | ⟨a, le, te, ht, hle, hte, hc, hi, hs⟩
  · refine ⟨_, [], Config.initial_eq_some.mpr (.inl ⟨ht, rfl⟩), ?_, .inl rfl⟩
    exact refines_empty _
  · obtain ⟨b, c, hb, hf, hr, hk⟩ := (refines_empty counter).openAction Config.wellFormed_empty
      le_rfl hle (by simp) hte (by rfl) (by rfl) (by rfl) (by rfl) (by rfl) hi hs
    refine ⟨c, [] ++ [counter], Config.initial_eq_some.mpr (.inr ⟨a, le, te, b, ht, hle, hte, hc,
      hb, hf⟩), ?_, .inr hk⟩
    simpa [initialCounter, ht, hle] using hr

theorem initial_of_config (counter : ℕ) {c : Config} (h : Config.initial ss = some c)
    (hcheck : Acceptable ss tn c) : ∃ s ids, ss.initial tn counter = some s ∧
      Refines ss s (initialCounter ss counter) c ids := by
  rcases Config.initial_eq_some.mp h with ⟨ht, rfl⟩ | ⟨a, le, te, b, ht, hle, hte, hc, hb, hf⟩
  · exact ⟨_, [], initial_eq_some.mpr (.inl ⟨ht, rfl⟩), refines_empty _⟩
  · obtain ⟨hi, s, hs, hr⟩ := (refines_empty counter).openAction_of_fire true
      { emptyState ss with temporalNetwork := none } Config.wellFormed_empty le_rfl hle (by simp)
      hte rfl rfl rfl rfl rfl hb hf hcheck
    refine ⟨s, [] ++ [counter], initial_eq_some.mpr (.inr ⟨a, le, te, ht, hle, hte, hc, hi, hs⟩),
      ?_⟩
    simpa [initialCounter, ht, hle] using hr

end

/-! ### Schedules -/

/-- A schedule exists, which only temporal problems ask for. -/
def Schedulable (ss : SearchSpace) (c : Config) : Prop :=
  ss.isTemporal = true → ∃ σ, Schedule.Valid ss c σ ∧ Schedule.MeetsDeadline ss c σ

theorem schedulable_empty : Schedulable ss ⟨ss.initialState, ∅, 0, [], []⟩ := by
  refine fun _ => ⟨fun _ => (0, 0), ⟨fun j i hj => by simp at hj, fun j i hj => by simp at hj,
    List.Pairwise.nil, fun p hp => absurd hp List.not_mem_nil⟩, fun d _ j hj => ?_⟩
  exact absurd hj (by simp)

variable [Callables]

theorem Schedulable.acceptable {c : Config} (hx : tn.Exact) (hwf : c.WellFormed ss)
    (h : Schedulable ss c) : Acceptable ss tn c := by
  intro ht ids log hn hlen hsol
  obtain ⟨τ, hτ⟩ := (exists_placed_iff hwf hn hlen).mpr (h ht)
  exact (hx.check_iff log).mpr ⟨τ, (hsol τ).mpr hτ⟩

theorem Refines.schedulable {s : State} {counter : ℕ} {c : Config} {ids : List ℕ}
    (h : Refines ss s counter c ids) (hwf : c.WellFormed ss) (hx : tn.Exact)
    (hk : Checked ss tn s) : Schedulable ss c := by
  intro ht
  obtain ⟨-, hn, -, log, hlog, hsol⟩ := h.timed ht
  obtain ⟨log', hlog', hc⟩ := hk ht
  obtain rfl : log = log' := Option.some.inj (hlog.symm.trans hlog')
  obtain ⟨τ, hτ⟩ := (hx.check_iff log).mp hc
  exact (exists_placed_iff hwf hn h.length).mp ⟨τ, (hsol τ).mp hτ⟩

theorem instances_of_step {c c' : Config} {a : Action} (hs : c.step ss a = some c') :
    ∃ is, c'.instances = c.instances ++ is := by
  rcases Config.step_eq_some.mp hs with ⟨le, k, j, te, -, -, -, -, hf⟩ |
    ⟨le, te, b, -, -, -, -, -, -, -, hf⟩
  · obtain ⟨removed, as, -, -, -, rfl⟩ := Config.fire_eq_some.mp hf
    exact ⟨[], (List.append_nil _).symm⟩
  · obtain ⟨removed, as, -, -, -, rfl⟩ := Config.fire_eq_some.mp hf
    exact ⟨_, rfl⟩

/-- What schedules a configuration schedules every one on the way to it. -/
theorem valid_of_step {c c' : Config} {a : Action} {σ : Schedule} (hwf : c.WellFormed ss)
    (hs : c.step ss a = some c') (hv : Schedule.Valid ss c' σ) : Schedule.Valid ss c σ := by
  rcases Config.step_eq_some.mp hs with ⟨le, k, j, te, hle, hl, hte, -, hf⟩ |
    ⟨le, te, b, hle, hl, -, -, hte, -, -, hf⟩
  · obtain ⟨removed, as, -, -, -, rfl⟩ := Config.fire_eq_some.mp hf
    exact ((Schedule.valid_fire_iff hle hl (List.getElem?_eq_some_iff.mp hte).1 (by rfl) (by rfl)
      (by rfl)).mp hv).1
  · obtain ⟨removed, as, -, -, -, rfl⟩ := Config.fire_eq_some.mp hf
    exact ((Schedule.valid_open_iff hwf hle hl (by rfl) (by rfl) rfl (by rfl)).mp hv).1

end TamerLite
