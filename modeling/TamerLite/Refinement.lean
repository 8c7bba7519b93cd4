import TamerLite.Scheduling

/-! The successor function refines the step of configurations, and the reduced
network it builds has exactly the schedules of the configuration. -/

namespace TamerLite

open Difference SearchSpace

theorem mem_pendingEvents {ss : SearchSpace} {todo : AList (fun _ : Action => ℕ × ℕ)}
    {q : Action × ℕ × ℕ} : q ∈ ss.pendingEvents todo ↔
      ∃ k id i, todo.lookup q.1 = some (k, id) ∧ q.2 = (k + i, id + i) ∧
        (ss.event q.1 (k + i)).isSome := by
  obtain ⟨b, q⟩ := q
  simp only [pendingEvents, List.mem_flatMap, List.mem_map, List.mem_range, List.length_drop,
    Prod.mk.injEq]
  constructor
  · rintro ⟨⟨a, k, id⟩, he, i, hi, rfl, rfl⟩
    refine ⟨k, id, i, AList.mem_lookup_iff.mpr he, rfl, ?_⟩
    cases hev : ss.events a with
    | none => simp [hev] at hi
    | some le => exact (Config.event_isSome hev).mpr (by simp [hev] at hi; omega)
  · rintro ⟨k, id, i, hl, rfl, hi⟩
    refine ⟨⟨b, k, id⟩, AList.mem_lookup_iff.mp hl, i, ?_, rfl, rfl⟩
    cases hev : ss.events b with
    | none => simp [SearchSpace.event, hev] at hi
    | some le =>
      rw [Config.event_isSome hev] at hi
      simp only [Option.getD_some]
      omega

/-! ### The edges of the network -/

section Edges

variable {ss : SearchSpace} {τ : Timepoint → ℚ}

theorem predecessorEdges_eq (eId : Action × ℕ) (ev : Timepoint) (b : Bool)
    (past : List (Action × ℕ × ℕ)) :
    ss.predecessorEdges eId ev b past =
      (recent (fun p => ss.mutex eId (p.1, p.2.1)) b past).map fun e =>
        ⟨.event e.1.1 e.1.2.1 e.1.2.2, ev, if e.2 then -ss.epsilon else 0⟩ := by
  induction past generalizing b with
  | nil => rfl
  | cons p past ih =>
    obtain ⟨a, pos, id⟩ := p
    by_cases hm : ss.mutex eId (a, pos) = true
    · simp [predecessorEdges, recent, hm]
    · cases b <;> simp [predecessorEdges, recent, hm, ih]

/-- The reduced edges from the past constrain a new event exactly as one edge
from every past event would. -/
theorem solves_predecessorEdges {eId : Action × ℕ} {ev : Timepoint} {past : List (Action × ℕ × ℕ)}
    (hchain : past.Pairwise fun p q =>
      τ (.event p.1 p.2.1 p.2.2) ≤ τ (.event q.1 q.2.1 q.2.2)) :
    Solves τ (ss.predecessorEdges eId ev true past.reverse) ↔
      ∀ p ∈ past, τ (.event p.1 p.2.1 p.2.2) ≤ τ ev ∧
        (ss.mutex eId (p.1, p.2.1) = true → τ (.event p.1 p.2.1 p.2.2) + ss.epsilon ≤ τ ev) := by
  have hedge : Solves τ (ss.predecessorEdges eId ev true past.reverse) ↔
      ∀ e ∈ recent (fun p => ss.mutex eId (p.1, p.2.1)) true past.reverse,
        τ (.event e.1.1 e.1.2.1 e.1.2.2) + (if e.2 then ss.epsilon else 0) ≤ τ ev := by
    rw [predecessorEdges_eq]
    simp only [Solves, List.forall_mem_map]
    refine forall₂_congr fun e _ => ?_
    cases e.2 <;> simp only [Bool.false_eq_true, if_false, if_true] <;>
      constructor <;> intro h <;> linarith
  rw [hedge]
  constructor
  · intro h p hp
    exact recent_sound ss.epsilon_nonneg past.reverse true (List.pairwise_reverse.mpr hchain)
      (fun h => by contradiction) h p (List.mem_reverse.mpr hp)
  · intro h
    exact recent_complete past.reverse true fun p hp => h p (List.mem_reverse.mp hp)

theorem solves_todoEdges {eId : Action × ℕ} {ev : Timepoint}
    {todo : AList (fun _ : Action => ℕ × ℕ)} :
    Solves τ (ss.todoEdges eId ev todo) ↔
      ∀ q ∈ ss.pendingEvents todo, τ ev ≤ τ (.event q.1 q.2.1 q.2.2) ∧
        (ss.mutex eId (q.1, q.2.1) = true → τ ev + ss.epsilon ≤ τ (.event q.1 q.2.1 q.2.2)) := by
  simp only [Solves, todoEdges, List.forall_mem_map]
  refine forall₂_congr fun q _ => ?_
  have hε := ss.epsilon_nonneg
  by_cases hm : ss.mutex eId (q.1, q.2.1) = true
  · rw [if_pos hm]
    exact ⟨fun h => ⟨by linarith, fun _ => by linarith⟩, fun h => by linarith [h.2 hm]⟩
  · rw [if_neg hm]
    exact ⟨fun h => ⟨by linarith, fun h => absurd h hm⟩, fun h => by linarith [h.1]⟩

theorem solves_eventEdges {a : Action} {instanceId : ℕ} {le : List (Timing × Event)} {id : ℕ} :
    Solves τ (eventEdges a instanceId le id) ↔
      ∀ {k : ℕ} {te : Timing × Event}, le[k]? = some te →
        τ (.event te.2.action te.2.pos (id + k)) = τ (.anchor a te.1.start instanceId) + te.1.delay := by
  induction le generalizing id with
  | nil => simp [eventEdges]
  | cons te le ih =>
    obtain ⟨t, e⟩ := te
    rw [eventEdges, solves_append, solves_interval_self, ih]
    constructor
    · rintro ⟨h, hs⟩ k te hk
      cases k with
      | zero =>
        obtain rfl : (t, e) = te := by simpa using hk
        exact h
      | succ k =>
        have := @hs k te (by simpa using hk)
        rwa [show id + (k + 1) = id + 1 + k by omega]
    · intro h
      refine ⟨@h 0 (t, e) rfl, fun {k te} hk => ?_⟩
      have := @h (k + 1) te (by simpa using hk)
      rwa [show id + (k + 1) = id + 1 + k by omega] at this

theorem solves_openingEdges {p : PendingOpening} {lower upper : ℚ}
    (he : ss.events p.action = some p.events) :
    Solves τ (ss.openingEdges p lower upper) ↔
      (lower ≤ τ (.anchor p.action false p.actionInstanceId) -
          τ (.anchor p.action true p.actionInstanceId) ∧
        τ (.anchor p.action false p.actionInstanceId) -
          τ (.anchor p.action true p.actionInstanceId) ≤ upper) ∧
      (if p.pinToPlanStart then τ (.anchor p.action true p.actionInstanceId) = τ .startPlan
        else τ .startPlan ≤ τ (.anchor p.action true p.actionInstanceId)) ∧
      τ (.anchor p.action false p.actionInstanceId) + ss.epsilon ≤ τ .endPlan ∧
      ∀ {k : ℕ} {te : Timing × Event}, ss.event p.action k = some te →
        τ (.event p.action k (p.actionInstanceId + 1 + k)) =
          τ (.anchor p.action te.1.start p.actionInstanceId) + te.1.delay := by
  have hev : (∀ {k : ℕ} {te : Timing × Event}, p.events[k]? = some te →
        τ (.event te.2.action te.2.pos (p.actionInstanceId + 1 + k)) =
          τ (.anchor p.action te.1.start p.actionInstanceId) + te.1.delay) ↔
      ∀ {k : ℕ} {te : Timing × Event}, ss.event p.action k = some te →
        τ (.event p.action k (p.actionInstanceId + 1 + k)) =
          τ (.anchor p.action te.1.start p.actionInstanceId) + te.1.delay := by
    constructor <;> intro h k te hk
    · rw [Config.event_eq he] at hk
      have hn := (ss.events_numbered he).2 hk
      have := h hk
      rwa [hn.1, hn.2] at this
    · have hn := (ss.events_numbered he).2 hk
      rw [hn.1, hn.2]
      exact h (by rw [Config.event_eq he]; exact hk)
  have hpin : Solves τ (if p.pinToPlanStart then
      interval .startPlan (.anchor p.action true p.actionInstanceId) 0 0
      else [⟨.startPlan, .anchor p.action true p.actionInstanceId, 0⟩]) ↔
      (if p.pinToPlanStart then τ (.anchor p.action true p.actionInstanceId) = τ .startPlan
        else τ .startPlan ≤ τ (.anchor p.action true p.actionInstanceId)) := by
    split_ifs
    · rw [solves_interval_self, add_zero]
    · simp
  have hend : Solves τ [⟨.anchor p.action false p.actionInstanceId, .endPlan, -ss.epsilon⟩] ↔
      τ (.anchor p.action false p.actionInstanceId) + ss.epsilon ≤ τ .endPlan := by
    simp only [solves_cons, solves_nil, and_true]
    constructor <;> intro h <;> linarith
  rw [openingEdges, solves_append, solves_append, solves_append, solves_interval, hpin, hend,
    solves_eventEdges, hev, and_assoc, and_assoc]

end Edges

/-! ### Placements of the nodes -/

/-- The node of an event, for instances with ids `ids`. -/
def key (c : Config) (ids : List ℕ) (p : ℕ × ℕ) : Action × ℕ × ℕ :=
  (c.actionOf p.1, p.2, ids.getD p.1 0 + 1 + p.2)

def point (c : Config) (ids : List ℕ) (p : ℕ × ℕ) : Timepoint :=
  .event (c.actionOf p.1) p.2 (ids.getD p.1 0 + 1 + p.2)

def anchor (c : Config) (ids : List ℕ) (start : Bool) (j : ℕ) : Timepoint :=
  .anchor (c.actionOf j) start (ids.getD j 0)

/-- The schedule an assignment of times to the nodes amounts to. -/
def scheduleOf (c : Config) (ids : List ℕ) (τ : Timepoint → ℚ) : Schedule := fun j =>
  (τ (anchor c ids true j) - τ .startPlan, τ (anchor c ids false j) - τ .startPlan)

/-- The nodes are where a schedule of the configuration puts them. -/
structure Placed (ss : SearchSpace) (c : Config) (ids : List ℕ) (τ : Timepoint → ℚ) : Prop where
  deadline : ∀ d, ss.deadline = some d → τ .endPlan = τ .startPlan + d
  rigid : ∀ j < c.instances.length, ∀ {k : ℕ} {te : Timing × Event},
    ss.event (c.actionOf j) k = some te →
      τ (point c ids (j, k)) = τ (anchor c ids te.1.start j) + te.1.delay
  stop : ∀ j < c.instances.length, τ (anchor c ids false j) + ss.epsilon ≤ τ .endPlan
  valid : Schedule.Valid ss c (scheduleOf c ids τ)

section Placed

variable {ss : SearchSpace} {c c' : Config} {ids : List ℕ} {τ : Timepoint → ℚ}

theorem point_time {p : ℕ × ℕ} {j k : ℕ} (hp : p = (j, k))
    (hr : ∀ {k : ℕ} {te : Timing × Event}, ss.event (c.actionOf j) k = some te →
      τ (point c ids (j, k)) = τ (anchor c ids te.1.start j) + te.1.delay)
    (hs : (ss.event (c.actionOf j) k).isSome) :
    Schedule.time ss c (scheduleOf c ids τ) p = τ (point c ids p) - τ .startPlan := by
  obtain ⟨te, hte⟩ := Option.isSome_iff_exists.mp hs
  subst hp
  rw [hr hte, Schedule.time, hte]
  cases hst : te.1.start <;> simp [scheduleOf, hst] <;> ring

theorem follows_point {p q : ℕ × ℕ}
    (hp : Schedule.time ss c (scheduleOf c ids τ) p = τ (point c ids p) - τ .startPlan)
    (hq : Schedule.time ss c (scheduleOf c ids τ) q = τ (point c ids q) - τ .startPlan) :
    Follows (Schedule.mutex ss c) ss.epsilon (Schedule.time ss c (scheduleOf c ids τ)) p q ↔
      Follows (Schedule.mutex ss c) ss.epsilon (fun p => τ (point c ids p)) p q := by
  simp only [Follows, hp, hq, sub_le_sub_iff_right]
  rw [show τ (point c ids p) - τ .startPlan + ss.epsilon =
    τ (point c ids p) + ss.epsilon - τ .startPlan by ring, sub_le_sub_iff_right]

theorem Placed.time [Callables] (h : Placed ss c ids τ) {p : ℕ × ℕ} (hp : p.1 < c.instances.length)
    (hs : (ss.event (c.actionOf p.1) p.2).isSome) :
    Schedule.time ss c (scheduleOf c ids τ) p = τ (point c ids p) - τ .startPlan :=
  point_time rfl (h.rigid p.1 hp) hs

theorem Placed.ordered [Callables] (hwf : c.WellFormed ss) (h : Placed ss c ids τ) :
    c.fired.Pairwise (Follows (Schedule.mutex ss c) ss.epsilon fun p => τ (point c ids p)) := by
  refine h.valid.ordered.imp_of_mem fun {p q} hp hq hpq => ?_
  have hfp := hwf.fired p hp
  have hfq := hwf.fired q hq
  exact (follows_point (h.time hfp.1 hfp.2) (h.time hfq.1 hfq.2)).mp hpq

theorem Placed.chain [Callables] (hwf : c.WellFormed ss) (h : Placed ss c ids τ) :
    (c.fired.map (key c ids)).Pairwise fun p q =>
      τ (.event p.1 p.2.1 p.2.2) ≤ τ (.event q.1 q.2.1 q.2.2) := by
  rw [List.pairwise_map]
  exact (h.ordered hwf).imp And.left

/-- The edges from the past and to the pending events place an event. -/
theorem solves_eventPlacement [Callables] (past : List (ℕ × ℕ)) (p : ℕ × ℕ)
    {todo : AList (fun _ : Action => ℕ × ℕ)}
    (hchain : (past.map (key c ids)).Pairwise fun p q =>
      τ (.event p.1 p.2.1 p.2.2) ≤ τ (.event q.1 q.2.1 q.2.2))
    (hkey : ∀ q, q ∈ ss.pendingEvents todo ↔ ∃ q' ∈ Schedule.pending ss c, q = key c ids q') :
    (Solves τ (ss.predecessorEdges (c.actionOf p.1, p.2) (point c ids p) true
        (past.map (key c ids)).reverse) ∧
      Solves τ (ss.todoEdges (c.actionOf p.1, p.2) (point c ids p) todo)) ↔
    (∀ q ∈ past, Follows (Schedule.mutex ss c) ss.epsilon (fun p => τ (point c ids p)) q p) ∧
      ∀ q ∈ Schedule.pending ss c,
        Follows (Schedule.mutex ss c) ss.epsilon (fun p => τ (point c ids p)) p q := by
  rw [solves_predecessorEdges hchain, solves_todoEdges]
  refine and_congr ?_ ?_
  · simp only [List.forall_mem_map]
    rfl
  · have hm : ∀ q, Schedule.mutex ss c p q ↔
        ss.mutex (c.actionOf p.1, p.2) (c.actionOf q.1, q.2) = true := fun q => by
      rw [Schedule.mutex, mutex_comm]
    simp only [Follows, hm]
    constructor
    · exact fun h q hq => h (key c ids q) ((hkey _).mpr ⟨q, hq, rfl⟩)
    · intro h q hq
      obtain ⟨q', hq', rfl⟩ := (hkey _).mp hq
      exact h q' hq'

theorem scheduleOf_congr (hi : c'.instances = c.instances) :
    scheduleOf c' ids τ = scheduleOf c ids τ := by
  funext j
  simp only [scheduleOf, anchor, Config.actionOf, hi]

/-- Between configurations with the same instances only the schedule differs. -/
theorem Placed.transfer (hi : c'.instances = c.instances) (h : Placed ss c ids τ)
    (hv : Schedule.Valid ss c' (scheduleOf c ids τ)) : Placed ss c' ids τ := by
  have ha : ∀ j, c'.actionOf j = c.actionOf j := fun j => by simp only [Config.actionOf, hi]
  refine ⟨h.deadline, fun j hj k te hte => ?_, fun j hj => ?_, scheduleOf_congr hi ▸ hv⟩
  · rw [ha] at hte
    simpa only [point, anchor, ha] using h.rigid j (by rwa [hi] at hj) hte
  · simpa only [anchor, ha] using h.stop j (by rwa [hi] at hj)

theorem placed_append_iff [Callables] {p : ℕ × ℕ} (hwf : c.WellFormed ss)
    (hp : p.1 < c.instances.length) (hs : (ss.event (c.actionOf p.1) p.2).isSome)
    (hi : c'.instances = c.instances) (ht : c'.todo = c.todo) (hf : c'.fired = c.fired ++ [p]) :
    Placed ss c' ids τ ↔ Placed ss c ids τ ∧
      (∀ q ∈ c.fired,
        Follows (Schedule.mutex ss c) ss.epsilon (fun p => τ (point c ids p)) q p) ∧
      ∀ q ∈ Schedule.pending ss c,
        Follows (Schedule.mutex ss c) ss.epsilon (fun p => τ (point c ids p)) p q := by
  have hnode : Placed ss c ids τ → (Schedule.Valid ss c' (scheduleOf c ids τ) ↔
      (∀ q ∈ c.fired,
        Follows (Schedule.mutex ss c) ss.epsilon (fun p => τ (point c ids p)) q p) ∧
      ∀ q ∈ Schedule.pending ss c,
        Follows (Schedule.mutex ss c) ss.epsilon (fun p => τ (point c ids p)) p q) := by
    intro h
    rw [Schedule.valid_append_iff hi ht hf, and_iff_right h.valid]
    refine and_congr (forall₂_congr fun q hq => ?_) (forall₂_congr fun q hq => ?_)
    · have hfq := hwf.fired q hq
      exact follows_point (h.time hfq.1 hfq.2) (h.time hp hs)
    · have hfq := Schedule.actionOf_pending hwf hq
      exact follows_point (h.time hp hs) (h.time hfq.1 hfq.2)
  constructor
  · intro h'
    have hv' : Schedule.Valid ss c' (scheduleOf c ids τ) := scheduleOf_congr hi ▸ h'.valid
    have h : Placed ss c ids τ := by
      refine h'.transfer hi.symm ?_
      rw [scheduleOf_congr hi]
      exact ((Schedule.valid_append_iff hi ht hf).mp hv').1
    exact ⟨h, (hnode h).mp hv'⟩
  · intro h
    exact h.1.transfer hi ((hnode h.1).mpr h.2)

theorem placed_fire_iff [Callables] {a : Action} {le : List (Timing × Event)} {k j : ℕ}
    (hwf : c.WellFormed ss) (hle : ss.events a = some le) (hl : c.todo.lookup a = some (k, j))
    (hk : k < le.length) (ht : c'.todo = Config.nextTodo c.todo a le.length k j)
    (hi : c'.instances = c.instances) (hf : c'.fired = c.fired ++ [(j, k)]) :
    Placed ss c' ids τ ↔ Placed ss c ids τ ∧
      ∀ q ∈ Schedule.pending ss c', Follows (Schedule.mutex ss c') ss.epsilon
        (fun p => τ (point c' ids p)) (j, k) q := by
  have ha : ∀ j', c'.actionOf j' = c.actionOf j' := fun j' => by simp only [Config.actionOf, hi]
  have hmem := fun q => Schedule.mem_pending_fire (q := q) hle hl hk ht
  have hjk := Schedule.actionOf_pending hwf ((hmem (j, k)).mpr (.inl rfl))
  have hnode : Placed ss c ids τ → (Schedule.Valid ss c' (scheduleOf c ids τ) ↔
      ∀ q ∈ Schedule.pending ss c', Follows (Schedule.mutex ss c') ss.epsilon
        (fun p => τ (point c' ids p)) (j, k) q) := by
    intro hp
    rw [Schedule.valid_fire_iff hle hl hk ht hi hf, and_iff_right hp.valid]
    refine forall₂_congr fun q hq => ?_
    have hqs := Schedule.actionOf_pending hwf ((hmem q).mpr (.inr hq))
    rw [follows_point (hp.time hjk.1 hjk.2) (hp.time hqs.1 hqs.2)]
    simp only [Follows, Schedule.mutex, point, ha]
  constructor
  · intro h'
    have hv' : Schedule.Valid ss c' (scheduleOf c ids τ) := scheduleOf_congr hi ▸ h'.valid
    have h : Placed ss c ids τ := by
      refine h'.transfer hi.symm ?_
      rw [scheduleOf_congr hi]
      exact ((Schedule.valid_fire_iff hle hl hk ht hi hf).mp hv').1
    exact ⟨h, (hnode h).mp hv'⟩
  · intro h
    exact h.1.transfer hi ((hnode h.1).mpr h.2)

theorem placed_open_iff [Callables] {a : Action} {le : List (Timing × Event)} {i : Instance}
    {id : ℕ} (hwf : c.WellFormed ss) (hlen : ids.length = c.instances.length)
    (hle : ss.events a = some le) (hl : c.todo.lookup a = none) (hpos : 0 < le.length)
    (ht : c'.todo = if 1 < le.length then c.todo.insert a (1, c.instances.length) else c.todo)
    (hi : c'.instances = c.instances ++ [i]) (hia : i.action = a)
    (hf : c'.fired = c.fired ++ [(c.instances.length, 0)]) :
    Placed ss c' (ids ++ [id]) τ ↔ Placed ss c ids τ ∧
      Solves τ (ss.openingEdges ⟨a, id, le, i.pinned⟩ i.lower i.upper) ∧
      (∀ p ∈ c.fired, Follows (Schedule.mutex ss c') ss.epsilon
        (fun p => τ (point c' (ids ++ [id]) p)) p (c.instances.length, 0)) ∧
      ∀ q ∈ Schedule.pending ss c', Follows (Schedule.mutex ss c') ss.epsilon
        (fun p => τ (point c' (ids ++ [id]) p)) (c.instances.length, 0) q := by
  have ha : ∀ {j'}, j' < c.instances.length → c'.actionOf j' = c.actionOf j' := fun h => by
    simp only [Config.actionOf, hi, List.getElem?_append_left h]
  have han : c'.actionOf c.instances.length = a := by simp [Config.actionOf, hi, hia]
  have hid : ∀ {j'}, j' < c.instances.length → (ids ++ [id]).getD j' 0 = ids.getD j' 0 := by
    intro j' h
    simp only [List.getD_eq_getElem?_getD]
    rw [List.getElem?_append_left (by omega)]
  have hidn : (ids ++ [id]).getD c.instances.length 0 = id := by
    rw [← hlen]
    simp
  have hsch : ∀ j' < c.instances.length,
      scheduleOf c' (ids ++ [id]) τ j' = scheduleOf c ids τ j' := by
    intro j' hj'
    simp only [scheduleOf, anchor, ha hj', hid hj']
  have hlen' : c'.instances.length = c.instances.length + 1 := by simp [hi]
  have hmem := fun q => Schedule.mem_pending_open (q := q) hle hl ht
  rw [solves_openingEdges hle]
  have hopen : Schedule.Valid ss c' (scheduleOf c' (ids ++ [id]) τ) ↔ _ :=
    Schedule.valid_open_iff hwf hle hl ht hi hia hf
  rw [Schedule.valid_congr hwf hsch] at hopen
  -- the times of the nodes once the rigid edges hold
  have hfol : (∀ j' < c'.instances.length, ∀ {k : ℕ} {te : Timing × Event},
      ss.event (c'.actionOf j') k = some te → τ (point c' (ids ++ [id]) (j', k)) =
        τ (anchor c' (ids ++ [id]) te.1.start j') + te.1.delay) →
      ∀ {p q : ℕ × ℕ}, p.1 < c'.instances.length → (ss.event (c'.actionOf p.1) p.2).isSome →
        q.1 < c'.instances.length → (ss.event (c'.actionOf q.1) q.2).isSome →
        (Follows (Schedule.mutex ss c') ss.epsilon
            (Schedule.time ss c' (scheduleOf c' (ids ++ [id]) τ)) p q ↔
          Follows (Schedule.mutex ss c') ss.epsilon
            (fun p => τ (point c' (ids ++ [id]) p)) p q) :=
    fun hr p q hp hps hq hqs => follows_point (point_time rfl (hr p.1 hp) hps)
      (point_time rfl (hr q.1 hq) hqs)
  have hnew : (ss.event (c'.actionOf c.instances.length) 0).isSome := by
    rw [han]
    exact (Config.event_isSome hle).mpr hpos
  have hold : ∀ p ∈ c.fired, p.1 < c'.instances.length ∧
      (ss.event (c'.actionOf p.1) p.2).isSome := by
    intro p hp
    have := hwf.fired p hp
    rw [ha this.1, hlen']
    exact ⟨by omega, this.2⟩
  have hpend : ∀ q ∈ Schedule.pending ss c', q.1 < c'.instances.length ∧
      (ss.event (c'.actionOf q.1) q.2).isSome := by
    intro q hq
    rcases (hmem q).mp hq with ⟨hq1, -, hq2⟩ | hq
    · rw [hq1, han]
      exact ⟨by omega, (Config.event_isSome hle).mpr hq2⟩
    · have := Schedule.actionOf_pending hwf hq
      rw [ha this.1, hlen']
      exact ⟨by omega, this.2⟩
  have hbounds : ∀ {l u : ℚ}, (l ≤ (scheduleOf c' (ids ++ [id]) τ c.instances.length).2 -
      (scheduleOf c' (ids ++ [id]) τ c.instances.length).1 ∧
      (scheduleOf c' (ids ++ [id]) τ c.instances.length).2 -
        (scheduleOf c' (ids ++ [id]) τ c.instances.length).1 ≤ u) ↔
      (l ≤ τ (.anchor a false id) - τ (.anchor a true id) ∧
        τ (.anchor a false id) - τ (.anchor a true id) ≤ u) := by
    intro l u
    simp only [scheduleOf, anchor, han, hidn, sub_sub_sub_cancel_right]
  have horigin : (if i.pinned then (scheduleOf c' (ids ++ [id]) τ c.instances.length).1 = 0
      else 0 ≤ (scheduleOf c' (ids ++ [id]) τ c.instances.length).1) ↔
      (if i.pinned then τ (.anchor a true id) = τ .startPlan
        else τ .startPlan ≤ τ (.anchor a true id)) := by
    simp only [scheduleOf, anchor, han, hidn, sub_eq_zero, sub_nonneg]
  constructor
  · intro h
    obtain ⟨hv, hb, ho, hp, hq⟩ := hopen.mp h.valid
    have hfol := @hfol h.rigid
    refine ⟨⟨h.deadline, fun j' hj' k te hte => ?_, fun j' hj' => ?_, hv⟩,
      ⟨hbounds.mp hb, horigin.mp ho, ?_, fun {k te} hte => ?_⟩, fun p hpm => ?_, fun q hqm => ?_⟩
    · have := h.rigid j' (by omega) (by rw [ha hj']; exact hte)
      simpa only [point, anchor, ha hj', hid hj'] using this
    · have := h.stop j' (by omega)
      simpa only [anchor, ha hj', hid hj'] using this
    · simpa only [anchor, han, hidn] using h.stop c.instances.length (by omega)
    · have := h.rigid c.instances.length (by omega) (by rw [han]; exact hte)
      simpa only [point, anchor, han, hidn] using this
    · exact (hfol (hold p hpm).1 (hold p hpm).2 (by simp; omega) hnew).mp (hp p hpm)
    · exact (hfol (by simp; omega) hnew (hpend q hqm).1 (hpend q hqm).2).mp (hq q hqm)
  · rintro ⟨h, ⟨hb, ho, hs, he⟩, hp, hq⟩
    have hrigid : ∀ j' < c'.instances.length, ∀ {k : ℕ} {te : Timing × Event},
        ss.event (c'.actionOf j') k = some te → τ (point c' (ids ++ [id]) (j', k)) =
          τ (anchor c' (ids ++ [id]) te.1.start j') + te.1.delay := by
      intro j' hj' k te hte
      rcases Nat.lt_or_ge j' c.instances.length with hlt | hge
      · rw [ha hlt] at hte
        simpa only [point, anchor, ha hlt, hid hlt] using h.rigid j' hlt hte
      · obtain rfl : j' = c.instances.length := by omega
        rw [han] at hte
        simpa only [point, anchor, han, hidn] using he hte
    have hfol := @hfol hrigid
    refine ⟨h.deadline, hrigid, fun j' hj' => ?_, hopen.mpr ⟨h.valid, hbounds.mpr hb,
      horigin.mpr ho, fun p hpm => ?_, fun q hqm => ?_⟩⟩
    · rcases Nat.lt_or_ge j' c.instances.length with hlt | hge
      · simpa only [anchor, ha hlt, hid hlt] using h.stop j' hlt
      · obtain rfl : j' = c.instances.length := by omega
        simpa only [anchor, han, hidn] using hs
    · exact (hfol (hold p hpm).1 (hold p hpm).2 (by simp; omega) hnew).mpr (hp p hpm)
    · exact (hfol (by simp; omega) hnew (hpend q hqm).1 (hpend q hqm).2).mpr (hq q hqm)

/-- The nodes where a schedule puts them, with the plan's start at 0. -/
def placement (ss : SearchSpace) (c : Config) (ids : List ℕ) (σ : Schedule) (stop : ℚ) :
    Timepoint → ℚ
  | .startPlan => 0
  | .endPlan => stop
  | .anchor _ start id => if start then (σ (ids.idxOf id)).1 else (σ (ids.idxOf id)).2
  | .event _ pos id => Schedule.time ss c σ (ids.idxOf (id - 1 - pos), pos)

theorem idxOf_getD {j : ℕ} (hn : ids.Nodup) (hj : j < ids.length) :
    ids.idxOf (ids.getD j 0) = j := by
  simp only [List.getD_eq_getElem?_getD, List.getElem?_eq_getElem hj, Option.getD_some]
  exact hn.idxOf_getElem j hj

theorem scheduleOf_placement {σ : Schedule} {stop : ℚ} {j : ℕ} (hn : ids.Nodup)
    (hj : j < ids.length) : scheduleOf c ids (placement ss c ids σ stop) j = σ j := by
  simp only [scheduleOf, placement, anchor, idxOf_getD hn hj, if_true, Bool.false_eq_true,
    if_false, sub_zero]

theorem placed_placement [Callables] {σ : Schedule} (stop : ℚ) (hwf : c.WellFormed ss)
    (hn : ids.Nodup) (hlen : ids.length = c.instances.length) (hv : Schedule.Valid ss c σ)
    (hstop : ∀ j < c.instances.length, (σ j).2 + ss.epsilon ≤ stop)
    (hd : ∀ d, ss.deadline = some d → stop = d) : Placed ss c ids (placement ss c ids σ stop) := by
  have hidx : ∀ {j}, j < c.instances.length → ids.idxOf (ids.getD j 0) = j :=
    fun hj => idxOf_getD hn (hlen ▸ hj)
  refine ⟨fun d h => ?_, fun j hj k te hte => ?_, fun j hj => ?_, ?_⟩
  · simpa [placement] using hd d h
  · have hid : ids.getD j 0 + 1 + k - 1 - k = ids.getD j 0 := by omega
    simp only [point, placement, anchor, hid, hidx hj, Schedule.time, hte]
  · simpa only [placement, anchor, hidx hj, Bool.false_eq_true, if_false] using hstop j hj
  · exact (Schedule.valid_congr hwf fun j hj => scheduleOf_placement hn (hlen ▸ hj)).mpr hv

/-- The network has a solution exactly when the configuration has a schedule
whose instances all end `epsilon` before the deadline. -/
theorem exists_placed_iff [Callables] (hwf : c.WellFormed ss) (hn : ids.Nodup)
    (hlen : ids.length = c.instances.length) : (∃ τ, Placed ss c ids τ) ↔
      ∃ σ, Schedule.Valid ss c σ ∧ Schedule.MeetsDeadline ss c σ := by
  constructor
  · rintro ⟨τ, h⟩
    refine ⟨_, h.valid, fun d hd j hj => ?_⟩
    have hs := h.stop j hj
    have := h.deadline d hd
    change τ (anchor c ids false j) - τ .startPlan + ss.epsilon ≤ d
    linarith
  · rintro ⟨σ, hv, hm⟩
    cases hd : ss.deadline with
    | some d =>
      refine ⟨_, placed_placement d hwf hn hlen hv (hm d hd) fun d' hd' => ?_⟩
      exact Option.some.inj (hd.symm.trans hd')
    | none =>
      obtain ⟨stop, hstop⟩ := Finset.exists_le ((Finset.range c.instances.length).image
        fun j => (σ j).2 + ss.epsilon)
      refine ⟨_, placed_placement stop hwf hn hlen hv (fun j hj => hstop _ ?_)
        fun d' hd' => ?_⟩
      · exact Finset.mem_image_of_mem _ (Finset.mem_range.mpr hj)
      · rw [hd] at hd'
        contradiction

end Placed

end TamerLite
