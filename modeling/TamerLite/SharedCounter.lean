import TamerLite.DeltaSTN
import TamerLite.Search
import TamerLite.TimepointKeys

/-! The counter all instance ids of a search are taken from, and the 32 bits the
Rust core keeps of it. -/

namespace TamerLite

open Difference SearchSpace

section Searches

/-- `open_action` in the Rust core, whose additions wrap: the ids of an instance
and of its first event, and where `n` events leave the counter. -/
def openIds32 (counter : UInt32) (n : ℕ) : UInt32 × UInt32 × UInt32 :=
  (counter, counter + 1, counter + 1 + UInt32.ofNat n)

/-- Its counter is what 32 bits keep of the number of ids allocated so far. -/
theorem openIds32_ofNat (counter n : ℕ) : openIds32 (UInt32.ofNat counter) n =
    (UInt32.ofNat counter, UInt32.ofNat (counter + 1), UInt32.ofNat (counter + 1 + n)) := by
  rw [openIds32, UInt32.ofNat_add, UInt32.ofNat_add, UInt32.ofNat_add]
  rfl

section

variable [Callables]

/-- How far the counter moves, whether or not there is a successor. -/
def counterAfter (ss : SearchSpace) (counter : ℕ) (s : State) (a : Action) : ℕ :=
  if ss.reachesOpening s a then ss.advance counter s a else counter

/-- What the searches share: in some order they ask for a successor of a state
they hold, and keep it if there is one. The counter also moves when there is
none. `P` is what every such step meets. -/
inductive SearchRun (ss : SearchSpace) (tn : DeltaSimpleTemporalNetwork) (compression : Bool)
    (P : ℕ → State → Action → Prop) : List State → ℕ → Prop
  | initial {s : State} {counter : ℕ} : ss.initial tn counter = some s →
      SearchRun ss tn compression P [s] (initialCounter ss counter)
  | successor {states : List State} {counter : ℕ} {s : State} {a : Action} :
      SearchRun ss tn compression P states counter → s ∈ states → P counter s a →
      SearchRun ss tn compression P
        (states ++ (ss.getSuccessorStateWithCompression tn counter s a compression).toList)
        (counterAfter ss counter s a)

/-- An action that opens takes an id none of its instances on the path has in 32 bits. -/
def OpensApart (ss : SearchSpace) (counter : ℕ) (s : State) (a : Action) : Prop :=
  ss.reachesOpening s a = true → ∀ p ∈ instances s.path, ApartIn32Bits p (a, counter)

end

variable {ss : SearchSpace} {tn : DeltaSimpleTemporalNetwork} {compression : Bool}
  {P : ℕ → State → Action → Prop} {s t s' : State} {a : Action} {counter d : ℕ} {states : List State}
  {le : List (Timing × Event)}

theorem instances_append (path path' : List (Action × ℕ × ℕ)) :
    instances (path ++ path') = instances path ++ instances path' := by
  rw [instances, List.filterMap_append]
  rfl

/-- The events that are still to fire are not first ones. -/
def BeginsAfterFirst (s : State) : Prop := ∀ a k id, s.todo.lookup a = some (k, id) → 1 ≤ k

/-- What a state keeps of the ids that were allocated so far. -/
structure Allocated (ss : SearchSpace) (s : State) (counter : ℕ) : Prop where
  todo : BeginsAfterFirst s
  spaced : Spaced ss (instances s.path)
  below : ∀ p ∈ instances s.path, p.2 + 1 + width ss p.1 ≤ counter
  known : ∀ p ∈ instances s.path, (ss.events p.1).isSome = true

theorem Allocated.mono (h : Allocated ss s counter) (hd : counter ≤ d) : Allocated ss s d :=
  ⟨h.todo, h.spaced, fun p hp => (h.below p hp).trans hd, h.known⟩

variable [Callables]

theorem expandEvent_path {newState : State} {e : Event} {index id : ℕ} {po : Option PendingOpening}
    (h : ss.expandEvent tn s newState e index id po = some s') :
    s'.path = newState.path ++ [(e.action, e.pos, id)] ∧ s'.todo = newState.todo := by
  obtain ⟨removed, assignments, -, -, -, net, -, rfl⟩ := expandEvent_eq_some.mp h
  exact ⟨rfl, rfl⟩

theorem expandRest_instances (hle : ss.events a = some le) {rest : List (Timing × Event)} {k id : ℕ}
    (hrest : rest = le.drop k) (hk : 1 ≤ k) (h : ss.expandRest tn rest k id s = some s') :
    instances s'.path = instances s.path ∧ s'.todo = s.todo := by
  induction rest generalizing k id s with
  | nil =>
    rw [SearchSpace.expandRest] at h
    obtain rfl := Option.some.inj h
    exact ⟨rfl, rfl⟩
  | cons te rest ih =>
    obtain ⟨t, ⟨-, ht⟩, h⟩ := expandRest_cons.mp h
    obtain ⟨hpath, htodo⟩ := expandEvent_path ht
    have hte : le[k]? = some te := by
      have hhead := congrArg (fun l => l[0]?) hrest
      simpa using hhead.symm
    have hpos := ((ss.events_numbered hle).2 hte).2
    obtain ⟨hinst, htodo'⟩ := ih (by simpa using congrArg List.tail hrest) (Nat.le_succ_of_le hk) h
    refine ⟨?_, htodo'.trans htodo⟩
    rw [hinst, hpath, instances_append, hpos]
    simp [instances, Nat.one_le_iff_ne_zero.mp hk]

theorem openAction_instances (ht : ss.isTemporal = true) (hle : ss.events a = some le)
    {newState : State} {pin : Bool} (htodo : BeginsAfterFirst newState)
    (h : ss.openAction tn d s newState a le pin = some s') :
    BeginsAfterFirst s' ∧ instances s'.path = instances newState.path ++ [(a, d)] := by
  have hne := (ss.events_numbered hle).1
  obtain ⟨te, hte⟩ : ∃ te, le[0]? = some te := by
    cases le with
    | nil => contradiction
    | cons te rest => exact ⟨te, rfl⟩
  obtain ⟨hact, hpos⟩ := (ss.events_numbered hle).2 hte
  rw [openAction_eq hle hte] at h
  obtain ⟨hpath, htodo'⟩ := expandEvent_path h
  constructor
  · intro b k id hb
    rw [htodo'] at hb
    dsimp only at hb
    split_ifs at hb with hlen
    · by_cases hba : b = a
      · rw [hba, AList.lookup_insert, Option.some.injEq, Prod.mk.injEq] at hb
        omega
      · rw [AList.lookup_insert_ne hba] at hb
        exact htodo b k id hb
    · exact htodo b k id hb
  · rw [hpath, instances_append, hact, hpos, if_pos ht]
    simp [instances]

/-- A successor keeps the instances of its parent's path, and has one more if
its action opened. -/
theorem successor_instances (ht : ss.isTemporal = true) (htodo : BeginsAfterFirst s)
    (h : ss.getSuccessorStateWithCompression tn d s a compression = some s') :
    BeginsAfterFirst s' ∧ ((∃ k id, s.todo.lookup a = some (k, id) ∧
        instances s'.path = instances s.path) ∨
      (s.todo.lookup a = none ∧ ss.reachesOpening s a = true ∧ (ss.events a).isSome = true ∧
        instances s'.path = instances s.path ++ [(a, d)])) := by
  have hplain : ∀ {t}, ss.getSuccessorStateWithCompression tn d s a false = some t →
      BeginsAfterFirst t ∧ ((∃ k id, s.todo.lookup a = some (k, id) ∧
          instances t.path = instances s.path) ∨
        (s.todo.lookup a = none ∧ ss.reachesOpening s a = true ∧ (ss.events a).isSome = true ∧
          instances t.path = instances s.path ++ [(a, d)])) := by
    intro t hs
    rcases getSuccessorState_eq_some.mp hs with ⟨le, k, id, te, hle, hl, hte, -, -, hs⟩ |
      ⟨le, te, hle, hl, htimed, hsym, hte, hc, hi, hs⟩
    · obtain ⟨hpath, htodo'⟩ := expandEvent_path hs
      have hpos := ((ss.events_numbered hle).2 hte).2
      have hk := htodo a k id hl
      refine ⟨fun b m id' hb => ?_, .inl ⟨k, id, hl, ?_⟩⟩
      · rw [htodo', Config.lookup_nextTodo] at hb
        split_ifs at hb
        · rw [Option.some.injEq, Prod.mk.injEq] at hb
          omega
        · exact htodo b m id' hb
      · rw [hpath, instances_append, hpos]
        simp [instances, Nat.one_le_iff_ne_zero.mp hk]
    · have hev : ss.event a 0 = some te := by
        rw [SearchSpace.event, hle]
        exact hte
      have hreach : ss.reachesOpening s a = true := by
        simp [SearchSpace.reachesOpening, hl, htimed, hsym, hev, hc, hi]
      have hstart : BeginsAfterFirst { s with temporalNetwork := none, g := s.g + 1 } := htodo
      obtain ⟨hb, hinst⟩ := openAction_instances ht hle hstart hs
      exact ⟨hb, .inr ⟨hl, hreach, by rw [hle]; rfl, hinst⟩⟩
  rcases getSuccessorStateWithCompression_eq_some.mp h with ⟨-, h⟩ | ⟨-, le, t, next, hle, ht, -, h⟩
  · exact hplain h
  · obtain ⟨hb, hcase⟩ := hplain ht
    obtain ⟨hinst, htodo'⟩ := expandRest_instances hle List.drop_one.symm le_rfl h
    refine ⟨fun b k id hl => ?_, ?_⟩
    · rw [htodo'] at hl
      by_cases hba : b = a
      · rw [hba, AList.lookup_erase] at hl
        contradiction
      · rw [AList.lookup_erase_ne hba] at hl
        exact hb b k id hl
    · rw [hinst]
      exact hcase

theorem le_counterAfter : counter ≤ counterAfter ss counter s a := by
  rw [counterAfter, advance]
  split_ifs <;> omega

theorem counterAfter_eq (ht : ss.isTemporal = true) (hl : s.todo.lookup a = none)
    (hreach : ss.reachesOpening s a = true) :
    counterAfter ss counter s a = counter + 1 + width ss a := by
  simp [counterAfter, advance, width, hreach, ht, hl]

theorem Allocated.successor (ht : ss.isTemporal = true) (h : Allocated ss s counter)
    (hs : ss.getSuccessorStateWithCompression tn counter s a compression = some t) :
    Allocated ss t (counterAfter ss counter s a) := by
  obtain ⟨htodo, ⟨k, id, -, hinst⟩ | ⟨hl, hreach, hknown, hinst⟩⟩ := successor_instances ht h.todo hs
  · have hmono : Allocated ss s (counterAfter ss counter s a) := h.mono le_counterAfter
    refine ⟨htodo, ?_, ?_, ?_⟩
    · rw [hinst]
      exact hmono.spaced
    · rw [hinst]
      exact hmono.below
    · rw [hinst]
      exact hmono.known
  · have hcounter : counterAfter ss counter s a = counter + 1 + width ss a :=
      counterAfter_eq ht hl hreach
    refine ⟨htodo, ?_, ?_, ?_⟩
    · rw [hinst, Spaced, List.pairwise_append]
      refine ⟨h.spaced, List.pairwise_singleton _ _, fun p hp q hq => ?_⟩
      rw [List.mem_singleton.mp hq]
      exact h.below p hp
    · intro p hp
      rw [hinst] at hp
      rcases List.mem_append.mp hp with hp | hp
      · have hle := h.below p hp
        omega
      · rw [List.mem_singleton.mp hp, hcounter]
    · intro p hp
      rw [hinst] at hp
      rcases List.mem_append.mp hp with hp | hp
      · exact h.known p hp
      · rw [List.mem_singleton.mp hp]
        exact hknown

theorem initial_instances (ht : ss.isTemporal = true) (h : ss.initial tn counter = some s) :
    Allocated ss s (initialCounter ss counter) ∧ (instances s.path).Pairwise ApartIn32Bits := by
  rcases initial_eq_some.mp h with ⟨-, rfl⟩ | ⟨a, le, te, htimed, hle, -, -, -, hs⟩
  · have hnone : instances (emptyState ss).path = [] := rfl
    refine ⟨⟨fun a k id hl => ?_, ?_, ?_, ?_⟩, ?_⟩
    · simp [emptyState] at hl
    all_goals
      rw [hnone]
      simp [Spaced]
  · have hstart : BeginsAfterFirst { emptyState ss with temporalNetwork := none } := by
      intro b k id hl
      simp [emptyState] at hl
    obtain ⟨htodo, hinst⟩ := openAction_instances ht hle hstart hs
    have hone : instances s.path = [(a, counter)] := hinst
    refine ⟨⟨htodo, ?_, ?_, ?_⟩, ?_⟩
    · rw [hone]
      exact List.pairwise_singleton _ _
    · rw [hone]
      simp [initialCounter, htimed, hle, width]
    · rw [hone]
      simp [hle]
    · rw [hone]
      exact List.pairwise_singleton _ _

/-- Every state of a search keeps the ids of its path apart. -/
theorem SearchRun.allocated (ht : ss.isTemporal = true)
    (h : SearchRun ss tn compression P states counter) : ∀ s ∈ states, Allocated ss s counter := by
  induction h with
  | initial h₀ =>
    intro s hs
    rw [List.mem_singleton.mp hs]
    exact (initial_instances ht h₀).1
  | @successor states counter s a _ hs _ ih =>
    intro t hmem
    rcases List.mem_append.mp hmem with hmem | hmem
    · exact (ih t hmem).mono le_counterAfter
    · exact (ih s hs).successor ht (Option.mem_toList.mp hmem)

/-- Opened apart, the instances of a path stay apart. -/
theorem SearchRun.apart (ht : ss.isTemporal = true)
    (h : SearchRun ss tn compression (OpensApart ss) states counter) :
    ∀ s ∈ states, (instances s.path).Pairwise ApartIn32Bits := by
  have halloc := h.allocated ht
  induction h with
  | initial h₀ =>
    intro s hs
    rw [List.mem_singleton.mp hs]
    exact (initial_instances ht h₀).2
  | @successor states counter s a hrun hs happart ih =>
    intro t hmem
    rcases List.mem_append.mp hmem with hmem | hmem
    · exact ih (hrun.allocated ht) t hmem
    · have hsucc := Option.mem_toList.mp hmem
      have hprev := ih (hrun.allocated ht) s hs
      obtain ⟨-, ⟨k, id, -, hinst⟩ | ⟨-, hreach, -, hinst⟩⟩ :=
        successor_instances ht (hrun.allocated ht s hs).todo hsucc
      · rw [hinst]
        exact hprev
      · rw [hinst, List.pairwise_append]
        refine ⟨hprev, List.pairwise_singleton _ _, fun p hp q hq => ?_⟩
        rw [List.mem_singleton.mp hq]
        exact happart hreach p hp

/-- A successor's keys are distinct in the Rust core exactly when its parent's are
and the action does not open with an id that is taken in 32 bits. -/
theorem rustKeys_successor {actions : List Action} {events : List (Action × List (Timing × Event))}
    (hi : TNInterpreter.Interprets ss actions events) (ht : ss.isTemporal = true)
    (h : Allocated ss s counter)
    (hs : ss.getSuccessorStateWithCompression tn counter s a compression = some t) :
    ((timepoints ss t).map (Timepoint.rustKey (.new actions events))).Nodup ↔
      ((timepoints ss s).map (Timepoint.rustKey (.new actions events))).Nodup ∧
        OpensApart ss counter s a := by
  rw [timepoints, timepoints, if_pos ht, if_pos ht,
    rustKeys_nodup_iff hi (h.successor ht hs).known, rustKeys_nodup_iff hi h.known]
  obtain ⟨-, ⟨k, id, hl, hinst⟩ | ⟨-, hreach, -, hinst⟩⟩ := successor_instances ht h.todo hs
  · have hno : ¬ ss.reachesOpening s a = true := by simp [reachesOpening, hl]
    rw [hinst]
    exact (and_iff_left fun hr => absurd hr hno).symm
  · rw [hinst, List.pairwise_append]
    constructor
    · intro hall
      exact ⟨hall.1, fun _ p hp => hall.2.2 p hp _ List.mem_cons_self⟩
    · intro hall
      refine ⟨hall.1, List.pairwise_singleton _ _, fun p hp q hq => ?_⟩
      rw [List.mem_singleton.mp hq]
      exact hall.2 hreach p hp

/-- As long as 32 bits hold every id of the search, all actions open apart. -/
theorem SearchRun.opensApart (ht : ss.isTemporal = true)
    (h : SearchRun ss tn compression P states counter) (hle : counter ≤ 2 ^ 32) :
    SearchRun ss tn compression (OpensApart ss) states counter := by
  induction h with
  | initial h₀ => exact .initial h₀
  | @successor states counter s a hrun hs _ ih =>
    have hmono : counter ≤ counterAfter ss counter s a := le_counterAfter
    refine .successor (ih (hmono.trans hle)) hs fun hreach p hp _ => ?_
    have hl : s.todo.lookup a = none := by
      simp only [reachesOpening, Bool.and_eq_true, Option.isNone_iff_eq_none] at hreach
      exact hreach.1.1.1
    have hcounter : counterAfter ss counter s a = counter + 1 + width ss a :=
      counterAfter_eq ht hl hreach
    have hbelow := (hrun.allocated ht s hs).below p hp
    rw [Nat.mod_eq_of_lt (by omega), Nat.mod_eq_of_lt (by omega)]
    omega

/-- The keys of a path are distinct in the Python core in every search. In the
Rust core they are in every search whose actions open apart, and a step that is
not such a one loses it. -/
theorem timepoints_told_apart (ss : SearchSpace) (tn : DeltaSimpleTemporalNetwork) (compression : Bool)
    {actions : List Action} {events : List (Action × List (Timing × Event))}
    (hi : TNInterpreter.Interprets ss actions events) :
    (∀ P states counter, SearchRun ss tn compression P states counter → ∀ s ∈ states,
      ((timepoints ss s).map Timepoint.pythonKey).Nodup) ∧
    (∀ states counter, SearchRun ss tn compression (OpensApart ss) states counter → ∀ s ∈ states,
      ((timepoints ss s).map (Timepoint.rustKey (.new actions events))).Nodup) ∧
    ∀ P states counter, SearchRun ss tn compression P states counter → ss.isTemporal = true →
      ∀ s ∈ states, ∀ a t, ss.getSuccessorStateWithCompression tn counter s a compression = some t →
        ¬ OpensApart ss counter s a →
          ¬ ((timepoints ss t).map (Timepoint.rustKey (.new actions events))).Nodup := by
  refine ⟨fun P states counter h s hs => ?_, fun states counter h s hs => ?_,
    fun P states counter h ht s hs a t hsucc hapart hnodup => ?_⟩
  · by_cases ht : ss.isTemporal = true
    · rw [timepoints, if_pos ht]
      exact pythonKeys_nodup (h.allocated ht s hs).spaced
    · simp [timepoints, ht]
  · by_cases ht : ss.isTemporal = true
    · rw [timepoints, if_pos ht, rustKeys_nodup_iff hi (h.allocated ht s hs).known]
      exact h.apart ht s hs
    · simp [timepoints, ht]
  · exact hapart ((rustKeys_successor hi ht (h.allocated ht s hs) hsucc).mp hnodup).2

end Searches

/-! The network of the Rust core sees the keys alone. -/

def TNInterpreter.packed (i : TNInterpreter) (cs : List Edge) : List (Constraint UInt64 ℚ) :=
  cs.map fun c => ⟨(c.x.rustKey i).getD 0, (c.y.rustKey i).getD 0, c.b⟩

theorem TNInterpreter.solves_packed (i : TNInterpreter) {cs : List Edge} {τ : UInt64 → ℚ} :
    Solves τ (i.packed cs) ↔ Solves (fun v => τ ((v.rustKey i).getD 0)) cs := by
  simp [TNInterpreter.packed, Solves]

noncomputable def TNInterpreter.network (i : TNInterpreter) : DeltaSimpleTemporalNetwork where
  checkStn := fun cs => (DeltaSTN.addAll_spec (i.packed cs)).choose_spec.choose.check
  distances := fun cs v =>
    (DeltaSTN.addAll_spec (i.packed cs)).choose_spec.choose.distances.at ((v.rustKey i).getD 0)
  tolerance := 0

theorem TNInterpreter.checkStn_iff (i : TNInterpreter) (cs : List Edge) :
    i.network.checkStn cs = true ↔ Consistent (i.packed cs) := by
  change (DeltaSTN.addAll_spec (i.packed cs)).choose_spec.choose.isSat = true ↔ _
  rcases (DeltaSTN.addAll_spec (i.packed cs)).choose_spec.choose_spec.2 with ⟨hsat, h⟩ | ⟨hunsat, hinc⟩
  · exact iff_of_true hsat ⟨_, h.consistent.1⟩
  · exact iff_of_false (by rw [hunsat]; simp) hinc

/-! Where consecutive events of an action are apart, a network that has taken two
of its instances for one has no solution. -/

section Refused

variable [Callables] {ss : SearchSpace} {tn : DeltaSimpleTemporalNetwork} {compression : Bool}
  {P : ℕ → State → Action → Prop} {s t : State} {a : Action} {counter : ℕ} {states : List State}

/-- Every state of a search stands for a configuration, and its network was accepted. -/
theorem SearchRun.refines (ht : ss.isTemporal = true)
    (h : SearchRun ss tn compression P states counter) : ∀ s ∈ states, ∃ n ≤ counter, ∃ c ids,
      c.WellFormed ss ∧ Refines ss s n c ids ∧ (c.fired = [] ∨ Checked ss tn s) := by
  induction h with
  | @initial s₀ counter h₀ =>
    intro s hs
    obtain ⟨c, ids, hc, href, hk⟩ := refines_initial h₀
    rw [List.mem_singleton.mp hs]
    refine ⟨_, le_rfl, c, ids, Config.wellFormed_initial hc, href, hk.imp_left fun he => ?_⟩
    rw [he]
  | @successor states counter s a hrun hs _ ih =>
    intro t hmem
    rcases List.mem_append.mp hmem with hmem | hmem
    · obtain ⟨n, hn, hrest⟩ := ih t hmem
      exact ⟨n, hn.trans le_counterAfter, hrest⟩
    · have hsucc := Option.mem_toList.mp hmem
      obtain ⟨n, hn, c, ids, hwf, href, -⟩ := ih s hs
      obtain ⟨c', ids', hstep, href', hk⟩ := href.succWith hwf hn hsucc
      refine ⟨_, ?_, c', ids', hwf.stepWith hstep, href', .inr hk⟩
      obtain ⟨-, ⟨k, id, hl, -⟩ | ⟨-, hreach, -, -⟩⟩ :=
        successor_instances ht (hrun.allocated ht s hs).todo hsucc
      · have hstay : ss.advance counter s a = counter := by simp [advance, hl]
        rw [hstay]
        exact le_counterAfter
      · rw [counterAfter, if_pos hreach]

/-- With a separation, no state of a Rust search has two instances of one action
under one id: the network refuses the second. -/
theorem SearchRun.accepted_apart (i : TNInterpreter) (ht : ss.isTemporal = true) (hε : 0 < ss.epsilon)
    (h : SearchRun ss i.network compression P states counter) :
    ∀ s ∈ states, (instances s.path).Pairwise ApartIn32Bits := by
  intro s hs
  obtain ⟨n, -, c, ids, hwf, href, hfired | hk⟩ := h.refines ht s hs
  · have hpath : s.path = [] := by rw [(href.timed ht).path, hfired, List.map_nil]
    rw [hpath]
    exact List.Pairwise.nil
  obtain ⟨hpath, -, -, log, hlog, hsol⟩ := href.timed ht
  obtain ⟨log', hlog', hcheck⟩ := hk ht
  obtain rfl := Option.some.inj (hlog.symm.trans hlog')
  obtain ⟨τ, hτ⟩ := (i.checkStn_iff log).mp hcheck
  have hord := ((hsol _).mp ((i.solves_packed).mp hτ)).ordered hwf
  rw [hpath, instances, List.pairwise_filterMap, List.pairwise_map]
  refine hord.imp fun {p q} hpq x hx y hy ha hid => ?_
  obtain ⟨hp, hx⟩ := Option.ite_none_right_eq_some.mp hx
  obtain ⟨hq, hy⟩ := Option.ite_none_right_eq_some.mp hy
  obtain rfl := Option.some.inj hx
  obtain rfl := Option.some.inj hy
  simp only [key] at hp hq ha hid
  have hwrap : (point c ids p).wrap = (point c ids q).wrap := by
    rw [point, point, Timepoint.wrap, Timepoint.wrap, ha, hp, hq]
    exact congrArg _ (by omega)
  have hkey : (point c ids p).rustKey i = (point c ids q).rustKey i := by
    rw [← Timepoint.rustKey_wrap, hwrap, Timepoint.rustKey_wrap]
  have hsep := hpq.2 (Schedule.mutex_same ha)
  simp only [hkey] at hsep
  linarith

/-- The successor that would take such an id is refused, whatever its plan is worth. -/
theorem reused_id_refused (i : TNInterpreter) (ht : ss.isTemporal = true) (hε : 0 < ss.epsilon)
    (h : SearchRun ss i.network compression (fun _ _ _ => True) states counter) (hs : s ∈ states)
    (hno : ¬ OpensApart ss counter s a) :
    ss.getSuccessorStateWithCompression i.network counter s a compression = none := by
  cases hsucc : ss.getSuccessorStateWithCompression i.network counter s a compression with
  | none => rfl
  | some t =>
    refine absurd (fun hreach p hp => ?_) hno
    have hapart := (h.successor (a := a) hs trivial).accepted_apart i ht hε t
      (List.mem_append_right _ (Option.mem_toList.mpr hsucc))
    obtain ⟨-, ⟨k, id, hl, -⟩ | ⟨-, -, -, hinst⟩⟩ :=
      successor_instances ht (h.allocated ht s hs).todo hsucc
    · simp [reachesOpening, hl] at hreach
    · rw [hinst, List.pairwise_append] at hapart
      exact hapart.2.2 p hp _ List.mem_cons_self

end Refused

section Count

attribute [local instance] Callables.empty

/-- An action that takes a unit of time and counts how often it was opened,
with no time to pass between its events. -/
def countSpace : SearchSpace := SearchSpace.ofTable
  [(some ⟨[.constant (.num 1)], [.constant (.num 1)], false, false⟩,
    [(⟨true, 0⟩, ⟨⟨0⟩, 0, [.constant (.bool true)], [], [],
      [⟨⟨0⟩, [.fluent ⟨0⟩, .constant (.num 1), .operator .plus [0, 1]]⟩]⟩)])]
  [.num 0] [.constant (.bool false)] none ⟨0, le_rfl⟩

def countEvent : Timing × Event := (⟨true, 0⟩, ⟨⟨0⟩, 0, [.constant (.bool true)], [], [],
  [⟨⟨0⟩, [.fluent ⟨0⟩, .constant (.num 1), .operator .plus [0, 1]]⟩]⟩)

theorem countSpace_events {a : Action} {le : List (Timing × Event)} :
    countSpace.events a = some le ↔ a = ⟨0⟩ ∧ le = [countEvent] := by
  obtain ⟨idx⟩ := a
  cases idx with
  | zero =>
    have h : countSpace.events ⟨0⟩ = some [countEvent] := rfl
    rw [h]
    simp [eq_comm]
  | succ idx =>
    have h : countSpace.events ⟨idx + 1⟩ = none := rfl
    rw [h]
    simp

theorem countSpace_interprets :
    TNInterpreter.Interprets countSpace [⟨0⟩] [(⟨0⟩, [countEvent])] := by
  refine ⟨fun h => ?_, by decide⟩
  obtain ⟨rfl, rfl⟩ := countSpace_events.mp h
  exact ⟨List.mem_cons_self, List.mem_cons_self⟩

def countInterpreter : TNInterpreter := .new [⟨0⟩] [(⟨0⟩, [countEvent])]

/-- Everything happens at once, but the ends. -/
def countTimes (key : UInt64) : ℚ := if key = 2 ∨ (unpackU64 key).1 = 4 then 1 else 0

def countTime (x : Timepoint) : ℚ := countTimes ((x.rustKey countInterpreter).getD 0)

theorem countTimes_packU32 {v : UInt32} (hv : v ≠ 0) (w : UInt32) :
    countTimes (packU32 v w) = if v = 4 then 1 else 0 := by
  have hne : packU32 v w ≠ 2 := by
    intro heq
    have hu := congrArg unpackU64 heq
    rw [unpackU64_packU32] at hu
    exact hv (Prod.mk.inj hu).1
  simp [countTimes, hne, unpackU64_packU32]

theorem countTime_start (id : ℕ) : countTime (.anchor ⟨0⟩ true id) = 0 :=
  countTimes_packU32 (by decide : (3 : UInt32) ≠ 0) _

theorem countTime_end (id : ℕ) : countTime (.anchor ⟨0⟩ false id) = 1 :=
  countTimes_packU32 (by decide : (4 : UInt32) ≠ 0) _

theorem countTime_event (id : ℕ) : countTime (.event ⟨0⟩ 0 id) = 0 :=
  countTimes_packU32 (by decide : (5 : UInt32) ≠ 0) _

theorem countTime_plan : countTime .startPlan = 0 ∧ countTime .endPlan = 1 := by decide +kernel

/-- A chain of openings, each counted. -/
structure Counted (n : ℕ) (s : State) : Prop where
  assignments : s.assignments = [.num n]
  todo : s.todo = ∅
  active : s.activeConditions = 0
  path : s.path = (List.range n).map fun k => (⟨0⟩, 0, 2 * k + 1)
  network : ∃ log, s.temporalNetwork = some log ∧ Solves countTime log

theorem count_applyEffects (n : ℕ) :
    applyEffects countEvent.2.effects [.num (n : ℚ)] [.num (n : ℚ)] = some [.num ((n + 1 : ℕ) : ℚ)] := by
  rw [Nat.cast_add, Nat.cast_one]
  rfl

theorem count_solves_opening (n : ℕ) :
    Solves countTime (countSpace.openingEdges ⟨⟨0⟩, n, [countEvent], false⟩ 1 1) := by
  have hε : countSpace.epsilon = 0 := rfl
  have hplan := countTime_plan
  simp only [openingEdges, eventEdges, solves_append, solves_interval, solves_cons, hε, Bool.false_eq_true,
    if_false, countEvent, countTime_start, countTime_end, countTime_event, hplan.1, hplan.2]
  norm_num

theorem count_solves_predecessor (n id : ℕ) (isPredecessor : Bool) :
    Solves countTime (countSpace.predecessorEdges (⟨0⟩, 0) (.event ⟨0⟩ 0 id) isPredecessor
      ((List.range n).map fun k => ((⟨0⟩ : Action), 0, 2 * k + 1)).reverse) := by
  cases n with
  | zero => simp [predecessorEdges]
  | succ n =>
    have hε : countSpace.epsilon = 0 := rfl
    have hmutex : countSpace.mutex (⟨0⟩, 0) (⟨0⟩, 0) = true := by simp [SearchSpace.mutex]
    rw [List.range_succ, List.map_append, List.reverse_append]
    simp [predecessorEdges, hmutex, hε, countTime_event]

theorem counted_successor {n : ℕ} {s : State} (h : Counted n s) : ∃ t,
    countSpace.getSuccessorStateWithCompression countInterpreter.network (2 * n) s ⟨0⟩ false = some t ∧
      Counted (n + 1) t := by
  obtain ⟨log, hlog, hsol⟩ := h.network
  have hle : countSpace.events ⟨0⟩ = some [countEvent] := rfl
  let newState : State := { s with temporalNetwork := none, g := s.g + 1 }
  have hopening : countSpace.addOpeningConstraints s.assignments
      (some ⟨⟨0⟩, 2 * n, [countEvent], false⟩) =
        some (countSpace.openingEdges ⟨⟨0⟩, 2 * n, [countEvent], false⟩ 1 1) := by
    rw [h.assignments]
    rfl
  have htodo : countSpace.todoEdges (⟨0⟩, 0) (.event ⟨0⟩ 0 (2 * n + 1)) newState.todo = [] := by
    change countSpace.todoEdges _ _ s.todo = []
    rw [h.todo]
    rfl
  have hsolves : Solves countTime (log ++
      countSpace.openingEdges ⟨⟨0⟩, 2 * n, [countEvent], false⟩ 1 1 ++
      countSpace.predecessorEdges (⟨0⟩, 0) (.event ⟨0⟩ 0 (2 * n + 1)) true s.path.reverse ++
      countSpace.todoEdges (⟨0⟩, 0) (.event ⟨0⟩ 0 (2 * n + 1)) newState.todo) := by
    rw [htodo, List.append_nil, solves_append, solves_append, h.path]
    exact ⟨⟨hsol, count_solves_opening _⟩, count_solves_predecessor _ _ _⟩
  obtain ⟨net, hnet, hnetSolves⟩ : ∃ net, network countSpace s newState countEvent.2 0 (2 * n + 1)
      (some ⟨⟨0⟩, 2 * n, [countEvent], false⟩) = some net ∧ Solves countTime net :=
    ⟨_, network_eq hlog hopening, hsolves⟩
  refine ⟨_, getSuccessorState_eq_some.mpr (.inr ⟨[countEvent], countEvent, hle, ?_, nofun, rfl, rfl, ?_,
    rfl, (openAction_eq hle rfl).trans (expandEvent_eq_some.mpr
      ⟨0, [.num ((n + 1 : ℕ) : ℚ)], ?_, ?_, ?_, some net, ?_, rfl⟩)⟩), ?_⟩
  · rw [h.todo]
    rfl
  · rw [h.assignments]
    rfl
  · rw [h.active]
    rfl
  · rw [h.assignments]
    exact count_applyEffects n
  · rintro ⟨-, hno⟩
    exact hno (by simp [countEvent])
  · rw [Accepts, if_pos (by decide)]
    exact ⟨net, hnet, (TNInterpreter.checkStn_iff _ _).mpr
      ⟨countTimes, (TNInterpreter.solves_packed _).mpr hnetSolves⟩, rfl⟩
  · refine ⟨rfl, h.todo, rfl, ?_, net, rfl, hnetSolves⟩
    rw [List.range_succ, List.map_append, ← h.path]
    rfl

theorem counted_empty : Counted 0 (emptyState countSpace) := ⟨rfl, rfl, rfl, rfl, [], rfl, solves_nil⟩

theorem timepoints_told_apart_count : ∃ t,
    countSpace.getSuccessorStateWithCompression countInterpreter.network 0 (emptyState countSpace) ⟨0⟩
      false = some t ∧
    ((timepoints countSpace t).map Timepoint.pythonKey).Nodup ∧
    ((timepoints countSpace t).map (Timepoint.rustKey countInterpreter)).Nodup := by
  obtain ⟨t, ht, -⟩ := counted_successor counted_empty
  obtain ⟨hpython, hrust, -⟩ :=
    timepoints_told_apart countSpace countInterpreter.network false countSpace_interprets
  have hstart : SearchRun countSpace countInterpreter.network false (OpensApart countSpace)
      [emptyState countSpace] 0 := .initial (show countSpace.initial _ 0 = some _ from rfl)
  have hrun := hstart.successor (a := ⟨0⟩) List.mem_cons_self fun _ p hp => absurd hp List.not_mem_nil
  have hmem := List.mem_append_right [emptyState countSpace] (Option.mem_toList.mpr ht)
  exact ⟨t, ht, hpython _ _ _ hrun t hmem, hrust _ _ hrun t hmem⟩

theorem count_run (n : ℕ) : ∃ states s, SearchRun countSpace countInterpreter.network false
    (fun _ _ _ => True) states (2 * n) ∧ s ∈ states ∧ Counted n s := by
  induction n with
  | zero =>
    have hstart : countSpace.initial countInterpreter.network 0 = some (emptyState countSpace) := rfl
    exact ⟨_, emptyState countSpace, .initial hstart, List.mem_cons_self, counted_empty⟩
  | succ n ih =>
    obtain ⟨states, s, hrun, hs, hcounted⟩ := ih
    obtain ⟨t, ht, hcounted'⟩ := counted_successor hcounted
    have htemp : countSpace.isTemporal = true := rfl
    have hl : s.todo.lookup ⟨0⟩ = none := by
      rw [hcounted.todo]
      rfl
    obtain ⟨-, ⟨k, id, hl', -⟩ | ⟨-, hreach, -, -⟩⟩ :=
      successor_instances htemp (hrun.allocated htemp s hs).todo ht
    · rw [hl] at hl'
      contradiction
    · have hcounter : counterAfter countSpace (2 * n) s ⟨0⟩ = 2 * (n + 1) :=
        counterAfter_eq htemp hl hreach
      refine ⟨_, t, hcounter ▸ hrun.successor hs trivial, ?_, hcounted'⟩
      exact List.mem_append_right _ (Option.mem_toList.mpr ht)

theorem Counted.instances {n : ℕ} {s : State} (h : Counted n s) :
    instances s.path = (List.range n).map fun k => (⟨0⟩, 2 * k) := by
  rw [h.path, TamerLite.instances, List.filterMap_map]
  exact congrFun List.filterMap_eq_map _

/-- After 2³¹ openings the next one takes the first one's id again, and is accepted. -/
theorem wrapped_keys_collide : ∃ states counter s, SearchRun countSpace countInterpreter.network false
    (fun _ _ _ => True) states counter ∧ s ∈ states ∧
      ¬ ((timepoints countSpace s).map (Timepoint.rustKey countInterpreter)).Nodup := by
  obtain ⟨n, hn⟩ : ∃ n : ℕ, n = 2 ^ 31 + 1 := ⟨_, rfl⟩
  obtain ⟨states, s, hrun, hs, hcounted⟩ := count_run n
  refine ⟨states, 2 * n, s, hrun, hs, fun hnodup => ?_⟩
  have htemp : countSpace.isTemporal = true := rfl
  rw [timepoints, if_pos htemp, countInterpreter, rustKeys_nodup_iff countSpace_interprets
    (hrun.allocated htemp s hs).known, hcounted.instances, List.pairwise_map,
    List.pairwise_iff_getElem] at hnodup
  have hlast : 2 ^ 31 < (List.range n).length := by
    rw [List.length_range]
    omega
  have hfirst : 0 < (List.range n).length := by omega
  refine hnodup 0 (2 ^ 31) hfirst hlast (by omega) rfl ?_
  rw [List.getElem_range, List.getElem_range]
  norm_num

end Count

end TamerLite
