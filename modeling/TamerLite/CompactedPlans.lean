import TamerLite.CompactedRuns

/-! Compaction and plans: the compacted search space accepts what the full one does. It
separates fewer events, so it accepts no more where it finds the same mutexes. -/

namespace TamerLite

open Difference SearchSpace Config

variable {ss ss₁ ss₂ : SearchSpace} {considered : List Action} {R : Finset Fluent} {c c₁ c₂ d : Config}
  {a : Action} {σ : Schedule}

/-- A schedule stays valid where the events stay where they are and no more of them are mutex. -/
theorem Schedule.valid_of_fewer (hinst : c₂.instances = c₁.instances) (hfired : c₂.fired = c₁.fired)
    (hpending : ∀ q, q ∈ pending ss₂ c₂ → q ∈ pending ss₁ c₁) (heps : ss₂.epsilon = ss₁.epsilon)
    (htime : ∀ p : ℕ × ℕ, p.1 < c₁.instances.length → time ss₂ c₂ σ p = time ss₁ c₁ σ p)
    (hmutex : ∀ p q : ℕ × ℕ, p.1 < c₁.instances.length → q.1 < c₁.instances.length →
      mutex ss₂ c₂ p q → mutex ss₁ c₁ p q)
    (hin : ∀ p ∈ c₁.fired ++ pending ss₁ c₁, p.1 < c₁.instances.length) (hv : Valid ss₁ c₁ σ) :
    Valid ss₂ c₂ σ := by
  have hfollows : ∀ {p q : ℕ × ℕ}, p.1 < c₁.instances.length → q.1 < c₁.instances.length →
      Follows (mutex ss₁ c₁) ss₁.epsilon (time ss₁ c₁ σ) p q →
      Follows (mutex ss₂ c₂) ss₂.epsilon (time ss₂ c₂ σ) p q := by
    intro p q hp hq hfol
    rw [Follows, htime p hp, htime q hq, heps]
    exact ⟨hfol.1, fun hm => hfol.2 (hmutex p q hp hq hm)⟩
  refine ⟨fun j i hi => hv.bounds j i (hinst ▸ hi), fun j i hi => hv.origin j i (hinst ▸ hi), ?_,
    fun p hp q hq => ?_⟩
  · rw [hfired]
    apply hv.ordered.imp_of_mem
    intro p q hp hq hfol
    exact hfollows (hin p (List.mem_append_left _ hp)) (hin q (List.mem_append_left _ hq)) hfol
  · rw [hfired] at hp
    have hq' := hpending q hq
    exact hfollows (hin p (List.mem_append_left _ hp)) (hin q (List.mem_append_right _ hq'))
      (hv.pending p hp q hq')

/-! ### Mutexes -/

theorem mem_writes_compact (ha : a ∈ considered) {k : ℕ} {g : Fluent}
    (hg : g ∈ (ss.compact considered R).writes a k) :
    ∃ f ∈ ss.writes a k, f ∈ R ∧ ss.compactFluent R f = g := by
  rw [writes, event_compact ha] at hg
  cases hev : ss.event a k with
  | none =>
    rw [hev] at hg
    cases hg
  | some te =>
    rw [hev] at hg
    simp only [Option.map_some, Event.compact, List.map_map, List.mem_map, List.mem_filter,
      decide_eq_true_eq] at hg
    obtain ⟨eff, ⟨he, hf⟩, rfl⟩ := hg
    refine ⟨eff.fluent, ?_, hf, rfl⟩
    rw [writes, hev]
    exact List.mem_map_of_mem he

theorem mem_reads_compact (h : Compactable ss considered R) (ha : a ∈ considered) {k : ℕ} {g : Fluent}
    (hg : g ∈ (ss.compact considered R).reads a k) :
    ∃ f ∈ ss.reads a k, f ∈ R ∧ ss.compactFluent R f = g := by
  rw [reads, event_compact ha] at hg
  cases hev : ss.event a k with
  | none =>
    rw [hev] at hg
    cases hg
  | some te =>
    obtain ⟨le, hle, hte⟩ := Option.bind_eq_some_iff.mp hev
    have hmem := List.mem_of_getElem? hte
    rw [hev] at hg
    simp only [Option.map_some, Event.compact] at hg
    simp only [reads, hev]
    rcases List.mem_append.mp hg with hg | hg
    · rcases List.mem_append.mp hg with hg | hg
      · rw [getFluents_renameFluents] at hg
        obtain ⟨f, hf, rfl⟩ := List.mem_map.mp hg
        exact ⟨f, List.mem_append_left _ (List.mem_append_left _ hf),
          h.conditions a ha le hle te hmem _ List.mem_cons_self f hf, rfl⟩
      · simp only [List.flatMap_map, List.mem_flatMap, List.mem_filter, decide_eq_true_eq,
          getFluents_renameFluents] at hg
        obtain ⟨eff, ⟨he, heff⟩, hg⟩ := hg
        obtain ⟨f, hf, rfl⟩ := List.mem_map.mp hg
        refine ⟨f, List.mem_append_left _ (List.mem_append_right _ ?_),
          h.effects a ha le hle te hmem eff he heff f hf, rfl⟩
        exact List.mem_flatMap.mpr ⟨eff, he, hf⟩
    · by_cases hk : k = 0
      · rw [if_pos hk, duration_compact ha] at hg
        rw [if_pos hk]
        cases hd : ss.duration a with
        | none =>
          rw [hd] at hg
          cases hg
        | some dur =>
          rw [hd] at hg
          simp only [Option.map_some, Duration.compact, getFluents_renameFluents, List.mem_append,
            List.mem_map] at hg
          rcases hg with ⟨f, hf, rfl⟩ | ⟨f, hf, rfl⟩
          · exact ⟨f, List.mem_append_right _ (List.mem_append_left _ hf),
              h.duration a ha dur hd _ List.mem_cons_self f hf, rfl⟩
          · exact ⟨f, List.mem_append_right _ (List.mem_append_right _ hf),
              h.duration a ha dur hd _ (List.mem_cons_of_mem _ List.mem_cons_self) f hf, rfl⟩
      · rw [if_neg hk] at hg
        cases hg

theorem isDisjoint_eq_false {l l' : List Fluent} : isDisjoint l l' = false ↔ ∃ f ∈ l, f ∈ l' := by
  simp [isDisjoint]

theorem mutex_eq_true {p q : Action × ℕ} : ss.mutex p q = true ↔ p.1 = q.1 ∨
    (∃ f ∈ ss.reads q.1 q.2, f ∈ ss.writes p.1 p.2) ∨
      ∃ f ∈ ss.reads p.1 p.2 ++ ss.writes p.1 p.2, f ∈ ss.writes q.1 q.2 := by
  rw [mutex]
  by_cases hpq : p.1 = q.1
  · simp [hpq]
  · rw [if_neg hpq, Bool.not_eq_true', Bool.and_eq_false_iff, isDisjoint_eq_false, isDisjoint_eq_false]
    exact (or_iff_right hpq).symm

/-- No two events are mutex only after the second pass. -/
theorem mutex_of_compact (h : Compactable ss considered R) {p q : Action × ℕ} (hp : p.1 ∈ considered)
    (hq : q.1 ∈ considered) (hm : (ss.compact considered R).mutex p q = true) : ss.mutex p q = true := by
  have hclash : ∀ {f g : Fluent}, f ∈ R → g ∈ R → ss.compactFluent R f = ss.compactFluent R g → f = g :=
    fun hf hg he => h.injOn hf hg he
  rcases mutex_eq_true.mp hm with he | ⟨g, hread, hwrite⟩ | ⟨g, hmem, hwrite⟩
  · exact mutex_eq_true.mpr (.inl he)
  · obtain ⟨f, hf, hfR, rfl⟩ := mem_reads_compact h hq hread
    obtain ⟨f', hf', hfR', he⟩ := mem_writes_compact hp hwrite
    obtain rfl := hclash hfR' hfR he
    exact mutex_eq_true.mpr (.inr (.inl ⟨f', hf, hf'⟩))
  · obtain ⟨f', hf', hfR', he⟩ := mem_writes_compact hq hwrite
    rcases List.mem_append.mp hmem with hmem | hmem
    · obtain ⟨f, hf, hfR, rfl⟩ := mem_reads_compact h hp hmem
      obtain rfl := hclash hfR' hfR he
      exact mutex_eq_true.mpr (.inr (.inr ⟨f', List.mem_append_left _ hf, hf'⟩))
    · obtain ⟨f, hf, hfR, rfl⟩ := mem_writes_compact hp hmem
      obtain rfl := hclash hfR' hfR he
      exact mutex_eq_true.mpr (.inr (.inr ⟨f', List.mem_append_right _ hf, hf'⟩))

/-- No two events are mutex only through effects that the second pass drops. -/
def SearchSpace.SameMutexes (ss : SearchSpace) (considered : List Action) (R : Finset Fluent) : Prop :=
  ∀ a ∈ considered, ∀ b ∈ considered, ∀ i j, ss.mutex (a, i) (b, j) = true →
    (ss.compact considered R).mutex (a, i) (b, j) = true

/-! ### Schedules -/

section Plans

variable {tn : DeltaSimpleTemporalNetwork} {b : Bool} {as : List Action} {P : Assignments → Prop}

theorem actionOf_considered (hc : c.Kept ss considered R) {j : ℕ} (hj : j < c.instances.length) :
    c.actionOf j ∈ considered := by
  rw [actionOf_eq (List.getElem?_eq_getElem hj)]
  exact hc.instances _ (List.getElem_mem hj)

theorem time_compact (hc : c.Kept ss considered R) {p : ℕ × ℕ} (hp : p.1 < c.instances.length) :
    Schedule.time (ss.compact considered R) (c.compacted ss R) σ p = Schedule.time ss c σ p := by
  rw [Schedule.time, Schedule.time, show (c.compacted ss R).actionOf p.1 = c.actionOf p.1 from rfl,
    event_compact (actionOf_considered hc hp)]
  cases ss.event (c.actionOf p.1) p.2 <;> rfl

section

variable [Callables]

theorem mem_pending_compact (hwf : c.WellFormed ss) (hc : c.Kept ss considered R) {q : ℕ × ℕ} :
    q ∈ Schedule.pending (ss.compact considered R) (c.compacted ss R) ↔ q ∈ Schedule.pending ss c := by
  rw [Schedule.mem_pending, Schedule.mem_pending]
  refine exists_congr fun a => exists_congr fun k => exists_congr fun i => and_congr_right fun hl => ?_
  have hj := hwf.todo (show c.todo.lookup a = some (k, q.1) from hl)
  have ha : a ∈ considered := hj.2.1 ▸ actionOf_considered hc hj.1
  rw [event_compact ha, Option.isSome_map]

theorem schedulable_compact (h : Compactable ss considered R) (hwf : c.WellFormed ss)
    (hc : c.Kept ss considered R) (hs : Schedulable ss c) :
    Schedulable (ss.compact considered R) (c.compacted ss R) := by
  intro ht
  obtain ⟨σ, hv, hdead⟩ := hs (isTemporal_compact ▸ ht)
  refine ⟨σ, ?_, hdead⟩
  have hinst : (c.compacted ss R).instances = c.instances := rfl
  have hfired : (c.compacted ss R).fired = c.fired := rfl
  refine Schedule.valid_of_fewer hinst hfired (fun q hq => (mem_pending_compact hwf hc).mp hq) rfl
    (fun p hp => time_compact hc hp) ?_ ?_ hv
  · intro p q hp hq hm
    exact mutex_of_compact h (actionOf_considered hc hq) (actionOf_considered hc hp) hm
  · intro p hp
    rcases List.mem_append.mp hp with hp | hp
    · exact (hwf.fired p hp).1
    · exact (Schedule.actionOf_pending hwf hp).1

theorem schedulable_of_compact (hsame : ss.isTemporal = true → ss.SameMutexes considered R)
    (hwf : c.WellFormed ss) (hc : c.Kept ss considered R)
    (hs : Schedulable (ss.compact considered R) (c.compacted ss R)) : Schedulable ss c := by
  intro ht
  obtain ⟨σ, hv, hdead⟩ := hs (isTemporal_compact.trans ht)
  refine ⟨σ, ?_, hdead⟩
  have hinst : c.instances = (c.compacted ss R).instances := rfl
  have hfired : c.fired = (c.compacted ss R).fired := rfl
  refine Schedule.valid_of_fewer hinst hfired (fun q hq => (mem_pending_compact hwf hc).mpr hq) rfl
    (fun p hp => (time_compact hc hp).symm) ?_ ?_ hv
  · intro p q hp hq hm
    exact hsame ht _ (actionOf_considered hc hq) _ (actionOf_considered hc hp) _ _ hm
  · intro p hp
    rcases List.mem_append.mp hp with hp | hp
    · exact (hwf.fired p hp).1
    · exact (Schedule.actionOf_pending hwf ((mem_pending_compact hwf hc).mp hp)).1

end

/-! ### Plans -/

theorem kept_empty : Kept ss considered R ⟨ss.initialState, ∅, 0, [], []⟩ :=
  ⟨rfl, fun x hx => absurd hx (Multiset.notMem_zero x), fun _ hi => absurd hi List.not_mem_nil⟩

theorem compacted_empty : Config.compacted ss R ⟨ss.initialState, ∅, 0, [], []⟩ =
    ⟨(ss.compact considered R).initialState, ∅, 0, [], []⟩ := rfl

variable [Callables]

/-- The initial configuration, whose timed action is considered. -/
theorem initial_forward (h : Compactable ss considered R) (hc : Config.initial ss = some c) :
    Config.initial (ss.compact considered R) = some (c.compacted ss R) ∧ c.Kept ss considered R := by
  rcases Config.initial_eq_some.mp hc with ⟨ht, rfl⟩ | ⟨a, le, te, bounds, ht, hle, hte, hcond, hb, hf⟩
  · exact ⟨Config.initial_eq_some.mpr (.inl ⟨ht, compacted_empty⟩), kept_empty⟩
  · have ha := h.timed a ht
    have hmem := List.mem_of_getElem? hte
    have hkept : Kept ss considered R ⟨ss.initialState, ∅, 0, [], []⟩ := kept_empty
    have hcond' := (conditions_compact h hkept ha hle hmem).trans hcond
    have hbounds := durationBounds_compact h hkept ha
    have hfire := @fire_compact _ _ _ _ a le te (0, 0)
      (if 1 < le.length then AList.insert a (1, 0) ∅ else ∅)
      [⟨a, bounds.1, bounds.2, true⟩] _ h hkept ha hle hmem (droppedDefined_of_fire hf)
    rw [hf] at hfire
    refine ⟨Config.initial_eq_some.mpr (.inr ⟨a, _, _, bounds, ht, by rw [events_compact ha, hle]; rfl,
      by rw [compactEvents, List.getElem?_map, hte]; rfl, hcond', hbounds.trans hb, ?_⟩), ?_⟩
    · rw [compactEvents, List.length_map]
      exact hfire
    · apply kept_fire h hkept ha hle hmem _ hf
      intro i hi
      obtain rfl := List.mem_singleton.mp hi
      exact ha

theorem goalReached_compact (h : Compactable ss considered R) (hc : c.Kept ss considered R) :
    (c.compacted ss R).goalReached (ss.compact considered R) = c.goalReached ss := by
  have hgoal : holds (ss.compact considered R).goal (c.compacted ss R).assignments =
      holds ss.goal c.assignments := by
    apply holds_renameFluents
    intro f hf
    exact getValue_compactAssignments h hc.length (h.goal f hf)
  rw [Config.goalReached, Config.goalReached, hgoal]
  rfl

theorem accepted_compact (hx : tn.Exact) (h : Compactable ss considered R) (has : ∀ a ∈ as, a ∈ considered)
    (hacc : Accepted ss tn b as) : Accepted (ss.compact considered R) tn b as := by
  obtain ⟨c₀, c, hc₀, hc, hg, hs⟩ := (accepted_iff_runWith hx).mp hacc
  obtain ⟨hstart, hkept⟩ := initial_forward h hc₀
  obtain ⟨hrun, hlast⟩ := runWith_forward h has hkept hc
  have hwf := (wellFormed_initial hc₀).runWith hc
  exact (accepted_iff_runWith hx).mpr ⟨_, _, hstart, hrun, (goalReached_compact h hlast).trans hg,
    schedulable_compact h hwf hlast hs⟩

theorem initial_backward (h : Compactable ss considered R) (hP : DropsSafely ss considered R P) {d' : Config}
    (hd : Config.initial (ss.compact considered R) = some d') :
    ∃ c, Config.initial ss = some c ∧ d' = c.compacted ss R ∧ P c.assignments := by
  rcases Config.initial_eq_some.mp hd with ⟨ht, rfl⟩ | ⟨a, le', te', bounds, ht, hle', hte', hcond, hb, hf⟩
  · exact ⟨_, Config.initial_eq_some.mpr (.inl ⟨ht, rfl⟩), compacted_empty.symm, hP.start⟩
  · have ha := h.timed a ht
    rw [events_compact ha] at hle'
    obtain ⟨le, hle, rfl⟩ := Option.map_eq_some_iff.mp hle'
    rw [compactEvents, List.getElem?_map] at hte'
    obtain ⟨te, hte, rfl⟩ := Option.map_eq_some_iff.mp hte'
    have hmem := List.mem_of_getElem? hte
    have hkept : Kept ss considered R ⟨ss.initialState, ∅, 0, [], []⟩ := kept_empty
    have hfire := @fire_compact _ _ _ _ a le te (0, 0)
      (if 1 < le.length then AList.insert a (1, 0) ∅ else ∅)
      [⟨a, bounds.1, bounds.2, true⟩] _ h hkept ha hle hmem (hP.defined a ha le hle te hmem _ hP.start)
    rw [compactEvents, List.length_map] at hf
    obtain ⟨c, hc, rfl⟩ := Option.map_eq_some_iff.mp (hfire.symm.trans hf)
    have hcond' := (conditions_compact h hkept ha hle hmem).symm.trans hcond
    have hbounds := (durationBounds_compact h hkept ha).symm.trans hb
    exact ⟨c, Config.initial_eq_some.mpr (.inr ⟨a, le, te, bounds, ht, hle, hte, hcond', hbounds, hc⟩), rfl,
      hP.fire ha hle hmem hP.start hc⟩

theorem accepted_of_compact (hx : tn.Exact) (h : Compactable ss considered R)
    (hP : DropsSafely ss considered R P) (hsame : ss.isTemporal = true → ss.SameMutexes considered R)
    (has : ∀ a ∈ as, a ∈ considered) (hacc : Accepted (ss.compact considered R) tn b as) :
    Accepted ss tn b as := by
  obtain ⟨d₀, d, hd₀, hd, hg, hs⟩ := (accepted_iff_runWith hx).mp hacc
  obtain ⟨c₀, hc₀, rfl, hv⟩ := initial_backward h hP hd₀
  have hkept := (initial_forward h hc₀).2
  obtain ⟨c, hc, rfl⟩ := runWith_backward h hP has hkept hv hd
  have hlast := (runWith_forward h has hkept hc).2
  have hwf := (wellFormed_initial hc₀).runWith hc
  exact (accepted_iff_runWith hx).mpr ⟨c₀, c, hc₀, hc, (goalReached_compact h hlast).symm.trans hg,
    schedulable_of_compact hsame hwf hlast hs⟩

/-- The first pass ends with the fluents that matter; the second loses no plan, and adds none
where dropping effects neither hides an exception nor a mutex. -/
theorem SearchSpace.compaction_preserves (hx : tn.Exact) (hslots : ss.Slotted considered)
    (hgoals : ss.TimedGoalsRead) (htimed : ∀ a, ss.timedAction = some a → a ∈ considered) :
    ∃ R, (∀ f, f ∈ R ↔ ss.Matters considered f) ∧
      (∀ fluents, ∃ k, ∀ fuel ≥ k, ss.computeRelevantFluents fluents considered fuel = some R) ∧
      (∀ b as, AcceptedWithin ss tn b considered as →
        AcceptedWithin (ss.compact considered R) tn b considered as) ∧
      ((∃ P, DropsSafely ss considered R P) → (ss.isTemporal = true → ss.SameMutexes considered R) →
        ∀ b as, AcceptedWithin (ss.compact considered R) tn b considered as →
          AcceptedWithin ss tn b considered as) := by
  obtain ⟨R, hR, hends⟩ := exists_relevantFluents ss considered
  have h := compactable_of_matters hslots hgoals htimed hR
  refine ⟨R, hR, hends, fun b as hacc => ⟨accepted_compact hx h hacc.2 hacc.1, hacc.2⟩, ?_⟩
  intro hsafe hsame b as hacc
  obtain ⟨P, hP⟩ := hsafe
  exact ⟨accepted_of_compact hx h hP hsame hacc.2 hacc.1, hacc.2⟩

end Plans

section Charge

attribute [local instance] Callables.empty

/-- Charging takes a unit of time; it counts its uses at the start, which nothing reads. -/
def chargeEvents : List (Timing × Event) :=
  [(⟨true, 0⟩, ⟨⟨0⟩, 0, [.constant (.bool true)], [], [],
    [⟨⟨0⟩, [.fluent ⟨0⟩, .constant (.num 1), .operator .plus [0, 1]]⟩]⟩),
    (⟨false, 0⟩, ⟨⟨0⟩, 1, [.constant (.bool true)], [], [], [⟨⟨1⟩, [.constant (.bool true)]⟩]⟩)]

def chargeSpace : SearchSpace :=
  .ofTable [(some ⟨[.constant (.num 1)], [.constant (.num 1)], false, false⟩, chargeEvents)]
    [.num 0, .bool false] [.fluent ⟨1⟩]

theorem charge_events {a : Action} {le : List (Timing × Event)} (h : chargeSpace.events a = some le) :
    a = ⟨0⟩ ∧ le = chargeEvents := by
  obtain ⟨row, hrow, hle⟩ := Option.bind_eq_some_iff.mp h
  obtain ⟨i⟩ := a
  cases i with
  | zero =>
    obtain rfl := Option.some.inj hrow
    exact ⟨rfl, (Option.some.inj hle).symm⟩
  | succ i => cases hrow

theorem charge_slotted : chargeSpace.Slotted [⟨0⟩] := by
  refine ⟨by decide +kernel, fun f g hg => ?_⟩
  obtain ⟨a, -, le, hle, te, hte, eff, he, -, hg⟩ := mem_writtenFrom.mp hg
  obtain ⟨-, rfl⟩ := charge_events hle
  have hlt : ∀ te ∈ chargeEvents, ∀ eff ∈ te.2.effects, ∀ g ∈ getFluents eff.value, g.idx < 2 := by
    decide +kernel
  exact hlt te hte eff he g hg

theorem charge_dropsSafely (R : Finset Fluent) :
    DropsSafely chargeSpace [⟨0⟩] R fun A => ∃ q v, A = [.num q, v] := by
  have hcases : ∀ te ∈ chargeEvents, te.2.effects =
      [⟨⟨0⟩, [.fluent ⟨0⟩, .constant (.num 1), .operator .plus [0, 1]]⟩] ∨
      te.2.effects = [⟨⟨1⟩, [.constant (.bool true)]⟩] := by
    decide +kernel
  refine ⟨⟨0, .bool false, rfl⟩, fun a _ le hle te hte A B hA happ => ?_,
    fun a _ le hle te hte A hA eff he _ => ?_⟩
  · obtain ⟨-, rfl⟩ := charge_events hle
    obtain ⟨q, v, rfl⟩ := hA
    rcases hcases te hte with heff | heff
    · rw [heff] at happ
      exact ⟨q + 1, v, (Option.some.inj happ).symm⟩
    · rw [heff] at happ
      exact ⟨q, .bool true, (Option.some.inj happ).symm⟩
  · obtain ⟨-, rfl⟩ := charge_events hle
    obtain ⟨q, v, rfl⟩ := hA
    rcases hcases te hte with heff | heff
    · rw [heff] at he
      obtain rfl := List.mem_singleton.mp he
      exact ⟨.num (q + 1), rfl⟩
    · rw [heff] at he
      obtain rfl := List.mem_singleton.mp he
      exact ⟨.bool true, rfl⟩

theorem compaction_preserves_charge : ∃ R, (∀ f, f ∈ R ↔ chargeSpace.Matters [⟨0⟩] f) ∧
    (∀ fluents, ∃ k, ∀ fuel ≥ k, chargeSpace.computeRelevantFluents fluents [⟨0⟩] fuel = some R) ∧
    ∀ b as, AcceptedWithin chargeSpace .earliest b [⟨0⟩] as ↔
      AcceptedWithin (chargeSpace.compact [⟨0⟩] R) .earliest b [⟨0⟩] as := by
  obtain ⟨R, hR, hends, hforward, hbackward⟩ := SearchSpace.compaction_preserves
    DeltaSimpleTemporalNetwork.earliest_exact charge_slotted nofun nofun
  refine ⟨R, hR, hends, fun b as => ⟨hforward b as, hbackward ⟨_, charge_dropsSafely R⟩ (fun _ => ?_) b as⟩⟩
  intro a ha a' ha' i j _
  obtain rfl := List.mem_singleton.mp ha
  obtain rfl := List.mem_singleton.mp ha'
  exact mutex_eq_true.mpr (.inl rfl)

end Charge

end TamerLite
