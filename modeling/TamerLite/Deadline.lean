import TamerLite.Acceptance

/-! A makespan deadline. The plan's end follows every action by `epsilon`, so
the search space leaves out the schedules ending closer than that to it. -/

namespace TamerLite

open SearchSpace

section Deadline

variable {ss : SearchSpace} {tn : DeltaSimpleTemporalNetwork}

theorem meetsDeadline_iff {c : Config} {σ : Schedule} {d : ℚ} (hd : ss.deadline = some d) :
    Schedule.MeetsDeadline ss c σ ↔ ∀ j < c.instances.length, (σ j).2 ≤ d - ss.epsilon := by
  have hiff : ∀ j, (σ j).2 + ss.epsilon ≤ d ↔ (σ j).2 ≤ d - ss.epsilon := fun j => by
    rw [le_sub_iff_add_le]
  constructor
  · intro h j hj
    exact (hiff j).mp (h d hd j hj)
  · intro h d' hd' j hj
    obtain rfl := Option.some.inj (hd.symm.trans hd')
    exact (hiff j).mpr (h j hj)

variable [Callables]

/-- The sequence runs to the goal and has a schedule with every action stopped
by `bound`. -/
def SchedulableBy (ss : SearchSpace) (as : List Action) (bound : ℚ) : Prop :=
  ∃ c₀ c, Config.initial ss = some c₀ ∧ c₀.run ss as = some c ∧ c.goalReached ss = true ∧
    ∃ σ, Schedule.Valid ss c σ ∧ ∀ j < c.instances.length, (σ j).2 ≤ bound

theorem accepted_iff_schedulableBy (hx : tn.Exact) (ht : ss.isTemporal = true) {d : ℚ}
    (hd : ss.deadline = some d) {as : List Action} :
    Accepted ss tn false as ↔ SchedulableBy ss as (d - ss.epsilon) := by
  rw [accepted_iff hx]
  refine exists_congr fun c₀ => exists_congr fun c => ?_
  refine and_congr_right fun _ => and_congr_right fun _ => and_congr_right fun _ => ?_
  constructor
  · intro h
    obtain ⟨σ, hv, hm⟩ := h ht
    exact ⟨σ, hv, (meetsDeadline_iff hd).mp hm⟩
  · intro h _
    obtain ⟨σ, hv, hm⟩ := h
    exact ⟨σ, hv, (meetsDeadline_iff hd).mpr hm⟩

/-- The deadline is met with `epsilon` to spare, over all sequences of events:
when none is accepted, none can end `epsilon` before it. -/
theorem deadline_exact (hx : tn.Exact) (ht : ss.isTemporal = true) {d : ℚ}
    (hd : ss.deadline = some d) :
    (∀ as, Accepted ss tn false as ↔ SchedulableBy ss as (d - ss.epsilon)) ∧
      ((∀ as, ¬ Accepted ss tn false as) →
        ∀ as, ¬ SchedulableBy ss as (d - ss.epsilon)) := by
  have hiff : ∀ as, Accepted ss tn false as ↔ SchedulableBy ss as (d - ss.epsilon) :=
    fun as => accepted_iff_schedulableBy hx ht hd
  exact ⟨hiff, fun h as hs => h as ((hiff as).mpr hs)⟩

end Deadline

section OneAction

attribute [local instance] Callables.empty

/-- One action that lasts `199 / 200`. -/
def oneAction (deadline : ℚ) : SearchSpace :=
  .ofTable [(some ⟨[.constant (.num (199 / 200))], [.constant (.num (199 / 200))], false, false⟩,
    [(⟨true, 0⟩, ⟨⟨0⟩, 0, [.constant (.bool true)], [], [], []⟩),
      (⟨false, 0⟩, ⟨⟨0⟩, 0, [.constant (.bool true)], [], [], []⟩)])]
    [] [.constant (.bool true)] (some deadline)

def oneActionRun : Config := ⟨[], ∅, 0, [⟨⟨0⟩, 199 / 200, 199 / 200, false⟩], [(0, 0), (0, 1)]⟩

theorem oneAction_run (d : ℚ) : ∃ c₀, Config.initial (oneAction d) = some c₀ ∧
    c₀.run (oneAction d) [⟨0⟩, ⟨0⟩] = some oneActionRun :=
  ⟨⟨[], ∅, 0, [], []⟩, rfl, rfl⟩

theorem oneAction_schedulableBy {d bound : ℚ} (hd : d = 1 ∨ d = 2) (hb : 199 / 200 ≤ bound) :
    SchedulableBy (oneAction d) [⟨0⟩, ⟨0⟩] bound := by
  obtain ⟨c₀, h₀, hr⟩ := oneAction_run d
  refine ⟨c₀, _, h₀, hr, rfl, fun _ => (0, 199 / 200), ?_, fun j hj => hb⟩
  refine ⟨fun j i hj => ?_, fun j i hj => ?_, ?_, ?_⟩
  · obtain ⟨rfl, rfl⟩ : j = 0 ∧ ⟨⟨0⟩, 199 / 200, 199 / 200, false⟩ = i := by
      simpa [oneActionRun, List.getElem?_singleton] using hj
    norm_num
  · obtain ⟨rfl, rfl⟩ : j = 0 ∧ ⟨⟨0⟩, 199 / 200, 199 / 200, false⟩ = i := by
      simpa [oneActionRun, List.getElem?_singleton] using hj
    norm_num
  · rcases hd with rfl | rfl <;> decide +kernel
  · exact fun p _ q hq => absurd hq (List.not_mem_nil)

theorem deadline_exact_oneAction :
    Accepted (oneAction 2) .earliest false [⟨0⟩, ⟨0⟩] :=
  ((deadline_exact DeltaSimpleTemporalNetwork.earliest_exact (by decide) rfl).1 _).mpr
    (oneAction_schedulableBy (.inr rfl) (by norm_num [oneAction, SearchSpace.ofTable]))

/-- Ending `1 / 200` before the deadline is not enough. -/
theorem deadline_not_strict :
    ¬ (Accepted (oneAction 1) .earliest false [⟨0⟩, ⟨0⟩] ↔
      ∃ bound < 1, SchedulableBy (oneAction 1) [⟨0⟩, ⟨0⟩] bound) := by
  intro h
  have ha := h.mpr ⟨199 / 200, by norm_num, oneAction_schedulableBy (.inl rfl) le_rfl⟩
  rw [accepted_iff_schedulableBy DeltaSimpleTemporalNetwork.earliest_exact (by decide) rfl] at ha
  obtain ⟨c₀, c, h₀, hr, -, σ, hv, hs⟩ := ha
  obtain ⟨c₀', h₀', hr'⟩ := oneAction_run 1
  obtain rfl := Option.some.inj (h₀.symm.trans h₀')
  obtain rfl := Option.some.inj (hr.symm.trans hr')
  have hbounds := (hv.bounds 0 _ rfl).1
  have horigin := hv.origin 0 _ rfl
  have hstop := hs 0 (by decide)
  norm_num [oneActionRun, oneAction, SearchSpace.ofTable] at hbounds horigin hstop
  linarith

end OneAction

end TamerLite
