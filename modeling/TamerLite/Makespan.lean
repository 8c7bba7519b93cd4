import TamerLite.Continuation

/-! The makespan of a state is the time its last event happens in the earliest
schedule of its path. -/

namespace TamerLite

open Difference SearchSpace Schedule

variable {ss : SearchSpace} {tn : DeltaSimpleTemporalNetwork} {s : State} {n : ℕ}
  {c : Config} {ids : List ℕ}

theorem exists_stop {σ : Schedule} (hm : MeetsDeadline ss c σ)
    (hd : ∀ d, ss.deadline = some d → 0 ≤ d) : ∃ stop, 0 ≤ stop ∧
    (∀ j < c.instances.length, (σ j).2 + ss.epsilon ≤ stop) ∧
      ∀ d, ss.deadline = some d → stop = d := by
  cases hdl : ss.deadline with
  | some d => exact ⟨d, hd d hdl, hm d hdl, fun d' hd' => Option.some.inj hd'⟩
  | none =>
    obtain ⟨stop, hstop⟩ := Finset.exists_le ((Finset.range c.instances.length).image
      fun j => (σ j).2 + ss.epsilon)
    refine ⟨max 0 stop, le_max_left _ _, fun j hj => le_max_of_le_right (hstop _ ?_),
      fun d' hd' => by contradiction⟩
    exact Finset.mem_image_of_mem _ (Finset.mem_range.mpr hj)

/-- An instance that ends before the deadline leaves it no room below 0. -/
theorem deadline_nonneg {σ : Schedule} (hlower : ∀ i ∈ c.instances, 0 ≤ i.lower)
    (hv : Valid ss c σ) (hm : MeetsDeadline ss c σ) {j : ℕ} (hj : j < c.instances.length) :
    ∀ d, ss.deadline = some d → 0 ≤ d := by
  intro d hd
  have hend := hm d hd j hj
  have hs := start_nonneg hv hj
  have hb := (hv.bounds j _ (List.getElem?_eq_getElem hj)).1
  have hl := hlower _ (List.getElem_mem hj)
  have hε := ss.epsilon_nonneg
  linarith

variable [Callables]

/-- Raising every node to 0 keeps a placement whose own nodes are there already. -/
theorem Placed.max_zero {τ : Timepoint → ℚ} (hwf : c.WellFormed ss) (h : Placed ss c ids τ)
    (h0 : τ .startPlan = 0) (hend : 0 ≤ τ .endPlan)
    (hanchor : ∀ j < c.instances.length, ∀ start, 0 ≤ τ (anchor c ids start j))
    (hpoint : ∀ j < c.instances.length, ∀ k, (ss.event (c.actionOf j) k).isSome →
      0 ≤ τ (point c ids (j, k))) : Placed ss c ids fun v => max 0 (τ v) := by
  have hsame : ∀ j < c.instances.length,
      scheduleOf c ids (fun v => max 0 (τ v)) j = scheduleOf c ids τ j := by
    intro j hj
    simp only [scheduleOf, h0, max_eq_right (hanchor j hj _), max_self]
  refine ⟨fun d hd => ?_, fun j hj k te hte => ?_, fun j hj => ?_,
    (valid_congr hwf hsame).mpr h.valid⟩
  · rw [max_eq_right hend, h0, max_self, h.deadline d hd, h0]
  · rw [max_eq_right (hanchor j hj _), max_eq_right (hpoint j hj k (by simp [hte])),
      h.rigid j hj hte]
  · rw [max_eq_right (hanchor j hj _), max_eq_right hend]
    exact h.stop j hj

/-- A schedule without negative durations as a placement of every node at 0 or
later. -/
theorem exists_placed_nonneg {σ : Schedule} (hwf : c.WellFormed ss) (hp : Config.Progress ss c)
    (hn : ids.Nodup) (hlen : ids.length = c.instances.length)
    (hlower : ∀ i ∈ c.instances, 0 ≤ i.lower) (hv : Valid ss c σ) (hm : MeetsDeadline ss c σ)
    (hdl : ∀ d, ss.deadline = some d → 0 ≤ d) : ∃ τ, Placed ss c ids τ ∧ (∀ v, 0 ≤ τ v) ∧
      τ .startPlan = 0 ∧ ∀ q : ℕ × ℕ, q.1 < c.instances.length → (ss.event (c.actionOf q.1) q.2).isSome →
        τ (point c ids q) = time ss c σ q := by
  obtain ⟨stop, hend, hstop, hd⟩ := exists_stop hm hdl
  have hid : ∀ {j}, j < c.instances.length → ids.idxOf (ids.getD j 0) = j :=
    fun hj => idxOf_getD hn (hlen ▸ hj)
  have hnonneg : ∀ {j}, j < c.instances.length → 0 ≤ (σ j).1 ∧ 0 ≤ (σ j).2 := by
    intro j hj
    have hb := (hv.bounds j _ (List.getElem?_eq_getElem hj)).1
    have hl := hlower _ (List.getElem_mem hj)
    have hs := start_nonneg hv hj
    exact ⟨hs, by linarith⟩
  have htime : ∀ {q : ℕ × ℕ}, q.1 < c.instances.length →
      placement ss c ids σ stop (point c ids q) = time ss c σ q := by
    intro q hq
    have he : ids.getD q.1 0 + 1 + q.2 - 1 - q.2 = ids.getD q.1 0 := by omega
    simp only [point, placement, he, hid hq]
  have hanchor : ∀ j < c.instances.length, ∀ start,
      0 ≤ placement ss c ids σ stop (anchor c ids start j) := by
    intro j hj start
    simp only [anchor, placement, hid hj]
    cases start
    · exact (hnonneg hj).2
    · exact (hnonneg hj).1
  have hpoint : ∀ j < c.instances.length, ∀ k, (ss.event (c.actionOf j) k).isSome →
      0 ≤ placement ss c ids σ stop (point c ids (j, k)) := by
    intro j hj k hs
    rw [htime hj]
    exact time_nonneg hwf hp hv hj hs
  have hplaced := placed_placement stop hwf hn hlen hv hstop hd
  refine ⟨_, hplaced.max_zero hwf rfl hend hanchor hpoint, fun v => le_max_left _ _,
    max_self _, ?_⟩
  intro q hq hs
  rw [htime hq, max_eq_right (time_nonneg hwf hp hv hq hs)]

/-- A schedule without negative durations is no earlier than the earliest one. -/
theorem Refines.makespan_le (hx : tn.Exact) (h : Refines ss s n c ids) (hwf : c.WellFormed ss)
    (hp : Config.Progress ss c) (ht : ss.isTemporal = true)
    (hlower : ∀ i ∈ c.instances, 0 ≤ i.lower) {σ : Schedule} (hv : Valid ss c σ)
    (hm : MeetsDeadline ss c σ) {p : ℕ × ℕ} (hlast : c.fired.getLast? = some p) :
    makespan tn s ≤ time ss c σ p := by
  obtain ⟨hpath, hn, -, log, hlog, hsol⟩ := h.timed ht
  have hpm : p ∈ c.fired := List.mem_of_getLast? hlast
  have hpf := hwf.fired p hpm
  obtain ⟨τ, hτ, h0, -, htime⟩ := exists_placed_nonneg hwf hp hn h.length hlower hv hm
    (deadline_nonneg hlower hv hm hpf.1)
  have hleast := hx.least log _ ((hsol _).mpr hτ) h0 (point c ids p)
  rw [htime p hpf.1 hpf.2] at hleast
  have hms : makespan tn s = -tn.distances log (point c ids p) := by
    simp only [makespan, hpath, List.getLast?_map, hlast, Option.map_some, hlog]
    rfl
  rw [hms]
  exact hleast

theorem Placed.point_le_last {τ : Timepoint → ℚ} (hwf : c.WellFormed ss) (h : Placed ss c ids τ)
    {p q : ℕ × ℕ} (hlast : c.fired.getLast? = some p) (hq : q ∈ c.fired) :
    τ (point c ids q) ≤ τ (point c ids p) := by
  obtain ⟨init, hinit⟩ := List.getLast?_eq_some_iff.mp hlast
  have hchain := h.chain hwf
  rw [hinit, List.pairwise_map, List.pairwise_append] at hchain
  rw [hinit] at hq
  rcases List.mem_append.mp hq with hq | hq
  · exact hchain.2.2 q hq p (List.mem_singleton.mpr rfl)
  · rw [List.mem_singleton.mp hq]

/-- The earliest schedule has every past event by the makespan. -/
theorem Refines.exists_valid_makespan (hx : tn.Exact) (h : Refines ss s n c ids)
    (hwf : c.WellFormed ss) (ht : ss.isTemporal = true) (hsch : Schedulable ss c) :
    0 ≤ makespan tn s ∧ ∃ σ, Valid ss c σ ∧ MeetsDeadline ss c σ ∧
      ∀ p ∈ c.fired, time ss c σ p ≤ makespan tn s := by
  obtain ⟨hpath, hn, -, log, hlog, hsol⟩ := h.timed ht
  obtain ⟨τ', hτ'⟩ := (exists_placed_iff hwf hn h.length).mpr (hsch ht)
  have hcons : Consistent log := ⟨τ', (hsol τ').mpr hτ'⟩
  have hplaced := (hsol _).mp (hx.solves log hcons)
  have hms : ∀ {p}, c.fired.getLast? = some p →
      makespan tn s = -tn.distances log (point c ids p) := by
    intro p hlast
    simp only [makespan, hpath, List.getLast?_map, hlast, Option.map_some, hlog]
    rfl
  have hmeets : MeetsDeadline ss c (scheduleOf c ids fun v => -tn.distances log v) := by
    intro d hd j hj
    have hs := hplaced.stop j hj
    have := hplaced.deadline d hd
    simp only [scheduleOf]
    linarith
  cases hlast : c.fired.getLast? with
  | none =>
    have hempty : c.fired = [] := List.getLast?_eq_none_iff.mp hlast
    have hzero : makespan tn s = 0 := by simp [makespan, hpath, hempty]
    refine ⟨hzero.ge, _, hplaced.valid, hmeets, fun p hp => ?_⟩
    rw [hempty] at hp
    exact absurd hp List.not_mem_nil
  | some p =>
    rw [hms hlast]
    refine ⟨hx.nonneg log _ hcons, _, hplaced.valid, hmeets, fun q hq => ?_⟩
    have hf := hwf.fired q hq
    have hstart := hx.nonneg log .startPlan hcons
    have hle := hplaced.point_le_last hwf hlast hq
    rw [hplaced.time hf.1 hf.2]
    exact (sub_le_self _ hstart).trans hle

end TamerLite
