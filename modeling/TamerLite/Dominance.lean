import TamerLite.Makespan

/-! Two paths to the same assignments with the same actions running: what
continues one continues the other, in time when the other is far enough ahead
or nothing bounds the plan. -/

namespace TamerLite

open Difference SearchSpace Schedule

variable {ss : SearchSpace} {tn : DeltaSimpleTemporalNetwork}

theorem entries_perm {t₁ t₂ : AList (fun _ : Action => ℕ × ℕ)}
    (h : ∀ a, (t₁.lookup a).map Prod.fst = (t₂.lookup a).map Prod.fst) :
    (t₁.entries.map fun p => (p.1, p.2.1)).Perm (t₂.entries.map fun p => (p.1, p.2.1)) := by
  have hmem : ∀ (t : AList (fun _ : Action => ℕ × ℕ)) (x : Action × ℕ),
      x ∈ t.entries.map (fun p => (p.1, p.2.1)) ↔ (t.lookup x.1).map Prod.fst = some x.2 := by
    intro t x
    rw [List.mem_map, Option.map_eq_some_iff]
    constructor
    · intro hx
      obtain ⟨p, hp, rfl⟩ := hx
      exact ⟨p.2, AList.mem_lookup_iff.mpr hp, rfl⟩
    · intro hx
      obtain ⟨q, hq, hqx⟩ := hx
      exact ⟨⟨x.1, q⟩, AList.mem_lookup_iff.mp hq, Prod.ext rfl hqx⟩
  have hnodup : ∀ t : AList (fun _ : Action => ℕ × ℕ),
      (t.entries.map fun p => (p.1, p.2.1)).Nodup := by
    intro t
    apply List.Nodup.of_map Prod.fst
    rw [List.map_map]
    exact t.nodupKeys
  refine (List.perm_ext_iff_of_nodup (hnodup t₁) (hnodup t₂)).mpr fun x => ?_
  rw [hmem, hmem, h]

/-- A sum over the running actions depends on their next events only. -/
theorem sum_entries_congr {t₁ t₂ : AList (fun _ : Action => ℕ × ℕ)}
    (f : Action → ℕ → Multiset Expression)
    (h : ∀ a, (t₁.lookup a).map Prod.fst = (t₂.lookup a).map Prod.fst) :
    (t₁.entries.map fun p => f p.1 p.2.1).sum = (t₂.entries.map fun p => f p.1 p.2.1).sum := by
  have hp := ((entries_perm h).map fun x => f x.1 x.2).sum_eq
  simpa only [List.map_map, Function.comp_def] using hp

/-- What remains depends on which actions run and on their next events. -/
theorem remaining_congr {g : Event → List Expression} {t₁ t₂ : AList (fun _ : Action => ℕ × ℕ)}
    (h : ∀ a, (t₁.lookup a).map Prod.fst = (t₂.lookup a).map Prod.fst) :
    remaining ss g t₁ = remaining ss g t₂ := sum_entries_congr (conditionsFrom ss g) h

section

variable [Callables]

/-- Both are at the same assignments, with nothing running but the timed
action, at the same next event. -/
structure SameFuture (ss : SearchSpace) (c₁ c₂ : Config) : Prop where
  assignments : c₁.assignments = c₂.assignments
  todo : ∀ a, (c₁.todo.lookup a).map Prod.fst = (c₂.todo.lookup a).map Prod.fst
  timed : ∀ {a : Action} {p : ℕ × ℕ}, c₂.todo.lookup a = some p → ss.timedAction = some a

namespace SameFuture

variable {c₁ c₂ d₁ d₂ : Config} {b : Bool}

/-- The active conditions are then the same too. -/
theorem active (h : SameFuture ss c₁ c₂) (h₁ : Config.Reachable ss b c₁)
    (h₂ : Config.Reachable ss b c₂) : c₁.active = c₂.active := by
  have e₁ := h₁.balanced
  have e₂ := h₂.balanced
  rw [Balanced, remaining_congr h.todo, remaining_congr h.todo] at e₁
  exact add_right_cancel (add_right_cancel (e₁.trans e₂.symm))

theorem timed_zero {c : Config} {a : Action} {k j : ℕ} (hr : Config.Reachable ss b c)
    (hl : c.todo.lookup a = some (k, j)) (ht : ss.timedAction = some a) :
    j = 0 ∧ c.actionOf 0 = a ∧ 0 < c.instances.length := by
  obtain ⟨hj, ha, -⟩ := hr.wellFormed.todo hl
  have hi := List.getElem?_eq_getElem hj
  have hia : (c.instances[j]).action = a := by rw [← ha, Config.actionOf_eq hi]
  obtain rfl := hr.timed_first ht hi hia
  exact ⟨rfl, ha, hj⟩

theorem mirrors (h : SameFuture ss c₁ c₂) (h₁ : Config.Reachable ss b c₁)
    (h₂ : Config.Reachable ss b c₂) : Mirrors ss c₁ c₂ c₁ c₂ [] [] := by
  refine ⟨h.assignments, h.active h₁ h₂, fun a => ?_, by simp, by simp, by simp, by simp,
    fun hl _ => ?_, by simp⟩
  · have ha := h.todo a
    cases hl₂ : c₂.todo.lookup a with
    | none =>
      rw [hl₂, Option.map_none] at ha
      exact Option.map_eq_none_iff.mp ha
    | some p =>
      obtain ⟨k, j⟩ := p
      rw [hl₂, Option.map_some] at ha
      obtain ⟨⟨k', j'⟩, hl₁, hk⟩ := Option.map_eq_some_iff.mp ha
      obtain rfl : k' = k := hk
      obtain ⟨rfl, -, -⟩ := timed_zero h₁ hl₁ (h.timed hl₂)
      obtain ⟨rfl, -, hlen⟩ := timed_zero h₂ hl₂ (h.timed hl₂)
      rw [hl₁, Option.map_some, carry, if_pos hlen]
  · obtain ⟨rfl, ha, -⟩ := timed_zero h₂ hl (h.timed hl)
    exact ⟨rfl, ha.symm ▸ h.timed hl⟩

end SameFuture

end

namespace Mirrors

variable {c₁ c₂ d₁ d₂ : Config} {is : List Instance} {ps : List (ℕ × ℕ)} {σ₁ σ₂ : Schedule}

theorem time_old (h : Mirrors ss c₁ c₂ d₁ d₂ is ps) {p : ℕ × ℕ} (hp : p.1 < c₂.instances.length) :
    time ss d₂ σ₂ p = time ss c₂ σ₂ p :=
  time_congr (by rw [Config.actionOf, Config.actionOf, h.instances₂, List.getElem?_append_left hp])

theorem meetsDeadline_old (h : Mirrors ss c₁ c₂ d₁ d₂ is ps) (hm : MeetsDeadline ss d₂ σ₂) :
    MeetsDeadline ss c₂ σ₂ := by
  intro d hd j hj
  have hlen : j < d₂.instances.length := by
    rw [h.instances₂, List.length_append]
    omega
  exact hm d hd j hlen

variable [Callables]

theorem goalReached_eq (h : Mirrors ss c₁ c₂ d₁ d₂ is ps) :
    d₁.goalReached ss = d₂.goalReached ss := by
  have hd : d₁.todo.entries.isEmpty = d₂.todo.entries.isEmpty := by
    rw [Bool.eq_iff_iff, isEmpty_entries_iff, isEmpty_entries_iff]
    exact forall_congr' fun a => by rw [h.todo, Option.map_eq_none_iff]
  rw [Config.goalReached, Config.goalReached, hd, h.assignments]

/-- A continuation comes no earlier than the makespan of what it continues. -/
theorem makespan_le {s : State} {n : ℕ} {ids : List ℕ} (h : Mirrors ss c₁ c₂ d₁ d₂ is ps)
    (hx : tn.Exact) (href : Refines ss s n c₂ ids) (hwf : c₂.WellFormed ss)
    (hp : Config.Progress ss c₂) (hwf' : d₂.WellFormed ss) (hp' : Config.Progress ss d₂)
    (ht : ss.isTemporal = true) (hlower : ∀ i ∈ c₂.instances, 0 ≤ i.lower)
    (hv₂ : Valid ss c₂ σ₂) (hv : Valid ss d₂ σ₂) (hm : MeetsDeadline ss d₂ σ₂) {q : ℕ × ℕ}
    (hq : q ∈ ps ∨ q ∈ pending ss d₂) : makespan tn s ≤ time ss d₂ σ₂ q := by
  cases hlast : c₂.fired.getLast? with
  | none =>
    have hempty : s.path = [] := by
      rw [(href.timed ht).path, List.getLast?_eq_none_iff.mp hlast, List.map_nil]
    have hzero : makespan tn s = 0 := by simp [makespan, hempty]
    rw [hzero]
    rcases hq with hq | hq
    · have hf := hwf'.fired q (by simp [h.fired₂, hq])
      exact time_nonneg hwf' hp' hv hf.1 hf.2
    · have hf := actionOf_pending hwf' hq
      exact time_nonneg hwf' hp' hv hf.1 hf.2
  | some p =>
    have hpm := List.mem_of_getLast? hlast
    have hle := href.makespan_le hx hwf hp ht hlower hv₂ (h.meetsDeadline_old hm) hlast
    rw [← h.time_old (hwf.fired p hpm).1] at hle
    refine hle.trans ?_
    rcases hq with hq | hq
    · have hord := hv.ordered
      rw [h.fired₂, List.pairwise_append] at hord
      exact (hord.2.2 p hpm q hq).1
    · exact (hv.pending p (by simp [h.fired₂, hpm]) q hq).1

/-- With nothing running and no deadline, the continuation can wait for any past. -/
theorem exists_valid_of_idle (h : Mirrors ss c₁ c₂ d₁ d₂ is ps) (h0 : SharesTimed ss c₁ c₂)
    (hwf₁ : c₁.WellFormed ss) (hwf₂ : c₂.WellFormed ss) (hp₂ : Config.Progress ss c₂)
    (hwf : d₂.WellFormed ss) (hp : Config.Progress ss d₂)
    (hidle : ∀ a, c₂.todo.lookup a = none) (hnew : ∀ i ∈ is, i.pinned = false)
    (hv₁ : Valid ss c₁ σ₁) (hv₂ : Valid ss d₂ σ₂) : ∃ σ, Valid ss d₁ σ := by
  obtain ⟨M, hM⟩ := Finset.exists_le (insert 0 (c₁.fired.toFinset.image (time ss c₁ σ₁)))
  have hM0 : 0 ≤ M := hM 0 (Finset.mem_insert_self _ _)
  have hε := ss.epsilon_nonneg
  have hps : ∀ q, q ∈ ps ∨ q ∈ pending ss d₂ → c₂.instances.length ≤ q.1 :=
    fun q hq => h.new_of_idle hp₂ hwf hp hidle hq
  have hdelay := h.valid_delay (T := M + ss.epsilon) (by linarith) hwf₂ hnew hps hv₂
  refine ⟨_, h.valid_glue h0 hwf₁ hwf hv₁ hdelay fun p hp' q hq => ?_⟩
  have hpM : time ss c₁ σ₁ p ≤ M := by
    apply hM
    exact Finset.mem_insert_of_mem (Finset.mem_image_of_mem _ (List.mem_toFinset.mpr hp'))
  have hq0 : 0 ≤ time ss d₂ σ₂ q := by
    rcases hq with hq | hq
    · have hf := hwf.fired q (by simp [h.fired₂, hq])
      exact time_nonneg hwf hp hv₂ hf.1 hf.2
    · have hf := actionOf_pending hwf hq
      exact time_nonneg hwf hp hv₂ hf.1 hf.2
  rw [time_delay_new (hps q hq)]
  linarith

end Mirrors

end TamerLite
