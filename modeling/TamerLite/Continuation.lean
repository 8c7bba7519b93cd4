import TamerLite.Progress
import TamerLite.Takeover

/-! What continues a configuration: which events are new to it, when they
happen, and how far all of them can be delayed together. -/

namespace TamerLite

open Difference SearchSpace Schedule

variable {ss : SearchSpace} {tn : DeltaSimpleTemporalNetwork}

section

variable [Callables]

/-- The search space accepts `as` step by step from a state to a goal state. -/
def AcceptedFrom (ss : SearchSpace) (tn : DeltaSimpleTemporalNetwork) (compression : Bool)
    (s : State) (n : ℕ) (as : List Action) : Prop :=
  ∃ t m, Run ss tn compression s n as t m ∧ ss.goalReached t = true

theorem Refines.acceptedFrom_iff {b : Bool} {s : State} {n : ℕ} {c : Config} {ids : List ℕ}
    {as : List Action} (hx : tn.Exact) (h : Refines ss s n c ids) (hwf : c.WellFormed ss)
    (hsch : Schedulable ss c) : AcceptedFrom ss tn b s n as ↔
      ∃ c', c.runWith ss b as = some c' ∧ c'.goalReached ss = true ∧ Schedulable ss c' := by
  constructor
  · intro ha
    obtain ⟨t, m, hr, hg⟩ := ha
    obtain ⟨c', ids', hc, href, hk⟩ := h.run hwf hr
    refine ⟨c', hc, href.goalReached_eq ▸ hg, ?_⟩
    rcases hk with rfl | hk
    · exact hsch
    · exact href.schedulable (hwf.runWith hc) hx hk
  · intro ha
    obtain ⟨c', hc, hg, hs⟩ := ha
    obtain ⟨t, m, ids', hr, href⟩ := h.run_of_config hx hwf hc hs
    exact ⟨t, m, hr, href.goalReached_eq.symm ▸ hg⟩

end

/-! ### New instances -/

section

variable [Callables]

theorem new_of_step {c c' : Config} {a : Action} (hs : c.step ss a = some c') :
    ∃ is, c'.instances = c.instances ++ is ∧
      ∀ i ∈ is, i.pinned = false ∧ ss.timedAction ≠ some i.action ∧ i.action = a ∧
        c.todo.lookup a = none ∧ ss.durationBounds a c.assignments = some (i.lower, i.upper) := by
  rcases Config.step_eq_some.mp hs with ⟨le, k, j, te, -, -, -, -, hf⟩ |
    ⟨le, te, b, -, hl, ht, -, -, -, hb, hf⟩
  · obtain ⟨removed, as, -, -, -, rfl⟩ := Config.fire_eq_some.mp hf
    exact ⟨[], (List.append_nil _).symm, by simp⟩
  · obtain ⟨removed, as, -, -, -, rfl⟩ := Config.fire_eq_some.mp hf
    refine ⟨_, rfl, fun i hi => ?_⟩
    obtain rfl := List.mem_singleton.mp hi
    exact ⟨rfl, ht, rfl, hl, hb⟩

theorem new_of_stepWith {c c' : Config} {a : Action} {b : Bool}
    (hs : c.stepWith ss b a = some c') : ∃ is, c'.instances = c.instances ++ is ∧
      ∀ i ∈ is, i.pinned = false ∧ ss.timedAction ≠ some i.action ∧ i.action = a ∧
        c.todo.lookup a = none ∧ ss.durationBounds a c.assignments = some (i.lower, i.upper) := by
  rcases Config.stepWith_eq_some.mp hs with ⟨-, hs⟩ | ⟨d, le, -, -, hs, hf⟩
  · exact new_of_step hs
  · obtain ⟨is, his, hnew⟩ := new_of_step hs
    exact ⟨is, (Config.fireRest_spec hf).2.1.trans his, hnew⟩

theorem new_of_runWith {c c' : Config} {as : List Action} {b : Bool}
    (hr : c.runWith ss b as = some c') : ∃ is, c'.instances = c.instances ++ is ∧
      ∀ i ∈ is, i.pinned = false ∧ ss.timedAction ≠ some i.action := by
  induction as generalizing c with
  | nil =>
    obtain rfl := Option.some.inj hr
    exact ⟨[], (List.append_nil _).symm, by simp⟩
  | cons a as ih =>
    obtain ⟨d, hd, hr⟩ := Config.runWith_cons.mp hr
    obtain ⟨is, his, hnew⟩ := new_of_stepWith hd
    obtain ⟨is', his', hnew'⟩ := ih hr
    refine ⟨is ++ is', by rw [his', his, List.append_assoc], fun i hi => ?_⟩
    rcases List.mem_append.mp hi with hi | hi
    · exact ⟨(hnew i hi).1, (hnew i hi).2.1⟩
    · exact hnew' i hi

theorem valid_of_runWith {c c' : Config} {as : List Action} {b : Bool} {σ : Schedule}
    (hwf : c.WellFormed ss) (hr : c.runWith ss b as = some c') (hv : Valid ss c' σ) :
    Valid ss c σ := by
  induction as generalizing c with
  | nil =>
    obtain rfl := Option.some.inj hr
    exact hv
  | cons a as ih =>
    obtain ⟨d, hd, hr⟩ := Config.runWith_cons.mp hr
    exact valid_of_stepWith hwf hd (ih (hwf.stepWith hd) hr)

/-- The instances of the initial configuration: the timed action's, if any. -/
theorem instances_initial {c : Config} (h : Config.initial ss = some c) :
    (ss.timedAction = none ∧ c.instances = []) ∨
      ∃ a b, ss.timedAction = some a ∧ ss.durationBounds a ss.initialState = some b ∧
        c.instances = [⟨a, b.1, b.2, true⟩] := by
  rcases Config.initial_eq_some.mp h with ⟨ht, rfl⟩ | ⟨a, le, te, b, ht, -, -, -, hb, hf⟩
  · exact .inl ⟨ht, rfl⟩
  · obtain ⟨removed, as, -, -, -, rfl⟩ := Config.fire_eq_some.mp hf
    exact .inr ⟨a, b, ht, hb, rfl⟩

/-- An instance of the timed action is the first one. -/
theorem Config.Reachable.timed_first {c : Config} {b : Bool} {a : Action} {j : ℕ} {i : Instance}
    (h : Config.Reachable ss b c) (ht : ss.timedAction = some a)
    (hi : c.instances[j]? = some i) (ha : i.action = a) : j = 0 := by
  obtain ⟨c₀, as, h₀, hr⟩ := h
  obtain ⟨is, his, hnew⟩ := new_of_runWith hr
  rcases instances_initial h₀ with ⟨ht', -⟩ | ⟨a', b', ht', -, h₀⟩
  · rw [ht] at ht'
    contradiction
  · rw [his, h₀] at hi
    cases j with
    | zero => rfl
    | succ j =>
      have hm : i ∈ is := List.mem_of_getElem? (by simpa using hi)
      exact absurd (ha ▸ ht) (hnew i hm).2

theorem sharesTimed_of_reachable {c₁ c₂ : Config} {b b' : Bool} (h₁ : Config.Reachable ss b c₁)
    (h₂ : Config.Reachable ss b' c₂) : SharesTimed ss c₁ c₂ := by
  intro a ht
  obtain ⟨c₀, as, h₀, hr₁⟩ := h₁
  obtain ⟨c₀', as', h₀', hr₂⟩ := h₂
  obtain rfl := Option.some.inj (h₀.symm.trans h₀')
  obtain ⟨is₁, h₁, -⟩ := new_of_runWith hr₁
  obtain ⟨is₂, h₂, -⟩ := new_of_runWith hr₂
  rcases instances_initial h₀ with ⟨ht', -⟩ | ⟨a', b', ht', -, hi⟩
  · rw [ht] at ht'
    contradiction
  · obtain rfl := Option.some.inj (ht.symm.trans ht')
    exact ⟨⟨a, b'.1, b'.2, true⟩, rfl, rfl, by simp [h₁, hi], by simp [h₂, hi]⟩

end

/-! ### Times -/

theorem start_nonneg {c : Config} {σ : Schedule} {j : ℕ} (hv : Valid ss c σ)
    (hj : j < c.instances.length) : 0 ≤ (σ j).1 := by
  have ho := hv.origin j _ (List.getElem?_eq_getElem hj)
  split_ifs at ho with hp
  · exact le_of_eq ho.symm
  · exact ho

section Times

variable [Callables]

/-- An event that has not fired yet is pending. -/
theorem Config.Progress.fired_or_pending {c : Config} {p : ℕ × ℕ} (h : Config.Progress ss c)
    (hj : p.1 < c.instances.length) (hs : (ss.event (c.actionOf p.1) p.2).isSome) :
    p ∈ c.fired ∨ p ∈ pending ss c := by
  by_cases hr : c.Running p.1
  · obtain ⟨k, hl⟩ := hr
    by_cases hk : p.2 < k
    · exact .inl ((h.running hl p.2).mpr hk)
    · refine .inr (mem_pending.mpr ⟨_, k, p.2 - k, hl, by omega, ?_⟩)
      have hk' : k + (p.2 - k) = p.2 := by omega
      rwa [hk']
  · exact .inl ((h.done p.1 hj hr p.2).mpr hs)

theorem time_first {c : Config} {σ : Schedule} {j : ℕ} (h : Config.Progress ss c)
    (hv : Valid ss c σ) (hj : j < c.instances.length)
    (hs : (ss.event (c.actionOf j) 0).isSome) : time ss c σ (j, 0) = (σ j).1 := by
  obtain ⟨te, hte⟩ := Option.isSome_iff_exists.mp hs
  obtain ⟨le, hle, hk⟩ := Option.bind_eq_some_iff.mp hte
  rcases ss.events_opening hle hk with ht | ⟨q, l, r, ht, hd⟩
  · simp [time, hte, ht]
  · -- counted from the end, the first event is a constant duration before it
    have hi : c.instances[j]? = some c.instances[j] := List.getElem?_eq_getElem hj
    obtain ⟨assignments, hb⟩ := h.bounds _ (List.getElem_mem hj)
    have hdur : ss.duration c.instances[j].action =
        some ⟨[.constant (.num q)], [.constant (.num q)], l, r⟩ := by
      rw [← Config.actionOf_eq hi]
      exact hd
    have hbounds := hv.bounds j _ hi
    have hε := ss.epsilon_nonneg
    simp only [durationBounds, hdur, evaluateBound, evaluate, evalNodes, evalNode,
      ConstantNode.toNum, List.foldlM_cons, List.foldlM_nil, Option.map_some, Option.bind_eq_bind,
      Option.bind_some, Option.pure_def, List.nil_append, List.getLast?_singleton,
      Option.some.injEq, Prod.mk.injEq] at hb
    have hlower : q ≤ c.instances[j].lower := by
      rw [← hb.1]
      split_ifs <;> linarith
    have hupper : c.instances[j].upper ≤ q := by
      rw [← hb.2]
      split_ifs <;> linarith
    simp only [time, hte, ht, Bool.false_eq_true, if_false]
    linarith [hbounds.1, hbounds.2]

/-- The events of an instance do not precede its start. -/
theorem start_le_time {c : Config} {σ : Schedule} {p : ℕ × ℕ} (hwf : c.WellFormed ss)
    (h : Config.Progress ss c) (hv : Valid ss c σ) (hj : p.1 < c.instances.length)
    (hs : (ss.event (c.actionOf p.1) p.2).isSome) : (σ p.1).1 ≤ time ss c σ p := by
  have h0 := h.first p.1 hj
  have ht : time ss c σ (p.1, 0) = (σ p.1).1 := time_first h hv hj (hwf.fired _ h0).2
  rw [← ht]
  rcases h.fired_or_pending hj hs with hp | hp
  · by_cases he : (p.1, 0) = p
    · rw [he]
    · have hlate : ¬ p.2 < 0 := by omega
      rcases pairwise_or (List.Pairwise.and hv.ordered h.increasing) h0 hp he with hf | hf
      · exact hf.1.1
      · exact absurd (hf.2 rfl) hlate
  · exact (hv.pending _ h0 p hp).1

theorem time_nonneg {c : Config} {σ : Schedule} {p : ℕ × ℕ} (hwf : c.WellFormed ss)
    (h : Config.Progress ss c) (hv : Valid ss c σ) (hj : p.1 < c.instances.length)
    (hs : (ss.event (c.actionOf p.1) p.2).isSome) : 0 ≤ time ss c σ p :=
  (start_nonneg hv hj).trans (start_le_time hwf h hv hj hs)

end Times

/-! ### Delays -/

namespace Mirrors

variable {c₁ c₂ d₁ d₂ : Config} {is : List Instance} {ps : List (ℕ × ℕ)} {σ₁ σ₂ : Schedule}

/-- The instances from `n` on, later by `T`. -/
def delay (n : ℕ) (T : ℚ) (σ : Schedule) : Schedule := fun j =>
  if j < n then σ j else ((σ j).1 + T, (σ j).2 + T)

theorem time_delay_old {c : Config} {n : ℕ} {T : ℚ} {σ : Schedule} {p : ℕ × ℕ} (hp : p.1 < n) :
    time ss c (delay n T σ) p = time ss c σ p := by
  simp only [time, delay, if_pos hp]

theorem time_delay_new {c : Config} {n : ℕ} {T : ℚ} {σ : Schedule} {p : ℕ × ℕ} (hp : n ≤ p.1) :
    time ss c (delay n T σ) p = time ss c σ p + T := by
  have hp' : ¬ p.1 < n := by omega
  simp only [time, delay, if_neg hp']
  cases ss.event (c.actionOf p.1) p.2 with
  | none => rfl
  | some te =>
    simp only
    split_ifs <;> ring

theorem follows_delay {c : Config} {n : ℕ} {T : ℚ} {σ : Schedule} {p q : ℕ × ℕ} (hT : 0 ≤ T)
    (hq : n ≤ q.1) (h : Follows (Schedule.mutex ss c) ss.epsilon (time ss c σ) p q) :
    Follows (Schedule.mutex ss c) ss.epsilon (time ss c (delay n T σ)) p q := by
  by_cases hp : p.1 < n
  · rw [Follows, time_delay_old hp, time_delay_new hq]
    exact ⟨by linarith [h.1], fun hm => by linarith [h.2 hm]⟩
  · rw [Follows, time_delay_new (by omega), time_delay_new hq]
    exact ⟨by linarith [h.1], fun hm => by linarith [h.2 hm]⟩

variable [Callables]

/-- When nothing is running, what follows is about new instances only. -/
theorem new_of_idle (h : Mirrors ss c₁ c₂ d₁ d₂ is ps) (hp : Config.Progress ss c₂)
    (hwf : d₂.WellFormed ss) (hp' : Config.Progress ss d₂)
    (hidle : ∀ a, c₂.todo.lookup a = none) {q : ℕ × ℕ} (hq : q ∈ ps ∨ q ∈ pending ss d₂) :
    c₂.instances.length ≤ q.1 := by
  by_contra hlt
  have hlt' : q.1 < c₂.instances.length := by omega
  have hact : d₂.actionOf q.1 = c₂.actionOf q.1 := by
    rw [Config.actionOf, Config.actionOf, h.instances₂, List.getElem?_append_left hlt']
  have hold : (ss.event (d₂.actionOf q.1) q.2).isSome → q ∈ c₂.fired := by
    intro hs
    refine (hp.done q.1 hlt' (fun hr => ?_) q.2).mpr (hact ▸ hs)
    obtain ⟨k, hl⟩ := hr
    rw [hidle] at hl
    contradiction
  rcases hq with hq | hq
  · have hmem : q ∈ d₂.fired := by simp [h.fired₂, hq]
    have hincr := hp'.increasing
    rw [h.fired₂, List.pairwise_append] at hincr
    have := hincr.2.2 q (hold (hwf.fired q hmem).2) q hq rfl
    omega
  · have hmem : q ∈ d₂.fired := by simp [h.fired₂, hold (actionOf_pending hwf hq).2]
    obtain ⟨a, k, i, hl, hqk, -⟩ := mem_pending.mp hq
    have := (hp'.running hl q.2).mp hmem
    omega

theorem valid_delay {T : ℚ} (h : Mirrors ss c₁ c₂ d₁ d₂ is ps) (hT : 0 ≤ T)
    (hwf : c₂.WellFormed ss) (hnew : ∀ i ∈ is, i.pinned = false)
    (hps : ∀ q, q ∈ ps ∨ q ∈ pending ss d₂ → c₂.instances.length ≤ q.1) (hv : Valid ss d₂ σ₂) :
    Valid ss d₂ (delay c₂.instances.length T σ₂) := by
  refine ⟨fun j i hi => ?_, fun j i hi => ?_, ?_, fun p hp q hq => ?_⟩
  · have hb := hv.bounds j i hi
    by_cases hj : j < c₂.instances.length
    · simpa only [delay, if_pos hj] using hb
    · simp only [delay, if_neg hj]
      constructor <;> linarith [hb.1, hb.2]
  · have ho := hv.origin j i hi
    by_cases hj : j < c₂.instances.length
    · simpa only [delay, if_pos hj] using ho
    · rw [h.instances₂, List.getElem?_append_right (by omega)] at hi
      have hpin := hnew i (List.mem_of_getElem? hi)
      simp only [hpin, Bool.false_eq_true, if_false] at ho
      simp only [delay, if_neg hj, hpin, Bool.false_eq_true, if_false]
      linarith
  · have hord := hv.ordered
    rw [h.fired₂, List.pairwise_append] at hord ⊢
    refine ⟨hord.1.imp_of_mem fun {p q} hp hq hf => ?_, hord.2.1.imp_of_mem fun {p q} hp hq hf => ?_,
      fun p hp q hq => ?_⟩
    · rwa [Follows, time_delay_old (hwf.fired p hp).1, time_delay_old (hwf.fired q hq).1]
    · exact follows_delay hT (hps q (.inl hq)) hf
    · exact follows_delay hT (hps q (.inl hq)) (hord.2.2 p hp q hq)
  · exact follows_delay hT (hps q (.inr hq)) (hv.pending p hp q hq)

end Mirrors

end TamerLite
