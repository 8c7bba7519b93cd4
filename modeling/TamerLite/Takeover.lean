import TamerLite.ActiveConditions
import TamerLite.Acceptance

/-! Two configurations that agree on everything the future reads: what one can
do next the other can do too, and a schedule of it can be taken over once the
other's past is far enough behind. -/

namespace TamerLite

open Difference SearchSpace

/-- The instance of a continuation of `c₁` for instance `j` of one of `c₂`. -/
def carry (c₁ c₂ : Config) (j : ℕ) : ℕ :=
  if j < c₂.instances.length then j else c₁.instances.length + (j - c₂.instances.length)

def carryEvent (c₁ c₂ : Config) (p : ℕ × ℕ) : ℕ × ℕ := (carry c₁ c₂ p.1, p.2)

/-- `x₁` and `x₂` continue `c₁` and `c₂` with the same instances `is` and the
same events `ps`, of these instances or of the timed action. -/
structure Mirrors (ss : SearchSpace) (c₁ c₂ x₁ x₂ : Config) (is : List Instance)
    (ps : List (ℕ × ℕ)) : Prop where
  assignments : x₁.assignments = x₂.assignments
  active : x₁.active = x₂.active
  todo : ∀ a, x₁.todo.lookup a = (x₂.todo.lookup a).map fun p => (p.1, carry c₁ c₂ p.2)
  instances₁ : x₁.instances = c₁.instances ++ is
  instances₂ : x₂.instances = c₂.instances ++ is
  fired₁ : x₁.fired = c₁.fired ++ ps.map (carryEvent c₁ c₂)
  fired₂ : x₂.fired = c₂.fired ++ ps
  running : ∀ {a : Action} {k j : ℕ}, x₂.todo.lookup a = some (k, j) →
    j < c₂.instances.length → j = 0 ∧ ss.timedAction = some (c₂.actionOf 0)
  events : ∀ p ∈ ps, p.1 < c₂.instances.length →
    p.1 = 0 ∧ ss.timedAction = some (c₂.actionOf 0)

variable {ss : SearchSpace}

theorem carry_length {c₁ c₂ x₁ x₂ : Config} {is : List Instance} {ps : List (ℕ × ℕ)}
    (h : Mirrors ss c₁ c₂ x₁ x₂ is ps) : carry c₁ c₂ x₂.instances.length = x₁.instances.length := by
  rw [carry, h.instances₁, h.instances₂, List.length_append, List.length_append]
  rw [if_neg (by omega)]
  omega

theorem isNone_eq {c₁ c₂ x₁ x₂ : Config} {is : List Instance} {ps : List (ℕ × ℕ)}
    (h : Mirrors ss c₁ c₂ x₁ x₂ is ps) (a : Action) :
    (x₁.todo.lookup a).isNone = (x₂.todo.lookup a).isNone := by
  rw [h.todo, Option.isNone_map]

variable {c₁ c₂ x₁ x₂ y₂ : Config} {is : List Instance} {ps : List (ℕ × ℕ)} {a : Action}

section

variable [Callables]

/-- The plain rule reads only the assignments and the active conditions. -/
theorem Config.fire_congr {x x' y : Config} {e : Event} {p : ℕ × ℕ}
    {todo : AList (fun _ : Action => ℕ × ℕ)} {is : List Instance} (p' : ℕ × ℕ)
    (todo' : AList (fun _ : Action => ℕ × ℕ)) (is' : List Instance)
    (ha : x'.assignments = x.assignments) (hact : x'.active = x.active)
    (hf : x.fire e p todo is = some y) :
    x'.fire e p' todo' is' = some ⟨y.assignments, todo', y.active, is', x'.fired ++ [p']⟩ := by
  obtain ⟨removed, as, hr, happ, hc, rfl⟩ := Config.fire_eq_some.mp hf
  refine Config.fire_eq_some.mpr ⟨removed, as, ?_, ?_, hc, rfl⟩
  · rw [hact, hr]
  · rw [ha, happ]

end

namespace Mirrors

theorem erase (h : Mirrors ss c₁ c₂ x₁ x₂ is ps) (a : Action) :
    Mirrors ss c₁ c₂ { x₁ with todo := x₁.todo.erase a } { x₂ with todo := x₂.todo.erase a }
      is ps := by
  refine ⟨h.assignments, h.active, fun e => ?_, h.instances₁, h.instances₂, h.fired₁, h.fired₂,
    fun {e k j} he hj => ?_, h.events⟩
  · by_cases hea : e = a
    · subst hea
      simp
    · simpa only [AList.lookup_erase_ne hea] using h.todo e
  · by_cases hea : e = a
    · subst hea
      simp at he
    · exact h.running (by simpa only [AList.lookup_erase_ne hea] using he) hj

variable [Callables]

theorem fire {e : Event} {p : ℕ × ℕ} {todo₂ : AList (fun _ : Action => ℕ × ℕ)}
    (is' : List Instance) (todo₁ : AList (fun _ : Action => ℕ × ℕ)) (h : Mirrors ss c₁ c₂ x₁ x₂ is ps)
    (htodo : ∀ a, todo₁.lookup a = (todo₂.lookup a).map fun p => (p.1, carry c₁ c₂ p.2))
    (hrun : ∀ {a : Action} {k j : ℕ}, todo₂.lookup a = some (k, j) →
      j < c₂.instances.length → j = 0 ∧ ss.timedAction = some (c₂.actionOf 0))
    (hp : p.1 < c₂.instances.length → p.1 = 0 ∧ ss.timedAction = some (c₂.actionOf 0))
    (hf : x₂.fire e p todo₂ (c₂.instances ++ is') = some y₂) :
    ∃ y₁, x₁.fire e (carryEvent c₁ c₂ p) todo₁ (c₁.instances ++ is') = some y₁ ∧
      Mirrors ss c₁ c₂ y₁ y₂ is' (ps ++ [p]) := by
  have hf' := Config.fire_congr (carryEvent c₁ c₂ p) todo₁ (c₁.instances ++ is')
    h.assignments h.active hf
  obtain ⟨removed, as, -, -, -, rfl⟩ := Config.fire_eq_some.mp hf
  refine ⟨_, hf', rfl, rfl, htodo, rfl, rfl, ?_, ?_, hrun, fun q hq => ?_⟩
  · simp [h.fired₁]
  · simp [h.fired₂]
  · rcases List.mem_append.mp hq with hq | hq
    · exact h.events q hq
    · obtain rfl := List.mem_singleton.mp hq
      exact hp

theorem step (h : Mirrors ss c₁ c₂ x₁ x₂ is ps)
    (hsym : ∀ done a, ss.symmetryAllowsOpening done a = true) (hs : x₂.step ss a = some y₂) :
    ∃ y₁ is' ps', x₁.step ss a = some y₁ ∧ Mirrors ss c₁ c₂ y₁ y₂ is' ps' := by
  rcases Config.step_eq_some.mp hs with ⟨le, k, j, te, hle, hl, hte, hc, hf⟩ |
    ⟨le, te, b, hle, hl, ht, -, hte, hc, hb, hf⟩
  · have htodo : ∀ e, (Config.nextTodo x₁.todo a le.length k (carry c₁ c₂ j)).lookup e =
        ((Config.nextTodo x₂.todo a le.length k j).lookup e).map
          fun p => (p.1, carry c₁ c₂ p.2) := by
      intro e
      rw [Config.lookup_nextTodo, Config.lookup_nextTodo]
      split_ifs
      · rfl
      · rfl
      · exact h.todo e
    have hrun : ∀ {e : Action} {k' j' : ℕ},
        (Config.nextTodo x₂.todo a le.length k j).lookup e = some (k', j') →
        j' < c₂.instances.length → j' = 0 ∧ ss.timedAction = some (c₂.actionOf 0) := by
      intro e k' j' he hj'
      rw [Config.lookup_nextTodo] at he
      split_ifs at he with hea hlen
      · obtain ⟨-, rfl⟩ : k + 1 = k' ∧ j = j' := by simpa using he
        exact h.running hl hj'
      · exact h.running he hj'
    rw [h.instances₂] at hf
    obtain ⟨y₁, hf₁, hm⟩ := h.fire is _ htodo hrun (h.running hl) hf
    rw [← h.instances₁] at hf₁
    refine ⟨y₁, is, _, Config.step_eq_some.mpr (.inl ⟨le, k, carry c₁ c₂ j, te, hle, ?_, hte, ?_,
      hf₁⟩), hm⟩
    · rw [h.todo, hl, Option.map_some]
    · rw [h.assignments, hc]
  · have htodo : ∀ e, (if 1 < le.length then x₁.todo.insert a (1, x₁.instances.length)
        else x₁.todo).lookup e = ((if 1 < le.length then
          x₂.todo.insert a (1, x₂.instances.length) else x₂.todo).lookup e).map
          fun p => (p.1, carry c₁ c₂ p.2) := by
      intro e
      split_ifs with hlen
      · by_cases hea : e = a
        · subst hea
          rw [AList.lookup_insert, AList.lookup_insert, Option.map_some, carry_length h]
        · rw [AList.lookup_insert_ne hea, AList.lookup_insert_ne hea, h.todo]
      · exact h.todo e
    have hnew : c₂.instances.length ≤ x₂.instances.length := by
      rw [h.instances₂, List.length_append]
      omega
    have hrun : ∀ {e : Action} {k j : ℕ}, (if 1 < le.length then
        x₂.todo.insert a (1, x₂.instances.length) else x₂.todo).lookup e = some (k, j) →
        j < c₂.instances.length → j = 0 ∧ ss.timedAction = some (c₂.actionOf 0) := by
      intro e k j he hj
      split_ifs at he with hlen
      · by_cases hea : e = a
        · subst hea
          rw [AList.lookup_insert] at he
          obtain ⟨-, rfl⟩ := Prod.ext_iff.mp (Option.some.inj he)
          exact absurd hj (Nat.not_lt.mpr hnew)
        · rw [AList.lookup_insert_ne hea] at he
          exact h.running he hj
      · exact h.running he hj
    rw [h.instances₂, List.append_assoc, ← h.instances₂] at hf
    obtain ⟨y₁, hf₁, hm⟩ := h.fire _ _ htodo hrun (fun hj => absurd hj (Nat.not_lt.mpr hnew)) hf
    rw [← List.append_assoc, ← h.instances₁, carryEvent, carry_length h] at hf₁
    refine ⟨y₁, _, _, Config.step_eq_some.mpr (.inr ⟨le, te, b, hle, ?_, ht, hsym _ _, hte, ?_,
      ?_, hf₁⟩), hm⟩
    · rw [h.todo, hl, Option.map_none]
    · rw [h.assignments, hc]
    · rw [h.assignments, hb]

theorem rest {rest : List (Timing × Event)} {j k : ℕ} (h : Mirrors ss c₁ c₂ x₁ x₂ is ps)
    (hj : c₂.instances.length ≤ j) (hf : x₂.fireRest j rest k = some y₂) :
    ∃ y₁ ps', x₁.fireRest (carry c₁ c₂ j) rest k = some y₁ ∧ Mirrors ss c₁ c₂ y₁ y₂ is ps' := by
  induction rest generalizing x₁ x₂ ps k with
  | nil =>
    obtain rfl := Option.some.inj hf
    exact ⟨x₁, ps, rfl, h⟩
  | cons te rest ih =>
    obtain ⟨d, hd, hf⟩ := Config.fireRest_cons.mp hf
    rw [h.instances₂] at hd
    obtain ⟨d₁, hd₁, hm⟩ := h.fire is x₁.todo h.todo h.running
      (fun hlt => absurd hlt (Nat.not_lt.mpr hj)) hd
    rw [← h.instances₁] at hd₁
    obtain ⟨y₁, ps', hy, hm'⟩ := ih hm hf
    exact ⟨y₁, ps', Config.fireRest_cons.mpr ⟨d₁, hd₁, hy⟩, hm'⟩

theorem stepWith {b : Bool} (h : Mirrors ss c₁ c₂ x₁ x₂ is ps)
    (hsym : ∀ done a, ss.symmetryAllowsOpening done a = true)
    (hs : x₂.stepWith ss b a = some y₂) :
    ∃ y₁ is' ps', x₁.stepWith ss b a = some y₁ ∧ Mirrors ss c₁ c₂ y₁ y₂ is' ps' := by
  have hcomp : x₁.compresses ss b a = x₂.compresses ss b a := by
    rw [Config.compresses, Config.compresses, isNone_eq h]
  rcases Config.stepWith_eq_some.mp hs with ⟨hc, hs⟩ | ⟨d, le, hc, hle, hs, hf⟩
  · obtain ⟨y₁, is', ps', hs₁, hm⟩ := h.step hsym hs
    exact ⟨y₁, is', ps', Config.stepWith_eq_some.mpr (.inl ⟨hcomp.trans hc, hs₁⟩), hm⟩
  · obtain ⟨d₁, is', ps', hs₁, hm⟩ := h.step hsym hs
    have hnew : c₂.instances.length ≤ x₂.instances.length := by
      rw [h.instances₂, List.length_append]
      omega
    obtain ⟨y₁, ps'', hf₁, hm'⟩ := (hm.erase a).rest hnew hf
    rw [carry_length h] at hf₁
    exact ⟨y₁, is', ps'', Config.stepWith_eq_some.mpr (.inr ⟨d₁, le, hcomp.trans hc, hle, hs₁,
      hf₁⟩), hm'⟩

theorem runWith {b : Bool} {as : List Action} (h : Mirrors ss c₁ c₂ x₁ x₂ is ps)
    (hsym : ∀ done a, ss.symmetryAllowsOpening done a = true)
    (hr : x₂.runWith ss b as = some y₂) :
    ∃ y₁ is' ps', x₁.runWith ss b as = some y₁ ∧ Mirrors ss c₁ c₂ y₁ y₂ is' ps' := by
  induction as generalizing x₁ x₂ is ps with
  | nil =>
    obtain rfl := Option.some.inj hr
    exact ⟨x₁, is, ps, rfl, h⟩
  | cons a as ih =>
    obtain ⟨d, hd, hr⟩ := Config.runWith_cons.mp hr
    obtain ⟨d₁, is', ps', hd₁, hm⟩ := h.stepWith hsym hd
    obtain ⟨y₁, is'', ps'', hy, hm'⟩ := ih hm hr
    exact ⟨y₁, is'', ps'', Config.runWith_cons.mpr ⟨d₁, hd₁, hy⟩, hm'⟩

end Mirrors

/-! ### Schedules -/

/-- Instances of `c₁` as in `σ₁`, those that continue it as in `σ₂`. -/
def glue (c₁ c₂ : Config) (σ₁ σ₂ : Schedule) : Schedule := fun j =>
  if j < c₁.instances.length then σ₁ j
  else σ₂ (c₂.instances.length + (j - c₁.instances.length))

/-- The timed action, if any, is the first instance of both. -/
def SharesTimed (ss : SearchSpace) (c₁ c₂ : Config) : Prop :=
  ∀ a, ss.timedAction = some a → ∃ i, i.action = a ∧ i.pinned = true ∧
    c₁.instances[0]? = some i ∧ c₂.instances[0]? = some i

namespace Mirrors

open Schedule

variable {d₁ d₂ : Config} {σ₁ σ₂ : Schedule}

/-- The events that may still constrain, or be constrained by, a continuation. -/
def Continues (ss : SearchSpace) (c₂ d₂ : Config) (p : ℕ × ℕ) : Prop :=
  p.1 < d₂.instances.length ∧ (ss.event (d₂.actionOf p.1) p.2).isSome ∧
    (p.1 < c₂.instances.length → p.1 = 0 ∧ ss.timedAction = some (c₂.actionOf 0))

theorem actionOf_carry {j : ℕ} (h : Mirrors ss c₁ c₂ d₁ d₂ is ps) (h0 : SharesTimed ss c₁ c₂)
    (hj : j < c₂.instances.length → j = 0 ∧ ss.timedAction = some (c₂.actionOf 0)) :
    d₁.actionOf (carry c₁ c₂ j) = d₂.actionOf j := by
  by_cases hlt : j < c₂.instances.length
  · obtain ⟨rfl, ht⟩ := hj hlt
    obtain ⟨i, -, -, h₁, h₂⟩ := h0 _ ht
    have hl₁ := (List.getElem?_eq_some_iff.mp h₁).1
    have hl₂ := (List.getElem?_eq_some_iff.mp h₂).1
    rw [carry, if_pos hlt, Config.actionOf, Config.actionOf, h.instances₁, h.instances₂,
      List.getElem?_append_left hl₁, List.getElem?_append_left hl₂, h₁, h₂]
  · rw [carry, if_neg hlt, Config.actionOf, Config.actionOf, h.instances₁, h.instances₂,
      List.getElem?_append_right (by omega), List.getElem?_append_right (by omega)]
    simp

theorem mem_pending_carry {q : ℕ × ℕ} (h : Mirrors ss c₁ c₂ d₁ d₂ is ps)
    (hq : q ∈ pending ss d₁) : ∃ q' ∈ pending ss d₂, q = carryEvent c₁ c₂ q' := by
  obtain ⟨a, k, i, hl, hqk, hs⟩ := mem_pending.mp hq
  rw [h.todo] at hl
  obtain ⟨⟨k', j⟩, hl₂, he⟩ := Option.map_eq_some_iff.mp hl
  obtain ⟨rfl, hj⟩ : k' = k ∧ carry c₁ c₂ j = q.1 := by simpa using he
  exact ⟨(j, k' + i), mem_pending.mpr ⟨a, k', i, hl₂, rfl, hs⟩, Prod.ext hj.symm hqk⟩

theorem meetsDeadline_glue (h : Mirrors ss c₁ c₂ d₁ d₂ is ps) (hm₁ : MeetsDeadline ss c₁ σ₁)
    (hm₂ : MeetsDeadline ss d₂ σ₂) : MeetsDeadline ss d₁ (glue c₁ c₂ σ₁ σ₂) := by
  intro d hd j hj
  rw [h.instances₁, List.length_append] at hj
  rcases Nat.lt_or_ge j c₁.instances.length with hlt | hge
  · rw [glue, if_pos hlt]
    exact hm₁ d hd j hlt
  · rw [glue, if_neg (by omega)]
    refine hm₂ d hd _ ?_
    rw [h.instances₂, List.length_append]
    omega

theorem time_carry {p : ℕ × ℕ} (h : Mirrors ss c₁ c₂ d₁ d₂ is ps) (h0 : SharesTimed ss c₁ c₂)
    (hv₁ : Valid ss c₁ σ₁) (hv₂ : Valid ss d₂ σ₂) (hp : Continues ss c₂ d₂ p) :
    time ss d₁ (glue c₁ c₂ σ₁ σ₂) (carryEvent c₁ c₂ p) = time ss d₂ σ₂ p := by
  have hact := h.actionOf_carry h0 hp.2.2
  simp only [time, carryEvent, hact]
  by_cases hlt : p.1 < c₂.instances.length
  · obtain ⟨hz, ht⟩ := hp.2.2 hlt
    obtain ⟨i, hia, hpin, h₁, h₂⟩ := h0 _ ht
    have hl₁ := (List.getElem?_eq_some_iff.mp h₁).1
    have hl₂ := (List.getElem?_eq_some_iff.mp h₂).1
    have hd₂ : d₂.instances[0]? = some i := by
      rw [h.instances₂, List.getElem?_append_left hl₂, h₂]
    have hs₁ := hv₁.origin 0 i h₁
    have hs₂ := hv₂.origin 0 i hd₂
    rw [if_pos hpin] at hs₁ hs₂
    have hg : glue c₁ c₂ σ₁ σ₂ (carry c₁ c₂ p.1) = σ₁ 0 := by
      rw [carry, if_pos hlt, hz, glue, if_pos hl₁]
    have hdact : d₂.actionOf p.1 = i.action := by
      rw [hz, Config.actionOf, hd₂]
      rfl
    have hti : ss.timedAction = some i.action := by rw [hia]; exact ht
    obtain ⟨te, hte⟩ := Option.isSome_iff_exists.mp hp.2.1
    have hstart : te.1.start = true := by
      rw [hdact] at hte
      obtain ⟨le, hle, hk⟩ := Option.bind_eq_some_iff.mp hte
      exact ss.timed_absolute hti hle te (List.mem_of_getElem? hk)
    rw [hte]
    simp only [hstart, if_true]
    rw [hg, hz, hs₁, hs₂]
  · have hcarry : carry c₁ c₂ p.1 = c₁.instances.length + (p.1 - c₂.instances.length) := by
      rw [carry, if_neg hlt]
    have hg : glue c₁ c₂ σ₁ σ₂ (carry c₁ c₂ p.1) = σ₂ p.1 := by
      rw [glue, hcarry, if_neg (by omega)]
      congr 1
      omega
    rw [hg]

theorem follows_carry {p q : ℕ × ℕ} (h : Mirrors ss c₁ c₂ d₁ d₂ is ps)
    (h0 : SharesTimed ss c₁ c₂) (hv₁ : Valid ss c₁ σ₁) (hv₂ : Valid ss d₂ σ₂)
    (hp : Continues ss c₂ d₂ p) (hq : Continues ss c₂ d₂ q)
    (hf : Follows (Schedule.mutex ss d₂) ss.epsilon (time ss d₂ σ₂) p q) :
    Follows (Schedule.mutex ss d₁) ss.epsilon (time ss d₁ (glue c₁ c₂ σ₁ σ₂)) (carryEvent c₁ c₂ p)
      (carryEvent c₁ c₂ q) := by
  have hm : Schedule.mutex ss d₁ (carryEvent c₁ c₂ p) (carryEvent c₁ c₂ q) ↔ Schedule.mutex ss d₂ p q := by
    simp only [Schedule.mutex, carryEvent, h.actionOf_carry h0 hp.2.2, h.actionOf_carry h0 hq.2.2]
  rw [Follows, time_carry h h0 hv₁ hv₂ hp, time_carry h h0 hv₁ hv₂ hq, hm]
  exact hf

variable [Callables]

theorem continues_fired {p : ℕ × ℕ} (h : Mirrors ss c₁ c₂ d₁ d₂ is ps) (hwf : d₂.WellFormed ss)
    (hp : p ∈ ps) : Continues ss c₂ d₂ p := by
  have hf := hwf.fired p (by simp [h.fired₂, hp])
  exact ⟨hf.1, hf.2, h.events p hp⟩

theorem continues_pending {q : ℕ × ℕ} (h : Mirrors ss c₁ c₂ d₁ d₂ is ps)
    (hwf : d₂.WellFormed ss) (hq : q ∈ pending ss d₂) : Continues ss c₂ d₂ q := by
  have hp := actionOf_pending hwf hq
  obtain ⟨a, k, i, hl, -, -⟩ := mem_pending.mp hq
  exact ⟨hp.1, hp.2, h.running hl⟩

/-- A schedule of the continuation of `c₂` serves that of `c₁`, once the past
of `c₁` is `epsilon` behind all of it. -/
theorem valid_glue (h : Mirrors ss c₁ c₂ d₁ d₂ is ps) (h0 : SharesTimed ss c₁ c₂)
    (hwf₁ : c₁.WellFormed ss) (hwf : d₂.WellFormed ss) (hv₁ : Valid ss c₁ σ₁)
    (hv₂ : Valid ss d₂ σ₂)
    (hsep : ∀ p ∈ c₁.fired, ∀ q, q ∈ ps ∨ q ∈ pending ss d₂ →
      time ss c₁ σ₁ p + ss.epsilon ≤ time ss d₂ σ₂ q) :
    Valid ss d₁ (glue c₁ c₂ σ₁ σ₂) := by
  have hold : ∀ {j}, j < c₁.instances.length → glue c₁ c₂ σ₁ σ₂ j = σ₁ j :=
    fun hj => by rw [glue, if_pos hj]
  have hact : ∀ {j}, j < c₁.instances.length → d₁.actionOf j = c₁.actionOf j := fun hj => by
    rw [Config.actionOf, Config.actionOf, h.instances₁, List.getElem?_append_left hj]
  have hinst : ∀ {P : ℚ × ℚ → Instance → Prop},
      (∀ j i, c₁.instances[j]? = some i → P (σ₁ j) i) →
      (∀ j i, d₂.instances[j]? = some i → P (σ₂ j) i) →
      ∀ j i, d₁.instances[j]? = some i → P (glue c₁ c₂ σ₁ σ₂ j) i := by
    intro P hP₁ hP₂ j i hi
    rw [h.instances₁] at hi
    rcases Nat.lt_or_ge j c₁.instances.length with hj | hj
    · rw [hold hj]
      exact hP₁ j i (by rwa [List.getElem?_append_left hj] at hi)
    · rw [List.getElem?_append_right hj] at hi
      rw [glue, if_neg (by omega)]
      refine hP₂ _ i ?_
      rw [h.instances₂, List.getElem?_append_right (by omega)]
      simpa using hi
  have htime : ∀ p ∈ c₁.fired, time ss d₁ (glue c₁ c₂ σ₁ σ₂) p = time ss c₁ σ₁ p := by
    intro p hp
    have hj := (hwf₁.fired p hp).1
    simp only [time, hact hj, hold hj]
  have hcross : ∀ p ∈ c₁.fired, ∀ q, q ∈ ps ∨ q ∈ pending ss d₂ →
      Follows (Schedule.mutex ss d₁) ss.epsilon (time ss d₁ (glue c₁ c₂ σ₁ σ₂)) p
        (carryEvent c₁ c₂ q) := by
    intro p hp q hq
    have hc : Continues ss c₂ d₂ q := hq.elim (continues_fired h hwf) (continues_pending h hwf)
    refine .of_le ss.epsilon_nonneg ?_
    rw [htime p hp, time_carry h h0 hv₁ hv₂ hc]
    exact hsep p hp q hq
  have hord := hv₂.ordered
  rw [h.fired₂, List.pairwise_append] at hord
  refine ⟨@hinst (fun t i => i.lower ≤ t.2 - t.1 ∧ t.2 - t.1 ≤ i.upper) hv₁.bounds hv₂.bounds,
    @hinst (fun t i => if i.pinned then t.1 = 0 else 0 ≤ t.1) hv₁.origin hv₂.origin, ?_,
    fun p hp q hq => ?_⟩
  · rw [h.fired₁, List.pairwise_append, List.pairwise_map]
    refine ⟨?_, ?_, ?_⟩
    · refine hv₁.ordered.imp_of_mem fun {p q} hp hq hf => ?_
      have hm : Schedule.mutex ss d₁ p q ↔ Schedule.mutex ss c₁ p q :=
        mutex_congr (hact (hwf₁.fired p hp).1) (hact (hwf₁.fired q hq).1)
      rw [Follows, htime p hp, htime q hq, hm]
      exact hf
    · exact hord.2.1.imp_of_mem fun hp hq hf => follows_carry h h0 hv₁ hv₂
        (continues_fired h hwf hp) (continues_fired h hwf hq) hf
    · intro p hp q hq
      obtain ⟨q', hq', rfl⟩ := List.mem_map.mp hq
      exact hcross p hp q' (.inl hq')
  · obtain ⟨q', hq', rfl⟩ := mem_pending_carry h hq
    rw [h.fired₁] at hp
    rcases List.mem_append.mp hp with hp | hp
    · exact hcross p hp q' (.inr hq')
    · obtain ⟨p', hp', rfl⟩ := List.mem_map.mp hp
      exact follows_carry h h0 hv₁ hv₂ (continues_fired h hwf hp') (continues_pending h hwf hq')
        (hv₂.pending p' (by simp [h.fired₂, hp']) q' hq')

end Mirrors

end TamerLite
