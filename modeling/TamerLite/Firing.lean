import TamerLite.Configuration

/-! What firing one event does to a configuration, and what every reachable
configuration satisfies. -/

namespace TamerLite

open Difference SearchSpace

theorem removeAll_le {cs : List Expression} {m m' : Multiset Expression}
    (h : removeAll cs m = some m') : m' ≤ m := by
  induction cs generalizing m with
  | nil => simp_all [removeAll]
  | cons c cs ih =>
    by_cases hc : c ∈ m
    · rw [removeAll, if_pos hc] at h
      exact (ih h).trans (Multiset.erase_le c m)
    · rw [removeAll, if_neg hc] at h
      contradiction

theorem mem_effectIndependent {e : Event} {x : Expression} :
    x ∈ effectIndependentStartConditions e ↔
      x ∈ e.startConditions ∧ ∀ f ∈ getFluents x, f ∉ e.effects.map Effect.fluent := by
  simp [effectIndependentStartConditions]

namespace Config

variable {ss : SearchSpace} {c c' : Config} {a : Action}

/-- The `todo` entry of `a` once its event `k` has fired, out of `n`. -/
def nextTodo (todo : AList (fun _ : Action => ℕ × ℕ)) (a : Action) (n k v : ℕ) :
    AList (fun _ : Action => ℕ × ℕ) :=
  if n ≤ k + 1 then todo.erase a else todo.insert a (k + 1, v)

theorem actionOf_eq {j : ℕ} {i : Instance} (h : c.instances[j]? = some i) :
    c.actionOf j = i.action := by
  simp [actionOf, h]

theorem actionOf_append {is : List Instance} {t : AList (fun _ : Action => ℕ × ℕ)} {j : ℕ}
    {m : Multiset Expression} {as : Assignments} {f : List (ℕ × ℕ)} (hj : j < c.instances.length) :
    actionOf ⟨as, t, m, c.instances ++ is, f⟩ j = c.actionOf j := by
  simp [actionOf, List.getElem?_append_left hj]

theorem actionOf_new {i : Instance} {t : AList (fun _ : Action => ℕ × ℕ)}
    {m : Multiset Expression} {as : Assignments} {f : List (ℕ × ℕ)} {is : List Instance} :
    actionOf ⟨as, t, m, is ++ [i], f⟩ is.length = i.action := by
  simp [actionOf]

theorem lookup_nextTodo {todo : AList (fun _ : Action => ℕ × ℕ)} {n k j : ℕ} (b : Action) :
    (nextTodo todo a n k j).lookup b =
      if b = a then (if n ≤ k + 1 then none else some (k + 1, j)) else todo.lookup b := by
  unfold nextTodo
  by_cases hb : b = a
  · subst hb
    split_ifs <;> simp_all
  · split_ifs <;> simp [AList.lookup_erase_ne hb, AList.lookup_insert_ne hb]

theorem event_isSome {le : List (Timing × Event)} {k : ℕ} (h : ss.events a = some le) :
    (ss.event a k).isSome ↔ k < le.length := by
  simp [SearchSpace.event, h]

theorem event_eq {le : List (Timing × Event)} {k : ℕ} (h : ss.events a = some le) :
    ss.event a k = le[k]? := by
  simp [SearchSpace.event, h]

end Config

section

variable [Callables]

theorem applyEffects_cons {eff : Effect} {effs : List Effect} {old new a : Assignments} :
    applyEffects (eff :: effs) old new = some a ↔
      ∃ v, evaluate eff.value old = some v ∧ applyEffects effs old (new.set eff.fluent.idx v) = some a := by
  simp only [applyEffects, List.foldlM_cons]
  cases evaluate eff.value old with
  | none => simp
  | some v => simp

/-- An event leaves every fluent it does not write as it was. -/
theorem applyEffects_frame {effs : List Effect} {old new a : Assignments}
    (h : applyEffects effs old new = some a) {f : Fluent}
    (hf : f ∉ effs.map Effect.fluent) : getValue a f = getValue new f := by
  induction effs generalizing new with
  | nil => simp_all [applyEffects]
  | cons eff effs ih =>
    obtain ⟨v, -, hv⟩ := applyEffects_cons.mp h
    have hne : eff.fluent.idx ≠ f.idx := by
      intro he
      apply hf
      have : eff.fluent = f := by cases heff : eff.fluent; cases f; simp_all
      simp [← this]
    rw [ih hv (fun hm => hf (by simp at hm ⊢; exact .inr hm))]
    simp [getValue, List.getElem?_set_ne hne]

theorem holds_frame {effs : List Effect} {old a : Assignments}
    (h : applyEffects effs old old = some a) {x : Expression}
    (hx : ∀ f ∈ getFluents x, f ∉ effs.map Effect.fluent) : holds x a = holds x old :=
  holds_congr fun f hf => applyEffects_frame h (hx f hf)

theorem effectIndependentStartConditionsHold_iff {e : Event} {a : Assignments} :
    effectIndependentStartConditionsHold e a = true ↔
      ∀ x ∈ e.startConditions, (∀ f ∈ getFluents x, f ∉ e.effects.map Effect.fluent) →
        holds x a = true := by
  simp only [effectIndependentStartConditionsHold, List.all_eq_true, mem_effectIndependent]
  exact ⟨fun h x hx hi => h x ⟨hx, hi⟩, fun h x hx => h x hx.1 hx.2⟩

/-- The two shortcuts of the expansion reject exactly what the plain check of
every active condition rejects, as long as the inherited ones hold. -/
theorem plain_iff_shortcut {e : Event} {active removed : Multiset Expression}
    {old a : Assignments} (hactive : ∀ x ∈ active, holds x old = true)
    (hr : removeAll e.endConditions active = some removed)
    (ha : applyEffects e.effects old old = some a) :
    (∀ x ∈ removed + e.startConditions, holds x a = true) ↔
      effectIndependentStartConditionsHold e old = true ∧
        ¬ (e.effects ≠ [] ∧ ¬ ∀ x ∈ removed + e.startConditions, holds x a = true) := by
  rw [effectIndependentStartConditionsHold_iff]
  constructor
  · intro h
    refine ⟨fun x hx hi => ?_, fun hn => hn.2 h⟩
    rw [← holds_frame ha hi]
    exact h x (Multiset.mem_add.mpr (.inr hx))
  · rintro ⟨hi, hn⟩
    by_cases he : e.effects = []
    · have haold : a = old := by simpa [he, applyEffects] using ha.symm
      intro x hx
      rw [haold]
      rcases Multiset.mem_add.mp hx with hx | hx
      · exact hactive x (Multiset.mem_of_le (removeAll_le hr) hx)
      · exact hi x hx (by simp [he])
    · exact not_not.mp fun h => hn ⟨he, h⟩

/-- The timed action lasts as long in every state, until its last event. -/
theorem durationBounds_timed {ss : SearchSpace} {a : Action} (ht : ss.timedAction = some a) :
    ∃ q, 0 ≤ q ∧ ∀ assignments, ss.durationBounds a assignments = some (q, q) := by
  obtain ⟨q, hq, hd⟩ := ss.timed_duration ht
  have hd' : ss.duration a = some ⟨[.constant (.num q)], [.constant (.num q)], false, false⟩ := hd
  refine ⟨q, hq, fun assignments => ?_⟩
  simp [durationBounds, hd', evaluateBound, evaluate, evalNodes, evalNode, ConstantNode.toNum]

end

namespace Config

variable {ss : SearchSpace} {c c' : Config} {a : Action}

@[simp] theorem compresses_false : compresses ss false c a = false := rfl

variable [Callables]

theorem fire_eq_some {e : Event} {p : ℕ × ℕ} {todo : AList (fun _ : Action => ℕ × ℕ)}
    {instances : List Instance} :
    c.fire e p todo instances = some c' ↔
      ∃ removed assignments, removeAll e.endConditions c.active = some removed ∧
        applyEffects e.effects c.assignments c.assignments = some assignments ∧
        (∀ x ∈ removed + e.startConditions, holds x assignments = true) ∧
        c' = ⟨assignments, todo, removed + e.startConditions, instances, c.fired ++ [p]⟩ := by
  simp only [fire, Option.bind_eq_bind, Option.bind_eq_some_iff]
  constructor
  · rintro ⟨removed, hr, assignments, ha, h⟩
    split_ifs at h with hc
    exact ⟨removed, assignments, hr, ha, hc, (Option.some.inj h).symm⟩
  · rintro ⟨removed, assignments, hr, ha, hc, rfl⟩
    exact ⟨removed, hr, assignments, ha, if_pos hc⟩

/-- A step fires the next event of a running action or opens a new instance. -/
theorem step_eq_some : c.step ss a = some c' ↔
    (∃ le k j te, ss.events a = some le ∧ c.todo.lookup a = some (k, j) ∧ le[k]? = some te ∧
      holds te.2.conditions c.assignments = true ∧
      c.fire te.2 (j, k) (nextTodo c.todo a le.length k j) c.instances = some c') ∨
    (∃ le te b, ss.events a = some le ∧ c.todo.lookup a = none ∧ ss.timedAction ≠ some a ∧
      ss.symmetryAllowsOpening c.actions a = true ∧ le[0]? = some te ∧
      holds te.2.conditions c.assignments = true ∧ ss.durationBounds a c.assignments = some b ∧
      c.fire te.2 (c.instances.length, 0)
        (if 1 < le.length then c.todo.insert a (1, c.instances.length) else c.todo)
        (c.instances ++ [⟨a, b.1, b.2, false⟩]) = some c') := by
  simp only [step, Option.bind_eq_bind, Option.bind_eq_some_iff]
  constructor
  · rintro ⟨le, hle, h⟩
    split at h
    · rename_i k j hl
      obtain ⟨te, hte, h⟩ := Option.bind_eq_some_iff.mp h
      split_ifs at h with hc hn
      · exact .inl ⟨le, k, j, te, hle, hl, hte, hc, by rw [nextTodo, if_pos hn]; exact h⟩
      · exact .inl ⟨le, k, j, te, hle, hl, hte, hc, by rw [nextTodo, if_neg hn]; exact h⟩
    · rename_i hl
      by_cases ht : ss.timedAction = some a
      · simp [ht] at h
      by_cases hs : ss.symmetryAllowsOpening c.actions a = true
      · rw [if_neg ht, if_neg (by simp [hs])] at h
        obtain ⟨te, hte, h⟩ := Option.bind_eq_some_iff.mp h
        by_cases hc : holds te.2.conditions c.assignments = true
        · rw [if_pos hc] at h
          obtain ⟨b, hb, h⟩ := Option.bind_eq_some_iff.mp h
          exact .inr ⟨le, te, b, hle, hl, ht, hs, hte, hc, hb, h⟩
        · simp [hc] at h
      · simp [ht, hs] at h
  · rintro (⟨le, k, j, te, hle, hl, hte, hc, h⟩ | ⟨le, te, b, hle, hl, ht, hs, hte, hc, hb, h⟩)
    · refine ⟨le, hle, ?_⟩
      simp only [hl, hte, Option.bind_some, hc, if_true]
      rw [nextTodo] at h
      exact h
    · refine ⟨le, hle, ?_⟩
      simp [hl, ht, hs, hte, hc, hb, h]

/-- What holds of every configuration a sequence of events leads to. -/
structure WellFormed (ss : SearchSpace) (c : Config) : Prop where
  active : ∀ x ∈ c.active, holds x c.assignments = true
  fired : ∀ p ∈ c.fired, p.1 < c.instances.length ∧ (ss.event (c.actionOf p.1) p.2).isSome
  todo : ∀ {a : Action} {k j : ℕ}, c.todo.lookup a = some (k, j) →
    j < c.instances.length ∧ c.actionOf j = a ∧ 1 ≤ k ∧ (ss.event a k).isSome

/-- Opening an instance of `a` and firing its first event keeps the invariant. -/
theorem WellFormed.open {e : Event} {le : List (Timing × Event)} {i : Instance}
    (h : WellFormed ss c) (hle : ss.events a = some le) (hi : i.action = a) (hpos : 0 < le.length)
    (hf : c.fire e (c.instances.length, 0)
      (if 1 < le.length then c.todo.insert a (1, c.instances.length) else c.todo)
      (c.instances ++ [i]) = some c') : WellFormed ss c' := by
  obtain ⟨removed, as, hr, ha, hc, rfl⟩ := fire_eq_some.mp hf
  refine ⟨hc, ?_, ?_⟩
  · intro p hp
    rcases List.mem_append.mp hp with hp | hp
    · have hh := h.fired p hp
      refine ⟨by simp; omega, ?_⟩
      rw [actionOf_append hh.1]
      exact hh.2
    · obtain rfl : p = (c.instances.length, 0) := by simpa using hp
      refine ⟨by simp, ?_⟩
      rw [actionOf_new, hi, event_isSome hle]
      exact hpos
  · intro b k j hb
    have hold : c.todo.lookup b = some (k, j) →
        j < (c.instances ++ [i]).length ∧ actionOf ⟨as, if 1 < le.length then
          c.todo.insert a (1, c.instances.length) else c.todo, removed + e.startConditions,
          c.instances ++ [i], c.fired ++ [(c.instances.length, 0)]⟩ j = b ∧ 1 ≤ k ∧
          (ss.event b k).isSome := by
      intro hb
      have hh := h.todo hb
      exact ⟨by simp; omega, by rw [actionOf_append hh.1]; exact hh.2.1, hh.2.2⟩
    by_cases hlen : 1 < le.length
    · by_cases hba : b = a
      · subst hba
        simp only [hlen, if_true, AList.lookup_insert, Option.some.injEq, Prod.mk.injEq] at hb
        obtain ⟨rfl, rfl⟩ := hb
        exact ⟨by simp, by rw [actionOf_new, hi], le_rfl, (event_isSome hle).mpr hlen⟩
      · exact hold (by simpa [hlen, AList.lookup_insert_ne hba] using hb)
    · exact hold (by simpa [hlen] using hb)

theorem WellFormed.step (h : WellFormed ss c) (hs : c.step ss a = some c') : WellFormed ss c' := by
  rcases step_eq_some.mp hs with ⟨le, k, j, te, hle, hl, hte, -, hf⟩ |
    ⟨le, te, b, hle, -, -, -, hte, -, -, hf⟩
  · obtain ⟨removed, as, hr, ha, hc, rfl⟩ := fire_eq_some.mp hf
    have hj := h.todo hl
    refine ⟨hc, ?_, ?_⟩
    · intro p hp
      rcases List.mem_append.mp hp with hp | hp
      · exact h.fired p hp
      · obtain rfl : p = (j, k) := by simpa using hp
        refine ⟨hj.1, ?_⟩
        change (ss.event (c.actionOf j) k).isSome = true
        rw [hj.2.1]
        exact hj.2.2.2
    · intro b k' j' hb
      rw [lookup_nextTodo] at hb
      split_ifs at hb with hba hlen
      · subst hba
        simp only [Option.some.injEq, Prod.mk.injEq] at hb
        obtain ⟨rfl, rfl⟩ := hb
        exact ⟨hj.1, hj.2.1, by omega, (event_isSome hle).mpr (by omega)⟩
      · exact h.todo hb
  · exact h.open hle rfl (List.getElem?_eq_some_iff.mp hte).1 hf

theorem fireRest_cons {te : Timing × Event} {rest : List (Timing × Event)} {j k : ℕ} :
    c.fireRest j (te :: rest) k = some c' ↔
      ∃ d, c.fire te.2 (j, k) c.todo c.instances = some d ∧ d.fireRest j rest (k + 1) = some c' := by
  rw [fireRest, Option.bind_eq_bind, Option.bind_eq_some_iff]

/-- Firing events of one instance leaves the other fields as they are. -/
theorem fireRest_spec {rest : List (Timing × Event)} {j k : ℕ}
    (h : c.fireRest j rest k = some c') : c'.todo = c.todo ∧ c'.instances = c.instances ∧
      c'.fired = c.fired ++ (List.range rest.length).map fun i => (j, k + i) := by
  induction rest generalizing c k with
  | nil =>
    obtain rfl := Option.some.inj h
    simp
  | cons te rest ih =>
    obtain ⟨d, hf, h⟩ := fireRest_cons.mp h
    obtain ⟨ht, hi, hd⟩ := ih h
    obtain ⟨removed, as, -, -, -, rfl⟩ := fire_eq_some.mp hf
    refine ⟨ht, hi, ?_⟩
    rw [hd, List.length_cons, List.range_succ_eq_map, List.map_cons, List.map_map,
      List.append_assoc]
    simp [Function.comp_def, add_assoc, add_comm 1]

theorem WellFormed.append {e : Event} {j k : ℕ} (h : WellFormed ss c)
    (hj : j < c.instances.length) (hk : (ss.event (c.actionOf j) k).isSome)
    (hf : c.fire e (j, k) c.todo c.instances = some c') : WellFormed ss c' := by
  obtain ⟨removed, as, hr, ha, hc, rfl⟩ := fire_eq_some.mp hf
  refine ⟨hc, fun p hp => ?_, h.todo⟩
  rcases List.mem_append.mp hp with hp | hp
  · exact h.fired p hp
  · obtain rfl := List.mem_singleton.mp hp
    exact ⟨hj, hk⟩

theorem WellFormed.erase (h : WellFormed ss c) (a : Action) :
    WellFormed ss { c with todo := c.todo.erase a } := by
  refine ⟨h.active, h.fired, fun {b k j} hb => ?_⟩
  by_cases hba : b = a
  · subst hba
    simp at hb
  · exact h.todo (by simpa [AList.lookup_erase_ne hba] using hb)

theorem WellFormed.rest {rest : List (Timing × Event)} {j k : ℕ} (h : WellFormed ss c)
    (hj : j < c.instances.length)
    (hk : ∀ i < rest.length, (ss.event (c.actionOf j) (k + i)).isSome)
    (hf : c.fireRest j rest k = some c') : WellFormed ss c' := by
  induction rest generalizing c k with
  | nil =>
    obtain rfl := Option.some.inj hf
    exact h
  | cons te rest ih =>
    obtain ⟨d, hd, hf⟩ := fireRest_cons.mp hf
    have hwd := h.append hj (by simpa using hk 0 (by simp)) hd
    obtain ⟨removed, as, -, -, -, rfl⟩ := fire_eq_some.mp hd
    refine ih hwd hj (fun i hi => ?_) hf
    have := hk (i + 1) (by simpa using hi)
    rwa [show k + 1 + i = k + (i + 1) by omega]

theorem stepWith_eq_some {b : Bool} : c.stepWith ss b a = some c' ↔
    (compresses ss b c a = false ∧ c.step ss a = some c') ∨
    (∃ d le, compresses ss b c a = true ∧ ss.events a = some le ∧ c.step ss a = some d ∧
      fireRest { d with todo := d.todo.erase a } c.instances.length le.tail 1 = some c') := by
  rw [stepWith, Option.bind_eq_bind, Option.bind_eq_some_iff]
  cases hc : compresses ss b c a with
  | false => simp
  | true =>
    simp only [if_true, reduceCtorEq, false_and, false_or, true_and]
    constructor
    · intro h
      obtain ⟨d, hd, h⟩ := h
      cases hle : ss.events a with
      | none => simp [compresses, hle] at hc
      | some le => exact ⟨d, le, rfl, hd, by simpa [hle] using h⟩
    · intro h
      obtain ⟨d, le, hle, hd, h⟩ := h
      exact ⟨d, hd, by simpa [hle] using h⟩

theorem stepWith_false : stepWith ss false = step ss := by
  funext c a
  rw [stepWith]
  simp

/-- What a compressed step opens: the first event of a new instance of an
action with several events. -/
theorem step_of_compresses {b : Bool} {d : Config} (hc : compresses ss b c a = true)
    (hs : c.step ss a = some d) : ∃ le te bounds, ss.events a = some le ∧ 1 < le.length ∧
      c.todo.lookup a = none ∧ le[0]? = some te ∧ ss.durationBounds a c.assignments = some bounds ∧
      c.fire te.2 (c.instances.length, 0) (c.todo.insert a (1, c.instances.length))
        (c.instances ++ [⟨a, bounds.1, bounds.2, false⟩]) = some d := by
  simp only [compresses, Bool.and_eq_true, Option.isNone_iff_eq_none, decide_eq_true_eq] at hc
  rcases step_eq_some.mp hs with ⟨le, k, j, te, hle, hl, -⟩ |
    ⟨le, te, bounds, hle, hl, -, -, hte, -, hb, hf⟩
  · rw [hc.1.2] at hl
    contradiction
  · have hlen : 1 < le.length := by simpa [hle] using hc.2
    rw [if_pos hlen] at hf
    exact ⟨le, te, bounds, hle, hlen, hl, hte, hb, hf⟩

/-- The instance a compressed step opens. -/
theorem opened_of_compresses {b : Bool} {d : Config} {le : List (Timing × Event)}
    (hc : compresses ss b c a = true) (hle : ss.events a = some le)
    (hs : c.step ss a = some d) : 1 < le.length ∧
      d.todo.lookup a = some (1, c.instances.length) ∧
      c.instances.length < d.instances.length ∧ d.actionOf c.instances.length = a := by
  obtain ⟨le', te, bounds, hle', hlen, hl, hte, -, hf⟩ := step_of_compresses hc hs
  obtain rfl := Option.some.inj (hle.symm.trans hle')
  obtain ⟨removed, as, -, -, -, rfl⟩ := fire_eq_some.mp hf
  exact ⟨hlen, AList.lookup_insert _, by simp, actionOf_new⟩

theorem WellFormed.stepWith {b : Bool} (h : WellFormed ss c) (hs : c.stepWith ss b a = some c') :
    WellFormed ss c' := by
  rcases stepWith_eq_some.mp hs with ⟨-, hs⟩ | ⟨d, le, hc, hle, hs, hf⟩
  · exact h.step hs
  · obtain ⟨hlen, -, hj, ha⟩ := opened_of_compresses hc hle hs
    refine ((h.step hs).erase a).rest hj (fun i hi => ?_) hf
    change (ss.event (d.actionOf c.instances.length) (1 + i)).isSome = true
    rw [ha, event_isSome hle]
    simp only [List.length_tail] at hi
    omega

theorem runWith_append {b : Bool} {as bs : List Action} :
    c.runWith ss b (as ++ bs) = (c.runWith ss b as).bind (fun d => d.runWith ss b bs) := by
  simp [runWith, List.foldlM_append]

theorem runWith_concat {b : Bool} {as : List Action} : c.runWith ss b (as ++ [a]) = some c' ↔
    ∃ d, c.runWith ss b as = some d ∧ d.stepWith ss b a = some c' := by
  rw [runWith_append, Option.bind_eq_some_iff]
  simp [runWith]

theorem runWith_cons {b : Bool} {as : List Action} : c.runWith ss b (a :: as) = some c' ↔
    ∃ d, c.stepWith ss b a = some d ∧ d.runWith ss b as = some c' := by
  simp [runWith, Option.bind_eq_some_iff]

theorem runWith_false : runWith ss false = run ss := by
  funext c as
  rw [runWith, run, stepWith_false]

theorem run_concat {as : List Action} : c.run ss (as ++ [a]) = some c' ↔
    ∃ d, c.run ss as = some d ∧ d.step ss a = some c' := by
  rw [← runWith_false, runWith_concat, stepWith_false]

theorem run_cons {as : List Action} : c.run ss (a :: as) = some c' ↔
    ∃ d, c.step ss a = some d ∧ d.run ss as = some c' := by
  rw [← runWith_false, runWith_cons, stepWith_false]

/-- A property every step preserves holds after every run. -/
theorem runWith_induct {b : Bool} {P : Config → Prop} {as : List Action}
    (hstep : ∀ {d d' : Config} {a : Action}, P d → d.stepWith ss b a = some d' → P d')
    (h : P c) (hr : c.runWith ss b as = some c') : P c' := by
  induction as generalizing c with
  | nil => simp_all [runWith]
  | cons a as ih =>
    obtain ⟨d, hd, hr⟩ := runWith_cons.mp hr
    exact ih (hstep h hd) hr

theorem WellFormed.runWith {b : Bool} {as : List Action} (h : WellFormed ss c)
    (hr : c.runWith ss b as = some c') : WellFormed ss c' :=
  runWith_induct WellFormed.stepWith h hr

theorem WellFormed.run {as : List Action} (h : WellFormed ss c) (hr : c.run ss as = some c') :
    WellFormed ss c' := by
  rw [← runWith_false] at hr
  exact h.runWith hr

theorem wellFormed_empty : WellFormed ss ⟨ss.initialState, ∅, 0, [], []⟩ :=
  ⟨fun x hx => absurd hx (Multiset.notMem_zero x), fun p hp => absurd hp List.not_mem_nil,
    fun h => by rw [AList.lookup_empty] at h; contradiction⟩

theorem initial_eq_some : initial ss = some c ↔
    (ss.timedAction = none ∧ c = ⟨ss.initialState, ∅, 0, [], []⟩) ∨
    (∃ a le te b, ss.timedAction = some a ∧ ss.events a = some le ∧ le[0]? = some te ∧
      holds te.2.conditions ss.initialState = true ∧
      ss.durationBounds a ss.initialState = some b ∧
      fire ⟨ss.initialState, ∅, 0, [], []⟩ te.2 (0, 0)
        (if 1 < le.length then AList.insert a (1, 0) ∅ else ∅) [⟨a, b.1, b.2, true⟩] = some c) := by
  unfold initial
  cases ht : ss.timedAction with
  | none =>
    constructor
    · exact fun h => .inl ⟨rfl, (Option.some.inj h).symm⟩
    · rintro (⟨-, rfl⟩ | ⟨_, _, _, _, h, _⟩)
      · rfl
      · contradiction
  | some a =>
    simp only [Option.bind_eq_bind, Option.bind_eq_some_iff, reduceCtorEq, false_and, false_or]
    constructor
    · rintro ⟨le, hle, te, hte, h⟩
      by_cases hc : holds te.2.conditions ss.initialState = true
      · rw [if_pos hc] at h
        obtain ⟨b, hb, h⟩ := Option.bind_eq_some_iff.mp h
        exact ⟨a, le, te, b, rfl, hle, hte, hc, hb, h⟩
      · simp [hc] at h
    · rintro ⟨a', le, te, b, ha, hle, hte, hc, hb, h⟩
      obtain rfl := Option.some.inj ha
      exact ⟨le, hle, te, hte, by rw [if_pos hc]; exact Option.bind_eq_some_iff.mpr ⟨b, hb, h⟩⟩

theorem wellFormed_initial (h : initial ss = some c) : WellFormed ss c := by
  rcases initial_eq_some.mp h with ⟨-, rfl⟩ | ⟨a, le, te, b, -, hle, hte, -, -, hf⟩
  · exact wellFormed_empty
  · exact wellFormed_empty.open hle rfl (List.getElem?_eq_some_iff.mp hte).1 hf

theorem Reachable.wellFormed {b : Bool} (h : Reachable ss b c) : WellFormed ss c := by
  obtain ⟨c₀, as, h₀, hr⟩ := h
  exact (wellFormed_initial h₀).runWith hr

/-- What every event keeps of the assignments and the active conditions. -/
theorem Reachable.fire_induct {b : Bool} {P : Assignments → Multiset Expression → Prop}
    (h₀ : P ss.initialState 0)
    (hfire : ∀ {d d' : Config} {a : Action} {k : ℕ} {te : Timing × Event} {p : ℕ × ℕ}
      {todo : AList (fun _ : Action => ℕ × ℕ)} {is : List Instance}, ss.event a k = some te →
      P d.assignments d.active → d.fire te.2 p todo is = some d' → P d'.assignments d'.active)
    (h : Reachable ss b c) : P c.assignments c.active := by
  have hstep : ∀ {d d' : Config} {a : Action}, P d.assignments d.active → d.step ss a = some d' →
      P d'.assignments d'.active := by
    intro d d' a hd hs
    rcases step_eq_some.mp hs with
      ⟨le, k, j, te, hle, -, hte, -, hf⟩ | ⟨le, te, b, hle, -, -, -, hte, -, -, hf⟩
    · exact hfire (by rw [event_eq hle, hte]) hd hf
    · exact hfire (by rw [event_eq hle, hte]) hd hf
  have hrest : ∀ {d d' : Config} {a : Action} {le rest : List (Timing × Event)} {j k : ℕ},
      ss.events a = some le → rest = le.drop k → P d.assignments d.active →
      d.fireRest j rest k = some d' → P d'.assignments d'.active := by
    intro d d' a le rest j k hle hrest hd hf
    induction rest generalizing d k with
    | nil => exact Option.some.inj hf ▸ hd
    | cons te rest ih =>
      obtain ⟨e, he, hf⟩ := fireRest_cons.mp hf
      have hte : le[k]? = some te := by
        have := congrArg (fun l => l[0]?) hrest
        simpa using this.symm
      have hdrop : rest = le.drop (k + 1) := by simpa using congrArg List.tail hrest
      exact ih hdrop (hfire (by rw [event_eq hle, hte]) hd he) hf
  obtain ⟨c₀, as, hc₀, hr⟩ := h
  refine runWith_induct (P := fun d => P d.assignments d.active) (fun {d d' a} hd hs => ?_) ?_ hr
  · rcases stepWith_eq_some.mp hs with ⟨-, hs⟩ | ⟨e, le, -, hle, hs, hf⟩
    · exact hstep hd hs
    · have he : P e.assignments e.active := hstep hd hs
      exact hrest (d := { e with todo := e.todo.erase a }) hle List.drop_one.symm he hf
  · rcases initial_eq_some.mp hc₀ with ⟨-, rfl⟩ | ⟨a, le, te, b, -, hle, hte, -, -, hf⟩
    · exact h₀
    · exact hfire (d := ⟨ss.initialState, ∅, 0, [], []⟩) (by rw [event_eq hle, hte]) h₀ hf

end Config

end TamerLite
