import TamerLite.ActiveConditions
import TamerLite.EvaluatorAgreement
import TamerLite.HMaxRounds

/-! `HMaxExplicit` on the states of a plan: round by round the value sets contain
what the plan's states hold, so the goals can be true after no more rounds than
the plan has events. -/

namespace TamerLite

open Enumeration Exploration SearchSpace

/-- The encoding a heuristic is built from: the events of the search space, with
typed effects and Boolean conditions. -/
structure Encoding (ss : SearchSpace) (events : List (Action × List (Timing × Event)))
    (fluents : List ValueType) : Prop where
  events_iff : ∀ {a le}, (a, le) ∈ events ↔ ss.events a = some le
  typed : ss.WellTyped fluents
  conditions : ∀ {a k te}, ss.event a k = some te → Conjunction fluents te.2.conditions
  endConditions : ∀ {a k te}, ss.event a k = some te →
    ∀ c ∈ te.2.endConditions, Conjunction fluents c
  goal : Conjunction fluents ss.goal

/-- The heuristic of the encoding. -/
def SearchSpace.hmaxExplicit (ss : SearchSpace) (events : List (Action × List (Timing × Event))) :
    HMaxExplicit :=
  .new ss.initialState.length events ss.goal ss.timedAction

section States

variable {ss : SearchSpace} {fluents : List ValueType} {c c' : Config} {a : Action}

/-! ### The types of a state -/

section

variable [Callables]

theorem evaluate_type {exp : Expression} {as : Assignments} {t : ValueType} {v : ConstantNode}
    (has : as.map ConstantNode.type = fluents) (ht : typeOf fluents exp = some t)
    (h : evaluate exp as = some v) : v.type = t := by
  rw [← Core.evaluate_python] at h
  refine type_of_evalNodes (fun f t w hf hw => ?_) ht h
  have hw' : as[f.idx]? = some w := hw
  rw [← has, List.getElem?_map, hw'] at hf
  exact Option.some.inj hf

theorem applyEffects_types {effects : List Effect} {old new as : Assignments}
    (he : ∀ eff ∈ effects, ∃ t, fluents[eff.fluent.idx]? = some t ∧
      typeOf fluents eff.value = some t)
    (hold : old.map ConstantNode.type = fluents) (hnew : new.map ConstantNode.type = fluents)
    (h : applyEffects effects old new = some as) : as.map ConstantNode.type = fluents := by
  induction effects generalizing new with
  | nil => exact Option.some.inj h ▸ hnew
  | cons eff effects ih =>
    obtain ⟨v, hv, h⟩ := applyEffects_cons.mp h
    refine ih (fun e hm => he e (List.mem_cons_of_mem eff hm)) ?_ h
    obtain ⟨t, hf, ht⟩ := he eff List.mem_cons_self
    obtain ⟨hlt, htf⟩ := List.getElem?_eq_some_iff.mp hf
    rw [List.map_set, hnew, evaluate_type hold ht hv, ← htf]
    exact List.set_getElem_self hlt

theorem fire_types {e : Event} {p : ℕ × ℕ} {todo : AList (fun _ : Action => ℕ × ℕ)}
    {is : List Instance} (he : ∀ eff ∈ e.effects, ∃ t, fluents[eff.fluent.idx]? = some t ∧
      typeOf fluents eff.value = some t) (hc : c.assignments.map ConstantNode.type = fluents)
    (hf : c.fire e p todo is = some c') : c'.assignments.map ConstantNode.type = fluents := by
  obtain ⟨removed, as, -, has, -, rfl⟩ := Config.fire_eq_some.mp hf
  exact applyEffects_types he hc hc has

theorem step_types (hss : ss.WellTyped fluents)
    (hc : c.assignments.map ConstantNode.type = fluents) (hs : c.step ss a = some c') :
    c'.assignments.map ConstantNode.type = fluents := by
  rcases Config.step_eq_some.mp hs with ⟨le, k, j, te, hle, -, hte, -, hf⟩ |
    ⟨le, te, b, hle, -, -, -, hte, -, -, hf⟩
  · exact fire_types (hss.effects (by rw [Config.event_eq hle, hte])) hc hf
  · exact fire_types (hss.effects (by rw [Config.event_eq hle, hte])) hc hf

theorem Config.Reachable.types {b : Bool} (hss : ss.WellTyped fluents)
    (h : Config.Reachable ss b c) : c.assignments.map ConstantNode.type = fluents :=
  h.fire_induct (P := fun as _ => as.map ConstantNode.type = fluents) hss.initial
    fun hev hd hf => fire_types (hss.effects hev) hd hf

end

/-! ### What the value sets cover -/

section

variable [Callables]

/-- The event an action has fired last; its last one when it is not running. -/
def lastFired (c : Config) (a : Action) (n : ℕ) : ℕ :=
  match c.todo.lookup a with
  | none => n - 1
  | some (k, _) => k - 1

/-- The value sets contain what a configuration holds, and the extra fluents its
progress. -/
structure Covers (hm : HMaxExplicit) (assignments : ValueSets) (c : Config) : Prop where
  values : ∀ f v, getValue c.assignments f = some v → v ∈ assignments f
  progress : ∀ {base a le}, (base, a, le) ∈ hm.layout →
    .bool true ∈ assignments ⟨base + lastFired c a le.length⟩

/-- A step fires one event, whose conditions hold, and records it. -/
theorem step_fires (hwf : c.WellFormed ss) (hs : c.step ss a = some c') :
    ∃ le k te, ss.events a = some le ∧ le[k]? = some te ∧ (k = 0 → ss.timedAction ≠ some a) ∧
      holds te.2.conditions c.assignments = true ∧
      (∀ x ∈ te.2.endConditions, holds x c.assignments = true) ∧
      applyEffects te.2.effects c.assignments c.assignments = some c'.assignments ∧
      lastFired c a le.length = (if k = 0 then le.length - 1 else k - 1) ∧
      lastFired c' a le.length = k ∧ ∀ b n, b ≠ a → lastFired c' b n = lastFired c b n := by
  have hend : ∀ {e : Event} {removed : Multiset Expression},
      removeAll e.endConditions c.active = some removed →
      ∀ x ∈ e.endConditions, holds x c.assignments = true := by
    intro e removed hr x hx
    refine hwf.active x ?_
    rw [← removeAll_add hr]
    exact Multiset.mem_add.mpr (.inr hx)
  rcases Config.step_eq_some.mp hs with ⟨le, k, j, te, hle, hl, hte, hcond, hf⟩ |
    ⟨le, te, b, hle, hl, ht, -, hte, hcond, -, hf⟩
  · obtain ⟨removed, as, hr, has, -, rfl⟩ := Config.fire_eq_some.mp hf
    have hk := (hwf.todo hl).2.2.1
    have hlt := (List.getElem?_eq_some_iff.mp hte).1
    refine ⟨le, k, te, hle, hte, by omega, hcond, hend hr, has, ?_, ?_, fun b n hb => ?_⟩
    · rw [lastFired, hl, if_neg (by omega)]
    · rw [lastFired, Config.lookup_nextTodo, if_pos rfl]
      split_ifs with hn
      · show le.length - 1 = k
        omega
      · rfl
    · rw [lastFired, Config.lookup_nextTodo, if_neg hb, lastFired]
  · obtain ⟨removed, as, hr, has, -, rfl⟩ := Config.fire_eq_some.mp hf
    have hlt := (List.getElem?_eq_some_iff.mp hte).1
    refine ⟨le, 0, te, hle, hte, fun _ => ht, hcond, hend hr, has, ?_, ?_, fun b n hb => ?_⟩
    · rw [lastFired, hl, if_pos rfl]
    · rw [lastFired]
      split_ifs with hn
      · rw [AList.lookup_insert]
      · rw [hl]
        show le.length - 1 = 0
        omega
    · rw [lastFired, lastFired]
      split_ifs with hn
      · rw [AList.lookup_insert_ne hb]
      · rfl

end

/-! ### Covered states -/

theorem lookup_zip_map {fluents : List Fluent} (g : Fluent → ConstantNode) {f : Fluent}
    (hf : f ∈ fluents) : (fluents.zip (fluents.map g)).lookup f = some (g f) := by
  induction fluents with
  | nil => contradiction
  | cons h fluents ih =>
    rw [List.map_cons, List.zip_cons_cons, List.lookup_cons]
    by_cases hfh : f = h
    · rw [hfh, beq_self_eq_true]
    · rw [beq_eq_false_iff_ne.mpr hfh]
      exact ih ((List.mem_cons.mp hf).resolve_left hfh)

section

variable [Callables]

theorem exists_of_evalNodes {get : Fluent → Option ConstantNode} {exp : Expression}
    {res r : List ConstantNode} (h : evalNodes get exp res = some r) {f : Fluent}
    (hf : f ∈ getFluents exp) : ∃ w, get f = some w := by
  induction exp generalizing res with
  | nil => contradiction
  | cons e exp ih =>
    obtain ⟨res', he, h⟩ := Option.bind_eq_some_iff.mp h
    rcases List.mem_cons.mp (mem_getFluents.mp hf) with rfl | hm
    · obtain ⟨w, hw, -⟩ := Option.map_eq_some_iff.mp he
      exact ⟨w, hw⟩
    · exact ih h (mem_getFluents.mpr hm)

end

variable {assignments assignments' : ValueSets}

section

variable [Callables]

/-- An expression can take the value it has in a state whose values are there. -/
theorem canBe_of_evaluate {exp : Expression} {as : Assignments} {v : ConstantNode}
    (hv : ∀ f w, getValue as f = some w → w ∈ assignments f) (h : evaluate exp as = some v) :
    CanBe .python exp assignments v := by
  let g : Fluent → ConstantNode := fun f => (getValue as f).getD (.bool true)
  have hg : ∀ f ∈ getFluents exp, getValue as f = some (g f) := by
    intro f hf
    obtain ⟨r, hr, -⟩ := Option.bind_eq_some_iff.mp h
    obtain ⟨w, hw⟩ := exists_of_evalNodes hr hf
    simp only [g, hw, Option.getD_some]
  refine ⟨(dedupFluents exp).map g, ?_, ?_⟩
  · rw [combinations, mem_product, List.forall₂_map_left_iff, List.forall₂_map_right_iff,
      List.forall₂_same]
    exact fun f hf => hv f _ (hg f (mem_dedupFluents.mp hf))
  · have hget : ∀ f ∈ getFluents exp,
        ((dedupFluents exp).zip ((dedupFluents exp).map g)).lookup f = getValue as f := fun f hf => by
      rw [lookup_zip_map g (mem_dedupFluents.mpr hf), hg f hf]
    rw [evaluateOn, Core.evalNodes_python, evalNodes_congr exp hget]
    exact h

end

variable {events : List (Action × List (Timing × Event))}

theorem mem_layout {n base : ℕ} {le : List (Timing × Event)} (h : (base, a, le) ∈ layout n events) :
    n ≤ base ∧ (a, le) ∈ events := by
  induction events generalizing n with
  | nil => contradiction
  | cons p events ih =>
    rcases List.mem_cons.mp h with heq | h
    · obtain ⟨rfl, rfl⟩ : base = n ∧ (a, le) = p := Prod.mk.inj heq
      exact ⟨le_rfl, List.mem_cons_self⟩
    · obtain ⟨hn, hm⟩ := ih h
      exact ⟨by omega, List.mem_cons_of_mem p hm⟩

theorem exists_layout {le : List (Timing × Event)} (h : (a, le) ∈ events) (n : ℕ) :
    ∃ base, (base, a, le) ∈ layout n events := by
  induction events generalizing n with
  | nil => contradiction
  | cons p events ih =>
    rcases List.mem_cons.mp h with rfl | h
    · exact ⟨n, List.mem_cons_self⟩
    · obtain ⟨base, hb⟩ := ih h (n + p.2.length)
      exact ⟨base, List.mem_cons_of_mem _ hb⟩

theorem mem_operators {o : OperatorHmax} : o ∈ (ss.hmaxExplicit events).operators ↔
    ∃ base a le k te, (base, a, le) ∈ layout ss.initialState.length events ∧ le[k]? = some te ∧
      eventOperator ss.timedAction base a le k te.2 = some o := by
  constructor
  · intro ho
    obtain ⟨⟨base, a, le⟩, hp, ho⟩ := List.mem_flatMap.mp ho
    obtain ⟨⟨te, k⟩, hq, ho⟩ := List.mem_filterMap.mp ho
    exact ⟨base, a, le, k, te, hp, List.mem_zipIdx_iff_getElem?.mp hq, ho⟩
  · rintro ⟨base, a, le, k, te, hp, hte, ho⟩
    exact List.mem_flatMap.mpr ⟨(base, a, le), hp,
      List.mem_filterMap.mpr ⟨(te, k), List.mem_zipIdx_iff_getElem?.mpr hte, ho⟩⟩

section

variable [Callables]

/-- A conjunction that holds in a covered state can be `True`. -/
theorem canBe_true (has : c.assignments.map ConstantNode.type = fluents)
    (hv : ∀ f w, getValue c.assignments f = some w → w ∈ assignments f) {exp : Expression}
    (hc : Conjunction fluents exp) (hh : holds exp c.assignments = true) :
    CanBe .python exp assignments (.bool true) := by
  obtain ⟨v, he, htruthy⟩ := (Option.any_eq_true _ _).mp hh
  have htype : v.type = .bool := by
    have h := he
    rw [← Core.evaluate_python] at h
    refine hc.type_eq (fun f t w hf hw => ?_) h
    have hw' : c.assignments[f.idx]? = some w := hw
    rw [← has, List.getElem?_map, hw'] at hf
    exact Option.some.inj hf
  cases v with
  | num | object => contradiction
  | bool b =>
    obtain rfl : b = true := htruthy
    exact canBe_of_evaluate hv he

theorem canBe_fluent {f : Fluent} {v : ConstantNode} (h : v ∈ assignments f) :
    CanBe .python [.fluent f] assignments v := by
  refine ⟨[v], ?_, ?_⟩
  · rw [combinations, mem_product]
    exact .cons h .nil
  · simp [evaluateOn, Core.evalNodes, Core.evalNode, evalNode, dedupFluents, getFluents,
      List.eraseDups_cons]

theorem canBe_constant (v : ConstantNode) : CanBe .python [.constant v] assignments v := by
  refine ⟨[], ?_, ?_⟩
  · simp [combinations, dedupFluents, getFluents, product]
  · simp [evaluateOn, Core.evalNodes, Core.evalNode, evalNode]

/-- The conditions of an event hold one by one where the event can be fired. -/
theorem eventConditions_hold (henc : Encoding ss events fluents) {k : ℕ} {te : Timing × Event}
    (hte : ss.event a k = some te) {as : Assignments} (hcond : holds te.2.conditions as = true)
    (hend : ∀ x ∈ te.2.endConditions, holds x as = true) {exp : Expression}
    (hexp : exp ∈ eventConditions te.2) : Conjunction fluents exp ∧ holds exp as = true := by
  obtain ⟨x, hx, hexp⟩ := List.mem_flatMap.mp hexp
  have hx' := List.mem_of_mem_filter hx
  rw [getEventConditions, List.mem_eraseDups] at hx'
  have hxc : Conjunction fluents x ∧ holds x as = true := by
    rcases List.mem_append.mp hx' with hx' | hx'
    · have hc := henc.conditions hte
      exact ⟨hc.of_split hx', hc.holds_split hcond hx'⟩
    · exact ⟨henc.endConditions hte x hx', hend x hx'⟩
  exact ⟨hxc.1.of_split hexp, hxc.1.holds_split hxc.2 hexp⟩

/-- A value is what it was before, or what an effect gives. -/
theorem applyEffects_value {effects : List Effect} {old new as : Assignments}
    (h : applyEffects effects old new = some as) {f : Fluent} {v : ConstantNode}
    (hv : getValue as f = some v) :
    f ∉ effects.map Effect.fluent ∧ getValue new f = some v ∨
      ∃ eff ∈ effects, eff.fluent = f ∧ evaluate eff.value old = some v := by
  induction effects generalizing new with
  | nil => exact .inl ⟨List.not_mem_nil, Option.some.inj h ▸ hv⟩
  | cons eff effects ih =>
    obtain ⟨w, hw, h⟩ := applyEffects_cons.mp h
    rcases ih h with ⟨hnot, hset⟩ | ⟨e, he, hf⟩
    · by_cases hidx : eff.fluent.idx = f.idx
      · have hfe : eff.fluent = f := congrArg Fluent.mk hidx
        rw [getValue, hfe] at hset
        obtain ⟨-, hwv⟩ := List.getElem?_set_self'.symm.trans hset |> fun h => by
          simpa [Option.map_eq_some_iff] using h
        exact .inr ⟨eff, List.mem_cons_self, hfe, hwv ▸ hw⟩
      · rw [getValue, List.getElem?_set_ne hidx] at hset
        refine .inl ⟨fun hmem => ?_, hset⟩
        rcases List.mem_cons.mp hmem with rfl | hmem
        · exact hidx rfl
        · exact hnot hmem
    · exact .inr ⟨e, List.mem_cons_of_mem eff he, hf⟩

/-- A round keeps the sets typed. -/
theorem SetsTyped.round (henc : Encoding ss events fluents)
    (hs : SetsTyped fluents assignments)
    (hr : HMaxExplicit.Round (ss.hmaxExplicit events) .python assignments assignments') :
    SetsTyped fluents assignments' := by
  intro f v hv
  rcases hr.only f v hv with hv | ⟨o, ho, eff, he, rfl, hcan⟩
  · exact hs f v hv
  · obtain ⟨base, a, le, k, te, hp, hte, ho⟩ := mem_operators.mp ho
    obtain ⟨-, rfl⟩ := eventOperator_eq_some.mp ho
    obtain ⟨hbase, hmem⟩ := mem_layout hp
    rcases List.mem_cons.mp he with rfl | he
    · have hnone : fluents[base + k]? = none := by
        rw [List.getElem?_eq_none_iff, ← henc.typed.initial, List.length_map]
        omega
      rw [hnone]
      exact hcan.type_eq hs rfl
    · have hle := henc.events_iff.mp hmem
      obtain ⟨t, hf, ht⟩ := henc.typed.effects (by rw [Config.event_eq hle, hte]) eff he
      rw [hf]
      exact hcan.type_eq hs ht

/-- The operator of an event that is fired is enabled. -/
theorem exists_enabled (henc : Encoding ss events fluents)
    (has : c.assignments.map ConstantNode.type = fluents)
    (hcov : Covers (ss.hmaxExplicit events) assignments c) {base k : ℕ}
    {le : List (Timing × Event)} {te : Timing × Event}
    (hp : (base, a, le) ∈ layout ss.initialState.length events) (hle : ss.events a = some le)
    (hte : le[k]? = some te) (htimed : k = 0 → ss.timedAction ≠ some a)
    (hcond : holds te.2.conditions c.assignments = true)
    (hend : ∀ x ∈ te.2.endConditions, holds x c.assignments = true)
    (hlast : lastFired c a le.length = if k = 0 then le.length - 1 else k - 1) :
    ∃ o ∈ (ss.hmaxExplicit events).operators, AllCan .python o.conditions assignments ∧
      o.effects = ⟨⟨base + k⟩, [.constant (.bool true)]⟩ :: te.2.effects := by
  have hev : ss.event a k = some te := by rw [Config.event_eq hle, hte]
  have hall : ∀ exp ∈ eventConditions te.2,
      Conjunction fluents exp ∧ holds exp c.assignments = true :=
    fun _ hexp => eventConditions_hold henc hev hcond hend hexp
  have hfalse : [.constant (.bool false)] ∉ eventConditions te.2 := by
    intro hmem
    have hh := (hall _ hmem).2
    simp [holds, evaluate, evalNodes, evalNode, ConstantNode.truthy] at hh
  have hlt := (List.getElem?_eq_some_iff.mp hte).1
  refine ⟨_, mem_operators.mpr ⟨base, a, le, k, te, hp, hte, eventOperator_eq_some.mpr
    ⟨⟨hfalse, fun h => htimed h.1 h.2⟩, rfl⟩⟩, fun exp hexp => ?_, rfl⟩
  rcases List.mem_cons.mp hexp with rfl | hexp
  · refine canBe_fluent ?_
    have hprog := hcov.progress hp
    have hprev : previousFluent base le.length k = ⟨base + lastFired c a le.length⟩ := by
      rw [previousFluent, hlast]
      split_ifs
      · exact congrArg Fluent.mk (by omega)
      · exact congrArg Fluent.mk (by omega)
    rw [hprev]
    exact hprog
  · obtain ⟨hc, hh⟩ := hall exp hexp
    exact canBe_true has hcov.values hc hh

/-- After a round the value sets cover the next state too. -/
theorem Covers.step (henc : Encoding ss events fluents) (hwf : c.WellFormed ss)
    (has : c.assignments.map ConstantNode.type = fluents)
    (hs : SetsTyped fluents assignments)
    (hr : HMaxExplicit.Round (ss.hmaxExplicit events) .python assignments assignments')
    (hcov : Covers (ss.hmaxExplicit events) assignments c) (hstep : c.step ss a = some c') :
    Covers (ss.hmaxExplicit events) assignments' c' := by
  obtain ⟨le, k, te, hle, hte, htimed, hcond, hend, happ, hlast, hlast', hother⟩ :=
    step_fires hwf hstep
  have htyped := hs.round henc hr
  have has' := step_types henc.typed has hstep
  have henabled := fun {base} (hp : (base, a, le) ∈ layout ss.initialState.length events) =>
    exists_enabled henc has hcov hp hle hte htimed hcond hend hlast
  refine ⟨fun f v hv => ?_, fun {base b le'} hp => ?_⟩
  · rcases applyEffects_value happ hv with ⟨-, hold⟩ | ⟨eff, he, rfl, hev⟩
    · exact (hr.grown f).subset (hcov.values f v hold)
    · obtain ⟨base, hp⟩ := exists_layout (henc.events_iff.mpr hle) ss.initialState.length
      obtain ⟨o, ho, hall, heff⟩ := henabled hp
      refine (hr.all o ho hall eff (by rw [heff]; exact List.mem_cons_of_mem _ he) v
        (canBe_of_evaluate hcov.values hev)).mem htyped ?_
      have hv' : c'.assignments[eff.fluent.idx]? = some v := hv
      rw [← has', List.getElem?_map, hv']
      rfl
  · by_cases hb : b = a
    · subst hb
      obtain rfl : le = le' := Option.some.inj
        (hle.symm.trans (henc.events_iff.mp (mem_layout hp).2))
      obtain ⟨o, ho, hall, heff⟩ := henabled hp
      rw [hlast']
      refine (hr.all o ho hall _ (by rw [heff]; exact List.mem_cons_self) (.bool true) ?_).mem
        htyped ?_
      · exact canBe_constant _
      · have hnone : fluents[base + k]? = none := by
          rw [List.getElem?_eq_none_iff, ← henc.typed.initial, List.length_map]
          have := (mem_layout hp).1
          omega
        rw [hnone]
        rfl
    · rw [hother b _ hb]
      exact (hr.grown _).subset (hcov.progress hp)

/-- A goal configuration makes every goal possible. -/
theorem Covers.goals (henc : Encoding ss events fluents)
    (has : c.assignments.map ConstantNode.type = fluents)
    (hcov : Covers (ss.hmaxExplicit events) assignments c) (hg : c.goalReached ss = true) :
    AllCan .python (ss.hmaxExplicit events).goals assignments := by
  obtain ⟨hempty, hgoal⟩ := Bool.and_eq_true_iff.mp hg
  intro exp hexp
  rcases List.mem_append.mp hexp with hexp | hexp
  · exact canBe_true has hcov.values (henc.goal.of_split hexp) (henc.goal.holds_split hgoal hexp)
  · obtain ⟨⟨base, a, le⟩, hp, rfl⟩ := List.mem_map.mp hexp
    refine canBe_fluent ?_
    have hlast : lastFired c a le.length = le.length - 1 := by
      rw [lastFired, isEmpty_entries_iff.mp hempty a]
    have hne := List.length_pos_iff.mpr
      (ss.events_numbered (henc.events_iff.mp (mem_layout hp).2)).1
    have hprog := hcov.progress hp
    rw [hlast, ← Nat.add_sub_assoc hne] at hprog
    exact hprog

/-- Sets a round leaves alone cover every state of a plan. -/
theorem Covers.run (henc : Encoding ss events fluents) (hwf : c.WellFormed ss)
    (has : c.assignments.map ConstantNode.type = fluents) (hs : SetsTyped fluents assignments)
    (hr : HMaxExplicit.Round (ss.hmaxExplicit events) .python assignments assignments)
    (hcov : Covers (ss.hmaxExplicit events) assignments c) {as : List Action}
    (hrun : c.run ss as = some c') : Covers (ss.hmaxExplicit events) assignments c' ∧
      c'.assignments.map ConstantNode.type = fluents := by
  induction as generalizing c with
  | nil => exact Option.some.inj hrun ▸ ⟨hcov, has⟩
  | cons a as ih =>
    obtain ⟨d, hd, hrun⟩ := Config.run_cons.mp hrun
    exact ih (hwf.step hd) (step_types henc.typed has hd) (hcov.step henc hwf has hs hr hd) hrun

/-- The naive loop answers no later than a plan reaches the goal. -/
theorem exists_depth {order : SetOrder} (henc : Encoding ss events fluents) {n : NaiveLoop}
    (hdef : ∀ k m, iterate ((ss.hmaxExplicit events).naiveTurn .python order) k (.inr n) = .inr m →
      ∀ exp ∈ (ss.hmaxExplicit events).expressions, DefinedOn .python exp m.assignments)
    (hne : n.changes ≠ []) (hwf : c.WellFormed ss)
    (has : c.assignments.map ConstantNode.type = fluents) (hs : SetsTyped fluents n.assignments)
    (hcov : Covers (ss.hmaxExplicit events) n.assignments c) {as : List Action}
    (hrun : c.run ss as = some c') (hg : c'.goalReached ss = true) :
    ∃ d ≤ as.length, iterate ((ss.hmaxExplicit events).naiveTurn .python order) (d + 1) (.inr n) =
      .inl (some (some (n.depth + d))) := by
  induction as generalizing c n with
  | nil =>
    obtain rfl := Option.some.inj hrun
    rcases HMaxExplicit.naiveTurn_spec order (hdef 0 n rfl) hne with ⟨-, heq⟩ | ⟨hnot, -⟩
    · exact ⟨0, le_rfl, by rw [iterate, heq]; rfl⟩
    · exact absurd (hcov.goals henc has hg) hnot
  | cons a as ih =>
    rcases HMaxExplicit.naiveTurn_spec order (hdef 0 n rfl) hne with
      ⟨-, heq⟩ | ⟨hnot, n', heq, hdepth, hround, hstop⟩
    · exact ⟨0, Nat.zero_le _, by rw [iterate, heq]; rfl⟩
    · obtain ⟨e, he, hrun'⟩ := Config.run_cons.mp hrun
      by_cases hne' : n'.changes = []
      · -- nothing changed: the sets already cover the goal state
        rw [hstop hne'] at hround
        obtain ⟨hcov', has'⟩ := hcov.run henc hwf has hs hround hrun
        exact absurd (hcov'.goals henc has' hg) hnot
      · obtain ⟨d, hd, hit⟩ := ih (n := n') (fun k m hk => hdef (k + 1) m (by rw [iterate, heq, hk]))
          hne' (hwf.step he) (step_types henc.typed has he) (hs.round henc hround)
          (hcov.step henc hwf has hs hround he) hrun'
        refine ⟨d + 1, Nat.succ_le_succ hd, ?_⟩
        rw [iterate, heq, hit, hdepth]
        congr 3
        omega

end

/-! ### The start -/

theorem mem_initialAssignments {s : State} {core : Core} {f : Fluent} {v : ConstantNode}
    (h : s.assignments[f.idx]? = some v) :
    v ∈ (ss.hmaxExplicit events).initialAssignments core s f := by
  rw [HMaxExplicit.initialAssignments, h]
  show v ∈ addAll core.key [v] ((ss.hmaxExplicit events).extraValues s f)
  exact prefix_addAll.subset (List.mem_singleton.mpr rfl)

theorem mem_extraValues {s : State} {f : Fluent} {v : ConstantNode} :
    v ∈ (ss.hmaxExplicit events).extraValues s f ↔
      ∃ base a le, (base, a, le) ∈ layout ss.initialState.length events ∧
        base ≤ f.idx ∧ f.idx < base + le.length ∧
        v = .bool (f.idx - base + 1 = match s.todo.lookup a with
          | none => le.length
          | some (j, _) => j) := by
  simp only [HMaxExplicit.extraValues, List.mem_filterMap, Prod.exists]
  refine exists_congr fun base => exists_congr fun a => exists_congr fun le => ?_
  refine and_congr Iff.rfl ?_
  split_ifs with hin
  · rw [Option.some.injEq, eq_comm]
    exact ⟨fun h => ⟨hin.1, hin.2, h⟩, fun h => h.2.2⟩
  · exact ⟨fun h => by contradiction, fun h => absurd ⟨h.1, h.2.1⟩ hin⟩

theorem setsTyped_start (henc : Encoding ss events fluents) {s : State}
    (has : s.assignments.map ConstantNode.type = fluents) :
    SetsTyped fluents ((ss.hmaxExplicit events).initialAssignments .python s) := by
  intro f v hv
  rcases mem_of_addAll hv with hv | hv
  · contradiction
  rcases List.mem_append.mp hv with hv | hv
  · have hf : s.assignments[f.idx]? = some v := by simpa using hv
    rw [← has, List.getElem?_map, hf]
    rfl
  · obtain ⟨base, a, le, hp, hbase, -, rfl⟩ := mem_extraValues.mp hv
    have hnone : fluents[f.idx]? = none := by
      rw [List.getElem?_eq_none_iff, ← henc.typed.initial, List.length_map]
      have := (mem_layout hp).1
      omega
    rw [hnone]
    rfl

theorem changes_ne_nil (h : ss.initialState ≠ [] ∨ events ≠ []) (henc : Encoding ss events fluents)
    (core : Core) (s : State) : ((ss.hmaxExplicit events).naiveStart core s).changes ≠ [] := by
  have hpos : 0 < (ss.hmaxExplicit events).numFluents := by
    show 0 < ss.initialState.length + (events.map fun p => p.2.length).sum
    rcases h with h | h
    · have := List.length_pos_iff.mpr h
      omega
    · obtain ⟨⟨a, le⟩, rest, rfl⟩ := List.exists_cons_of_ne_nil h
      have := List.length_pos_iff.mpr
        (ss.events_numbered (henc.events_iff.mp List.mem_cons_self)).1
      simp only [List.map_cons, List.sum_cons]
      omega
  intro hnil
  have hlen := congrArg List.length hnil
  simp only [HMaxExplicit.naiveStart, List.length_map, List.length_range, List.length_nil] at hlen
  omega

variable [Callables]

theorem covers_start (henc : Encoding ss events fluents) (hwf : c.WellFormed ss) {s : State}
    (has : s.assignments.map ConstantNode.type = fluents) (hshow : Shows s c) :
    Covers (ss.hmaxExplicit events)
      ((ss.hmaxExplicit events).initialAssignments .python s) c := by
  refine ⟨fun f v hv => ?_, fun {base a le} hp => ?_⟩
  · rw [← hshow.assignments] at hv
    exact mem_initialAssignments hv
  · have hbase := (mem_layout hp).1
    have hle := henc.events_iff.mp (mem_layout hp).2
    have hne := List.length_pos_iff.mpr (ss.events_numbered hle).1
    have hfired : ∃ j, (match s.todo.lookup a with
        | none => le.length
        | some (j, _) => j) = j ∧ lastFired c a le.length = j - 1 ∧ 1 ≤ j ∧ j ≤ le.length := by
      have ht := hshow.next a
      cases hc : c.todo.lookup a with
      | none =>
        rw [hc, Option.map_none, Option.map_eq_none_iff] at ht
        exact ⟨le.length, by rw [ht], by rw [lastFired, hc], hne, le_rfl⟩
      | some p =>
        obtain ⟨k, j⟩ := p
        rw [hc, Option.map_some, Option.map_eq_some_iff] at ht
        obtain ⟨⟨k', i⟩, hs, rfl⟩ := ht
        have hk := hwf.todo hc
        have hlt := (Config.event_isSome hle).mp hk.2.2.2
        exact ⟨k', by rw [hs], by rw [lastFired, hc], hk.2.2.1, hlt.le⟩
    obtain ⟨j, hj, hlast, hpos, hle'⟩ := hfired
    have hextra : .bool true ∈ (ss.hmaxExplicit events).extraValues s
        ⟨base + lastFired c a le.length⟩ := by
      refine mem_extraValues.mpr ⟨base, a, le, hp, Nat.le_add_right _ _, ?_, ?_⟩
      · show base + lastFired c a le.length < _
        omega
      · rw [hj]
        have heq : base + lastFired c a le.length - base + 1 = j := by omega
        exact congrArg ConstantNode.bool (decide_eq_true heq).symm
    have hin : InSets .python ((ss.hmaxExplicit events).initialAssignments .python s)
        ⟨base + lastFired c a le.length⟩ (.bool true) := by
      rw [InSets, HMaxExplicit.initialAssignments, key_mem_addAll]
      exact .inr (List.mem_map_of_mem (List.mem_append_right _ hextra))
    refine hin.mem (setsTyped_start henc has) ?_
    have hnone : fluents[base + lastFired c a le.length]? = none := by
      rw [List.getElem?_eq_none_iff, ← henc.typed.initial, List.length_map]
      omega
    rw [hnone]
    rfl

/-- Without a fluent and without an action the loop ends before it looks at the goals. -/
theorem evalCore_of_empty {order : SetOrder} (hinit : ss.initialState = []) (hev : events = [])
    (core : Core) (s : State) (fuel : ℕ) :
    (ss.hmaxExplicit events).evalCore core order s (fuel + 1) = .inl (some none) := by
  have hchanges : ((ss.hmaxExplicit events).start core s).changes = [] := by
    simp [HMaxExplicit.start, hmaxExplicit, HMaxExplicit.new, hinit, hev]
  rw [HMaxExplicit.evalCore, iterate, HMaxExplicit.turn, if_pos hchanges, iterate_inl]

end States

section Admissible

variable [Callables] {ss : SearchSpace} {tn : DeltaSimpleTemporalNetwork} {fluents : List ValueType}
  {events : List (Action × List (Timing × Event))}

/-- A plan of `n` more events from a configuration bounds the depth the loop returns for
what shows it, if there is a fluent or an action. -/
theorem exists_depth_of_run (henc : Encoding ss events fluents) (order : SetOrder) {b : Bool}
    {c c' : Config} {s : State} {bs : List Action} (hshow : Shows s c)
    (hreach : Config.Reachable ss b c) (hrun : c.run ss bs = some c')
    (hg : c'.goalReached ss = true)
    (hdef : ∀ k l, (ss.hmaxExplicit events).evalCore .python order s k = .inr l →
      ∀ exp ∈ (ss.hmaxExplicit events).expressions, DefinedOn .python exp l.assignments)
    (hne : ss.initialState ≠ [] ∨ events ≠ []) :
    ∃ depth ≤ bs.length, (ss.hmaxExplicit events).evalCore .python order s (depth + 1) =
      .inl (some (some depth)) := by
  have hwf := hreach.wellFormed
  have has := hreach.types henc.typed
  have has' : s.assignments.map ConstantNode.type = fluents := by rw [hshow.assignments, has]
  have hcov := covers_start henc hwf has' hshow
  have hfollows := evalCore_follows .python order .insertion ss.initialState.length events
    ss.goal ss.timedAction s
  have hdefn : ∀ k m, iterate ((ss.hmaxExplicit events).naiveTurn .python .insertion) k
      (.inr ((ss.hmaxExplicit events).naiveStart .python s)) = .inr m →
      ∀ exp ∈ (ss.hmaxExplicit events).expressions, DefinedOn .python exp m.assignments := by
    intro k m hk exp hexp
    obtain ⟨l, hl, hmatch⟩ := (hfollows k).1 m hk
    exact hmatch.same.symm.definedOn (hdef k l hl exp hexp)
  obtain ⟨depth, hdepth, hit⟩ := exists_depth henc hdefn (changes_ne_nil hne henc .python s)
    hwf has (setsTyped_start henc has') hcov hrun hg
  have hzero : ((ss.hmaxExplicit events).naiveStart .python s).depth + depth = depth :=
    Nat.zero_add depth
  rw [hzero] at hit
  exact ⟨depth, hdepth, (hfollows (depth + 1)).2 _ (Option.some_ne_none _) hit⟩

/-- From a state of the search, a plan of `n` more events bounds the depth the loop
returns by `n`, unless there is neither a fluent nor an action: then it returns `None`. -/
theorem hmaxExplicit_admissible (henc : Encoding ss events fluents) (order : SetOrder)
    {b : Bool} {n m d : ℕ} {s₀ s t : State} {as bs : List Action}
    (h₀ : ss.initial tn n = some s₀) (hr : Run ss tn b s₀ (initialCounter ss n) as s m)
    (hplan : Run ss tn false s m bs t d) (hg : ss.goalReached t = true)
    (hdef : ∀ k l, (ss.hmaxExplicit events).evalCore .python order s k = .inr l →
      ∀ exp ∈ (ss.hmaxExplicit events).expressions, DefinedOn .python exp l.assignments) :
    (∃ depth ≤ bs.length, (ss.hmaxExplicit events).evalCore .python order s (depth + 1) =
      .inl (some (some depth))) ↔ ss.initialState ≠ [] ∨ events ≠ [] := by
  constructor
  · rintro ⟨depth, -, heq⟩
    by_contra hnot
    obtain ⟨hinit, hev⟩ : ss.initialState = [] ∧ events = [] := by simpa [not_or] using hnot
    rw [evalCore_of_empty hinit hev] at heq
    simp at heq
  · intro hne
    obtain ⟨c₀, ids₀, hc₀, href₀, -⟩ := refines_initial h₀
    obtain ⟨c, ids, hc, href, -⟩ := href₀.run (Config.wellFormed_initial hc₀) hr
    have hreach : Config.Reachable ss b c := ⟨c₀, as, hc₀, hc⟩
    obtain ⟨c', ids', hrun, href', -⟩ := href.run hreach.wellFormed hplan
    rw [Config.runWith_false] at hrun
    rw [href'.goalReached_eq] at hg
    exact exists_depth_of_run henc order href.shows hreach hrun hg hdef hne

end Admissible

section Lamp

attribute [local instance] Callables.empty

/-- A lamp to switch on. -/
def lampSpace : SearchSpace :=
  .ofTable [(none, [lampSwitch])] [.bool false] [.fluent ⟨0⟩]

theorem lampSpace_events {a : Action} {le : List (Timing × Event)} :
    (a, le) ∈ lampEvents ↔ lampSpace.events a = some le := by
  obtain ⟨i⟩ := a
  cases i with
  | zero =>
    have hev : lampSpace.events ⟨0⟩ = some [lampSwitch] := rfl
    rw [hev, Option.some.injEq, eq_comm]
    simp [lampEvents]
  | succ i =>
    have hev : lampSpace.events ⟨i + 1⟩ = none := rfl
    simp [hev, lampEvents]

theorem lampSpace_event {a : Action} {k : ℕ} {te : Timing × Event}
    (h : lampSpace.event a k = some te) : te = lampSwitch := by
  obtain ⟨le, hle, hte⟩ := Option.bind_eq_some_iff.mp h
  have hmem := lampSpace_events.mpr hle
  obtain ⟨-, rfl⟩ : a = ⟨0⟩ ∧ le = [lampSwitch] := by simpa [lampEvents] using hmem
  exact List.mem_singleton.mp (List.mem_of_getElem? hte)

theorem lamp_encoding : Encoding lampSpace lampEvents [.bool] := by
  refine ⟨lampSpace_events, ⟨rfl, fun h eff he => ?_⟩, fun h => ?_, fun h c hc => ?_, ?_⟩
  · rw [lampSpace_event h] at he
    obtain rfl := List.mem_singleton.mp he
    exact ⟨.bool, rfl, rfl⟩
  · rw [lampSpace_event h]
    exact .leaf (by simp [lampSwitch]) rfl
  · rw [lampSpace_event h] at hc
    contradiction
  · exact .leaf (by simp [lampSpace, SearchSpace.ofTable]) rfl

/-- An expression over one fluent is evaluated on one value at a time. -/
theorem lamp_combination {f : Fluent} {rest : Expression} {assignments : ValueSets}
    {c : List ConstantNode} (h : dedupFluents (.fluent f :: rest) = [f])
    (hc : c ∈ combinations (.fluent f :: rest) assignments) : ∃ v ∈ assignments f, c = [v] := by
  rw [combinations, h] at hc
  obtain ⟨v, hv, hc⟩ := List.mem_flatMap.mp hc
  obtain ⟨c', hc', rfl⟩ := List.mem_map.mp hc
  obtain rfl := List.mem_singleton.mp hc'
  exact ⟨v, hv, rfl⟩

theorem lamp_defined (assignments : ValueSets) :
    ∀ exp ∈ (lampSpace.hmaxExplicit lampEvents).expressions,
      DefinedOn .python exp assignments := by
  have hexp : (lampSpace.hmaxExplicit lampEvents).expressions =
      [[.fluent ⟨0⟩], [.fluent ⟨1⟩], [.fluent ⟨1⟩], [.constant (.bool true)],
        [.fluent ⟨0⟩, .operator .not [0]]] := by rfl
  rw [hexp]
  intro exp hmem c hc
  simp only [List.mem_cons, List.not_mem_nil, or_false] at hmem
  rcases hmem with rfl | rfl | rfl | rfl | rfl
  · obtain ⟨v, -, rfl⟩ := lamp_combination rfl hc
    exact ⟨v, rfl⟩
  · obtain ⟨v, -, rfl⟩ := lamp_combination rfl hc
    exact ⟨v, rfl⟩
  · obtain ⟨v, -, rfl⟩ := lamp_combination rfl hc
    exact ⟨v, rfl⟩
  · exact ⟨.bool true, rfl⟩
  · obtain ⟨v, -, rfl⟩ := lamp_combination rfl hc
    exact ⟨.bool (!v.truthy), rfl⟩

theorem hmaxExplicit_admissible_lamp :
    ∃ depth ≤ 1, (lampSpace.hmaxExplicit lampEvents).evalCore .python .insertion lampOff (depth + 1) =
      .inl (some (some depth)) := by
  have h₀ : lampSpace.initial .free 0 = some lampOff := rfl
  obtain ⟨t, ht, hg⟩ : ∃ t,
      lampSpace.getSuccessorStateWithCompression .free 0 lampOff ⟨0⟩ false = some t ∧
        lampSpace.goalReached t = true := ⟨_, rfl, rfl⟩
  have hplan : Run lampSpace .free false lampOff 0 [⟨0⟩] t (lampSpace.advance 0 lampOff ⟨0⟩) :=
    .step (.refl lampOff 0) le_rfl ht
  have hrun : Run lampSpace .free false lampOff 0 [] lampOff 0 := .refl lampOff 0
  have hiff := hmaxExplicit_admissible lamp_encoding .insertion h₀ hrun hplan hg
    fun k l _ => lamp_defined l.assignments
  exact hiff.mpr (.inl (by simp [lampSpace, SearchSpace.ofTable]))

/-- No fluent, no action, and a goal that is always true. -/
def trivialSpace : SearchSpace :=
  .ofTable [] [] [.constant (.bool true)]

theorem trivialSpace_event {a : Action} {k : ℕ} : trivialSpace.event a k = none := by
  cases a
  rfl

theorem trivial_encoding : Encoding trivialSpace [] [] := by
  refine ⟨fun {a le} => ?_, ⟨rfl, fun h => ?_⟩, fun h => ?_, fun h => ?_, ?_⟩
  · cases a
    exact ⟨fun h => by simp at h, fun h => by cases h⟩
  · rw [trivialSpace_event] at h
    cases h
  · rw [trivialSpace_event] at h
    cases h
  · rw [trivialSpace_event] at h
    cases h
  · exact .leaf (by simp [trivialSpace, SearchSpace.ofTable]) rfl

/-- The initial state is a goal, every expression is defined, and the answer is `None`. -/
theorem hmaxExplicit_trivial :
    ∃ s, trivialSpace.initial .free 0 = some s ∧ trivialSpace.goalReached s = true ∧
      Encoding trivialSpace [] [] ∧
      (∀ assignments, ∀ exp ∈ (trivialSpace.hmaxExplicit []).expressions,
        DefinedOn .python exp assignments) ∧
      ∀ order fuel, (trivialSpace.hmaxExplicit []).evalCore .python order s (fuel + 1) =
        .inl (some none) := by
  refine ⟨_, rfl, rfl, trivial_encoding, fun assignments exp hexp c _ => ?_, fun order fuel => ?_⟩
  · have hexps : (trivialSpace.hmaxExplicit []).expressions = [[.constant (.bool true)]] := by rfl
    rw [hexps] at hexp
    obtain rfl := List.mem_singleton.mp hexp
    exact ⟨.bool true, rfl⟩
  · exact evalCore_of_empty rfl rfl .python _ fuel

end Lamp

end TamerLite
