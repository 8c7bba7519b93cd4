import TamerLite.RelaxedEffects

/-! What the heuristics see of a plan: every event that is fired is an operator whose
precondition is true, and every condition that becomes true is one the operator
achieves, or one whose initial cost is at most one. -/

namespace TamerLite

open CostEquations SearchSpace

namespace DeleteRelaxationHeuristic

variable {h : DeleteRelaxationHeuristic} {e : Expression} {o : Operator} {assignments : Assignments}
  {todo : AList (fun _ : Action => ℕ × ℕ)} {kind : HeuristicKind} {domains : List FluentDomain}
  {events : List (Action × List (Timing × Event))} {inadmissible disable : Bool}

/-! ### Extended states -/

/-- The assignments, and the flags of the events. -/
def extend (h : DeleteRelaxationHeuristic) (assignments : Assignments)
    (todo : AList (fun _ : Action => ℕ × ℕ)) : Assignments :=
  assignments ++ (List.range (h.domains.length - assignments.length)).map fun i =>
    .bool (decide (assignments.length + i ∈ h.progressFluents todo))

theorem getValue_extend_real {f : Fluent} (hf : f.idx < assignments.length) :
    getValue (h.extend assignments todo) f = getValue assignments f := by
  rw [getValue, getValue, extend, List.getElem?_append_left hf]

theorem getValue_extend_flag {f : Fluent} (hf : assignments.length ≤ f.idx) (hlt : f.idx < h.domains.length) :
    getValue (h.extend assignments todo) f = some (.bool (decide (f.idx ∈ h.progressFluents todo))) := by
  have hidx : f.idx - assignments.length < h.domains.length - assignments.length := by omega
  rw [getValue, extend, List.getElem?_append_right hf, List.getElem?_map, List.getElem?_range hidx]
  simp [Nat.add_sub_cancel' hf]

theorem length_extendDomains :
    (extendDomains domains events).length = domains.length + (events.map fun p => p.2.length).sum := by
  simp [extendDomains]

theorem layout_le {n base : ℕ} {a : Action} {le : List (Timing × Event)}
    (hmem : (base, a, le) ∈ TamerLite.layout n events) :
    base + le.length ≤ n + (events.map fun p => p.2.length).sum := by
  induction events generalizing n with
  | nil => cases hmem
  | cons p events ih =>
    rw [List.map_cons, List.sum_cons]
    rcases List.mem_cons.mp hmem with heq | hmem
    · obtain ⟨rfl, rfl⟩ : base = n ∧ (a, le) = p := Prod.mk.inj heq
      show base + le.length ≤ base + (le.length + _)
      omega
    · have := ih hmem
      omega

variable {ss : SearchSpace}

/-- Flags of events are known fluents. -/
theorem flag_lt {goal : Expression} {timedAction : Option Action}
    (hb : Built kind domains events goal timedAction inadmissible disable h) {base i : ℕ} {a : Action}
    {le : List (Timing × Event)} (hmem : (base, a, le) ∈ h.layout) (hi : i < le.length) :
    domains.length ≤ base + i ∧ base + i < h.domains.length := by
  rw [hb.layout_eq] at hmem
  have hbase := (mem_layout hmem).1
  have hle := layout_le hmem
  rw [hb.domains_eq, length_extendDomains]
  omega

theorem within_extend (todo : AList (fun _ : Action => ℕ × ℕ)) {goal : Expression}
    {timedAction : Option Action}
    (hb : Built kind domains events goal timedAction inadmissible disable h)
    (hlen : assignments.length = domains.length) (hin : WithinDomains domains assignments) :
    WithinDomains h.domains (h.extend assignments todo) ∧
      InDomains h.domains (getValue (h.extend assignments todo)) := by
  have hdom : ∀ {i : ℕ} {d : FluentDomain}, domains.length ≤ i → h.domains[i]? = some d → d.kind = .bool := by
    intro i d hi hd
    rw [hb.domains_eq, extendDomains, List.getElem?_append_right hi] at hd
    rw [(List.mem_replicate.mp (List.mem_of_getElem? hd)).2]
  have hwithin : WithinDomains h.domains (h.extend assignments todo) := by
    intro i d hd
    have hlt := (List.getElem?_eq_some_iff.mp hd).1
    by_cases hi : i < domains.length
    · have hd' : domains[i]? = some d := by
        rw [hb.domains_eq, extendDomains, List.getElem?_append_left hi] at hd
        exact hd
      obtain ⟨v, hv, hhas⟩ := hin i d hd'
      exact ⟨v, (getValue_extend_real (f := ⟨i⟩) (hlen ▸ hi)).trans hv, hhas⟩
    · have hi := not_lt.mp hi
      exact ⟨_, getValue_extend_flag (f := ⟨i⟩) (hlen ▸ hi) hlt, hdom hi hd⟩
  refine ⟨hwithin, hwithin.inDomains ?_⟩
  have hext : domains.length ≤ h.domains.length := by
    rw [hb.domains_eq, length_extendDomains]
    omega
  simp only [extend, List.length_append, List.length_map, List.length_range, hlen]
  omega

section

variable [Callables]

/-- What is evaluated on real fluents needs no flags. -/
theorem holds_extend (hfluents : ∀ f ∈ getFluents e, f.idx < assignments.length) :
    Core.holds .python e (h.extend assignments todo) = holds e assignments := by
  rw [Core.holds_python]
  exact holds_congr fun f hf => getValue_extend_real (hfluents f hf)

/-- A condition that holds keeps its value when flags are added. -/
theorem holds_extend_of_holds (hh : holds e assignments = true) :
    holds e (h.extend assignments todo) = true := by
  obtain ⟨v, hv, -⟩ := (Option.any_eq_true _ _).mp hh
  obtain ⟨r, hr, -⟩ := Option.bind_eq_some_iff.mp hv
  rw [← Core.holds_python, holds_extend, hh]
  intro f hf
  obtain ⟨w, hw⟩ := exists_of_evalNodes hr hf
  exact (List.getElem?_eq_some_iff.mp hw).1

end

/-! ### Initial costs -/

/-- A state of the search, as a heuristic reads it. -/
structure Reads (domains : List FluentDomain) (assignments : Assignments) : Prop where
  length : assignments.length = domains.length
  within : WithinDomains domains assignments

theorem classOf_numeric (hx : NumericLeaf domains h.domains e) :
    h.classOf e = .complex ∨ ∃ c, h.classOf e = .simple c := by
  rw [classOf, if_neg (by simp [hx.plain]), if_pos hx.numeric]
  split_ifs
  · exact .inl rfl
  · cases extractFluentsWeights .python some e with
    | none => exact .inl rfl
    | some c => exact .inr ⟨c, rfl⟩

theorem fluent_lt (hlen : assignments.length = domains.length) {f : Fluent} {d : FluentDomain}
    (hd : domains[f.idx]? = some d) : f.idx < assignments.length :=
  hlen ▸ (List.getElem?_eq_some_iff.mp hd).1

/-- What a true leaf says of its fluent. -/
inductive TrueLeaf (h : DeleteRelaxationHeuristic) (domains : List FluentDomain) (assignments : Assignments)
    (todo : AList (fun _ : Action => ℕ × ℕ)) : Expression → Prop
  | fluent {f : Fluent} {d : FluentDomain} (hd : domains[f.idx]? = some d) (hkind : d.kind = .bool)
      (hv : getValue assignments f = some (.bool true)) : TrueLeaf h domains assignments todo [.fluent f]
  | notFluent {f : Fluent} {d : FluentDomain} (hd : domains[f.idx]? = some d) (hkind : d.kind = .bool)
      (hv : getValue assignments f = some (.bool false)) :
      TrueLeaf h domains assignments todo [.fluent f, .operator .not [0]]
  | equalsObject {f : Fluent} {d : FluentDomain} {o : Object} (hd : domains[f.idx]? = some d)
      (hkind : d.kind = .object) (hv : getValue assignments f = some (.object o)) :
      TrueLeaf h domains assignments todo (equalsObject f o)
  | complex {e : Expression} (hx : NumericLeaf domains h.domains e) (hc : h.classOf e = .complex) :
      TrueLeaf h domains assignments todo e
  | simple {e : Expression} {c : SimpleCondition} (hx : NumericLeaf domains h.domains e)
      (hc : h.classOf e = .simple c) (hh : c.holds .python (getValue assignments)) :
      TrueLeaf h domains assignments todo e
  | interpreted {e : Expression} (hif : hasInterpretedFunction e = true) :
      TrueLeaf h domains assignments todo e
  | flag {f : Fluent} (hf : domains.length ≤ f.idx) (hmem : f.idx ∈ h.progressFluents todo) :
      TrueLeaf h domains assignments todo [.fluent f]

variable [Callables]

theorem holds_fluent {f : Fluent} {A : Assignments} :
    holds [.fluent f] A = (getValue A f).any ConstantNode.truthy := by
  cases hf : getValue A f <;> simp [holds, evaluate, evalNodes, evalNode, hf]

theorem holds_notFluent {f : Fluent} {A : Assignments} :
    holds [.fluent f, .operator .not [0]] A = (getValue A f).any fun v => !v.truthy := by
  cases hf : getValue A f <;>
    simp [holds, evaluate, evalNodes, evalNode, evalOperator, hf, ConstantNode.truthy]

/-- A leaf that is true in an extended state. -/
theorem trueLeaf_of_holds
    (hr : Reads domains assignments) (hx : LeafShape domains h.domains e)
    (hh : Core.holds .python e (h.extend assignments todo) = true) :
    TrueLeaf h domains assignments todo e := by
  have hreal : ∀ {f : Fluent} {d : FluentDomain}, domains[f.idx]? = some d →
      getValue (h.extend assignments todo) f = getValue assignments f ∧
        ∃ v, getValue assignments f = some v ∧ d.Has v := by
    intro f d hd
    exact ⟨getValue_extend_real (fluent_lt hr.length hd), hr.within f.idx d hd⟩
  cases hx with
  | false => simp [Core.holds_python, holds, evaluate, evalNodes, evalNode, ConstantNode.truthy] at hh
  | fluent hd hkind =>
    obtain ⟨heq, v, hv, hhas⟩ := hreal hd
    rw [Core.holds_python, holds_fluent, heq, hv] at hh
    cases v with
    | bool b =>
      obtain rfl : b = true := hh
      exact .fluent hd hkind hv
    | num q => rcases hhas with h' | h' <;> exact absurd (hkind.symm.trans h') (by simp)
    | object o => exact absurd (hkind.symm.trans hhas.1) (by simp)
  | notFluent hd hkind =>
    obtain ⟨heq, v, hv, hhas⟩ := hreal hd
    rw [Core.holds_python, holds_notFluent, heq, hv] at hh
    cases v with
    | bool b =>
      obtain rfl : b = false := by simpa [ConstantNode.truthy] using hh
      exact .notFluent hd hkind hv
    | num q => rcases hhas with h' | h' <;> exact absurd (hkind.symm.trans h') (by simp)
    | object o => exact absurd (hkind.symm.trans hhas.1) (by simp)
  | equalsObject o hd hkind =>
    obtain ⟨heq, v, hv, hhas⟩ := hreal hd
    cases v with
    | bool b => exact absurd (hkind.symm.trans hhas) (by simp)
    | num q => rcases hhas with h' | h' <;> exact absurd (hkind.symm.trans h') (by simp)
    | object p =>
      rw [holds_equalsObject (heq.trans hv), decide_eq_true_eq] at hh
      exact .equalsObject hd hkind (hh ▸ hv)
  | numeric hx =>
    have hreads : holds e assignments = true := by
      rwa [holds_extend] at hh
      intro f hf
      obtain ⟨d, hd, -⟩ := hx.fluents f hf
      exact fluent_lt hr.length hd
    rcases classOf_numeric hx with hc | ⟨c, hc⟩
    · exact .complex hx hc
    · obtain ⟨v, hv, -⟩ := (Option.any_eq_true _ _).mp hreads
      exact .simple hx hc ((holds_iff hx.isExpression hc hv).mp hreads)
  | interpreted hif => exact .interpreted hif
  | @flag f hf =>
    refine .flag hf ?_
    by_cases hlt : f.idx < h.domains.length
    · rw [Core.holds_python, holds_fluent, getValue_extend_flag (hr.length ▸ hf) hlt] at hh
      simpa [ConstantNode.truthy] using hh
    · have hnone : getValue (h.extend assignments todo) f = none := by
        rw [getValue, List.getElem?_eq_none]
        simp only [extend, List.length_append, List.length_map, List.length_range, hr.length]
        omega
      rw [Core.holds_python, holds_fluent, hnone] at hh
      cases hh

theorem initialCosts_propositional (hif : hasInterpretedFunction e = false)
    (hnum : isNumericLeafExpression h.domains e = some false) :
    h.initialCosts assignments todo e = h.propositionalCost assignments todo e := by
  have hc : h.classOf e = .propositional := by
    rw [classOf, if_neg (by simp [hif]), hnum, if_neg (by simp)]
  rw [initialCosts, hc]

/-- Conditions whose initial cost is at most one. -/
def Opaque (h : DeleteRelaxationHeuristic) (e : Expression) : Prop :=
  h.classOf e = .interpreted ∨ h.classOf e = .complex

/-- A condition that holds where it is evaluated costs nothing. -/
theorem initialCosts_of_holds (hc : h.classOf e ≠ .propositional) (hh : holds e assignments = true) :
    h.initialCosts assignments todo e = 0 := by
  rw [initialCosts]
  cases hclass : h.classOf e with
  | propositional => exact absurd hclass hc
  | interpreted | complex | simple => exact if_pos hh

theorem Opaque.initialCosts_le (hx : h.Opaque e) : h.initialCosts assignments todo e ≤ 1 := by
  rcases hx with hc | hc <;> rw [initialCosts, hc] <;> simp only <;> split_ifs <;> simp

/-- What is true costs nothing, unless it is opaque. -/
theorem TrueLeaf.initialCosts_eq {goal : Expression} {timedAction : Option Action}
    (hb : Built kind domains events goal timedAction inadmissible disable h)
    (hx : TrueLeaf h domains assignments todo e)
    (hvalue : ∀ s, h.classOf e = .simple s → ∃ v, evaluate e assignments = some v) :
    h.Opaque e ∨ h.initialCosts assignments todo e = 0 := by
  have hlt : ∀ {f : Fluent} {d : FluentDomain}, domains[f.idx]? = some d → f.idx < h.numRealFluents :=
    fun hd => hb.numRealFluents_eq ▸ (List.getElem?_eq_some_iff.mp hd).1
  cases hx with
  | complex hx hc => exact .inl (.inr hc)
  | simple hx hc hh =>
    obtain ⟨v, hv⟩ := hvalue _ hc
    exact .inr (initialCosts_of_holds (by simp [hc]) ((holds_iff hx.isExpression hc hv).mpr hh))
  | interpreted hif => exact .inl (.inl (if_pos hif))
  | fluent hd hkind hv =>
    refine .inr ?_
    rw [initialCosts_propositional rfl rfl, propositionalCost, if_pos (hlt hd)]
    exact if_pos hv
  | notFluent hd hkind hv =>
    refine .inr ?_
    rw [initialCosts_propositional rfl rfl, propositionalCost]
    exact if_pos ⟨hlt hd, hv⟩
  | @equalsObject f d o hd hkind hv =>
    refine .inr ?_
    have hobj : isNumericLeafExpression h.domains (TamerLite.equalsObject f o) = some false := by
      have hext : h.domains[f.idx]? = some d := hb.domains_eq ▸ getElem?_extendDomains hd
      simp [TamerLite.equalsObject, isNumericLeafExpression, isNumericOperator, isObjectTyped,
        isObjectTypedOperand, List.getElem?_map, hext, hkind]
    rw [initialCosts_propositional rfl hobj]
    have hv' : assignments[f.idx]? = some (.object o) := hv
    rw [TamerLite.equalsObject, propositionalCost, hv']
    exact if_pos ⟨hlt hd, by simp [ConstantNode.type, ConstantNode.eqv]⟩
  | @flag f hf hmem =>
    refine .inr ?_
    rw [initialCosts_propositional rfl rfl, propositionalCost, if_neg (by rw [hb.numRealFluents_eq]; omega)]
    exact if_pos hmem

/-! ### Steps -/

variable {c c' : Config} {a : Action}

/-- The flags that are true in a configuration. -/
theorem mem_progressFluents (hb : Built kind domains events ss.goal ss.timedAction inadmissible disable h)
    (henc : HeuristicEncoding ss events domains) (hwf : c.WellFormed ss) {n : ℕ} :
    n ∈ h.progressFluents c.todo ↔
      ∃ base a le, (base, a, le) ∈ h.layout ∧ n = base + lastFired c a le.length := by
  have hpos : ∀ {base a le}, (base, a, le) ∈ h.layout → 0 < le.length := by
    intro base a le hmem
    rw [hb.layout_eq] at hmem
    exact List.length_pos_iff.mpr (ss.events_numbered (henc.events_iff.mp (mem_layout hmem).2)).1
  have hidle : ∀ {base a le}, (base, a, le) ∈ h.layout → c.todo.lookup a = none →
      base + le.length - 1 = base + lastFired c a le.length := by
    intro base a le hmem hl
    have := hpos hmem
    rw [lastFired, hl]
    show base + le.length - 1 = base + (le.length - 1)
    omega
  have hrunning : ∀ {base a le k j}, (base, a, le) ∈ h.layout → c.todo.lookup a = some (k, j) →
      base + k - 1 = base + lastFired c a le.length := by
    intro base a le k j hmem hl
    have hk := (hwf.todo hl).2.2.1
    rw [lastFired, hl]
    show base + k - 1 = base + (k - 1)
    omega
  rw [progressFluents, List.mem_map]
  constructor
  · rintro ⟨⟨base, a, le⟩, hmem, rfl⟩
    refine ⟨base, a, le, hmem, ?_⟩
    cases hl : c.todo.lookup a with
    | none => simpa only [hl] using hidle hmem hl
    | some p => simpa only [hl] using hrunning hmem hl
  · rintro ⟨base, a, le, hmem, rfl⟩
    refine ⟨(base, a, le), hmem, ?_⟩
    cases hl : c.todo.lookup a with
    | none => simpa only [hl] using hidle hmem hl
    | some p => simpa only [hl] using hrunning hmem hl

/-- Effects keep every fluent in its domain. -/
theorem Reads.applyEffects {effects : List Effect} {as as' : Assignments} (hr : Reads domains as)
    (heff : ∀ eff ∈ effects, ∃ d, domains[eff.fluent.idx]? = some d ∧ ∀ assignments,
      WithinDomains domains assignments → ∀ v, evaluate eff.value assignments = some v → d.Has v)
    (happ : applyEffects effects as as = some as') : Reads domains as' := by
  have hlen : ∀ (effects : List Effect) (new as' : Assignments),
      SearchSpace.applyEffects effects as new = some as' → as'.length = new.length := by
    intro effects
    induction effects with
    | nil => exact fun new as' h => Option.some.inj h ▸ rfl
    | cons eff effects ih =>
      intro new as' h
      obtain ⟨v, -, h⟩ := applyEffects_cons.mp h
      rw [ih _ _ h, List.length_set]
  refine ⟨(hlen _ _ _ happ).trans hr.length, fun i d hd => ?_⟩
  have hlt : i < as'.length := by
    rw [hlen _ _ _ happ, hr.length]
    exact (List.getElem?_eq_some_iff.mp hd).1
  obtain ⟨v, hv⟩ : ∃ v, as'[i]? = some v := ⟨_, List.getElem?_eq_getElem hlt⟩
  refine ⟨v, hv, ?_⟩
  rcases applyEffects_value (f := ⟨i⟩) happ hv with ⟨-, hold⟩ | ⟨eff, he, hf, hval⟩
  · obtain ⟨w, hw, hhas⟩ := hr.within i d hd
    obtain rfl : v = w := Option.some.inj (hold.symm.trans hw)
    exact hhas
  · obtain ⟨d', hd', hhas⟩ := heff eff he
    rw [hf, hd] at hd'
    obtain rfl := Option.some.inj hd'
    exact hhas _ hr.within v hval

/-- An operator whose event can be fired: its condition is true, with the flags. -/
structure Fires (h : DeleteRelaxationHeuristic) (c : Config) (base k : ℕ) (te : Timing × Event)
    (o : Operator) :
    Prop where
  mem : o ∈ h.operators
  isTrue : o.condition.isTrue (Core.holds .python · (h.extend c.assignments c.todo)) = some true
  effects : o.effects =
    (⟨base + k⟩, .bool true) :: te.2.effects.flatMap (Operator.propositionalEffects h.domains)
  numericEffects : o.numericEffects = te.2.effects.filterMap (Operator.numericEffect h.domains)
  nodup : (o.numericEffects.map Prod.fst).Nodup

/-- An event that is fired has an operator whose condition is true. -/
theorem exists_fires (hb : Built kind domains events ss.goal ss.timedAction inadmissible disable h)
    (henc : HeuristicEncoding ss events domains) (hwf : c.WellFormed ss)
    (hr : Reads domains c.assignments) {base k : ℕ} {le : List (Timing × Event)} {te : Timing × Event}
    (hlayout : (base, a, le) ∈ h.layout) (hte : le[k]? = some te)
    (htimed : k = 0 → ss.timedAction ≠ some a) (hcond : holds te.2.conditions c.assignments = true)
    (hend : ∀ x ∈ te.2.endConditions, holds x c.assignments = true)
    (hlast : lastFired c a le.length = if k = 0 then le.length - 1 else k - 1) :
    ∃ o, Fires h c base k te o ∧
      Operator.ofEvent h.domains h.disableNumericReasoning ss.timedAction base a le k
      te.2 = some (some o) := by
  have hmem : (base, a, le) ∈ TamerLite.layout domains.length events := hb.layout_eq ▸ hlayout
  have hevent : ss.event a k = some te := by
    rw [Config.event_eq (henc.events_iff.mp (mem_layout hmem).2), hte]
  have hlt := (List.getElem?_eq_some_iff.mp hte).1
  have hhold : ∀ x ∈ getEventConditions te.2, holds x c.assignments = true := by
    intro x hx
    rw [getEventConditions, List.mem_eraseDups, List.mem_append] at hx
    rcases hx with hx | hx
    · obtain ⟨t, ht, htc⟩ := henc.conditions hevent _ List.mem_cons_self
      rw [ht] at hcond hx
      have hall : (splitExpression (t.layout 0)).all (Core.holds .python · c.assignments) =
          Core.holds .python (t.layout 0) c.assignments := holds_splitExpression ⟨t, htc.wellFormed, rfl⟩
      rw [Core.holds_python, hcond, List.all_eq_true] at hall
      rw [← Core.holds_python]
      exact hall x hx
    · exact hend x hx
  obtain ⟨r, hof⟩ := hb.built hlayout hte
  obtain ⟨hnodup, b, hbuild, hreq⟩ := ofEvent_eq_some.mp hof
  rw [if_neg fun hk => htimed hk.1 hk.2] at hreq
  cases b with
  | none =>
    -- an operator is left out only where a condition is false
    rw [buildOperatorCondition] at hbuild
    split_ifs at hbuild with hfalse
    · have hh := hhold _ hfalse
      simp [holds, evaluate, evalNodes, evalNode, ConstantNode.truthy] at hh
    · simp only [Option.bind_eq_bind, Option.bind_eq_some_iff] at hbuild
      obtain ⟨_, _, _, _, hbuild⟩ := hbuild
      cases Option.some.inj hbuild
  | some condition =>
    rw [Option.map_some] at hreq
    refine ⟨_, ⟨hb.operators.mpr ⟨base, a, le, k, te, hlayout, hte, hreq ▸ hof⟩, ?_, rfl, rfl, hnodup⟩,
      hreq ▸ hof⟩
    have hspec := operatorCondition_spec hb henc hlayout hte hbuild
    obtain ⟨hwithin, hin⟩ := within_extend c.todo hb hr.length hr.within
    have hreal : WithinDomains domains (h.extend c.assignments c.todo) :=
      hwithin.mono fun hd => hb.domains_eq ▸ getElem?_extendDomains hd
    refine hspec.isTrue _ hreal hin (fun x hx => holds_extend_of_holds (hhold x hx)) ?_
    have hprev : previousFluent base le.length k = ⟨base + lastFired c a le.length⟩ := by
      rw [previousFluent, hlast]
      split_ifs
      · exact congrArg Fluent.mk (by omega)
      · exact congrArg Fluent.mk (by omega)
    have hflag := flag_lt hb hlayout (i := lastFired c a le.length) (by rw [hlast]; split_ifs <;> omega)
    rw [hprev, getValue_extend_flag (hr.length ▸ hflag.1) hflag.2]
    simp only [Option.some.injEq, ConstantNode.bool.injEq, decide_eq_true_eq]
    exact (mem_progressFluents hb henc hwf).mpr ⟨base, a, le, hlayout, rfl⟩

omit ss in
/-- The value an effect gives is among those its operator may give. -/
theorem mem_propositionalEffects {extended : List FluentDomain} {eff : Effect} {d : FluentDomain}
    {v : ConstantNode} {as : Assignments} (hd : extended[eff.fluent.idx]? = some d)
    (hkind : d.kind = .bool ∨ d.kind = .object) (hv : evaluate eff.value as = some v) (hhas : d.Has v) :
    (eff.fluent, v) ∈ Operator.propositionalEffects extended eff := by
  obtain ⟨kind, objects⟩ := d
  have hconst : ∀ w, eff.value = [.constant w] → v = w := by
    intro w heq
    rw [heq] at hv
    simpa [evaluate, evalNodes, evalNode, eq_comm] using hv
  rw [Operator.propositionalEffects, hd]
  cases v with
  | bool b =>
    obtain rfl : kind = .bool := hhas
    simp only
    split
    · rename_i b' heq
      rw [hconst _ heq]
      exact List.mem_singleton.mpr rfl
    · cases b <;> simp
  | num q => rcases hkind with rfl | rfl <;> rcases hhas with h' | h' <;> cases h'
  | object o =>
    obtain ⟨hk, ho⟩ := hhas
    obtain rfl : kind = .object := hk
    simp only
    split
    · rename_i o' heq
      rw [hconst _ heq]
      exact List.mem_singleton.mpr rfl
    · exact List.mem_map.mpr ⟨o, ho, rfl⟩

/-- What makes a condition true that was not: an operator that achieves it. -/
def Achieved (h : DeleteRelaxationHeuristic) (c : Config) (e : Expression) : Prop :=
  ∃ base k te o, Fires h c base k te o ∧ (e ∈ o.effects.map effectCondition ∨
    ∃ s, h.classOf e = .simple s ∧ o.achieves h.inadmissibleNumericVariant s = true)

theorem Reads.step (henc : HeuristicEncoding ss events domains) (hr : Reads domains c.assignments)
    (hwf : c.WellFormed ss) (hs : c.step ss a = some c') : Reads domains c'.assignments := by
  obtain ⟨le, k, te, hle, hte, -, -, -, happ, -⟩ := step_fires hwf hs
  refine hr.applyEffects (fun eff he => ?_) happ
  exact (henc.effects (a := a) (k := k) (by rw [Config.event_eq hle, hte]) eff he).2

/-- A simple condition gets true only by an operator that achieves it. -/
theorem achieves_of_holds {extended : List FluentDomain} {o : Operator} {sc : SimpleCondition}
    {effects : List Effect} {as as' : Assignments} (inadmissible : Bool)
    (happ : applyEffects effects as as = some as')
    (hnum : o.numericEffects = effects.filterMap (Operator.numericEffect extended))
    (hnodup : (o.numericEffects.map Prod.fst).Nodup) (hexp : ∀ eff ∈ effects, IsExpression eff.value)
    (hfluents : ∀ f ∈ sc.fluents, ∃ d, extended[f.idx]? = some d ∧ (d.kind = .int ∨ d.kind = .real) ∧
      (∃ q, getValue as f = some (.num q)) ∧ ∃ v, getValue as' f = some v)
    (hfalse : ¬ sc.holds .python (getValue as)) (htrue : sc.holds .python (getValue as')) :
    o.achieves inadmissible sc = true := by
  rw [Operator.achieves, Bool.or_eq_true, decide_eq_true_eq]
  refine or_iff_not_imp_left.mpr fun hno => ?_
  rw [Bool.not_eq_true] at hno
  have hsum : sc.sum .python (getValue as') = sc.sum .python (getValue as) + o.netEffect inadmissible sc := by
    refine Operator.sum_eq_add_netEffect inadmissible hno fun f hf => ?_
    obtain ⟨d, hd, hkind, ⟨q, hq⟩, v, hv⟩ := hfluents f hf
    refine Operator.worth_applyEffects happ hnum hnodup hexp hd hkind hq hv ?_
    rw [Operator.hasAssignOrComplexEffect, List.any_eq_false] at hno
    simpa using hno f hf
  rw [SimpleCondition.holds] at hfalse htrue
  split_ifs at hfalse htrue with hlt
  · linarith
  · linarith

/-- After a step every leaf that is true was true, is opaque, or has been achieved. -/
theorem TrueLeaf.step (hb : Built kind domains events ss.goal ss.timedAction inadmissible disable h)
    (henc : HeuristicEncoding ss events domains) (hwf : c.WellFormed ss)
    (hr : Reads domains c.assignments) (hs : c.step ss a = some c')
    (hx : TrueLeaf h domains c'.assignments c'.todo e) :
    TrueLeaf h domains c.assignments c.todo e ∨ h.Opaque e ∨ h.Achieved c e := by
  obtain ⟨le, k, te, hle, hte, htimed, hcond, hend, happ, hlast, hlast', hother⟩ := step_fires hwf hs
  have hr' := hr.step henc hwf hs
  have heff := henc.effects (show ss.event a k = some te by rw [Config.event_eq hle, hte])
  have hext : ∀ {i : ℕ} {d : FluentDomain}, domains[i]? = some d → h.domains[i]? = some d :=
    fun hd => hb.domains_eq ▸ getElem?_extendDomains hd
  have hfires : ∀ {base}, (base, a, le) ∈ h.layout → ∃ o, Fires h c base k te o := fun hlayout =>
    (exists_fires hb henc hwf hr hlayout hte htimed hcond hend hlast).imp fun _ => And.left
  obtain ⟨base, hlayout⟩ := exists_layout (henc.events_iff.mpr hle) domains.length
  rw [← hb.layout_eq] at hlayout
  -- a value that was not there before is one the operator gives
  have hgiven : ∀ {f : Fluent} {d : FluentDomain} {v : ConstantNode}, domains[f.idx]? = some d →
      d.kind = .bool ∨ d.kind = .object → getValue c'.assignments f = some v →
      getValue c.assignments f = some v ∨ ∃ base k te o, Fires h c base k te o ∧ (f, v) ∈ o.effects := by
    intro f d v hd hkind hv
    rcases applyEffects_value happ hv with ⟨-, hold⟩ | ⟨eff, he, rfl, hval⟩
    · exact .inl hold
    · obtain ⟨o, ho⟩ := hfires hlayout
      obtain ⟨d', hd', hhas⟩ := (heff eff he).2
      obtain rfl : d = d' := Option.some.inj (hd.symm.trans hd')
      refine .inr ⟨base, k, te, o, ho, ?_⟩
      rw [ho.effects]
      refine List.mem_cons_of_mem _ (List.mem_flatMap.mpr ⟨eff, he, ?_⟩)
      exact mem_propositionalEffects (hext hd) hkind hval (hhas _ hr.within v hval)
  have hachieved : ∀ {f : Fluent} {v : ConstantNode}, effectCondition (f, v) = e →
      (∃ base k te o, Fires h c base k te o ∧ (f, v) ∈ o.effects) → h.Achieved c e := by
    rintro f v heq ⟨base, k, te, o, ho, hmem⟩
    exact ⟨base, k, te, o, ho, .inl (List.mem_map.mpr ⟨_, hmem, heq⟩)⟩
  cases hx with
  | fluent hd hkind hv =>
    rcases hgiven hd (.inl hkind) hv with hold | hnew
    · exact .inl (.fluent hd hkind hold)
    · exact .inr (.inr (hachieved rfl hnew))
  | notFluent hd hkind hv =>
    rcases hgiven hd (.inl hkind) hv with hold | hnew
    · exact .inl (.notFluent hd hkind hold)
    · exact .inr (.inr (hachieved rfl hnew))
  | equalsObject hd hkind hv =>
    rcases hgiven hd (.inr hkind) hv with hold | hnew
    · exact .inl (.equalsObject hd hkind hold)
    · exact .inr (.inr (hachieved rfl hnew))
  | complex hx hc => exact .inr (.inl (.inr hc))
  | @simple _ sc hx hc hh =>
    by_cases hbefore : sc.holds .python (getValue c.assignments)
    · exact .inl (.simple hx hc hbefore)
    · obtain ⟨o, ho⟩ := hfires hlayout
      refine .inr (.inr ⟨base, k, te, o, ho, .inr ⟨sc, hc, ?_⟩⟩)
      refine achieves_of_holds h.inadmissibleNumericVariant happ ho.numericEffects ho.nodup
        (fun eff he => (heff eff he).1) (fun f hf => ?_) hbefore hh
      obtain ⟨d, hd, hnum⟩ := hx.fluents f (mem_fluents_of_extract (classOf_simple hc).2.2 f hf)
      obtain ⟨v, hv, hhas⟩ := hr.within f.idx d hd
      obtain ⟨v', hv', -⟩ := hr'.within f.idx d hd
      refine ⟨d, hext hd, hnum, ?_, v', hv'⟩
      cases v with
      | num q => exact ⟨q, hv⟩
      | bool b => rcases hnum with hk | hk <;> exact absurd (hk.symm.trans hhas) (by simp)
      | object o => rcases hnum with hk | hk <;> exact absurd (hk.symm.trans hhas.1) (by simp)
  | interpreted hif => exact .inr (.inl (.inl (if_pos hif)))
  | @flag f hf hmem =>
    obtain ⟨base', b, le', hmem', hidx⟩ := (mem_progressFluents hb henc (hwf.step hs)).mp hmem
    by_cases hba : b = a
    · subst hba
      obtain rfl : le = le' := Option.some.inj (hle.symm.trans
        (henc.events_iff.mp (mem_layout (hb.layout_eq ▸ hmem')).2))
      obtain ⟨o, ho⟩ := hfires hmem'
      rw [hlast'] at hidx
      refine .inr (.inr (hachieved (f := f) (v := .bool true) rfl ⟨base', k, te, o, ho, ?_⟩))
      rw [ho.effects, ← hidx]
      exact List.mem_cons_self
    · rw [hother b _ hba] at hidx
      exact .inl (.flag hf ((mem_progressFluents hb henc hwf).mpr ⟨base', b, le', hmem', hidx⟩))

end DeleteRelaxationHeuristic

end TamerLite
