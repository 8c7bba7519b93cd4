import TamerLite.RelaxedFixpoint
import TamerLite.RelaxedStates

/-! Simple numeric conditions: an achiever of one that is false in a state has a
repetition count. So the loop evaluates every state without a failed assertion, and
its value is that of the relaxed cost equations. -/

namespace TamerLite

open CostEquations

namespace DeleteRelaxationHeuristic

variable {h : DeleteRelaxationHeuristic} {e : Expression} {c : SimpleCondition} {o : Operator}
  {assignments : Assignments}

theorem mem_simpleNumericConds :
    (e, c) ∈ h.simpleNumericConds ↔ e ∈ h.conditions ∧ h.classOf e = .simple c := by
  rw [simpleNumericConds, List.mem_filterMap]
  constructor
  · rintro ⟨e', he', heq⟩
    split at heq
    · rename_i c' hc'
      obtain ⟨rfl, rfl⟩ := Prod.mk.inj (Option.some.inj heq)
      exact ⟨List.mem_eraseDups.mp he', hc'⟩
    · cases heq
  · rintro ⟨he, hc⟩
    exact ⟨e, List.mem_eraseDups.mpr he, by rw [hc]⟩

theorem classOf_simple (hc : h.classOf e = .simple c) : hasInterpretedFunction e = false ∧
    h.disableNumericReasoning = false ∧ extractFluentsWeights .python some e = some c := by
  rw [classOf] at hc
  split_ifs at hc with hif hnum hdis
  · cases hext : extractFluentsWeights .python some e with
    | none =>
      rw [hext] at hc
      cases hc
    | some c' =>
      rw [hext] at hc
      obtain rfl := ConditionClass.simple.inj hc
      exact ⟨by simpa using hif, by simpa using hdis, rfl⟩

/-- A simple condition is true where its weighted sum says so. -/
theorem holds_iff [Callables] (he : IsExpression e) (hc : h.classOf e = .simple c) {v : ConstantNode}
    (hv : evaluate e assignments = some v) :
    holds e assignments = true ↔ c.holds .python (getValue assignments) := by
  obtain ⟨-, -, hext⟩ := classOf_simple hc
  obtain ⟨exact, hfloats, hiff⟩ := extractFluentsWeights_spec he hext
  obtain rfl := toFloats_eq hfloats fun w _ => rfl
  rw [← hiff assignments v (by rw [Core.evaluate_python]; exact hv), holds, hv]
  -- a comparison is a truth value
  obtain ⟨⟨n, args⟩, hwf, hproper, rfl⟩ := he
  rw [extractFluentsWeights, ExprTree.layout, List.getLast?_concat] at hext
  cases n with
  | operator kind operands =>
    simp only [ExpressionNode.withOperands] at hext
    split_ifs at hext with hkind
    rw [ExprTree.proper, Bool.and_eq_true] at hproper
    have htwo : args.length = 2 := by
      rcases hkind with rfl | rfl <;> exact of_decide_eq_true hproper.1
    obtain ⟨t, t', rfl⟩ := List.length_eq_two.mp htwo
    rw [← Core.evaluate_python, ExprTree.evaluate_layout _ hwf] at hv
    obtain ⟨w, w', x, x', -, -, -, -, harith⟩ := LinearPolynomial.value_arithmetic (by tauto) hv
    rcases hkind with rfl | rfl <;> obtain rfl := Option.some.inj harith <;>
      simp [ConstantNode.truthy]
  | fluent | constant | interpretedFunction => cases hext

theorem epsilon_pos {ε : ℚ} (hε : h.epsilon = some ε) : 0 < ε := by
  obtain ⟨m, hm, rfl⟩ := Option.map_eq_some_iff.mp hε
  have hmem := List.max?_mem hm
  obtain ⟨o, -, hmem⟩ := List.mem_flatMap.mp hmem
  obtain ⟨p, hp, rfl⟩ := List.mem_map.mp hmem
  have hneg := List.of_mem_filter hp
  rw [Operator.boundsEpsilon, Bool.and_eq_true, decide_eq_true_eq] at hneg
  have := hneg.2
  show 0 < -(o.netEffect h.inadmissibleNumericVariant p.2) / 2
  linarith

/-- A negative net effect of an achiever bounds the epsilon. -/
theorem exists_epsilon (ho : o ∈ h.operators) (hc : (e, c) ∈ h.simpleNumericConds)
    (hb : o.boundsEpsilon h.inadmissibleNumericVariant c = true) : ∃ ε, h.epsilon = some ε := by
  cases hm : h.maxNetEffect with
  | some m => exact ⟨-m / 2, by rw [epsilon, hm]; rfl⟩
  | none =>
    rw [maxNetEffect, List.max?_eq_none_iff, List.flatMap_eq_nil_iff] at hm
    have hnil := List.map_eq_nil_iff.mp (hm o ho)
    have hmem : (e, c) ∈ h.simpleNumericConds.filter fun p =>
        o.boundsEpsilon h.inadmissibleNumericVariant p.2 := List.mem_filter.mpr ⟨hc, hb⟩
    rw [hnil] at hmem
    cases hmem

/-- The weighted sum of a false condition, with its epsilon, is positive. -/
theorem excess_pos (hfalse : ¬ c.holds .python (getValue assignments)) {v : ℚ}
    (hv : h.excess c assignments = some v) : 0 < v := by
  rw [SimpleCondition.holds] at hfalse
  rw [excess] at hv
  cases hlt : c.isLt with
  | true =>
    simp only [hlt, if_true, not_lt] at hfalse hv
    obtain ⟨ε, hε, rfl⟩ := Option.map_eq_some_iff.mp hv
    have := epsilon_pos hε
    linarith
  | false =>
    simp only [hlt, Bool.false_eq_true, if_false, not_le] at hfalse hv
    exact Option.some.inj hv ▸ hfalse

theorem repetitions_pos (ho : o ∈ h.operators) (hc : (e, c) ∈ h.simpleNumericConds)
    (hach : o.achieves h.inadmissibleNumericVariant c = true)
    (hfalse : ¬ c.holds .python (getValue assignments)) :
    ∃ rep, 0 < rep ∧ h.repetitions o c assignments = some rep := by
  have hnot : ((h.excess c assignments).any (· ≤ 0)) = false := by
    cases hv : h.excess c assignments with
    | none => rfl
    | some v => simpa using excess_pos hfalse hv
  rw [repetitions, hnot, if_neg Bool.false_ne_true]
  split_ifs with hassign hneg hassign'
  · exact ⟨1, one_pos, rfl⟩
  · obtain ⟨ε, hε⟩ := exists_epsilon ho hc (by
      rw [Operator.boundsEpsilon, Bool.and_eq_true]
      exact ⟨by simpa [imp_iff_not_or] using hassign, decide_eq_true hneg⟩)
    obtain ⟨v, hv⟩ : ∃ v, h.excess c assignments = some v := by
      rw [excess, hε]
      cases c.isLt <;> exact ⟨_, rfl⟩
    have hpos : 0 < -v / o.netEffect h.inadmissibleNumericVariant c :=
      div_pos_of_neg_of_neg (neg_neg_of_pos (excess_pos hfalse hv)) hneg
    refine ⟨_, ?_, by rw [hv]; rfl⟩
    exact Int.lt_toNat.mpr (Int.ceil_pos.mpr hpos)
  · exact ⟨1, one_pos, rfl⟩
  · rw [Operator.achieves, Bool.or_eq_true, decide_eq_true_eq] at hach
    exact absurd hach (not_or.mpr ⟨hassign', hneg⟩)

/-! ### The task of a state -/

section Task

variable {kind : HeuristicKind} {domains : List FluentDomain}
  {events : List (Action × List (Timing × Event))} {ss : SearchSpace} {inadmissible disable : Bool}
  {todo : AList (fun _ : Action => ℕ × ℕ)}

theorem getElem?_extendDomains {i : ℕ} {d : FluentDomain} (hd : domains[i]? = some d) :
    (extendDomains domains events)[i]? = some d := by
  rw [extendDomains, List.getElem?_append_left (List.getElem?_eq_some_iff.mp hd).1]
  exact hd

theorem ofEvent_eq_some {extended : List FluentDomain} {timedAction : Option Action} {base i : ℕ} {a : Action}
    {le : List (Timing × Event)} {ev : Event} {r : Option Operator} :
    Operator.ofEvent extended disable timedAction base a le i ev = some r ↔
      ((ev.effects.filterMap (Operator.numericEffect extended)).map Prod.fst).Nodup ∧
      ∃ b, buildOperatorCondition extended disable (getEventConditions ev) (previousFluent base le.length i) =
        some b ∧ r = if i = 0 ∧ timedAction = some a then none else b.map fun condition =>
          { action := a
            condition := condition
            effects := (⟨base + i⟩, .bool true) :: ev.effects.flatMap (Operator.propositionalEffects extended)
            numericEffects := ev.effects.filterMap (Operator.numericEffect extended)
            cost := 1 } := by
  rw [Operator.ofEvent]
  by_cases hnodup : ((ev.effects.filterMap (Operator.numericEffect extended)).map Prod.fst).Nodup
  · rw [if_pos hnodup, Option.map_eq_some_iff, and_iff_right hnodup]
    exact exists_congr fun b => and_congr_right fun _ => eq_comm
  · rw [if_neg hnodup]
    exact ⟨fun hr => (by cases hr), fun hr => absurd hr.1 hnodup⟩

/-- The bookkeeping goal is the conjunction of the last flags. -/
theorem extraGoals_spec {goal : Expression} {timedAction : Option Action}
    (hb : Built kind domains events goal timedAction inadmissible disable h) :
    h.extraGoals = (Formula.and (h.layout.map fun p =>
      Formula.leaf [.fluent ⟨p.1 + p.2.2.length - 1⟩]).reverse).nodes := by
  have htree : h.layout.map (fun p => ExpressionNode.fluent ⟨p.1 + p.2.2.length - 1⟩) ++
      [.operator .and (List.range h.layout.length)] =
      (ExprTree.node (.operator .and []) (h.layout.map fun p =>
        ExprTree.node (.fluent ⟨p.1 + p.2.2.length - 1⟩) [])).layout 0 := by
    have hlayouts : ∀ (l : List (ℕ × Action × List (Timing × Event))) n,
        ExprTree.layouts n (l.map fun p => ExprTree.node (.fluent ⟨p.1 + p.2.2.length - 1⟩) []) =
          l.map (fun p => ExpressionNode.fluent ⟨p.1 + p.2.2.length - 1⟩) ∧
        ExprTree.roots n (l.map fun p => ExprTree.node (.fluent ⟨p.1 + p.2.2.length - 1⟩) []) =
          List.range' n l.length := by
      intro l
      induction l with
      | nil => exact fun n => ⟨rfl, rfl⟩
      | cons p l ih =>
        intro n
        obtain ⟨h₁, h₂⟩ := ih (n + 1)
        constructor
        · rw [List.map_cons, ExprTree.layouts]
          show _ :: ExprTree.layouts (n + 1) _ = _
          rw [h₁]
          rfl
        · rw [List.map_cons, ExprTree.roots]
          show _ :: ExprTree.roots (n + 1) _ = _
          rw [h₂]
          rfl
    obtain ⟨h₁, h₂⟩ := hlayouts h.layout 0
    rw [ExprTree.layout, h₁, ExpressionNode.withOperands, h₂, List.range_eq_range']
  have hwf : (ExprTree.node (.operator .and []) (h.layout.map fun p =>
      ExprTree.node (.fluent ⟨p.1 + p.2.2.length - 1⟩) [])).wellFormed = true := by
    rw [ExprTree.wellFormed, Bool.and_eq_true, ExprTree.wellFormeds_iff]
    refine ⟨rfl, fun t ht => ?_⟩
    obtain ⟨p, -, rfl⟩ := List.mem_map.mp ht
    rfl
  have hextra := hb.extraGoals
  rw [htree, ExprTree.convertToHeuristicExpression_layout hwf] at hextra
  rw [← Option.some.inj hextra]
  have hleaves : ∀ l : List (ℕ × Action × List (Timing × Event)),
      (ExprTree.heuristics
        (l.map fun p => ExprTree.node (.fluent ⟨p.1 + p.2.2.length - 1⟩) [])).reverse.flatten =
        Formula.nodesAll (l.map fun p => Formula.leaf [.fluent ⟨p.1 + p.2.2.length - 1⟩]).reverse := by
    have happend : ∀ fs gs : List Formula,
        Formula.nodesAll (fs ++ gs) = Formula.nodesAll fs ++ Formula.nodesAll gs := by
      intro fs gs
      induction fs with
      | nil => rfl
      | cons f fs ih => rw [List.cons_append, Formula.nodesAll, ih, Formula.nodesAll, List.append_assoc]
    intro l
    induction l with
    | nil => rfl
    | cons p l ih =>
      rw [List.map_cons, ExprTree.heuristics, List.reverse_cons, List.flatten_append, ih, List.map_cons,
        List.reverse_cons, happend]
      rfl
  rw [ExprTree.heuristic, hleaves, Formula.nodes]
  simp

/-- A numeric leaf is a comparison. -/
theorem LeafShape.numericLeaf {extended : List FluentDomain} {x : Expression}
    (hext : ∀ {i : ℕ} {d : FluentDomain}, domains[i]? = some d → extended[i]? = some d)
    (hx : LeafShape domains extended x) (hif : hasInterpretedFunction x = false)
    (hnum : isNumericLeafExpression extended x = some true) : NumericLeaf domains extended x := by
  cases hx with
  | numeric hx => exact hx
  | interpreted hif' => exact absurd (hif.symm.trans hif') Bool.noConfusion
  | false | fluent | notFluent | flag => cases hnum
  | @equalsObject f d o hd hkind =>
    have hobj : isNumericLeafExpression extended (equalsObject f o) = some false := by
      simp [equalsObject, isNumericLeafExpression, isNumericOperator, isObjectTyped, isObjectTypedOperand,
        List.getElem?_map, hext hd, hkind]
    rw [hobj] at hnum
    cases hnum

variable [Callables]

/-- The condition of an event's operator. -/
theorem operatorCondition_spec (hb : Built kind domains events ss.goal ss.timedAction inadmissible disable h)
    (henc : HeuristicEncoding ss events domains) {base i : ℕ} {a : Action} {le : List (Timing × Event)}
    {te : Timing × Event} {c : HeuristicExpression} (hlayout : (base, a, le) ∈ h.layout)
    (hte : le[i]? = some te)
    (hbuild : buildOperatorCondition h.domains h.disableNumericReasoning (getEventConditions te.2)
      (previousFluent base le.length i) = some (some c)) :
    OperatorCondition domains h.domains (getEventConditions te.2) (previousFluent base le.length i) c := by
  have hmem : (base, a, le) ∈ TamerLite.layout domains.length events := hb.layout_eq ▸ hlayout
  obtain ⟨hbase, hev⟩ := mem_layout hmem
  have hevent : ss.event a i = some te := by rw [Config.event_eq (henc.events_iff.mp hev), hte]
  have hlt := (List.getElem?_eq_some_iff.mp hte).1
  refine buildOperatorCondition_spec
    (fun hd => hb.domains_eq ▸ getElem?_extendDomains hd) (fun x hx => ?_) ?_ hbuild
  · rw [getEventConditions, List.mem_eraseDups, List.mem_append] at hx
    rcases hx with hx | hx
    · obtain ⟨t, ht, hcond⟩ := henc.conditions hevent _ List.mem_cons_self
      rw [ht] at hx
      exact hcond.of_split x hx
    · exact henc.conditions hevent x (List.mem_cons_of_mem _ hx)
  · rw [previousFluent]
    split_ifs
    · show domains.length ≤ base + le.length - 1
      omega
    · show domains.length ≤ base + i - 1
      omega

/-- The operator of an event, with its condition. -/
theorem operator_spec (hb : Built kind domains events ss.goal ss.timedAction inadmissible disable h)
    (henc : HeuristicEncoding ss events domains) (ho : o ∈ h.operators) :
    ∃ base a le i te, (base, a, le) ∈ h.layout ∧ ss.events a = some le ∧ le[i]? = some te ∧
      ¬ (i = 0 ∧ ss.timedAction = some a) ∧
      o.effects = (⟨base + i⟩, .bool true) :: te.2.effects.flatMap (Operator.propositionalEffects h.domains) ∧
      o.numericEffects = te.2.effects.filterMap (Operator.numericEffect h.domains) ∧
      (o.numericEffects.map Prod.fst).Nodup ∧ o.cost = 1 ∧ o.action = a ∧
      OperatorCondition domains h.domains (getEventConditions te.2) (previousFluent base le.length i)
        o.condition := by
  obtain ⟨base, a, le, i, te, hlayout, hte, hof⟩ := hb.operators.mp ho
  obtain ⟨hnodup, b, hbuild, hr⟩ := ofEvent_eq_some.mp hof
  split_ifs at hr with htimed
  obtain ⟨c, rfl, rfl⟩ := Option.map_eq_some_iff.mp hr.symm
  have hmem : (base, a, le) ∈ TamerLite.layout domains.length events := hb.layout_eq ▸ hlayout
  exact ⟨base, a, le, i, te, hlayout, henc.events_iff.mp (mem_layout hmem).2, hte, htimed, rfl, rfl, hnodup,
    rfl, rfl, operatorCondition_spec hb henc hlayout hte hbuild⟩

/-- The goal, rewritten. -/
theorem goals_spec (hb : Built kind domains events ss.goal ss.timedAction inadmissible disable h)
    (henc : HeuristicEncoding ss events domains) :
    IsFormula h.goals ∧ (∀ x, .leaf x ∈ h.goals → LeafShape domains h.domains x) ∧
      ∀ assignments, WithinDomains domains assignments → InDomains h.domains (getValue assignments) →
        holds ss.goal assignments = true → h.goals.isTrue (Core.holds .python · assignments) = some true := by
  obtain ⟨t, ht, hcond⟩ := henc.goal
  obtain ⟨c, hc, hs⟩ := hb.goals
  rw [ht, ExprTree.convertToHeuristicExpression_layout hcond.wellFormed] at hc
  obtain rfl := Option.some.inj hc
  refine ⟨?_, hcond.leafShape (fun hd => hb.domains_eq ▸ getElem?_extendDomains hd) hs,
    fun assignments hwithin hin hholds => ?_⟩
  · obtain ⟨f, hf⟩ := ExprTree.isFormula_heuristic t
    exact isFormula_simplifyCondition f _ (hf ▸ hs)
  · rw [ht] at hholds
    exact exists_simplified hin (hcond.isCondition hwithin hholds) hholds hs

/-- Every leaf that operators and the goal read is of a known kind. -/
theorem leafShape_of_mem (hb : Built kind domains events ss.goal ss.timedAction inadmissible disable h)
    (henc : HeuristicEncoding ss events domains) {x : Expression} (hx : x ∈ h.conditions) :
    LeafShape domains h.domains x := by
  have hleaf : ∀ {c : HeuristicExpression}, x ∈ c.leaves → .leaf x ∈ c := by
    intro c hx
    obtain ⟨node, hnode, hsome⟩ := List.mem_filterMap.mp hx
    cases node with
    | leaf e => exact Option.some.inj hsome ▸ hnode
    | and | or => cases hsome
  rcases List.mem_append.mp hx with hx | hx
  · obtain ⟨o, ho, hx⟩ := List.mem_flatMap.mp hx
    obtain ⟨base, a, le, i, te, -, -, -, -, -, -, -, -, -, hcond⟩ := operator_spec hb henc ho
    exact hcond.leaves x (hleaf hx)
  · exact (goals_spec hb henc).2.1 x (hleaf hx)

theorem numericLeaf_of_simple (hb : Built kind domains events ss.goal ss.timedAction inadmissible disable h)
    (henc : HeuristicEncoding ss events domains) (he : e ∈ h.conditions) (hc : h.classOf e = .simple c) :
    NumericLeaf domains h.domains e := by
  have hnum : isNumericLeafExpression h.domains e = some true := by
    rw [classOf] at hc
    split_ifs at hc with _ hnum
    exact hnum
  exact LeafShape.numericLeaf (fun hd => hb.domains_eq ▸ getElem?_extendDomains hd)
    (leafShape_of_mem hb henc he) (classOf_simple hc).1 hnum

/-- The conditions that are evaluated have values in a state. -/
def HasValues (h : DeleteRelaxationHeuristic) (assignments : Assignments) : Prop :=
  ∀ e ∈ h.conditions, h.classOf e ≠ .propositional → ∃ v, evaluate e assignments = some v

/-- The task of a state is one the loop is made for. -/
theorem valid_relaxedTask (hb : Built kind domains events ss.goal ss.timedAction inadmissible disable h)
    (henc : HeuristicEncoding ss events domains) (hvalues : h.HasValues assignments) :
    (h.relaxedTask assignments todo).Valid where
  formula := by
    intro op hop
    have hgoal : IsFormula (if h.kind = .hff then h.goals else conjunction [h.goals, h.extraGoals]) := by
      have hgoals := (goals_spec hb henc).1
      split_ifs
      · exact hgoals
      · refine isFormula_conjunction (by simp) fun c hc => ?_
        rcases List.mem_cons.mp hc with rfl | hc
        · exact hgoals
        · rw [List.mem_singleton.mp hc, extraGoals_spec hb]
          exact ⟨_, rfl⟩
    have hcond : (h.relaxedTask assignments todo).condition op =
        ((h.operators.map Operator.condition ++
          [if h.kind = .hff then h.goals else conjunction [h.goals, h.extraGoals]])[op]?).getD [] := by
      simp [RelaxedTask.condition, relaxedTask, Function.comp_def]
    have hlen : (h.relaxedTask assignments todo).goalOp = h.operators.length := by
      simp [RelaxedTask.goalOp, relaxedTask]
    rw [hlen] at hop
    have hlt : op < (h.operators.map Operator.condition ++
        [if h.kind = .hff then h.goals else conjunction [h.goals, h.extraGoals]]).length := by
      simp only [List.length_append, List.length_map, List.length_singleton]
      omega
    rw [hcond, List.getElem?_eq_getElem hlt, Option.getD_some]
    have hmem := List.getElem_mem hlt
    rcases List.mem_append.mp hmem with hmem | hmem
    · obtain ⟨o, ho, heq⟩ := List.mem_map.mp hmem
      obtain ⟨base, a, le, i, te, -, -, -, -, -, -, -, -, -, hoc⟩ := operator_spec hb henc ho
      rw [← heq]
      exact hoc.isFormula
    · rw [List.mem_singleton.mp hmem]
      exact hgoal
  cost_pos := by
    intro r hr
    obtain ⟨o, ho, rfl⟩ := List.mem_map.mp hr
    obtain ⟨base, a, le, i, te, -, -, -, -, -, -, -, hcost, -⟩ := operator_spec hb henc ho
    show 0 < o.cost
    rw [hcost]
    exact one_pos
  repetitions := by
    intro r hr cond hcond hinit
    obtain ⟨o, ho, rfl⟩ := List.mem_map.mp hr
    obtain ⟨⟨e, c⟩, hp, rfl⟩ := List.mem_map.mp hcond
    obtain ⟨hmem, hach⟩ := List.mem_filter.mp hp
    obtain ⟨he, hc⟩ := mem_simpleNumericConds.mp hmem
    obtain ⟨v, hv⟩ := hvalues e he (by rw [hc]; simp)
    refine repetitions_pos ho hmem hach fun hholds => hinit ?_
    have hleaf := numericLeaf_of_simple hb henc he hc
    have htrue := (holds_iff hleaf.isExpression hc hv).mpr hholds
    show h.initialCosts assignments todo e = 0
    rw [initialCosts, hc]
    exact if_pos htrue

/-- The loop evaluates every state without a failed assertion, and its value is that of the
least solution of the cost equations, where no drain is needed. -/
theorem fixpoint_exact
    (hnew : new kind domains events ss.goal ss.timedAction inadmissible disable = some h)
    (henc : HeuristicEncoding ss events domains) (hvalues : h.HasValues assignments)
    (queue : PriorityQueue costLt) :
    ∃ (hv : (h.relaxedTask assignments todo).Valid) (n : ℕ) (s : Fixpoint),
      (h.relaxedTask assignments todo).run queue false n = .inl (some s) ∧
      (h.relaxedTask assignments todo).Answer (RelaxedTask.system hv).least s :=
  have hv := valid_relaxedTask (new_spec hnew) henc hvalues
  ⟨hv, RelaxedTask.run_spec hv queue⟩

end Task

end DeleteRelaxationHeuristic

section Savings

attribute [local instance] Callables.empty

/-- The heap of the draining hmax. -/
def binaryHeap : PriorityQueue heapLt :=
  .ofKey (fun p => toLex p) (by
    intro p q
    simp [heapLt, Prod.Lex.toLex_lt_toLex])

def savingsRaise (f : ℕ) (q : ℚ) : Effect :=
  ⟨⟨f⟩, [.fluent ⟨f⟩, .constant (.num q), .operator .plus [0, 1]]⟩

def savingsAtLeast (q : ℚ) (f : ℕ) : Expression := [.constant (.num q), .fluent ⟨f⟩, .operator .le [0, 1]]

def savingsEvent (a : ℕ) (conditions : Expression) (effects : List Effect) : Timing × Event :=
  (⟨true, 0⟩, ⟨⟨a⟩, 0, conditions, [], [], effects⟩)

/-- Work fills an account and gives experience, which is needed for a well-paid job
and for a loan; what is on the account can be traded. -/
def savingsTable : List (List (Timing × Event)) :=
  [[savingsEvent 0 [.constant (.bool true)] [savingsRaise 0 1, savingsRaise 1 1]],
   [savingsEvent 1 (savingsAtLeast 2 0) [savingsRaise 2 10]],
   [savingsEvent 2 (savingsAtLeast 5 1) [savingsRaise 2 1]],
   [savingsEvent 3 (savingsAtLeast 3 0) [savingsRaise 1 5]]]

def savingsEvents : List (Action × List (Timing × Event)) :=
  savingsTable.zipIdx.map fun p => (⟨p.2⟩, p.1)

def savingsDomains : List FluentDomain := List.replicate 3 ⟨.int, []⟩

def savingsSpace : SearchSpace :=
  SearchSpace.ofTable (savingsTable.map fun le => (none, le)) (List.replicate 3 (.num 0))
    (savingsAtLeast 10 2)

def savingsNew : Option DeleteRelaxationHeuristic :=
  DeleteRelaxationHeuristic.new .hmax savingsDomains savingsEvents savingsSpace.goal
    savingsSpace.timedAction false false

theorem savingsNew_isSome : savingsNew.isSome = true := by decide +kernel

def savingsHmax : DeleteRelaxationHeuristic := savingsNew.get savingsNew_isSome

def savingsTask : RelaxedTask := savingsHmax.relaxedTask savingsSpace.initialState ∅

theorem savings_domain {f : ℕ} (hf : f < 3) : savingsDomains[f]? = some ⟨.int, []⟩ := by
  rw [savingsDomains, List.getElem?_replicate, if_pos hf]

theorem savings_atLeast (q : ℚ) {f : ℕ} (hf : f < 3) :
    ∃ t : ExprTree, savingsAtLeast q f = t.layout 0 ∧ t.Condition savingsDomains := by
  refine ⟨.node (.operator .le []) [.node (.constant (.num q)) [], .node (.fluent ⟨f⟩) []], rfl, rfl, rfl,
    .literal (.atom (.compare (.inl rfl) (.number q) (.fluent (savings_domain hf) (.inl rfl)))) (by simp),
    fun _ _ => ?_⟩
  simp [ExprTree.ComparesAlike, ExprTree.AllCompareAlike]

theorem savingsSpace_events {a : Action} {le : List (Timing × Event)} :
    (a, le) ∈ savingsEvents ↔ savingsSpace.events a = some le := by
  obtain ⟨i⟩ := a
  have hev : savingsSpace.events ⟨i⟩ = savingsTable[i]? := by
    match i with
    | 0 | 1 | 2 | 3 => rfl
    | i + 4 => rfl
  rw [hev, savingsEvents, List.mem_map]
  refine ⟨fun ⟨p, hp, heq⟩ => ?_, fun h => ⟨(le, i), List.mem_zipIdx_iff_getElem?.mpr h, rfl⟩⟩
  obtain ⟨hidx, rfl⟩ := Prod.mk.inj heq
  obtain rfl := Action.mk.inj hidx
  exact List.mem_zipIdx_iff_getElem?.mp hp

/-- What an event asks for and does. -/
theorem savings_event {a : Action} {k : ℕ} {te : Timing × Event} (h : savingsSpace.event a k = some te) :
    (te.2.conditions = [.constant (.bool true)] ∨ ∃ q, ∃ f < 3, te.2.conditions = savingsAtLeast q f) ∧
      te.2.endConditions = [] ∧ ∀ eff ∈ te.2.effects, ∃ f < 3, ∃ q, eff = savingsRaise f q := by
  obtain ⟨le, hle, hte⟩ := Option.bind_eq_some_iff.mp h
  have hmem : te ∈ savingsTable.flatten := by
    obtain ⟨p, hp, heq⟩ := List.mem_map.mp (savingsSpace_events.mpr hle)
    obtain ⟨-, rfl⟩ := Prod.mk.inj heq
    exact List.mem_flatten.mpr ⟨p.1, List.fst_mem_of_mem_zipIdx hp, List.mem_of_getElem? hte⟩
  have hraise : ∀ f < 3, ∀ q, ∃ g < 3, ∃ r, savingsRaise f q = savingsRaise g r :=
    fun f hf q => ⟨f, hf, q, rfl⟩
  simp only [savingsTable, List.flatten_cons, List.cons_append, List.nil_append, List.flatten_nil,
    List.mem_cons, List.not_mem_nil, or_false] at hmem
  rcases hmem with rfl | rfl | rfl | rfl
  · exact ⟨.inl rfl, rfl, by simp [savingsEvent, hraise]⟩
  · exact ⟨.inr ⟨2, 0, by omega, rfl⟩, rfl, by simp [savingsEvent, hraise]⟩
  · exact ⟨.inr ⟨5, 1, by omega, rfl⟩, rfl, by simp [savingsEvent, hraise]⟩
  · exact ⟨.inr ⟨3, 0, by omega, rfl⟩, rfl, by simp [savingsEvent, hraise]⟩

theorem savings_encoding : HeuristicEncoding savingsSpace savingsEvents savingsDomains where
  events_iff := savingsSpace_events
  initial := by
    refine ⟨rfl, fun i d hd => ⟨.num 0, ?_, ?_⟩⟩
    · have hi : i < 3 := (List.getElem?_eq_some_iff.mp hd).1
      show (List.replicate 3 _)[i]? = _
      rw [List.getElem?_replicate, if_pos hi]
    · rw [List.eq_of_mem_replicate (List.mem_of_getElem? hd)]
      exact .inl rfl
  conditions := by
    intro a k te h x hx
    obtain ⟨hcond, hend, -⟩ := savings_event h
    rw [hend, List.mem_singleton] at hx
    subst hx
    rcases hcond with hcond | ⟨q, f, hf, hcond⟩ <;> rw [hcond]
    · exact ⟨.node (.constant (.bool true)) [], rfl, rfl, rfl, .true, fun _ _ => by
        simp [ExprTree.ComparesAlike, ExprTree.AllCompareAlike]⟩
    · exact savings_atLeast q hf
  goal := savings_atLeast 10 (by omega)
  effects := by
    intro a k te h eff he
    obtain ⟨f, hf, q, rfl⟩ := (savings_event h).2.2 eff he
    refine ⟨⟨.node (.operator .plus []) [.node (.fluent ⟨f⟩) [], .node (.constant (.num q)) []],
      rfl, rfl, rfl⟩, _, savings_domain hf, fun assignments hin v hv => ?_⟩
    obtain ⟨w, hw, hhas⟩ := hin f _ (savings_domain hf)
    have hget : getValue assignments ⟨f⟩ = some w := hw
    cases w with
    | bool b => cases hhas
    | object o => cases hhas.1
    | num x =>
      have hsum : evaluate (savingsRaise f q).value assignments = some (.num (x + q)) := by
        simp [savingsRaise, evaluate, evalNodes, evalNode, hget, evalOperator, evalFold,
          operandNum, ConstantNode.toNum]
      obtain rfl := Option.some.inj (hv.symm.trans hsum)
      exact .inl rfl

theorem savingsHmax_eq : DeleteRelaxationHeuristic.new .hmax savingsDomains savingsEvents savingsSpace.goal
    savingsSpace.timedAction false false = some savingsHmax :=
  (Option.some_get savingsNew_isSome).symm

/-- Every condition has a value in the initial state. -/
theorem savings_hasValues : savingsHmax.HasValues savingsSpace.initialState := by
  have hall : savingsHmax.conditions.all (fun e => decide (savingsHmax.classOf e = .propositional) ||
      (evaluate e savingsSpace.initialState).isSome) = true := by decide +kernel
  intro e he hne
  have h := List.all_eq_true.mp hall e he
  rw [Bool.or_eq_true, decide_eq_true_eq, Option.isSome_iff_exists] at h
  exact h.resolve_left hne

theorem fixpoint_exact_savings :
    ∃ (hv : savingsTask.Valid) (n : ℕ) (s : Fixpoint),
      savingsTask.run binaryHeap.byCost false n = .inl (some s) ∧
      savingsTask.Answer (RelaxedTask.system hv).least s :=
  DeleteRelaxationHeuristic.fixpoint_exact savingsHmax_eq savings_encoding savings_hasValues
    binaryHeap.byCost

/-- What the loop makes of the goal. -/
theorem savings_value : (match savingsTask.run binaryHeap.byCost false 15 with
    | .inl (some s) => some (savingsTask.preconditionCost savingsTask.goalOp s.condCost)
    | _ => none) = some 3 := by decide +kernel

/-- An operator that achieves a numeric condition of hmax makes it as cheap as its
repetitions over any achiever's precondition. -/
theorem RelaxedTask.offers_of_numericConds {t : RelaxedTask} (op : ℕ) {op' rep : ℕ} {e : Expression}
    (hmax : t.isHmax = true)
    (hop : (t.operators[op]?).any (fun o => decide ((e, some rep) ∈ o.numericConds) && o.cost = 1) = true)
    (hop' : (t.operators[op']?).any (fun o => decide (e ∈ o.numericConds.map Prod.fst)) = true)
    (hinit : t.initialCosts e ≠ 0) : (rep, op') ∈ t.offers e := by
  obtain ⟨o, ho, hmem⟩ := (Option.any_eq_true _ _).mp hop
  obtain ⟨o', ho', hmem'⟩ := (Option.any_eq_true _ _).mp hop'
  rw [Bool.and_eq_true, decide_eq_true_eq, decide_eq_true_eq] at hmem
  obtain ⟨c, hc, heq⟩ := List.mem_map.mp (of_decide_eq_true hmem')
  refine ⟨op, o, ho, .inr ⟨hinit, rep, hmem.1, by simp [hmem.2], ?_⟩⟩
  rw [if_pos hmax]
  exact ⟨o', ho', c, hc, heq⟩

/-- The fix-point gets the goal for two: a loan makes trading possible at once, and
the well-paid job takes one step. The loop has expanded the job before that. -/
theorem fixpoint_not_exact_savings : HeuristicEncoding savingsSpace savingsEvents savingsDomains ∧
    ∃ (hv : savingsTask.Valid) (n : ℕ) (s : Fixpoint),
      savingsTask.run binaryHeap.byCost false n = .inl (some s) ∧
      savingsTask.preconditionCost savingsTask.goalOp s.condCost = 3 ∧
      savingsTask.preconditionCost savingsTask.goalOp (RelaxedTask.system hv).least ≤ 2 := by
  have hv : savingsTask.Valid :=
    DeleteRelaxationHeuristic.valid_relaxedTask (DeleteRelaxationHeuristic.new_spec savingsHmax_eq)
      savings_encoding savings_hasValues
  let S := RelaxedTask.system hv
  have hinit : S.least ≤ savingsTask.initialCosts := System.le_initial (S.next_least)
  have hmono : ∀ {op : ℕ} {x : Costs}, S.least ≤ x →
      savingsTask.preconditionCost op S.least ≤ savingsTask.preconditionCost op x :=
    fun hx => (hv.isLocal _).mono hx
  have hloan : S.least (savingsAtLeast 5 1) ≤ 1 := by
    have hoffer : ((1 : ℕ), 0) ∈ S.offers (savingsAtLeast 5 1) :=
      RelaxedTask.offers_of_numericConds 3 rfl (by decide +kernel) (by decide +kernel)
        (by decide +kernel)
    have hpre : savingsTask.preconditionCost 0 savingsTask.initialCosts = 0 := by decide +kernel
    calc S.least (savingsAtLeast 5 1) ≤ (1 : ℕ) + savingsTask.preconditionCost 0 S.least :=
          System.le_offer S.next_least hoffer
      _ ≤ (1 : ℕ) + savingsTask.preconditionCost 0 savingsTask.initialCosts := by gcongr; exact hmono hinit
      _ = 1 := by rw [hpre]; rfl
  let x := Function.update savingsTask.initialCosts (savingsAtLeast 5 1) 1
  have hx : S.least ≤ x := le_update_iff.mpr ⟨hloan, fun l _ => hinit l⟩
  have hjob : S.least (savingsAtLeast 10 2) ≤ 2 := by
    have hoffer : ((1 : ℕ), 2) ∈ S.offers (savingsAtLeast 10 2) :=
      RelaxedTask.offers_of_numericConds 1 rfl (by decide +kernel) (by decide +kernel)
        (by decide +kernel)
    have hpre : savingsTask.preconditionCost 2 x = 1 := by decide +kernel
    calc S.least (savingsAtLeast 10 2) ≤ (1 : ℕ) + savingsTask.preconditionCost 2 S.least :=
          System.le_offer S.next_least hoffer
      _ ≤ (1 : ℕ) + savingsTask.preconditionCost 2 x := by gcongr; exact hmono hx
      _ = 2 := by rw [hpre]; rfl
  let y := Function.update x (savingsAtLeast 10 2) 2
  have hy : S.least ≤ y := le_update_iff.mpr ⟨hjob, fun l _ => hx l⟩
  have hgoal : savingsTask.preconditionCost savingsTask.goalOp y = 2 := by decide +kernel
  have hvalue := savings_value
  split at hvalue
  · rename_i s hs
    exact ⟨savings_encoding, hv, 15, s, hs, Option.some.inj hvalue, (hmono hy).trans hgoal.le⟩
  · cases hvalue

end Savings

end TamerLite
