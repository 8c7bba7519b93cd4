import TamerLite.RelaxedRuns

/-! Costs that lie below what the relaxed operators offer are finite for whatever a
plan makes true: so a state from which the goal is reached is no dead end. -/

namespace TamerLite

open CostEquations SearchSpace

/-- A property of costs that a true condition has from its true leaves. -/
theorem expressionCost_of_isTrue {hmax : Bool} {costs : Costs} {leaf : Expression → Bool} {P : ℕ∞ → Prop}
    {c : HeuristicExpression} (hzero : P 0)
    (hand : ∀ x y, P x → P y → P (if hmax then max x y else x + y)) (hle : ∀ x y, y ≤ x → P x → P y)
    (hf : IsFormula c) (hleaf : ∀ e, .leaf e ∈ c → leaf e = true → P (costs e))
    (ht : c.isTrue leaf = some true) : P (expressionCost hmax c costs) := by
  obtain ⟨f, rfl⟩ := hf
  rw [(f.computes_truth leaf).isTrue, Option.some.injEq] at ht
  rw [Formula.expressionCost_nodes]
  exact f.cost_of_truth hzero hand hle (fun e he => hleaf e ((f.mem_leaves e).mp he)) ht

/-- A true condition is reached when its true leaves are. -/
theorem expressionCost_ne_top {hmax : Bool} {costs : Costs} {leaf : Expression → Bool}
    {c : HeuristicExpression} (hf : IsFormula c)
    (hleaf : ∀ e, .leaf e ∈ c → leaf e = true → costs e ≠ ⊤) (ht : c.isTrue leaf = some true) :
    expressionCost hmax c costs ≠ ⊤ := by
  refine expressionCost_of_isTrue (P := (· ≠ ⊤)) (by simp) (fun x y hx hy => ?_)
    (fun x y hyx hx => ne_top_of_le_ne_top hx hyx) hf hleaf ht
  cases hmax with
  | true => simpa using ⟨hx, hy⟩
  | false => simpa using ⟨hx, hy⟩

/-- The cost of the conjunction of two conditions. -/
theorem expressionCost_conjunction {hmax : Bool} {costs : Costs} {c d : HeuristicExpression}
    (hc : IsFormula c) (hd : IsFormula d) : expressionCost hmax (conjunction [c, d]) costs =
      if hmax then max (expressionCost hmax d costs) (expressionCost hmax c costs)
      else expressionCost hmax d costs + expressionCost hmax c costs := by
  have hnodes : conjunction [c, d] = c ++ d ++ [.and 2] := by
    rw [conjunction, List.filter_eq_self.mpr (by simp [hc.ne_nil, hd.ne_nil])]
    simp
  obtain ⟨f, rfl⟩ := hc
  obtain ⟨g, rfl⟩ := hd
  have hand : f.nodes ++ g.nodes ++ [.and 2] = (Formula.and [f, g]).nodes := by
    simp [Formula.nodes, Formula.nodesAll]
  rw [hnodes, hand, Formula.expressionCost_nodes, Formula.expressionCost_nodes,
    Formula.expressionCost_nodes, Formula.cost, Formula.costAll_eq_map]
  simp [andCost_cons]

namespace DeleteRelaxationHeuristic

variable {h : DeleteRelaxationHeuristic} {e : Expression} {o : Operator} {ss : SearchSpace}
  {assignments : Assignments} {todo : AList (fun _ : Action => ℕ × ℕ)} {kind : HeuristicKind}
  {domains : List FluentDomain} {events : List (Action × List (Timing × Event))}
  {inadmissible disable : Bool} {c c' : Config} {a : Action} {y : Costs}

/-- What the task of a state makes of an operator. -/
def relaxedOperator (h : DeleteRelaxationHeuristic) (assignments : Assignments) (o : Operator) :
    RelaxedOperator where
  condition := o.condition
  effects := (o.effects.map effectCondition).filter (· ∈ h.conditions ++ h.extraGoals.leaves)
  numericConds := (h.simpleNumericConds.filter fun p => o.achieves h.inadmissibleNumericVariant p.2).map
    fun p => (p.1, h.repetitions o p.2 assignments)
  cost := o.cost

theorem mem_conditions_of_operator (ho : o ∈ h.operators) (he : .leaf e ∈ o.condition) :
    e ∈ h.conditions := by
  refine List.mem_append_left _ (List.mem_flatMap.mpr ⟨o, ho, ?_⟩)
  exact List.mem_filterMap.mpr ⟨_, he, rfl⟩

theorem mem_conditions_of_goals (he : .leaf e ∈ h.goals) : e ∈ h.conditions :=
  List.mem_append_right _ (List.mem_filterMap.mpr ⟨_, he, rfl⟩)

theorem classOf_fluent (f : Fluent) : h.classOf [.fluent f] = .propositional := rfl

/-- The bookkeeping goal reads flags. -/
theorem exists_of_mem_extraGoals {goal : Expression} {timedAction : Option Action}
    (hb : Built kind domains events goal timedAction inadmissible disable h)
    (he : e ∈ h.extraGoals.leaves) :
    ∃ p ∈ h.layout, e = [.fluent ⟨p.1 + p.2.2.length - 1⟩] := by
  obtain ⟨node, hnode, hsome⟩ := List.mem_filterMap.mp he
  cases node with
  | and | or => cases hsome
  | leaf e' =>
    obtain rfl := Option.some.inj hsome
    rw [extraGoals_spec hb, ← Formula.mem_leaves, Formula.leaves, Formula.mem_leavesAll] at hnode
    obtain ⟨f, hf, hmem⟩ := hnode
    obtain ⟨p, hp, rfl⟩ := List.mem_map.mp (List.mem_reverse.mp hf)
    exact ⟨p, hp, List.mem_singleton.mp hmem⟩

variable [Callables]

theorem operators_relaxedTask :
    (h.relaxedTask assignments todo).operators = h.operators.map (h.relaxedOperator assignments) := rfl

theorem goalOp_relaxedTask : (h.relaxedTask assignments todo).goalOp = h.operators.length := by
  rw [RelaxedTask.goalOp, operators_relaxedTask, List.length_map]

/-- The operators of the task, by id. -/
theorem getElem?_relaxedTask {n : ℕ} : (h.relaxedTask assignments todo).operators[n]? =
    h.operators[n]?.map (h.relaxedOperator assignments) := by
  rw [operators_relaxedTask, List.getElem?_map]

theorem condition_relaxedTask {n : ℕ} (hn : h.operators[n]? = some o) :
    (h.relaxedTask assignments todo).condition n = o.condition := by
  have hlt := (List.getElem?_eq_some_iff.mp hn).1
  rw [RelaxedTask.condition, operators_relaxedTask, List.map_map,
    List.getElem?_append_left (by simpa using hlt), List.getElem?_map, hn]
  rfl

theorem condition_goalOp : (h.relaxedTask assignments todo).condition h.operators.length =
    if h.kind = .hff then h.goals else conjunction [h.goals, h.extraGoals] := by
  rw [RelaxedTask.condition, operators_relaxedTask, List.map_map,
    List.getElem?_append_right (by simp), List.length_map, Nat.sub_self]
  rfl

/-! ### What a plan reaches -/

/-- The costs are finite for whatever is true in a configuration. -/
def Covered (h : DeleteRelaxationHeuristic) (domains : List FluentDomain) (y : Costs) (c : Config) : Prop :=
  ∀ e ∈ h.conditions ++ h.extraGoals.leaves, TrueLeaf h domains c.assignments c.todo e → y e ≠ ⊤

/-- What costs at most its initial cost is finite where it is true. -/
theorem covered_start (hb : Built kind domains events ss.goal ss.timedAction inadmissible disable h)
    (hvalues : h.HasValues c.assignments) (hle : ∀ e, y e ≤ h.initialCosts c.assignments c.todo e) :
    Covered h domains y c := by
  intro e he hx
  have hvalue : ∀ s, h.classOf e = .simple s → ∃ v, evaluate e c.assignments = some v := by
    intro s hs
    rcases List.mem_append.mp he with he | he
    · exact hvalues e he (by simp [hs])
    · obtain ⟨p, -, rfl⟩ := exists_of_mem_extraGoals hb he
      cases hs
  refine ne_top_of_le_ne_top ?_ (hle e)
  rcases hx.initialCosts_eq hb hvalue with hopaque | hzero
  · exact ne_top_of_le_ne_top (by simp) hopaque.initialCosts_le
  · simp [hzero]

/-- The condition of an operator that can be fired is reached. -/
theorem Fires.precondition_ne_top
    (hb : Built kind domains events ss.goal ss.timedAction inadmissible disable h)
    (henc : HeuristicEncoding ss events domains) (hr : Reads domains c.assignments)
    (hcov : Covered h domains y c) {base k n : ℕ} {te : Timing × Event} (ho : Fires h c base k te o)
    (hn : h.operators[n]? = some o) :
    (h.relaxedTask assignments todo).preconditionCost n y ≠ ⊤ := by
  rw [RelaxedTask.preconditionCost, condition_relaxedTask hn]
  obtain ⟨_, _, _, _, _, -, -, -, -, -, -, -, -, -, hcond⟩ := operator_spec hb henc ho.mem
  refine expressionCost_ne_top hcond.isFormula (fun e he ht => ?_) ho.isTrue
  exact hcov e (List.mem_append_left _ (mem_conditions_of_operator ho.mem he))
    (trueLeaf_of_holds hr (hcond.leaves e he) ht)

/-- What a plan's step makes true is reached. -/
theorem Covered.step (hb : Built kind domains events ss.goal ss.timedAction inadmissible disable h)
    (henc : HeuristicEncoding ss events domains) (hv : (h.relaxedTask assignments todo).Valid)
    (hy : (h.relaxedTask assignments todo).LowerBound y) (hwf : c.WellFormed ss)
    (hr : Reads domains c.assignments) (hcov : Covered h domains y c) (hs : c.step ss a = some c') :
    Covered h domains y c' := by
  intro e he hx
  rcases hx.step hb henc hwf hr hs with hold | hopaque | ⟨base, k, te, o, ho, hmakes⟩
  · exact hcov e he hold
  · refine ne_top_of_le_ne_top ?_ ((hy.initial e).trans hopaque.initialCosts_le)
    simp
  · obtain ⟨n, hn⟩ := List.getElem?_of_mem ho.mem
    have hpre : (h.relaxedTask assignments todo).preconditionCost n y ≠ ⊤ :=
      ho.precondition_ne_top hb henc hr hcov hn
    have hop : (h.relaxedTask assignments todo).operators[n]? = some (h.relaxedOperator assignments o) := by
      rw [getElem?_relaxedTask, hn, Option.map_some]
    have hfinite : ∀ w : ℕ, (w : ℕ∞) + (h.relaxedTask assignments todo).preconditionCost n y ≠ ⊤ := by
      intro w
      simpa using hpre
    rcases hmakes with heff | ⟨s, hs, hach⟩
    · refine ne_top_of_le_ne_top (hfinite o.cost) (hy.offer e (o.cost, n) ⟨n, _, hop, .inl ⟨?_, rfl⟩⟩)
      exact List.mem_filter.mpr ⟨heff, decide_eq_true he⟩
    · by_cases hzero : (h.relaxedTask assignments todo).initialCosts e = 0
      · exact ne_top_of_le_ne_top (by simp) ((hy.initial e).trans hzero.le)
      · have hmem : (e, h.repetitions o s assignments) ∈ (h.relaxedOperator assignments o).numericConds := by
          have hcond : e ∈ h.conditions := by
            rcases List.mem_append.mp he with he | he
            · exact he
            · obtain ⟨p, -, rfl⟩ := exists_of_mem_extraGoals hb he
              cases hs
          exact List.mem_map.mpr ⟨(e, s), List.mem_filter.mpr
            ⟨mem_simpleNumericConds.mpr ⟨hcond, hs⟩, hach⟩, rfl⟩
        obtain ⟨rep, -, hrep⟩ := hv.repetitions _ (List.mem_of_getElem? hop) _ hmem hzero
        obtain hrep : h.repetitions o s assignments = some rep := hrep
        rw [hrep] at hmem
        refine ne_top_of_le_ne_top (hfinite (rep * o.cost))
          (hy.offer e (rep * o.cost, n) ⟨n, _, hop, .inr ⟨hzero, rep, hmem, rfl, ?_⟩⟩)
        split_ifs
        · exact ⟨_, hop, _, hmem, rfl⟩
        · rfl

/-- What a plan makes true is reached. -/
theorem Covered.run (hb : Built kind domains events ss.goal ss.timedAction inadmissible disable h)
    (henc : HeuristicEncoding ss events domains) (hv : (h.relaxedTask assignments todo).Valid)
    (hy : (h.relaxedTask assignments todo).LowerBound y) (hwf : c.WellFormed ss)
    (hr : Reads domains c.assignments) (hcov : Covered h domains y c) {as : List Action}
    (hrun : c.run ss as = some c') :
    Covered h domains y c' ∧ Reads domains c'.assignments ∧ c'.WellFormed ss := by
  induction as generalizing c with
  | nil => exact Option.some.inj hrun ▸ ⟨hcov, hr, hwf⟩
  | cons a as ih =>
    obtain ⟨d, hd, hrun⟩ := Config.run_cons.mp hrun
    exact ih (hwf.step hd) (hr.step henc hwf hd) (hcov.step hb henc hv hy hwf hr hd) hrun

/-- With nothing left open every last flag is true. -/
theorem trueLeaf_of_extraGoals (hb : Built kind domains events ss.goal ss.timedAction inadmissible disable h)
    (henc : HeuristicEncoding ss events domains) (hempty : c.todo.entries.isEmpty = true)
    (he : e ∈ h.extraGoals.leaves) : TrueLeaf h domains c.assignments c.todo e := by
  obtain ⟨p, hp, rfl⟩ := exists_of_mem_extraGoals hb he
  obtain ⟨base, a, le⟩ := p
  have hlayout : (base, a, le) ∈ TamerLite.layout domains.length events := hb.layout_eq ▸ hp
  obtain ⟨hbase, hev⟩ := mem_layout hlayout
  have hpos := List.length_pos_iff.mpr (ss.events_numbered (henc.events_iff.mp hev)).1
  have hmem : base + le.length - 1 ∈ h.progressFluents c.todo := by
    refine List.mem_map.mpr ⟨_, hp, ?_⟩
    rw [isEmpty_entries_iff.mp hempty]
  refine .flag ?_ hmem
  show domains.length ≤ base + le.length - 1
  omega

/-- Where the goal is reached its condition is. -/
theorem goal_cost {P : ℕ∞ → Prop} (hzero : P 0)
    (hand : ∀ x y, P x → P y → P (if (h.relaxedTask assignments todo).isHmax then max x y else x + y))
    (hle : ∀ x y, y ≤ x → P x → P y) {leaf : Expression → Bool}
    (hb : Built kind domains events ss.goal ss.timedAction inadmissible disable h)
    (henc : HeuristicEncoding ss events domains)
    (hgoal : h.goals.isTrue leaf = some true)
    (hleaf : ∀ e, .leaf e ∈ h.goals → leaf e = true → P (y e))
    (hextra : ∀ e ∈ h.extraGoals.leaves, P (y e)) :
    P ((h.relaxedTask assignments todo).preconditionCost (h.relaxedTask assignments todo).goalOp y) := by
  rw [RelaxedTask.preconditionCost, goalOp_relaxedTask, condition_goalOp]
  obtain ⟨hf, -, -⟩ := goals_spec hb henc
  have hgoals : P (expressionCost (h.relaxedTask assignments todo).isHmax h.goals y) :=
    expressionCost_of_isTrue hzero hand hle hf hleaf hgoal
  split_ifs
  · exact hgoals
  · have htrue : h.extraGoals.isTrue (fun _ => true) = some true := by
      rw [extraGoals_spec hb, (Formula.computes_truth _ _).isTrue]
      simp [Formula.truth, Formula.truthAll_eq_map]
    have hextras : P (expressionCost (h.relaxedTask assignments todo).isHmax h.extraGoals y) :=
      expressionCost_of_isTrue hzero hand hle ⟨_, extraGoals_spec hb⟩
        (fun e he _ => hextra e (List.mem_filterMap.mpr ⟨_, he, rfl⟩)) htrue
    rw [expressionCost_conjunction hf ⟨_, extraGoals_spec hb⟩]
    exact hand _ _ hextras hgoals

/-- The goal of a plan is reached. -/
theorem goal_ne_top (hb : Built kind domains events ss.goal ss.timedAction inadmissible disable h)
    (henc : HeuristicEncoding ss events domains) (hr : Reads domains c.assignments)
    (hcov : Covered h domains y c) (hg : c.goalReached ss = true) :
    (h.relaxedTask assignments todo).preconditionCost (h.relaxedTask assignments todo).goalOp y ≠ ⊤ := by
  obtain ⟨hempty, hgoal⟩ := Bool.and_eq_true_iff.mp hg
  obtain ⟨-, hshape, htrue⟩ := goals_spec hb henc
  obtain ⟨hwithin, hin⟩ := within_extend c.todo hb hr.length hr.within
  have hreal : WithinDomains domains (h.extend c.assignments c.todo) :=
    hwithin.mono fun hd => hb.domains_eq ▸ getElem?_extendDomains hd
  refine goal_cost (P := (· ≠ ⊤)) (by simp) (fun x y hx hy => ?_)
    (fun x y hyx hx => ne_top_of_le_ne_top hx hyx) hb henc
    (htrue _ hreal hin (holds_extend_of_holds hgoal)) (fun e he ht => ?_) (fun e he => ?_)
  · split_ifs <;> simpa using ⟨hx, hy⟩
  · exact hcov e (List.mem_append_left _ (mem_conditions_of_goals he)) (trueLeaf_of_holds hr (hshape e he) ht)
  · exact hcov e (List.mem_append_right _ he) (trueLeaf_of_extraGoals hb henc hempty he)

/-- Where the goal is reached it costs nothing. -/
theorem goal_eq_zero (hb : Built kind domains events ss.goal ss.timedAction inadmissible disable h)
    (henc : HeuristicEncoding ss events domains) (hr : Reads domains c.assignments)
    (hg : c.goalReached ss = true) :
    (h.relaxedTask c.assignments c.todo).preconditionCost (h.relaxedTask c.assignments c.todo).goalOp
      (h.relaxedTask c.assignments c.todo).initialCosts = 0 := by
  obtain ⟨hempty, hgoal⟩ := Bool.and_eq_true_iff.mp hg
  obtain ⟨-, hshape, htrue⟩ := goals_spec hb henc
  have hin : InDomains h.domains (getValue c.assignments) := by
    intro f v hv
    obtain ⟨d, hd, hspec⟩ := hr.within.inDomains hr.length.le f v hv
    exact ⟨d, hb.domains_eq ▸ getElem?_extendDomains hd, hspec⟩
  have hcost : ∀ {e : Expression}, TrueLeaf h domains c.assignments c.todo e →
      h.classOf e = .propositional → h.initialCosts c.assignments c.todo e = 0 := by
    intro e hx hc
    refine (hx.initialCosts_eq hb fun s hs => ?_).resolve_left ?_
    · cases hc.symm.trans hs
    · rintro (ho | ho) <;> cases hc.symm.trans ho
  refine goal_cost (P := (· = 0)) rfl (fun x y hx hy => ?_) (fun x y hyx hx => le_zero_iff.mp (hx ▸ hyx)) hb
    henc (htrue _ hr.within hin hgoal) (fun e he ht => ?_) (fun e he => ?_)
  · subst hx hy
    split_ifs <;> simp
  · rw [Core.holds_python] at ht
    by_cases hc : h.classOf e = .propositional
    · refine hcost (trueLeaf_of_holds hr (hshape e he) ?_) hc
      rw [Core.holds_python]
      exact holds_extend_of_holds ht
    · exact initialCosts_of_holds hc ht
  · obtain ⟨p, -, rfl⟩ := exists_of_mem_extraGoals hb he
    exact hcost (trueLeaf_of_extraGoals hb henc hempty he) (classOf_fluent _)

end DeleteRelaxationHeuristic

end TamerLite
