import Mathlib.Data.List.ReduceOption
import TamerLite.RelaxedEncoding

/-! The conditions of the operators in the states of a plan. An extended state
holds the flags of the events too: what an action has fired last. -/

namespace TamerLite

open Exploration SearchSpace

section Conditions

variable {domains extended : List FluentDomain} {disable : Bool} {assignments : Assignments}

theorem WithinDomains.mono
    (hext : ∀ {i : ℕ} {d : FluentDomain}, domains[i]? = some d → extended[i]? = some d)
    (h : WithinDomains extended assignments) : WithinDomains domains assignments :=
  fun i d hd => h i d (hext hd)

theorem WithinDomains.inDomains (h : WithinDomains domains assignments)
    (hlen : assignments.length ≤ domains.length) : InDomains domains (getValue assignments) := by
  intro f v hv
  have hlt := (List.getElem?_eq_some_iff.mp hv).1
  have hd : domains[f.idx]? = some (domains.get ⟨f.idx, hlt.trans_le hlen⟩) :=
    List.getElem?_eq_getElem (hlt.trans_le hlen)
  obtain ⟨w, hw, hhas⟩ := h f.idx _ hd
  obtain rfl : v = w := Option.some.inj (hv.symm.trans hw)
  refine ⟨_, hd, fun hkind => ?_, fun hkind o hvo => ?_⟩
  · cases v with
    | bool b => exact absurd (hkind.symm.trans hhas) (by simp)
    | num q =>
      rcases hhas with h' | h' <;> exact absurd (hkind.symm.trans h') (by simp)
    | object o => exact ⟨o, hhas.2, rfl⟩
  · subst hvo
    exact hkind hhas.1

namespace ExprTree

/-- The conjunction of trees, the tree itself when there is one. -/
def conjoin : List ExprTree → ExprTree
  | [t] => t
  | ts => node (.operator .and []) ts

theorem joinArgs_conjoin {ts : List ExprTree} (hne : ts ≠ []) :
    (if 1 < (joinArgs (ts.map (layout 0))).2.length then (joinArgs (ts.map (layout 0))).1 ++
        [.operator .and (joinArgs (ts.map (layout 0))).2]
      else (joinArgs (ts.map (layout 0))).1) = (conjoin ts).layout 0 := by
  rw [joinArgs_layouts]
  match ts with
  | [] => exact absurd rfl hne
  | [t] => simp [conjoin, roots, layouts]
  | t :: u :: ts => simp [conjoin, roots, layout, ExpressionNode.withOperands]

theorem mem_heuristics {ts : List ExprTree} {h : HeuristicExpression} (hh : h ∈ heuristics ts) :
    ∃ t ∈ ts, h = t.heuristic := by
  induction ts with
  | nil => cases hh
  | cons t ts ih =>
    rw [heuristics] at hh
    rcases List.mem_cons.mp hh with rfl | hh
    · exact ⟨t, List.mem_cons_self, rfl⟩
    · obtain ⟨u, hu, rfl⟩ := ih hh
      exact ⟨u, List.mem_cons_of_mem t hu, rfl⟩

theorem leaf_of_conjoin {ts : List ExprTree} {e : Expression} (he : .leaf e ∈ (conjoin ts).heuristic) :
    ∃ t ∈ ts, .leaf e ∈ t.heuristic := by
  have hand : .leaf e ∈ (heuristics ts).reverse.flatten ++ [HeuristicNode.and ts.length] →
      ∃ t ∈ ts, .leaf e ∈ t.heuristic := by
    intro he
    rcases List.mem_append.mp he with he | he
    · obtain ⟨h, hh, he⟩ := List.mem_flatten.mp he
      obtain ⟨t, ht, rfl⟩ := mem_heuristics (List.mem_reverse.mp hh)
      exact ⟨t, ht, he⟩
    · simp at he
  rcases ts with _ | ⟨t, _ | ⟨u, ts⟩⟩
  · exact hand he
  · exact ⟨t, List.mem_cons_self, he⟩
  · exact hand he

variable [Callables]

/-- The parts of a condition are conditions. -/
theorem Condition.of_split {t : ExprTree} (ht : t.Condition domains) :
    ∀ x ∈ splitExpression (t.layout 0), ∃ u : ExprTree, x = u.layout 0 ∧ u.Condition domains := by
  obtain ⟨e, args⟩ := t
  by_cases he : ∃ operands, e = .operator .and operands
  · obtain ⟨operands, rfl⟩ := he
    rw [splitExpression_and]
    intro x hx
    obtain ⟨u, hu, rfl⟩ := List.mem_map.mp hx
    have hwf := ht.wellFormed
    have hproper := ht.proper
    rw [ExprTree.wellFormed, Bool.and_eq_true, wellFormeds_iff] at hwf
    rw [ExprTree.proper, Bool.and_eq_true, propers_iff] at hproper
    refine ⟨u, rfl, hwf.2 u hu, hproper.2 u hu, ?_, fun assignments ha => ?_⟩
    · cases ht.supported with
      | and hargs => exact hargs u hu
      | literal _ hroot => exact absurd rfl (hroot operands).1
    · have halike := (ht.comparesAlike assignments ha).2
      clear ht hwf hproper hx
      induction args with
      | nil => cases hu
      | cons w ws ih =>
        rcases List.mem_cons.mp hu with rfl | hu
        · exact halike.1
        · exact ih hu halike.2
  · push Not at he
    rw [splitExpression_other he]
    intro x hx
    obtain rfl := List.mem_singleton.mp hx
    exact ⟨_, rfl, ht⟩

/-- A conjunction of trees that have values and compare values of one type. -/
theorem isCondition_conjoin {get : Fluent → Option ConstantNode} {ts : List ExprTree}
    (h : ∀ t ∈ ts, t.IsCondition .python get) : (conjoin ts).IsCondition .python get := by
  have halike : ∀ ts : List ExprTree, (∀ t ∈ ts, t.IsCondition .python get) →
      AllCompareAlike .python get ts := by
    intro ts hts
    induction ts with
    | nil => trivial
    | cons t ts ih =>
      exact ⟨(hts t List.mem_cons_self).comparesAlike, ih fun u hu => hts u (List.mem_cons_of_mem t hu)⟩
  have hvalues : ∀ ts : List ExprTree, (∀ t ∈ ts, t.IsCondition .python get) →
      ∃ vs, values .python get ts = some vs := by
    intro ts hts
    induction ts with
    | nil => exact ⟨[], rfl⟩
    | cons t ts ih =>
      obtain ⟨v, hv⟩ := (hts t List.mem_cons_self).value
      obtain ⟨vs, hvs⟩ := ih fun u hu => hts u (List.mem_cons_of_mem t hu)
      exact ⟨v :: vs, by rw [values_cons, hv, hvs]; rfl⟩
  have hand : (node (.operator .and []) ts).IsCondition .python get := by
    obtain ⟨vs, hvs⟩ := hvalues ts h
    refine ⟨?_, ?_, ⟨fun operands heq => (by cases heq), halike ts h⟩, _, by
      rw [value, hvs, Option.bind_some]; rfl⟩
    · rw [wellFormed, Bool.and_eq_true, wellFormeds_iff]
      exact ⟨rfl, fun t ht => (h t ht).wellFormed⟩
    · rw [proper, Bool.and_eq_true, propers_iff]
      exact ⟨rfl, fun t ht => (h t ht).proper⟩
  rcases ts with _ | ⟨t, _ | ⟨u, ts⟩⟩
  · exact hand
  · exact h t List.mem_cons_self
  · exact hand

/-- A conjunction is true when its parts are. -/
theorem holds_conjoin {ts : List ExprTree} (h : ∀ t ∈ ts, t.IsCondition .python (getValue assignments))
    (hts : ∀ t ∈ ts, holds (t.layout 0) assignments = true) :
    holds ((conjoin ts).layout 0) assignments = true := by
  have hand : holds ((node (.operator .and []) ts).layout 0) assignments = true := by
    rw [← Core.holds_python, ← holds_splitExpression, splitExpression_and, List.all_map,
      List.all_eq_true]
    · exact fun t ht => (Core.holds_python _ _).trans (hts t ht)
    · refine ⟨_, ?_, rfl⟩
      rw [wellFormed, Bool.and_eq_true, wellFormeds_iff]
      exact ⟨rfl, fun t ht => (h t ht).wellFormed⟩
  rcases ts with _ | ⟨t, _ | ⟨u, ts⟩⟩
  · exact hand
  · exact hts t List.mem_cons_self
  · exact hand

/-- A condition that holds has a value. -/
theorem Condition.isCondition {t : ExprTree} (ht : t.Condition domains)
    (hin : WithinDomains domains assignments) (h : holds (t.layout 0) assignments = true) :
    t.IsCondition .python (getValue assignments) := by
  refine ⟨ht.wellFormed, ht.proper, ht.comparesAlike assignments hin, ?_⟩
  rw [← Core.holds_python, holds_layout ht.wellFormed, Option.any_eq_true] at h
  obtain ⟨v, hv, -⟩ := h
  exact ⟨v, hv⟩

end ExprTree

variable [Callables]

/-- A condition that is rewritten to a formula, with leaves of the known kinds, and is
true where what it was rewritten from is. -/
theorem exists_simplified {t : ExprTree} {c : HeuristicExpression}
    (hin : InDomains extended (getValue assignments))
    (ht : t.IsCondition .python (getValue assignments)) (hholds : holds (t.layout 0) assignments = true)
    (hc : simplifyCondition .python extended disable t.heuristic = some c) :
    c.isTrue (Core.holds .python · assignments) = some true := by
  obtain ⟨c₁, c₂, hc₁, hc₂, htrue⟩ := simplified_holds_iff disable ht hin
  rw [ExprTree.convertToHeuristicExpression_layout ht.wellFormed] at hc₁
  obtain rfl := Option.some.inj hc₁
  obtain rfl := Option.some.inj (hc.symm.trans hc₂)
  rw [htrue, Core.holds_python, hholds]

/-- What the condition of an operator is. -/
structure OperatorCondition (domains extended : List FluentDomain) (conditions : List Expression)
    (flag : Fluent) (c : HeuristicExpression) : Prop where
  isFormula : IsFormula c
  leaves : ∀ x, .leaf x ∈ c → LeafShape domains extended x
  isTrue : ∀ assignments, WithinDomains domains assignments → InDomains extended (getValue assignments) →
    (∀ x ∈ conditions, holds x assignments = true) → getValue assignments flag = some (.bool true) →
    c.isTrue (Core.holds .python · assignments) = some true

theorem buildOperatorCondition_spec {conditions : List Expression} {flag : Fluent} {c : HeuristicExpression}
    (hext : ∀ {i : ℕ} {d : FluentDomain}, domains[i]? = some d → extended[i]? = some d)
    (hconds : ∀ x ∈ conditions, ∃ t : ExprTree, x = t.layout 0 ∧ t.Condition domains)
    (hflag : domains.length ≤ flag.idx)
    (hb : buildOperatorCondition extended disable conditions flag = some (some c)) :
    OperatorCondition domains extended conditions flag c := by
  rw [buildOperatorCondition] at hb
  split_ifs at hb with hfalse
  · cases hb
  obtain ⟨ts, hts, hall⟩ : ∃ ts : List ExprTree,
      (conditions.filter fun c => c ≠ [] ∧ c ≠ [.constant (.bool true)]) = ts.map (ExprTree.layout 0) ∧
      ∀ t ∈ ts, t.Condition domains ∧ t.layout 0 ∈ conditions := by
    have hlist : ∀ l : List Expression, (∀ x ∈ l, x ∈ conditions) →
        ∃ ts : List ExprTree, l = ts.map (ExprTree.layout 0) ∧
          ∀ t ∈ ts, t.Condition domains ∧ t.layout 0 ∈ conditions := by
      intro l hl
      induction l with
      | nil => exact ⟨[], rfl, by simp⟩
      | cons x l ih =>
        obtain ⟨t, rfl, ht⟩ := hconds x (hl x List.mem_cons_self)
        obtain ⟨ts, rfl, hts⟩ := ih fun y hy => hl y (List.mem_cons_of_mem _ hy)
        refine ⟨t :: ts, rfl, fun u hu => ?_⟩
        rcases List.mem_cons.mp hu with rfl | hu
        · exact ⟨ht, hl _ List.mem_cons_self⟩
        · exact hts u hu
    exact hlist _ fun x hx => List.mem_of_mem_filter hx
  let T := ExprTree.conjoin (ts ++ [.node (.fluent flag) []])
  have hjoin := ExprTree.joinArgs_conjoin (show ts ++ [.node (.fluent flag) []] ≠ [] by simp)
  have hmap : (ts ++ [ExprTree.node (.fluent flag) []]).map (ExprTree.layout 0) =
      ts.map (ExprTree.layout 0) ++ [[.fluent flag]] := by
    rw [List.map_append]
    rfl
  have hwf : T.wellFormed = true := by
    have hwfs : ∀ t ∈ ts ++ [ExprTree.node (.fluent flag) []], t.wellFormed = true := by
      intro t ht
      rcases List.mem_append.mp ht with ht | ht
      · exact (hall t ht).1.wellFormed
      · obtain rfl := List.mem_singleton.mp ht
        rfl
    have hand : (ExprTree.node (.operator .and []) (ts ++ [.node (.fluent flag) []])).wellFormed = true := by
      rw [ExprTree.wellFormed, Bool.and_eq_true, ExprTree.wellFormeds_iff]
      exact ⟨rfl, hwfs⟩
    cases ts with
    | nil => rfl
    | cons t ts =>
      cases ts <;> exact hand
  rw [hmap] at hjoin
  simp only [hts, hjoin, Option.bind_eq_bind, Option.bind_eq_some_iff] at hb
  obtain ⟨h, hconv, c', hc, hb⟩ := hb
  obtain rfl := Option.some.inj (Option.some.inj hb)
  obtain rfl : T.heuristic = h :=
    Option.some.inj ((ExprTree.convertToHeuristicExpression_layout hwf).symm.trans hconv)
  refine ⟨?_, ?_, fun assignments hwithin hin hholds hget => ?_⟩
  · obtain ⟨f, hf⟩ := ExprTree.isFormula_heuristic T
    exact isFormula_simplifyCondition f _ (hf ▸ hc)
  · refine leaf_of_simplifyCondition hc fun e he r hr => ?_
    obtain ⟨t, ht, he⟩ := ExprTree.leaf_of_conjoin he
    rcases List.mem_append.mp ht with ht | ht
    · obtain ⟨hcond, -⟩ := hall t ht
      obtain ⟨u, rfl, hu, hwf, hproper⟩ := t.exists_literal hcond.supported hcond.wellFormed hcond.proper e he
      exact literal_shape hext hu hwf hproper hr
    · obtain rfl := List.mem_singleton.mp ht
      obtain rfl : e = [.fluent flag] := by simpa [ExprTree.heuristic, ExprTree.layout, ExprTree.layouts,
        ExpressionNode.withOperands] using he
      obtain rfl : r = none := (Option.some.inj hr).symm
      intro x hx
      rw [Option.getD_none, List.mem_singleton, HeuristicNode.leaf.injEq] at hx
      exact hx ▸ .flag hflag
  · have hfluent : holds [.fluent flag] assignments = true := by
      have hval : evaluate [.fluent flag] assignments = some (.bool true) := by
        simp [evaluate, evalNodes, evalNode, hget]
      rw [holds, hval]
      rfl
    have hts' : ∀ t ∈ ts ++ [ExprTree.node (.fluent flag) []],
        t.IsCondition .python (getValue assignments) ∧ holds (t.layout 0) assignments = true := by
      intro t ht
      rcases List.mem_append.mp ht with ht | ht
      · obtain ⟨hcond, hmem⟩ := hall t ht
        exact ⟨hcond.isCondition hwithin (hholds _ hmem), hholds _ hmem⟩
      · obtain rfl := List.mem_singleton.mp ht
        exact ⟨⟨rfl, rfl, ⟨fun _ h => (by cases h), trivial⟩, .bool true, hget⟩, hfluent⟩
    exact exists_simplified hin (ExprTree.isCondition_conjoin fun t ht => (hts' t ht).1)
      (ExprTree.holds_conjoin (fun t ht => (hts' t ht).1) fun t ht => (hts' t ht).2) hc

end Conditions

/-! ### What a heuristic is built from -/

namespace DeleteRelaxationHeuristic

section Built

variable {kind : HeuristicKind} {domains : List FluentDomain}
  {events : List (Action × List (Timing × Event))} {goal : Expression} {timedAction : Option Action}
  {inadmissible disable : Bool} {h : DeleteRelaxationHeuristic} {o : Operator}

/-- The heuristic of an encoding. -/
structure Built (kind : HeuristicKind) (domains : List FluentDomain)
    (events : List (Action × List (Timing × Event))) (goal : Expression) (timedAction : Option Action)
    (inadmissible disable : Bool) (h : DeleteRelaxationHeuristic) : Prop where
  kind_eq : h.kind = kind
  domains_eq : h.domains = extendDomains domains events
  numRealFluents_eq : h.numRealFluents = domains.length
  layout_eq : h.layout = TamerLite.layout domains.length events
  inadmissible_eq : h.inadmissibleNumericVariant = inadmissible
  disable_eq : h.disableNumericReasoning = disable
  operators : ∀ {o}, o ∈ h.operators ↔ ∃ base a le i te, (base, a, le) ∈ h.layout ∧ le[i]? = some te ∧
    Operator.ofEvent h.domains h.disableNumericReasoning timedAction base a le i te.2 = some (some o)
  built : ∀ {base a le i te}, (base, a, le) ∈ h.layout → le[i]? = some te →
    ∃ r, Operator.ofEvent h.domains h.disableNumericReasoning timedAction base a le i te.2 = some r
  goals : ∃ c, convertToHeuristicExpression goal = some c ∧
    simplifyCondition .python h.domains h.disableNumericReasoning c = some h.goals
  extraGoals : convertToHeuristicExpression
    (h.layout.map (fun p => .fluent ⟨p.1 + p.2.2.length - 1⟩) ++
      [.operator .and (List.range h.layout.length)]) =
      some h.extraGoals

theorem mem_numberedEvents {l : List (ℕ × Action × List (Timing × Event))} {base i : ℕ} {a : Action}
    {le : List (Timing × Event)} {e : Event} :
    (base, a, le, i, e) ∈ numberedEvents l ↔ (base, a, le) ∈ l ∧ ∃ te, le[i]? = some te ∧ te.2 = e := by
  simp only [numberedEvents, List.mem_flatMap, List.mem_map, Prod.exists]
  constructor
  · rintro ⟨base', a', le', hmem, te, e', i', hidx, heq⟩
    simp only [Prod.mk.injEq] at heq
    obtain ⟨rfl, rfl, rfl, rfl, rfl⟩ := heq
    exact ⟨hmem, te, e', List.mem_zipIdx_iff_getElem?.mp hidx, rfl⟩
  · rintro ⟨hmem, t, e', hte, rfl⟩
    exact ⟨base, a, le, hmem, t, e', i, List.mem_zipIdx_iff_getElem?.mpr hte, rfl⟩

theorem new_spec (hnew : new kind domains events goal timedAction inadmissible disable = some h) :
    Built kind domains events goal timedAction inadmissible disable h := by
  rw [new] at hnew
  simp only [Option.bind_eq_bind, Option.bind_eq_some_iff] at hnew
  obtain ⟨ops, hops, c, hc, goals, hgoals, extra, hextra, hnew⟩ := hnew
  obtain rfl := Option.some.inj hnew
  obtain ⟨hright, hleft⟩ := Enumeration.mapM_eq_some hops
  refine ⟨rfl, rfl, rfl, rfl, rfl, rfl, fun {o} => ⟨fun ho => ?_, ?_⟩, fun {base a le i te} hmem hte => ?_,
    ⟨c, hc, hgoals⟩, hextra⟩
  · obtain ⟨⟨base, a, le, i, e⟩, hx, hf⟩ := hleft _ (List.reduceOption_mem_iff.mp ho)
    obtain ⟨hmem, te, hte, rfl⟩ := mem_numberedEvents.mp hx
    exact ⟨base, a, le, i, te, hmem, hte, hf⟩
  · rintro ⟨base, a, le, i, te, hmem, hte, hf⟩
    obtain ⟨r, hr, hf'⟩ := hright _ (mem_numberedEvents.mpr ⟨hmem, te, hte, rfl⟩)
    obtain rfl : some o = r := Option.some.inj (hf.symm.trans hf')
    exact List.reduceOption_mem_iff.mpr hr
  · obtain ⟨r, -, hf⟩ := hright _ (mem_numberedEvents.mpr ⟨hmem, te, hte, rfl⟩)
    exact ⟨r, hf⟩

end Built

end DeleteRelaxationHeuristic

end TamerLite
