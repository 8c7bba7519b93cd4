import TamerLite.RelaxedEvaluation

/-! Reachability analysis: the loop drains its heap, and the operators of finite cost are
those that the least solution of the cost equations reaches. An action is reachable
when all its operators are; every action of a plan is. -/

namespace TamerLite

open CostEquations Exploration SearchSpace

namespace RelaxedTask

variable {t : RelaxedTask} {queue : PriorityQueue costLt} {reachability : Bool} {s s' : Fixpoint}
  {op : ℕ} {rest : List (ℕ∞ × ℕ)}

/-- The operators an analysis returns. -/
def reachableOperators (t : RelaxedTask) (s : Fixpoint) : List ℕ :=
  (List.range t.goalOp).filter fun op => s.opCost op < ⊤

/-- No operator costs less than its precondition. -/
def Costed (t : RelaxedTask) (s : Fixpoint) : Prop :=
  ∀ op ≤ t.goalOp, t.preconditionCost op s.condCost ≤ s.opCost op

theorem Costed.turn (hv : t.Valid) (hp : t.Progress (t.reopens reachability) s) (hc : t.Costed s)
    (hturn : t.turn queue reachability s = .inr s') : t.Costed s' := by
  have hcases := turn_spec queue hv hp.inv
  rw [hturn] at hcases
  cases hcases with
  | stale _ _ => exact hc
  | pastGoal _ _ _ _ => exact hc
  | expand hperm _ hopen ho hexpand =>
    obtain ⟨s'', hs'', hoffer, -⟩ := expand_spec hv (hp.inv.close hperm hopen) ho
    obtain rfl := Option.some.inj (hexpand.symm.trans hs'')
    intro op hop
    cases hclosed : s'.closed op with
    | true =>
      rw [(hoffer.extend.closed op hclosed).2]
      exact ((hv.isLocal op).mono hoffer.extend.condCost_le).trans (hc op hop)
    | false =>
      exact (hoffer.inv.consistent op hop fun h => absurd (hclosed.symm.trans h) Bool.noConfusion).opCost.ge

theorem costed_start : t.Costed t.start := fun _ hop => (if_pos hop).ge

/-- Once the heap is drained the reached operators are those of the fix-point. -/
theorem opCost_ne_top_iff (hv : t.Valid) (hp : t.Progress (t.reopens reachability) s) (hc : t.Costed s)
    (hnil : s.heap = []) (hop : op ≤ t.goalOp) :
    s.opCost op ≠ ⊤ ↔ t.preconditionCost op (system hv).least ≠ ⊤ := by
  constructor
  · intro hfin
    refine ne_top_of_le_ne_top hfin (((hv.isLocal op).mono ?_).trans (hc op hop))
    exact (hp.sound _ (lowerBound_least hv)).condCost
  · intro hfin
    obtain ⟨f, hf⟩ := hv.formula op hop
    have hreached : t.preconditionCost op s.condCost ≠ ⊤ := by
      rw [preconditionCost, hf, Formula.expressionCost_nodes] at hfin ⊢
      exact f.cost_ne_top (ne_top_of_drained hv hp hnil (System.next_least _)) hfin
    cases hclosed : s.closed op with
    | true => exact hp.closed_ne_top op hclosed
    | false =>
      rwa [(hp.inv.consistent op hop fun h => absurd (hclosed.symm.trans h) Bool.noConfusion).opCost]

/-- The analysis ends, and returns the operators whose precondition the fix-point reaches. -/
theorem run_reachability (hv : t.Valid) (queue : PriorityQueue costLt) :
    ∃ n s, t.run queue true n = .inl (some s) ∧ ∀ op, op ∈ t.reachableOperators s ↔
      op < t.goalOp ∧ t.preconditionCost op (system hv).least ≠ ⊤ := by
  have hstep : ∀ s s', t.Progress (t.reopens true) s ∧ t.Costed s → t.turn queue true s = .inr s' →
      (t.Progress (t.reopens true) s' ∧ t.Costed s') ∧ t.measure s' < t.measure s := fun s s' h hturn =>
    ⟨⟨(h.1.turn hv hturn).1, h.2.turn hv h.1 hturn⟩, (h.1.turn hv hturn).2⟩
  obtain ⟨n, r, s, hn, ⟨hp, hc⟩, hr⟩ := Exploration.exists_answer hstep ⟨progress_start, costed_start⟩
  have hcases := turn_spec queue hv hp.inv
  rw [hr] at hcases
  cases hcases with
  | done hnil =>
    refine ⟨n, s, hn, fun op => ?_⟩
    rw [reachableOperators, List.mem_filter, List.mem_range, decide_eq_true_eq, lt_top_iff_ne_top]
    exact and_congr_right fun hop => opCost_ne_top_iff hv hp hc hnil hop.le
  | goal _ _ _ hdrains => simp [drains] at hdrains

end RelaxedTask

namespace DeleteRelaxationHeuristic

variable (h : DeleteRelaxationHeuristic)

/-- The actions whose operators are all among the given ones. -/
def completeActions (operators : List ℕ) : Finset Action :=
  (operators.filterMap h.operatorAction).toFinset.filter fun a =>
    (operators.filterMap h.operatorAction).count a = (h.operators.map Operator.action).count a

/-- `reachable_actions`; the outer `none` stands for a loop that was cut off, the inner one for
an exception. -/
def reachableActions [Callables] (queue : PriorityQueue costLt) (assignments : Assignments)
    (todo : AList (fun _ : Action => ℕ × ℕ)) (fuel : ℕ) : Option (Option (Finset Action)) :=
  if ∃ e ∈ h.conditions, h.classOf e ≠ .propositional ∧ evaluate e assignments = none then some none
  else
    let t := h.relaxedTask assignments todo
    match t.run queue true fuel with
    | .inr _ => none
    | .inl none => some none
    | .inl (some s) => some (some (h.completeActions (t.reachableOperators s)))

variable {h}

theorem countP_and_eq {α : Type*} {p q : α → Bool} (l : List α) :
    l.countP (fun x => p x && q x) = l.countP p ↔ ∀ x ∈ l, p x = true → q x = true := by
  induction l with
  | nil => simp
  | cons x l ih =>
    have hle : l.countP (fun x => p x && q x) ≤ l.countP p :=
      List.countP_mono_left fun x _ h => (Bool.and_eq_true_iff.mp h).1
    rw [List.countP_cons, List.countP_cons, List.forall_mem_cons, ← ih]
    cases p x <;> cases q x <;> simp
    omega

theorem filterMap_operatorAction :
    (List.range h.operators.length).filterMap h.operatorAction = h.operators.map Operator.action := by
  have hlist : ∀ l : List Operator, (List.range l.length).filterMap (fun n => (l[n]?).map Operator.action) =
      l.map Operator.action := by
    intro l
    induction l with
    | nil => rfl
    | cons o l ih =>
      rw [List.length_cons, List.range_succ_eq_map, List.filterMap_cons, List.filterMap_map,
        List.map_cons, ← ih]
      rfl
  exact hlist h.operators

/-- An action is complete among operators when none of its operators is missing. -/
theorem mem_completeActions {P : ℕ → Bool} {a : Action} :
    a ∈ h.completeActions ((List.range h.operators.length).filter P) ↔
      (∃ o ∈ h.operators, o.action = a) ∧
      ∀ n o, h.operators[n]? = some o → o.action = a → P n = true := by
  have hcount : ∀ Q : ℕ → Bool,
      (((List.range h.operators.length).filter Q).filterMap h.operatorAction).count a =
      (List.range h.operators.length).countP fun n => decide (h.operatorAction n = some a) && Q n := by
    intro Q
    rw [List.count, List.countP_filterMap, List.countP_filter]
    refine List.countP_congr fun n _ => ?_
    cases h.operatorAction n <;> simp [and_comm]
  have hall : (h.operators.map Operator.action).count a =
      (List.range h.operators.length).countP fun n => decide (h.operatorAction n = some a) := by
    have := hcount fun _ => true
    simp only [Bool.and_true, List.filter_true] at this
    rw [← this, filterMap_operatorAction]
  have hmem : ∀ n, h.operatorAction n = some a ↔ ∃ o, h.operators[n]? = some o ∧ o.action = a := fun n =>
    Option.map_eq_some_iff
  rw [completeActions, Finset.mem_filter, List.mem_toFinset, hcount, hall, countP_and_eq]
  simp only [List.mem_filterMap, List.mem_filter, List.mem_range, decide_eq_true_eq, hmem]
  constructor
  · rintro ⟨⟨n, -, o, hn, ha⟩, hP⟩
    exact ⟨⟨o, List.mem_of_getElem? hn, ha⟩, fun n o hn ha =>
      hP n (List.getElem?_eq_some_iff.mp hn).1 ⟨o, hn, ha⟩⟩
  · rintro ⟨⟨o, ho, ha⟩, hP⟩
    obtain ⟨n, hn⟩ := List.getElem?_of_mem ho
    exact ⟨⟨n, ⟨(List.getElem?_eq_some_iff.mp hn).1, hP n o hn ha⟩, o, hn, ha⟩, fun n _ ⟨o, hn, ha⟩ =>
      hP n o hn ha⟩

/-! ### The actions of a plan -/

section Plans

variable {kind : HeuristicKind} {domains : List FluentDomain}
  {events : List (Action × List (Timing × Event))} {ss : SearchSpace} {inadmissible disable : Bool}
  {assignments : Assignments} {todo : AList (fun _ : Action => ℕ × ℕ)} {tn : DeltaSimpleTemporalNetwork}
  {b : Bool} {n m d : ℕ} {s₀ s t : State} {as bs : List Action} {c c' : Config} {ids : List ℕ} {a : Action}
  {y : Costs} {S : List Action}

theorem action_of_ofEvent {extended : List FluentDomain} {timedAction : Option Action} {base i : ℕ}
    {le : List (Timing × Event)} {e : Event} {o : Operator}
    (hof : Operator.ofEvent extended disable timedAction base a le i e = some (some o)) : o.action = a := by
  obtain ⟨-, r, -, hr⟩ := ofEvent_eq_some.mp hof
  split_ifs at hr
  obtain ⟨c, -, rfl⟩ := Option.map_eq_some_iff.mp hr.symm
  rfl

/-- The operators of an event are reached. -/
def EventReached (h : DeleteRelaxationHeuristic) (ss : SearchSpace) (t : RelaxedTask) (y : Costs) (a : Action)
    (i : ℕ) : Prop :=
  ∀ base le te o n, (base, a, le) ∈ h.layout → le[i]? = some te →
    Operator.ofEvent h.domains h.disableNumericReasoning ss.timedAction base a le i te.2 = some (some o) →
    h.operators[n]? = some o → t.preconditionCost n y ≠ ⊤

/-- The actions opened so far have operators, and of these actions and the open ones the events up to
the one fired last are reached. -/
structure Progressed (h : DeleteRelaxationHeuristic) (ss : SearchSpace) (t : RelaxedTask) (y : Costs)
    (c : Config) (S : List Action) : Prop where
  operator : ∀ a ∈ S, ∃ o ∈ h.operators, o.action = a
  reached : ∀ a le, ss.events a = some le → (a ∈ S ∨ c.todo.lookup a ≠ none) →
    ∀ i ≤ lastFired c a le.length, EventReached h ss t y a i

variable [Callables]

theorem Progressed.step (hb : Built kind domains events ss.goal ss.timedAction inadmissible disable h)
    (henc : HeuristicEncoding ss events domains) (hwf : c.WellFormed ss)
    (hr : Reads domains c.assignments) (hcov : Covered h domains y c)
    (hp : Progressed h ss (h.relaxedTask assignments todo) y c S) (hs : c.step ss a = some c') :
    Progressed h ss (h.relaxedTask assignments todo) y c' (a :: S) := by
  obtain ⟨le, k, te, hle, hte, htimed, hcond, hend, -, hlast, hlast', hother⟩ := step_fires hwf hs
  have hk := (List.getElem?_eq_some_iff.mp hte).1
  -- the event that is fired
  have hfired : EventReached h ss (h.relaxedTask assignments todo) y a k := by
    intro base le' te' o n hlayout hte' hof hn
    have hmem : (base, a, le') ∈ TamerLite.layout domains.length events := hb.layout_eq ▸ hlayout
    obtain rfl := Option.some.inj (hle.symm.trans (henc.events_iff.mp (mem_layout hmem).2))
    obtain rfl := Option.some.inj (hte.symm.trans hte')
    obtain ⟨o', ho', hof'⟩ := exists_fires hb henc hwf hr hlayout hte htimed hcond hend hlast
    obtain rfl := Option.some.inj (Option.some.inj (hof.symm.trans hof'))
    exact ho'.precondition_ne_top hb henc hr hcov hn
  refine ⟨fun a' ha' => ?_, fun a' le' hle' hopen i hi => ?_⟩
  · rcases List.mem_cons.mp ha' with rfl | ha'
    · obtain ⟨base, hlayout⟩ := exists_layout (henc.events_iff.mpr hle) domains.length
      rw [← hb.layout_eq] at hlayout
      obtain ⟨o, ho, hof⟩ := exists_fires hb henc hwf hr hlayout hte htimed hcond hend hlast
      exact ⟨o, ho.mem, action_of_ofEvent hof⟩
    · exact hp.operator a' ha'
  rcases eq_or_ne a' a with rfl | hne
  · obtain rfl := Option.some.inj (hle.symm.trans hle')
    rw [hlast'] at hi
    rcases hi.eq_or_lt with rfl | hlt
    · exact hfired
    · rw [if_neg (by omega)] at hlast
      refine hp.reached a' le hle (.inr fun hnone => ?_) i (by omega)
      rw [lastFired, hnone] at hlast
      simp only at hlast
      omega
  · rw [hother a' _ hne] at hi
    refine hp.reached a' le' hle' ?_ i hi
    rcases hopen with hmem | hopen
    · exact .inl ((List.mem_cons.mp hmem).resolve_left hne)
    · refine .inr fun hnone => ?_
      obtain ⟨p, hp'⟩ := Option.ne_none_iff_exists'.mp hopen
      have heq := hother a' (p.1 + 5) hne
      rw [lastFired, lastFired, hnone, hp'] at heq
      simp only at heq
      omega

theorem Progressed.run (hb : Built kind domains events ss.goal ss.timedAction inadmissible disable h)
    (henc : HeuristicEncoding ss events domains) (hv : (h.relaxedTask assignments todo).Valid)
    (hy : (h.relaxedTask assignments todo).LowerBound y) (hwf : c.WellFormed ss)
    (hr : Reads domains c.assignments) (hcov : Covered h domains y c)
    (hp : Progressed h ss (h.relaxedTask assignments todo) y c S) (hrun : c.run ss as = some c') :
    Progressed h ss (h.relaxedTask assignments todo) y c' (as.reverse ++ S) := by
  induction as generalizing c S with
  | nil => exact Option.some.inj hrun ▸ hp
  | cons a as ih =>
    obtain ⟨e, he, hrun⟩ := Config.run_cons.mp hrun
    have hrest := ih (hwf.step he) (hr.step henc hwf he) (hcov.step hb henc hv hy hwf hr he)
      (hp.step hb henc hwf hr hcov he) hrun
    rwa [List.reverse_cons, List.append_assoc, List.singleton_append]

/-- Before a plan only the first event of the timed action has been fired; it has no operator. -/
theorem progressed_initial (hc : Config.initial ss = some c) {t : RelaxedTask} :
    Progressed h ss t y c [] := by
  refine ⟨fun a ha => absurd ha List.not_mem_nil, ?_⟩
  intro a le hle hopen i hi base le' te o n hlayout hte hof hn
  have hlookup : c.todo.lookup a ≠ none := hopen.resolve_left List.not_mem_nil
  rcases Config.initial_eq_some.mp hc with ⟨-, rfl⟩ | ⟨a', le'', te', b, htimed, hle'', hte', -, -, hf⟩
  · exact absurd (AList.lookup_empty a) hlookup
  · obtain ⟨removed, as, -, -, -, rfl⟩ := Config.fire_eq_some.mp hf
    have ha : a = a' := by
      by_contra hne
      refine hlookup ?_
      show AList.lookup a (if 1 < le''.length then _ else _) = none
      split_ifs
      · rw [AList.lookup_insert_ne hne, AList.lookup_empty]
      · exact AList.lookup_empty a
    subst ha
    obtain rfl := Option.some.inj (hle.symm.trans hle'')
    have hzero : i = 0 := by
      have hlt := (List.getElem?_eq_some_iff.mp hte').1
      rw [lastFired] at hi
      dsimp only at hi
      split_ifs at hi with hlen
      · rw [AList.lookup_insert] at hi
        simpa using hi
      · rw [AList.lookup_empty] at hi
        simp only at hi
        omega
    subst hzero
    obtain ⟨-, b', -, hreq⟩ := ofEvent_eq_some.mp hof
    rw [if_pos ⟨rfl, htimed⟩] at hreq
    cases hreq

theorem reachableActions_of_run (hvalues : h.HasValues assignments) {queue : PriorityQueue costLt} {fuel : ℕ}
    {u : Fixpoint} (hrun : (h.relaxedTask assignments todo).run queue true fuel = .inl (some u)) :
    h.reachableActions queue assignments todo fuel =
      some (some (h.completeActions ((h.relaxedTask assignments todo).reachableOperators u))) := by
  have hnone : ¬ ∃ e ∈ h.conditions, h.classOf e ≠ .propositional ∧ evaluate e assignments = none := by
    rintro ⟨e, he, hc, hnone⟩
    obtain ⟨v, hv⟩ := hvalues e he hc
    cases hv.symm.trans hnone
  rw [reachableActions, if_neg hnone]
  simp only [hrun]

/-- The analysis of a state. -/
theorem exists_reachableActions (hv : (h.relaxedTask assignments todo).Valid)
    (hvalues : h.HasValues assignments) :
    ∃ R, (∀ queue, ∃ k, ∀ fuel ≥ k, h.reachableActions queue assignments todo fuel = some (some R)) ∧
      ∀ a, a ∈ R ↔ (∃ o ∈ h.operators, o.action = a) ∧ ∀ n o, h.operators[n]? = some o → o.action = a →
        (h.relaxedTask assignments todo).preconditionCost n (RelaxedTask.system hv).least ≠ ⊤ := by
  classical
  let P : ℕ → Bool := fun n =>
    decide ((h.relaxedTask assignments todo).preconditionCost n (RelaxedTask.system hv).least ≠ ⊤)
  refine ⟨h.completeActions ((List.range h.operators.length).filter P), fun queue => ?_, fun a => ?_⟩
  · obtain ⟨k, u, hrun, hmem⟩ := RelaxedTask.run_reachability hv queue
    refine ⟨k, fun fuel hfuel => ?_⟩
    rw [reachableActions_of_run hvalues (iterate_of_le hrun hfuel)]
    have hsame : (h.relaxedTask assignments todo).reachableOperators u =
        (List.range h.operators.length).filter P := by
      rw [RelaxedTask.reachableOperators, goalOp_relaxedTask]
      refine List.filter_congr fun n hn => ?_
      have hiff := hmem n
      rw [RelaxedTask.reachableOperators, List.mem_filter, goalOp_relaxedTask, and_iff_right hn,
        and_iff_right (List.mem_range.mp hn)] at hiff
      rw [Bool.eq_iff_iff, hiff]
      exact decide_eq_true_iff.symm
    rw [hsame]
  · rw [mem_completeActions]
    simp only [P, decide_eq_true_eq]

/-- Reachability analysis ends, and whatever order operators of equal cost are popped in, it returns the
actions all of whose operators have preconditions that the relaxed problem reaches. -/
theorem reachableActions_eq
    (hnew : new kind domains events ss.goal ss.timedAction inadmissible disable = some h)
    (henc : HeuristicEncoding ss events domains) (hvalues : h.HasValues assignments) :
    ∃ (hv : (h.relaxedTask assignments todo).Valid) (R : Finset Action),
      (∀ queue, ∃ k, ∀ fuel ≥ k, h.reachableActions queue assignments todo fuel = some (some R)) ∧
      ∀ a, a ∈ R ↔ (∃ o ∈ h.operators, o.action = a) ∧ ∀ n o, h.operators[n]? = some o → o.action = a →
        (h.relaxedTask assignments todo).preconditionCost n (RelaxedTask.system hv).least ≠ ⊤ :=
  ⟨_, exists_reachableActions (valid_relaxedTask (new_spec hnew) henc hvalues) hvalues⟩

/-- What reaches the goal uses only actions whose operators are all reached. -/
theorem plan_reached (hb : Built kind domains events ss.goal ss.timedAction inadmissible disable h)
    (henc : HeuristicEncoding ss events domains) (hc : Config.initial ss = some c)
    (hv : (h.relaxedTask c.assignments c.todo).Valid) (hvalues : h.HasValues c.assignments)
    (hy : (h.relaxedTask c.assignments c.todo).LowerBound y) (hrun : c.run ss as = some c')
    (hg : c'.goalReached ss = true) : ∀ a ∈ as, (∃ o ∈ h.operators, o.action = a) ∧
      ∀ n o, h.operators[n]? = some o → o.action = a →
        (h.relaxedTask c.assignments c.todo).preconditionCost n y ≠ ⊤ := by
  intro a ha
  have hprog := (progressed_initial (h := h) hc).run hb henc hv hy (Config.wellFormed_initial hc)
    (reads_of_reachable (b := false) henc ⟨c, [], hc, rfl⟩) (covered_start hb hvalues hy.initial) hrun
  rw [List.append_nil] at hprog
  obtain ⟨hempty, -⟩ := Bool.and_eq_true_iff.mp hg
  refine ⟨hprog.operator a (List.mem_reverse.mpr ha), fun n o hn ho => ?_⟩
  obtain ⟨base, a', le, i, te, hlayout, hte, hof⟩ := hb.operators.mp (List.mem_of_getElem? hn)
  obtain rfl : a' = a := (action_of_ofEvent hof).symm.trans ho
  have hmem : (base, a', le) ∈ TamerLite.layout domains.length events := hb.layout_eq ▸ hlayout
  have hle := henc.events_iff.mp (mem_layout hmem).2
  refine hprog.reached a' le hle (.inl (List.mem_reverse.mpr ha)) i ?_ base le te o n hlayout hte hof hn
  have hlt := (List.getElem?_eq_some_iff.mp hte).1
  rw [lastFired, isEmpty_entries_iff.mp hempty a']
  show i ≤ le.length - 1
  omega

/-- The actions of a plan are reachable. -/
theorem reachableActions_of_plan
    (hnew : new kind domains events ss.goal ss.timedAction inadmissible disable = some h)
    (henc : HeuristicEncoding ss events domains) (h₀ : ss.initial tn n = some s₀)
    (hvalues : h.HasValues s₀.assignments)
    (hplan : Run ss tn false s₀ (initialCounter ss n) as t d) (hg : ss.goalReached t = true) :
    ∃ R, (∀ queue, ∃ k, ∀ fuel ≥ k,
        h.reachableActions queue s₀.assignments s₀.todo fuel = some (some R)) ∧ ∀ a ∈ as, a ∈ R := by
  have hb := new_spec hnew
  obtain ⟨c, ids, hc, href, -⟩ := refines_initial h₀
  obtain ⟨c', ids', hrun, href', -⟩ := href.run (Config.wellFormed_initial hc) hplan
  rw [Config.runWith_false] at hrun
  rw [href'.goalReached_eq] at hg
  have hv : (h.relaxedTask s₀.assignments s₀.todo).Valid := valid_relaxedTask hb henc hvalues
  obtain ⟨R, hR, hmem⟩ := exists_reachableActions hv hvalues
  refine ⟨R, hR, fun a ha => (hmem a).mpr ?_⟩
  have htask := relaxedTask_of_shows (h := h) href.shows
  have hlower := RelaxedTask.lowerBound_least hv
  rw [href.assignments] at hvalues
  generalize (RelaxedTask.system hv).least = y at hlower ⊢
  rw [htask] at hlower hv ⊢
  exact plan_reached hb henc hc hv hvalues hlower hrun hg a ha

end Plans

end DeleteRelaxationHeuristic

section Savings

attribute [local instance] Callables.empty

theorem reachableActions_eq_savings : ∃ (hv : savingsRelaxed.Valid) (R : Finset Action),
    (∀ queue, ∃ k, ∀ fuel ≥ k, savingsHff.reachableActions queue savingsStart.assignments savingsStart.todo
      fuel = some (some R)) ∧
    ∀ a, a ∈ R ↔ (∃ o ∈ savingsHff.operators, o.action = a) ∧
      ∀ n o, savingsHff.operators[n]? = some o → o.action = a →
        savingsRelaxed.preconditionCost n (RelaxedTask.system hv).least ≠ ⊤ :=
  DeleteRelaxationHeuristic.reachableActions_eq savingsHff_eq savings_encoding savingsHff_hasValues

theorem reachableActions_of_plan_savings : ∃ R, (∀ queue, ∃ k, ∀ fuel ≥ k,
      savingsHff.reachableActions queue savingsStart.assignments savingsStart.todo fuel = some (some R)) ∧
    ∀ a ∈ [(⟨0⟩ : Action), ⟨0⟩, ⟨1⟩], a ∈ R := by
  obtain ⟨t, hrun, hg⟩ := savings_plan
  exact DeleteRelaxationHeuristic.reachableActions_of_plan savingsHff_eq savings_encoding savingsSpace_initial
    savingsHff_hasValues hrun hg

end Savings

end TamerLite
