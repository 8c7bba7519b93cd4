import Mathlib.Algebra.BigOperators.Group.Finset.Basic
import TamerLite.RelaxedPlan
import TamerLite.RelaxedSafety

/-! The evaluation of a state by a delete-relaxation heuristic: the loop, and for hff
the relaxed plan. Every evaluation ends in a value that does not depend on the order in
which operators of equal cost are popped, and a state from which the goal can be
reached is no dead end. -/

namespace TamerLite

open CostEquations Exploration SearchSpace

/-- What an evaluation gives: an exception, or a value, which is `None` for a dead end. -/
inductive Evaluation
  | raised
  | value (v : Option ℤ)
deriving DecidableEq

namespace DeleteRelaxationHeuristic

variable (h : DeleteRelaxationHeuristic)

/-- How many events an action has. -/
def eventsLength (a : Action) : Option ℕ :=
  (h.layout.find? fun p => p.2.1 = a).map fun p => p.2.2.length

/-- The events that the open actions have still to fire. -/
def openEvents (todo : AList (fun _ : Action => ℕ × ℕ)) : Option ℤ :=
  todo.entries.foldlM (fun res p => (h.eventsLength p.1).map fun n : ℕ => res + ((n : ℤ) - p.2.1)) 0

/-- The events of the actions of a relaxed plan that are not open. -/
def planEvents (plan : Finset Action) (todo : AList (fun _ : Action => ℕ × ℕ)) : Option ℕ :=
  let actions := plan.filter fun a => todo.lookup a = none
  if ∀ a ∈ actions, h.eventsLength a ≠ none then
    some (∑ a ∈ actions, (h.eventsLength a).getD 0)
  else none

def operatorAction (op : ℕ) : Option Action := (h.operators[op]?).map Operator.action

/-- The value of hff where the goal is reached at `cost`. -/
def hffValue (t : RelaxedTask) (s : Fixpoint) (cost : ℕ∞) (todo : AList (fun _ : Action => ℕ × ℕ))
    (fuel : ℕ) : Option Evaluation :=
  match h.openEvents todo with
  | none => some .raised
  | some res =>
    if cost = 0 then some (.value (some res))
    else
      match t.extract h.operatorAction s fuel with
      | .inr _ => none
      | .inl none => some .raised
      | .inl (some plan) =>
        some (match h.planEvents plan todo with
          | none => .raised
          | some n => .value (some (res + n)))

/-- `_eval_core`, with at most `fuel` iterations of each of its loops. -/
def evalCore [Callables] (queue : PriorityQueue costLt) (assignments : Assignments)
    (todo : AList (fun _ : Action => ℕ × ℕ)) (fuel : ℕ) : Option Evaluation :=
  if ∃ e ∈ h.conditions, h.classOf e ≠ .propositional ∧ evaluate e assignments = none then some .raised
  else
    let t := h.relaxedTask assignments todo
    match t.run queue false fuel with
    | .inr _ => none
    | .inl none => some .raised
    | .inl (some s) =>
      let cost := t.preconditionCost t.goalOp s.condCost
      if cost = ⊤ then some (.value none)
      else if h.kind = .hff then h.hffValue t s cost todo fuel
      else some (.value (some cost.toNat))

variable {h}

section Values

variable {kind : HeuristicKind} {domains : List FluentDomain}
  {events : List (Action × List (Timing × Event))} {goal : Expression} {timedAction : Option Action}
  {inadmissible disable : Bool} {todo : AList (fun _ : Action => ℕ × ℕ)}

theorem eventsLength_ne_none {base : ℕ} {a : Action} {le : List (Timing × Event)}
    (hmem : (base, a, le) ∈ h.layout) : h.eventsLength a ≠ none := by
  rw [eventsLength, Ne, Option.map_eq_none_iff, List.find?_eq_none]
  exact fun hnone => hnone _ hmem (decide_eq_true rfl)

/-- The actions of a relaxed plan have events. -/
theorem planEvents_ne_none (hb : Built kind domains events goal timedAction inadmissible disable h)
    {plan : Finset Action} (hplan : ∀ a ∈ plan, ∃ op, h.operatorAction op = some a) :
    ∃ n, h.planEvents plan todo = some n := by
  refine ⟨_, if_pos fun a ha => ?_⟩
  obtain ⟨op, hop⟩ := hplan a (Finset.mem_filter.mp ha).1
  obtain ⟨o, ho, rfl⟩ := Option.map_eq_some_iff.mp hop
  obtain ⟨base, a, le, i, te, hlayout, hte, hof⟩ := hb.operators.mp (List.mem_of_getElem? ho)
  obtain ⟨-, b, -, hr⟩ := ofEvent_eq_some.mp hof
  split_ifs at hr
  obtain ⟨c, -, rfl⟩ := Option.map_eq_some_iff.mp hr.symm
  exact eventsLength_ne_none hlayout

/-- The open actions have events left. -/
theorem openEvents_spec
    (htodo : ∀ a p, todo.lookup a = some p → ∃ n, h.eventsLength a = some n ∧ p.1 < n) :
    ∃ res : ℤ, h.openEvents todo = some res ∧ 0 ≤ res ∧ (todo.entries = [] → res = 0) := by
  have hfold : ∀ (l : List (Sigma fun _ : Action => ℕ × ℕ)) (r : ℤ), 0 ≤ r →
      (∀ p ∈ l, ∃ n, h.eventsLength p.1 = some n ∧ p.2.1 < n) →
      ∃ res : ℤ, l.foldlM (fun res p => (h.eventsLength p.1).map fun n : ℕ => res + ((n : ℤ) - p.2.1)) r =
        some res ∧ 0 ≤ res ∧ (l = [] → res = r) := by
    intro l
    induction l with
    | nil => exact fun r hr _ => ⟨r, rfl, hr, fun _ => rfl⟩
    | cons p l ih =>
      intro r hr hall
      obtain ⟨n, hn, hlt⟩ := hall p List.mem_cons_self
      obtain ⟨res, hres, hpos, -⟩ := ih (r + ((n : ℤ) - p.2.1)) (by omega) fun q hq =>
        hall q (List.mem_cons_of_mem p hq)
      refine ⟨res, ?_, hpos, fun hnil => by cases hnil⟩
      rw [List.foldlM_cons, hn, Option.map_some]
      exact hres
  refine hfold todo.entries 0 le_rfl fun p hp => htodo p.1 p.2 ?_
  exact AList.mem_lookup_iff.mpr hp

end Values

/-! ### One evaluation -/

/-- The queue of the Rust core: a radix heap, or a binary heap where the loop drains it. -/
def operatorQueue (t : RelaxedTask) (radix : PriorityQueue costLt) (binary : PriorityQueue heapLt) :
    PriorityQueue costLt :=
  if t.drainHeap then binary.byCost else radix

section Evaluations

variable {kind : HeuristicKind} {domains : List FluentDomain}
  {events : List (Action × List (Timing × Event))} {ss : SearchSpace} {inadmissible disable : Bool}
  {assignments : Assignments} {todo : AList (fun _ : Action => ℕ × ℕ)}

theorem operatorAction_some {op : ℕ} (hop : op < h.operators.length) : ∃ a, h.operatorAction op = some a :=
  ⟨_, by rw [operatorAction, List.getElem?_eq_getElem hop]; rfl⟩

theorem extract_of_le {t : RelaxedTask} {action : ℕ → Option Action} {s : Fixpoint} {n m : ℕ}
    {r : Option (Finset Action)} (hrun : t.extract action s n = .inl r) (hm : n ≤ m) :
    t.extract action s m = .inl r := by
  rw [RelaxedTask.extract] at hrun ⊢
  cases hgoal : t.supportGoal s with
  | none =>
    rw [hgoal] at hrun
    exact hrun
  | some x =>
    rw [hgoal] at hrun
    exact iterate_of_le hrun hm

variable [Callables]

/-- An evaluation whose loop has ended. -/
theorem evalCore_of_run (hvalues : h.HasValues assignments) {queue : PriorityQueue costLt} {m : ℕ}
    {s : Fixpoint} (hrun : (h.relaxedTask assignments todo).run queue false m = .inl (some s)) :
    h.evalCore queue assignments todo m =
      let t := h.relaxedTask assignments todo
      let cost := t.preconditionCost t.goalOp s.condCost
      if cost = ⊤ then some (.value none)
      else if h.kind = .hff then h.hffValue t s cost todo m
      else some (.value (some cost.toNat)) := by
  have hnone : ¬ ∃ e ∈ h.conditions, h.classOf e ≠ .propositional ∧ evaluate e assignments = none := by
    rintro ⟨e, he, hc, hnone⟩
    obtain ⟨v, hv⟩ := hvalues e he hc
    cases hv.symm.trans hnone
  rw [evalCore, if_neg hnone]
  simp only [hrun]

theorem isHff_relaxedTask : (h.relaxedTask assignments todo).isHff = true ↔ h.kind = .hff := by
  rw [RelaxedTask.isHff, decide_eq_true_eq]
  rfl

/-- An answer is final. -/
theorem evalCore_of_le {queue : PriorityQueue costLt} {n m : ℕ} {r : Evaluation}
    (heval : h.evalCore queue assignments todo n = some r) (hm : n ≤ m) :
    h.evalCore queue assignments todo m = some r := by
  rw [evalCore] at heval ⊢
  by_cases hnone : ∃ e ∈ h.conditions, h.classOf e ≠ .propositional ∧ evaluate e assignments = none
  · rw [if_pos hnone] at heval ⊢
    exact heval
  rw [if_neg hnone] at heval ⊢
  cases hrun : (h.relaxedTask assignments todo).run queue false n with
  | inr s =>
    simp only [hrun] at heval
    cases heval
  | inl answer =>
    have hrun' : (h.relaxedTask assignments todo).run queue false m = .inl answer := iterate_of_le hrun hm
    simp only [hrun, hrun'] at heval ⊢
    cases answer with
    | none => exact heval
    | some s =>
      dsimp only at heval ⊢
      split_ifs at heval ⊢
      · exact heval
      · rw [hffValue] at heval ⊢
        cases hres : h.openEvents todo with
        | none =>
          rw [hres] at heval
          exact heval
        | some res =>
          simp only [hres] at heval ⊢
          split_ifs at heval ⊢
          · exact heval
          · cases hext : (h.relaxedTask assignments todo).extract h.operatorAction s n with
            | inr x =>
              rw [hext] at heval
              cases heval
            | inl plan =>
              rw [hext] at heval
              rw [extract_of_le hext hm]
              exact heval
      · exact heval

/-- A value that an evaluation ends with whatever order operators of equal cost are popped in. -/
def EndsWith (h : DeleteRelaxationHeuristic) (assignments : Assignments)
    (todo : AList (fun _ : Action => ℕ × ℕ)) (v : Option ℤ) : Prop :=
  ∀ (radix : PriorityQueue costLt) (binary : PriorityQueue heapLt), ∃ n, ∀ m ≥ n,
    h.evalCore (operatorQueue (h.relaxedTask assignments todo) radix binary) assignments todo m =
      some (.value v)

/-- What the value says about the goal: it is `None` only where the fix-point does not reach the
goal, and hadd and hmax give nothing for a goal that holds. -/
structure Estimate (h : DeleteRelaxationHeuristic) (t : RelaxedTask) (L : Costs)
    (todo : AList (fun _ : Action => ℕ × ℕ)) (v : Option ℤ) : Prop where
  ne_none : t.preconditionCost t.goalOp L ≠ ⊤ → ∃ x, v = some x ∧ 0 ≤ x
  eq_zero : t.preconditionCost t.goalOp t.initialCosts = 0 → todo.entries = [] → v = some 0
  exact : t.drainHeap = false → h.kind ≠ .hff →
    v = if t.preconditionCost t.goalOp L = ⊤ then none
      else some ((t.preconditionCost t.goalOp L).toNat : ℤ)
  plan : h.kind = .hff → ∀ x, v = some x → ∃ res : ℤ, h.openEvents todo = some res ∧
    (t.preconditionCost t.goalOp L = 0 ∧ x = res ∨
      ∃ (plan : Finset Action) (n : ℕ), h.planEvents plan todo = some n ∧ x = res + n ∧
        ∃ conditions, RelaxedTask.Suffices conditions (t.condition t.goalOp) ∧
          ∀ e ∈ conditions, t.Reached (RelaxedTask.operatorsOf h.operatorAction plan) e)

/-- Without a drain every condition the value rests on is settled. -/
theorem endsWith_of_settled (hv : (h.relaxedTask assignments todo).Valid)
    (hb : Built kind domains events ss.goal ss.timedAction inadmissible disable h)
    (hvalues : h.HasValues assignments)
    (htodo : ∀ a p, todo.lookup a = some p → ∃ n, h.eventsLength a = some n ∧ p.1 < n)
    (hdrain : (h.relaxedTask assignments todo).drainHeap = false) :
    ∃ v, h.EndsWith assignments todo v ∧
      Estimate h (h.relaxedTask assignments todo) (RelaxedTask.system hv).least todo v := by
  let t := h.relaxedTask assignments todo
  let L := (RelaxedTask.system hv).least
  have hqueue : ∀ radix binary, operatorQueue t radix binary = radix := fun _ _ => by
    rw [operatorQueue, hdrain]
    rfl
  have hinitial : t.preconditionCost t.goalOp L ≤ t.preconditionCost t.goalOp t.initialCosts :=
    (hv.isLocal _).mono (RelaxedTask.lowerBound_least hv).initial
  obtain ⟨res, hres, hpos, hnil⟩ := openEvents_spec (h := h) htodo
  by_cases htop : t.preconditionCost t.goalOp L = ⊤
  · refine ⟨none, fun radix binary => ?_, fun hfin => absurd htop hfin, fun h0 => ?_, fun _ _ => ?_,
      fun _ x hx => by cases hx⟩
    · obtain ⟨n, s, hrun, hanswer, -⟩ := RelaxedTask.run_settled hv hdrain radix
      refine ⟨n, fun m hm => ?_⟩
      rw [hqueue, evalCore_of_run hvalues (iterate_of_le hrun hm)]
      exact if_pos ((hanswer.exact hdrain).trans htop)
    · rw [h0, htop, top_le_iff] at hinitial
      cases hinitial
    · exact (if_pos htop).symm
  by_cases hff : h.kind = .hff
  · have hff' : t.isHff = true := isHff_relaxedTask.mpr hff
    by_cases hzero : t.preconditionCost t.goalOp L = 0
    · refine ⟨some res, fun radix binary => ?_, fun _ => ⟨res, rfl, hpos⟩, fun _ hempty => ?_,
        fun _ hne => absurd hff hne, fun _ x hx => ⟨res, hres, .inl ⟨hzero, (Option.some.inj hx).symm⟩⟩⟩
      · obtain ⟨n, s, hrun, hanswer, -⟩ := RelaxedTask.run_settled hv hdrain radix
        refine ⟨n, fun m hm => ?_⟩
        rw [hqueue, evalCore_of_run hvalues (iterate_of_le hrun hm)]
        simp only [hanswer.exact hdrain]
        rw [if_neg htop, if_pos hff, hffValue, hres]
        exact if_pos hzero
      · rw [hnil hempty]
    · -- the plan is that of any state in which the same is settled
      obtain ⟨-, s₀, -, -, hsettled⟩ := RelaxedTask.run_settled hv hdrain binaryHeap.byCost
      have haction : ∀ op < t.goalOp, ∃ a, h.operatorAction op = some a := fun op hop =>
        operatorAction_some (by rwa [goalOp_relaxedTask] at hop)
      obtain ⟨n₀, plan, hplan, hactions, hreached⟩ := RelaxedTask.extract_spec hv hff' haction
        (CostEquations.System.next_least _) hsettled htop
      obtain ⟨k, hk⟩ : ∃ k, h.planEvents plan todo = some k := planEvents_ne_none hb hactions
      refine ⟨some (res + k), fun radix binary => ?_, fun _ => ⟨_, rfl, by omega⟩, fun h0 _ => ?_,
        fun _ hne => absurd hff hne, fun _ x hx => ⟨res, hres, .inr
          ⟨plan, k, hk, (Option.some.inj hx).symm, hreached⟩⟩⟩
      · obtain ⟨n, s, hrun, hanswer, hs⟩ := RelaxedTask.run_settled hv hdrain radix
        refine ⟨max n n₀, fun m hm => ?_⟩
        rw [hqueue, evalCore_of_run hvalues (iterate_of_le hrun (le_of_max_le_left hm))]
        simp only [hanswer.exact hdrain]
        rw [if_neg htop, if_pos hff, hffValue, hres]
        simp only [hplan m (le_of_max_le_right hm) s hs, hk]
        exact if_neg hzero
      · exact absurd (le_zero_iff.mp (h0 ▸ hinitial)) hzero
  · refine ⟨some ((t.preconditionCost t.goalOp L).toNat : ℤ), fun radix binary => ?_,
      fun _ => ⟨_, rfl, by omega⟩, fun h0 _ => ?_, fun _ _ => ?_, fun hff' => absurd hff' hff⟩
    · obtain ⟨n, s, hrun, hanswer, -⟩ := RelaxedTask.run_settled hv hdrain radix
      refine ⟨n, fun m hm => ?_⟩
      rw [hqueue, evalCore_of_run hvalues (iterate_of_le hrun hm)]
      simp only [hanswer.exact hdrain]
      rw [if_neg htop, if_neg hff]
    · have hzero : t.preconditionCost t.goalOp L = 0 := le_zero_iff.mp (h0 ▸ hinitial)
      rw [hzero]
      rfl
    · exact (if_neg htop).symm

/-- A draining loop takes the binary heap, whose order leaves nothing open. -/
theorem endsWith_of_drain (hv : (h.relaxedTask assignments todo).Valid)
    (hvalues : h.HasValues assignments)
    (hdrain : (h.relaxedTask assignments todo).drainHeap = true) :
    ∃ v, h.EndsWith assignments todo v ∧
      Estimate h (h.relaxedTask assignments todo) (RelaxedTask.system hv).least todo v := by
  let t := h.relaxedTask assignments todo
  let L := (RelaxedTask.system hv).least
  have hff : h.kind ≠ .hff := by
    intro hff
    have hnot := RelaxedTask.drainHeap_of_isHff (isHff_relaxedTask.mpr hff : t.isHff = true)
    exact absurd (hnot.symm.trans hdrain) Bool.noConfusion
  obtain ⟨n, s, hrun, hanswer⟩ := RelaxedTask.run_spec hv binaryHeap.byCost
  let cost := t.preconditionCost t.goalOp s.condCost
  refine ⟨if cost = ⊤ then none else some (cost.toNat : ℤ), fun radix binary => ⟨n, fun m hm => ?_⟩,
    fun hfin => ?_, fun h0 _ => ?_, fun hnot => absurd (hnot.symm.trans hdrain) Bool.noConfusion,
    fun hff' => absurd hff' hff⟩
  · have hqueue : operatorQueue t radix binary = binary.byCost := if_pos hdrain
    have hsame : Sum.LiftRel (Option.Rel RelaxedTask.SameHeap) RelaxedTask.SameHeap
        (t.run binaryHeap.byCost false m) (t.run binary.byCost false m) :=
      RelaxedTask.run_heapLt binaryHeap binary m
    have hrun' : t.run binaryHeap.byCost false m = .inl (some s) := iterate_of_le hrun hm
    rw [hrun'] at hsame
    generalize hanswer' : t.run binary.byCost false m = answer at hsame
    cases hsame with
    | inl hrel =>
      cases hrel with
      | some hrel =>
        obtain ⟨heap, -, rfl⟩ := hrel
        rw [hqueue, evalCore_of_run hvalues hanswer']
        simp only [if_neg hff]
        split_ifs <;> rfl
  · exact ⟨_, if_neg (hanswer.ne_top hfin), by omega⟩
  · have hzero : cost = 0 := le_zero_iff.mp (h0 ▸ hanswer.le_initial)
    rw [hzero]
    rfl

/-! ### The states of the search -/

variable {tn : DeltaSimpleTemporalNetwork} {b : Bool} {n m d : ℕ} {s₀ s t : State} {as bs : List Action}
  {c c' : Config} {ids : List ℕ}

/-- An evaluation reads of the open actions how many events they have fired. -/
theorem relaxedTask_congr {todo' : AList (fun _ : Action => ℕ × ℕ)}
    (htodo : ∀ a, (todo.lookup a).map Prod.fst = (todo'.lookup a).map Prod.fst) :
    h.relaxedTask assignments todo = h.relaxedTask assignments todo' := by
  have hflags : h.progressFluents todo = h.progressFluents todo' := by
    refine List.map_congr_left fun p _ => ?_
    have heq := htodo p.2.1
    rcases hl : todo.lookup p.2.1 with _ | ⟨j, i⟩ <;> rcases hl' : todo'.lookup p.2.1 with _ | ⟨j', i'⟩ <;>
      rw [hl, hl'] at heq <;> simp_all
  have hcost : ∀ e, h.propositionalCost assignments todo e = h.propositionalCost assignments todo' e := by
    intro e
    unfold propositionalCost
    rw [hflags]
  have hinitial : h.initialCosts assignments todo = h.initialCosts assignments todo' := by
    funext e
    unfold initialCosts
    rw [hcost]
  rw [relaxedTask, relaxedTask, hinitial]

theorem Reads.fire (henc : HeuristicEncoding ss events domains) (hr : Reads domains c.assignments)
    {a : Action} {k : ℕ} {te : Timing × Event} (hev : ss.event a k = some te) {p : ℕ × ℕ}
    {todo : AList (fun _ : Action => ℕ × ℕ)} {is : List Instance} (hf : c.fire te.2 p todo is = some c') :
    Reads domains c'.assignments := by
  obtain ⟨removed, as, -, has, -, rfl⟩ := Config.fire_eq_some.mp hf
  exact hr.applyEffects (fun eff he => (henc.effects hev eff he).2) has

/-- Whatever state the search reaches, every fluent has a value of its domain. -/
theorem reads_of_reachable (henc : HeuristicEncoding ss events domains) (hr : Config.Reachable ss b c) :
    Reads domains c.assignments :=
  hr.fire_induct (P := fun as _ => Reads domains as) ⟨henc.initial.1, henc.initial.2⟩
    fun hev hd hf => hd.fire henc hev hf

theorem eventsLength_eq (henc : HeuristicEncoding ss events domains)
    (hb : Built kind domains events ss.goal ss.timedAction inadmissible disable h) {a : Action}
    {le : List (Timing × Event)} (hle : ss.events a = some le) : h.eventsLength a = some le.length := by
  obtain ⟨base, hbase⟩ := exists_layout (henc.events_iff.mpr hle) domains.length
  rw [← hb.layout_eq] at hbase
  obtain ⟨p, hp⟩ := Option.ne_none_iff_exists'.mp (eventsLength_ne_none hbase)
  obtain ⟨⟨base', a', le'⟩, hfind, rfl⟩ := Option.map_eq_some_iff.mp hp
  have ha : a' = a := by simpa using List.find?_some hfind
  have hmem := List.mem_of_find?_eq_some hfind
  rw [hb.layout_eq, ha] at hmem
  have hle' := henc.events_iff.mp (mem_layout hmem).2
  obtain rfl := Option.some.inj (hle.symm.trans hle')
  exact hp

/-- A state gives the task of the configuration it stands for. -/
theorem relaxedTask_of_shows (hshow : Shows s c) :
    h.relaxedTask s.assignments s.todo = h.relaxedTask c.assignments c.todo := by
  rw [hshow.assignments]
  exact relaxedTask_congr hshow.next

/-- Every evaluation of a state of the search ends in a value. -/
theorem exists_value (hb : Built kind domains events ss.goal ss.timedAction inadmissible disable h)
    (henc : HeuristicEncoding ss events domains) (hshow : Shows s c) (hwf : c.WellFormed ss)
    (hvalues : h.HasValues s.assignments) :
    ∃ (hv : (h.relaxedTask s.assignments s.todo).Valid) (v : Option ℤ),
      h.EndsWith s.assignments s.todo v ∧
      Estimate h (h.relaxedTask s.assignments s.todo) (RelaxedTask.system hv).least s.todo v := by
  have hv : (h.relaxedTask s.assignments s.todo).Valid := valid_relaxedTask hb henc hvalues
  refine ⟨hv, ?_⟩
  cases hdrain : (h.relaxedTask s.assignments s.todo).drainHeap with
  | true => exact endsWith_of_drain hv hvalues hdrain
  | false =>
    refine endsWith_of_settled hv hb hvalues (fun a p hp => ?_) hdrain
    have hnext := hshow.next a
    rw [hp, Option.map_some, eq_comm, Option.map_eq_some_iff] at hnext
    obtain ⟨q, hq, hqp⟩ := hnext
    obtain ⟨-, -, -, hevent⟩ := hwf.todo hq
    obtain ⟨te, hte⟩ := Option.isSome_iff_exists.mp hevent
    obtain ⟨le, hle, hte⟩ := Option.bind_eq_some_iff.mp hte
    exact ⟨le.length, eventsLength_eq henc hb hle, hqp ▸ (List.getElem?_eq_some_iff.mp hte).1⟩

/-- Where the goal can be reached from a configuration, what shows it is worth a number. -/
theorem exists_number (hb : Built kind domains events ss.goal ss.timedAction inadmissible disable h)
    (henc : HeuristicEncoding ss events domains) (hshow : Shows s c) (hreach : Config.Reachable ss b c)
    (hvalues : h.HasValues s.assignments) (hrun : c.run ss bs = some c')
    (hg : c'.goalReached ss = true) :
    ∃ x : ℤ, 0 ≤ x ∧ h.EndsWith s.assignments s.todo (some x) ∧
      (c.goalReached ss = true → s.todo.entries = [] → x = 0) := by
  have hwf := hreach.wellFormed
  have hreads := reads_of_reachable henc hreach
  have htask := relaxedTask_of_shows (h := h) hshow
  obtain ⟨hv, v, hends, hest⟩ := exists_value hb henc hshow hwf hvalues
  have hlower := RelaxedTask.lowerBound_least hv
  have hfin : (h.relaxedTask s.assignments s.todo).preconditionCost
      (h.relaxedTask s.assignments s.todo).goalOp (RelaxedTask.system hv).least ≠ ⊤ := by
    generalize (RelaxedTask.system hv).least = y at hlower
    rw [hshow.assignments] at hvalues
    rw [htask] at hlower hv ⊢
    obtain ⟨hcov, hreads', -⟩ :=
      (covered_start hb hvalues hlower.initial).run hb henc hv hlower hwf hreads hrun
    exact goal_ne_top hb henc hreads' hcov hg
  obtain ⟨x, rfl, hx⟩ := hest.ne_none hfin
  refine ⟨x, hx, hends, fun hgoal hempty => ?_⟩
  have hzero := goal_eq_zero hb henc hreads hgoal
  rw [← htask] at hzero
  exact Option.some.inj (hest.eq_zero hzero hempty)

/-- The queue of a loop that does not drain is monotone: nothing in it is ever cheaper than what has
been popped, and no operator is expanded twice. -/
theorem queue_monotone (hnew : new kind domains events ss.goal ss.timedAction inadmissible disable = some h)
    (henc : HeuristicEncoding ss events domains) (hvalues : h.HasValues assignments)
    (hdrain : (h.relaxedTask assignments todo).drainHeap = false) {queue : PriorityQueue costLt}
    {reachability : Bool} {n k op : ℕ} {u v : Fixpoint} {c : ℕ∞} {rest : List (ℕ∞ × ℕ)}
    (hu : (h.relaxedTask assignments todo).run queue reachability n = .inr u)
    (hpop : queue.pop u.heap = some ((c, op), rest))
    (hrun : (h.relaxedTask assignments todo).run queue reachability (n + 1 + k) = .inr v) :
    (∀ p ∈ v.heap, c ≤ p.1) ∧ (∀ op', u.closed op' = true → v.closed op' = true) ∧
      (c = u.opCost op → v.closed op = true) :=
  RelaxedTask.run_monotone (valid_relaxedTask (new_spec hnew) henc hvalues) hdrain hu hpop hrun

/-- Evaluating a state of the search ends without an exception, and neither the radix heap
nor the binary heap changes the value. -/
theorem evalCore_eq (hnew : new kind domains events ss.goal ss.timedAction inadmissible disable = some h)
    (henc : HeuristicEncoding ss events domains) (h₀ : ss.initial tn n = some s₀)
    (hr : Run ss tn b s₀ (initialCounter ss n) as s m) (hvalues : h.HasValues s.assignments) :
    ∃ v, ∀ (radix : PriorityQueue costLt) (binary binary' : PriorityQueue heapLt), ∃ k, ∀ fuel ≥ k,
      h.evalCore (operatorQueue (h.relaxedTask s.assignments s.todo) radix binary) s.assignments s.todo fuel =
        some (.value v) ∧
      h.evalCore binary'.byCost s.assignments s.todo fuel = some (.value v) := by
  obtain ⟨c₀, ids₀, hc₀, href₀, -⟩ := refines_initial h₀
  obtain ⟨c, ids, hc, href, -⟩ := href₀.run (Config.wellFormed_initial hc₀) hr
  have hreach : Config.Reachable ss b c := ⟨c₀, as, hc₀, hc⟩
  obtain ⟨-, v, hends, -⟩ := exists_value (new_spec hnew) henc href.shows hreach.wellFormed hvalues
  refine ⟨v, fun radix binary binary' => ?_⟩
  obtain ⟨k, hk⟩ := hends radix binary
  obtain ⟨k', hk'⟩ := hends binary'.byCost binary'
  have hqueue : operatorQueue (h.relaxedTask s.assignments s.todo) binary'.byCost binary' =
      binary'.byCost := ite_self _
  rw [hqueue] at hk'
  exact ⟨max k k', fun fuel hfuel => ⟨hk fuel (le_of_max_le_left hfuel), hk' fuel (le_of_max_le_right hfuel)⟩⟩

/-- A state from which the goal can be reached is no dead end, and a goal state is worth nothing. -/
theorem evalCore_safe (hnew : new kind domains events ss.goal ss.timedAction inadmissible disable = some h)
    (henc : HeuristicEncoding ss events domains) (h₀ : ss.initial tn n = some s₀)
    (hr : Run ss tn b s₀ (initialCounter ss n) as s m) (hvalues : h.HasValues s.assignments)
    (hplan : Run ss tn false s m bs t d) (hg : ss.goalReached t = true) :
    ∃ x : ℤ, 0 ≤ x ∧ (ss.goalReached s = true → x = 0) ∧
      ∀ (radix : PriorityQueue costLt) (binary : PriorityQueue heapLt), ∃ k, ∀ fuel ≥ k,
        h.evalCore (operatorQueue (h.relaxedTask s.assignments s.todo) radix binary) s.assignments
            s.todo fuel =
          some (.value (some x)) := by
  have hb := new_spec hnew
  obtain ⟨c₀, ids₀, hc₀, href₀, -⟩ := refines_initial h₀
  obtain ⟨c, ids, hc, href, -⟩ := href₀.run (Config.wellFormed_initial hc₀) hr
  have hreach : Config.Reachable ss b c := ⟨c₀, as, hc₀, hc⟩
  obtain ⟨c', ids', hrun, href', -⟩ := href.run hreach.wellFormed hplan
  rw [Config.runWith_false] at hrun
  rw [href'.goalReached_eq] at hg
  obtain ⟨x, hx, hends, hzero⟩ := exists_number hb henc href.shows hreach hvalues hrun hg
  refine ⟨x, hx, fun hgoal => ?_, hends⟩
  have hempty : s.todo.entries = [] := List.isEmpty_iff.mp (Bool.and_eq_true_iff.mp hgoal).1
  rw [href.goalReached_eq] at hgoal
  exact hzero hgoal hempty

/-- The value of hff is the number of events left of the open actions and of all events of the other
actions of a relaxed plan: actions whose operators reach the goal where effects are never lost. -/
theorem hff_relaxedPlan (hnew : new .hff domains events ss.goal ss.timedAction inadmissible disable = some h)
    (henc : HeuristicEncoding ss events domains) (h₀ : ss.initial tn n = some s₀)
    (hr : Run ss tn b s₀ (initialCounter ss n) as s m) (hvalues : h.HasValues s.assignments)
    {queue : PriorityQueue costLt} {fuel : ℕ} {x : ℤ}
    (heval : h.evalCore queue s.assignments s.todo fuel = some (.value (some x))) :
    ∃ (hv : (h.relaxedTask s.assignments s.todo).Valid) (res : ℤ), h.openEvents s.todo = some res ∧
      ((h.relaxedTask s.assignments s.todo).preconditionCost
          (h.relaxedTask s.assignments s.todo).goalOp (RelaxedTask.system hv).least = 0 ∧ x = res ∨
        ∃ (plan : Finset Action) (n : ℕ), h.planEvents plan s.todo = some n ∧ x = res + n ∧
          ∃ conditions, RelaxedTask.Suffices conditions ((h.relaxedTask s.assignments s.todo).condition
              (h.relaxedTask s.assignments s.todo).goalOp) ∧
            ∀ e ∈ conditions, (h.relaxedTask s.assignments s.todo).Reached
              (RelaxedTask.operatorsOf h.operatorAction plan) e) := by
  obtain ⟨c₀, ids₀, hc₀, href₀, -⟩ := refines_initial h₀
  obtain ⟨c, ids, hc, href, -⟩ := href₀.run (Config.wellFormed_initial hc₀) hr
  have hreach : Config.Reachable ss b c := ⟨c₀, as, hc₀, hc⟩
  have hb := new_spec hnew
  obtain ⟨hv, v, hends, hest⟩ := exists_value hb henc href.shows hreach.wellFormed hvalues
  obtain ⟨k, hk⟩ := hends queue binaryHeap
  have hqueue : operatorQueue (h.relaxedTask s.assignments s.todo) queue binaryHeap = queue := by
    have hff : (h.relaxedTask s.assignments s.todo).isHff = true := isHff_relaxedTask.mpr hb.kind_eq
    rw [operatorQueue, RelaxedTask.drainHeap_of_isHff hff]
    rfl
  have hboth := (evalCore_of_le heval (le_max_left fuel k)).symm.trans
    (hqueue ▸ hk (max fuel k) (le_max_right fuel k))
  obtain rfl : some x = v := Evaluation.value.inj (Option.some.inj hboth)
  exact ⟨hv, hest.plan hb.kind_eq x rfl⟩

end Evaluations

end DeleteRelaxationHeuristic

section Savings

attribute [local instance] Callables.empty

def savingsStart : State := ⟨savingsSpace.initialState, none, ∅, 0, 0, []⟩

theorem savingsSpace_initial : savingsSpace.initial .free 0 = some savingsStart := rfl

theorem savings_idle : Run savingsSpace .free false savingsStart (initialCounter savingsSpace 0) []
    savingsStart (initialCounter savingsSpace 0) := .refl _ _

/-- Working twice pays for the job. -/
theorem savings_plan : ∃ t, Run savingsSpace .free false savingsStart (initialCounter savingsSpace 0)
    [⟨0⟩, ⟨0⟩, ⟨1⟩] t 0 ∧ savingsSpace.goalReached t = true := by
  let succ := fun (s : State) (a : ℕ) =>
    savingsSpace.getSuccessorStateWithCompression .free 0 s ⟨a⟩ false
  have h : ((succ savingsStart 0).bind fun s => (succ s 0).bind fun s => (succ s 1).map fun s =>
      savingsSpace.goalReached s) = some true := by decide +kernel
  obtain ⟨s₁, h₁, h⟩ := Option.bind_eq_some_iff.mp h
  obtain ⟨s₂, h₂, h⟩ := Option.bind_eq_some_iff.mp h
  obtain ⟨s₃, h₃, h⟩ := Option.map_eq_some_iff.mp h
  exact ⟨s₃, (((Run.refl _ _).step le_rfl h₁).step le_rfl h₂).step le_rfl h₃, h⟩

def savingsNewHff : Option DeleteRelaxationHeuristic :=
  DeleteRelaxationHeuristic.new .hff savingsDomains savingsEvents savingsSpace.goal
    savingsSpace.timedAction false false

theorem savingsNewHff_isSome : savingsNewHff.isSome = true := by decide +kernel

def savingsHff : DeleteRelaxationHeuristic := savingsNewHff.get savingsNewHff_isSome

theorem savingsHff_eq : DeleteRelaxationHeuristic.new .hff savingsDomains savingsEvents savingsSpace.goal
    savingsSpace.timedAction false false = some savingsHff :=
  (Option.some_get savingsNewHff_isSome).symm

theorem savingsHff_hasValues : savingsHff.HasValues savingsStart.assignments := by
  have hall : savingsHff.conditions.all (fun e => decide (savingsHff.classOf e = .propositional) ||
      (evaluate e savingsSpace.initialState).isSome) = true := by decide +kernel
  intro e he hne
  have h := List.all_eq_true.mp hall e he
  rw [Bool.or_eq_true, decide_eq_true_eq, Option.isSome_iff_exists] at h
  exact h.resolve_left hne

def savingsRelaxed : RelaxedTask := savingsHff.relaxedTask savingsStart.assignments savingsStart.todo

theorem queue_monotone_savings : ∃ u v rest,
    savingsRelaxed.run binaryHeap.byCost false 1 = .inr u ∧
    binaryHeap.byCost.pop u.heap = some ((2, 1), rest) ∧
    savingsRelaxed.run binaryHeap.byCost false 3 = .inr v ∧
    (∀ p ∈ v.heap, 2 ≤ p.1) ∧ (∀ op', u.closed op' = true → v.closed op' = true) ∧
      (2 = u.opCost 1 → v.closed 1 = true) := by
  have hfirst : ((savingsRelaxed.run binaryHeap.byCost false 1).getRight?.bind fun u =>
      (binaryHeap.byCost.pop u.heap).map Prod.fst) = some (2, 1) := by decide +kernel
  have hlast : (savingsRelaxed.run binaryHeap.byCost false 3).isRight = true := by decide +kernel
  obtain ⟨u, hu, hpop⟩ := Option.bind_eq_some_iff.mp hfirst
  obtain ⟨⟨entry, rest⟩, hpop, rfl⟩ := Option.map_eq_some_iff.mp hpop
  obtain ⟨v, hv⟩ := Sum.isRight_iff.mp hlast
  have hu := Sum.getRight?_eq_some_iff.mp hu
  exact ⟨u, v, rest, hu, hpop, hv, @DeleteRelaxationHeuristic.queue_monotone _ _ _ _ _ _ _ _ _ _
    savingsHff_eq savings_encoding savingsHff_hasValues (by decide +kernel) _ _ 1 1 _ _ _ _ _ hu hpop hv⟩

theorem evalCore_eq_savings : ∃ v, ∀ (radix : PriorityQueue costLt) (binary binary' : PriorityQueue heapLt),
    ∃ k, ∀ fuel ≥ k,
      savingsHff.evalCore (DeleteRelaxationHeuristic.operatorQueue savingsRelaxed radix binary)
        savingsStart.assignments savingsStart.todo fuel = some (.value v) ∧
      savingsHff.evalCore binary'.byCost savingsStart.assignments savingsStart.todo fuel = some (.value v) :=
  DeleteRelaxationHeuristic.evalCore_eq savingsHff_eq savings_encoding savingsSpace_initial savings_idle
    savingsHff_hasValues

theorem evalCore_safe_savings : ∃ x : ℤ, 0 ≤ x ∧ (savingsSpace.goalReached savingsStart = true → x = 0) ∧
    ∀ (radix : PriorityQueue costLt) (binary : PriorityQueue heapLt), ∃ k, ∀ fuel ≥ k,
      savingsHff.evalCore (DeleteRelaxationHeuristic.operatorQueue savingsRelaxed radix binary)
        savingsStart.assignments savingsStart.todo fuel = some (.value (some x)) := by
  obtain ⟨t, hrun, hg⟩ := savings_plan
  exact DeleteRelaxationHeuristic.evalCore_safe savingsHff_eq savings_encoding savingsSpace_initial
    savings_idle
    savingsHff_hasValues hrun hg

theorem hff_relaxedPlan_savings : ∃ (hv : savingsRelaxed.Valid) (res : ℤ),
    savingsHff.openEvents savingsStart.todo = some res ∧
      (savingsRelaxed.preconditionCost savingsRelaxed.goalOp (RelaxedTask.system hv).least = 0 ∧ 2 = res ∨
        ∃ (plan : Finset Action) (n : ℕ),
          savingsHff.planEvents plan savingsStart.todo = some n ∧ 2 = res + n ∧
          ∃ conditions, RelaxedTask.Suffices conditions (savingsRelaxed.condition savingsRelaxed.goalOp) ∧
            ∀ e ∈ conditions, savingsRelaxed.Reached
              (RelaxedTask.operatorsOf savingsHff.operatorAction plan) e) := by
  have heval : savingsHff.evalCore binaryHeap.byCost savingsStart.assignments savingsStart.todo 20 =
      some (.value (some 2)) := by decide +kernel
  exact DeleteRelaxationHeuristic.hff_relaxedPlan savingsHff_eq savings_encoding savingsSpace_initial
    savings_idle
    savingsHff_hasValues heval

end Savings

end TamerLite
