import Mathlib.Data.DFinsupp.WellFounded
import TamerLite.RelaxedTask

/-! What the loop keeps: the costs of the open operators follow those of their
leaves, the open operators wait in the heap, and a closed operator has offered what
it achieves. Every iteration lowers the cost of an operator or shortens the heap. -/

namespace TamerLite

open CostEquations Exploration

theorem containsOrNode_nodes_cost {hmax : Bool} {costs : Costs} {expr : HeuristicExpression}
    {f : Formula} (hf : expr = f.nodes) (hor : containsOrNode expr = false)
    (hunreached : 0 < (distinctLeaves expr).countP (costs · = ⊤)) :
    expressionCost hmax expr costs = ⊤ := by
  subst hf
  obtain ⟨e, he, htop⟩ := List.countP_pos_iff.mp hunreached
  have hleaf : .leaf e ∈ f.nodes := by
    obtain ⟨node, hnode, hsome⟩ := List.mem_filterMap.mp (List.mem_dedup.mp he)
    cases node with
    | leaf e' => exact Option.some.inj hsome ▸ hnode
    | and | or => cases hsome
  rw [Formula.expressionCost_nodes]
  exact f.cost_eq_top (of_decide_eq_true htop) hor ((f.mem_leaves e).mpr hleaf)

theorem mem_distinctLeaves {expr : HeuristicExpression} {e : Expression} :
    e ∈ distinctLeaves expr ↔ .leaf e ∈ expr := by
  rw [distinctLeaves, List.mem_dedup, List.mem_filterMap]
  constructor
  · rintro ⟨node, hnode, hsome⟩
    cases node with
    | leaf e' => exact Option.some.inj hsome ▸ hnode
    | and | or => cases hsome
  · exact fun h => ⟨_, h, rfl⟩

/-- Reaching a leaf leaves one unreached leaf less. -/
theorem countP_update {costs : Costs} {e : Expression} {cost : ℕ∞} {l : List Expression}
    (hcost : cost ≠ ⊤) (he : e ∈ l) (hl : l.Nodup) :
    l.countP (Function.update costs e cost · = ⊤) =
      if costs e = ⊤ then l.countP (costs · = ⊤) - 1 else l.countP (costs · = ⊤) := by
  have hothers : ∀ l : List Expression, e ∉ l →
      l.countP (Function.update costs e cost · = ⊤) = l.countP (costs · = ⊤) := by
    intro l he
    refine List.countP_congr fun e' he' => ?_
    rw [Function.update_of_ne (ne_of_mem_of_not_mem he' he)]
  induction l with
  | nil => cases he
  | cons e' l ih =>
    obtain ⟨hnot, hl⟩ := List.nodup_cons.mp hl
    rw [List.countP_cons, List.countP_cons]
    by_cases heq : e' = e
    · subst heq
      rw [hothers l hnot, Function.update_self]
      by_cases htop : costs e' = ⊤ <;> simp [htop, hcost]
    · have hmem := (List.mem_cons.mp he).resolve_left (Ne.symm heq)
      rw [ih hmem hl, Function.update_of_ne heq]
      by_cases htop : costs e = ⊤
      · have hpos : 0 < l.countP (costs · = ⊤) :=
          List.countP_pos_iff.mpr ⟨e, hmem, by simpa using htop⟩
        simp only [htop, if_true]
        omega
      · simp only [htop, if_false]

namespace RelaxedTask

variable {t : RelaxedTask} {reopen : Bool} {s s' : Fixpoint} {op r : ℕ} {e : Expression} {h : ℕ∞}

/-- What the encoding of a problem gives: preconditions are formulas, operators cost
something, and an achiever of a condition that is false in the state has a count. -/
structure Valid (t : RelaxedTask) : Prop where
  formula : ∀ op ≤ t.goalOp, ∃ f : Formula, t.condition op = f.nodes
  cost_pos : ∀ o ∈ t.operators, 0 < o.cost
  repetitions : ∀ o ∈ t.operators, ∀ c ∈ o.numericConds, t.initialCosts c.1 ≠ 0 →
    ∃ rep, 0 < rep ∧ c.2 = some rep

theorem Valid.isLocal (hv : t.Valid) (op : ℕ) : Local (t.preconditionCost op) := by
  by_cases hop : op ≤ t.goalOp
  · obtain ⟨f, hf⟩ := hv.formula op hop
    have heq : t.preconditionCost op = fun costs => f.cost t.isHmax costs := by
      funext costs
      rw [preconditionCost, hf, Formula.expressionCost_nodes]
    rw [heq]
    exact f.cost_local
  · have hnil : t.condition op = [] := by
      rw [condition, List.getElem?_eq_none, Option.getD_none]
      simp only [List.length_append, List.length_map, List.length_singleton]
      exact Nat.lt_of_not_le hop
    intro x y _
    rw [preconditionCost, preconditionCost, hnil]
    exact le_rfl

/-- A precondition's cost is that of the leaves it reads. -/
theorem Valid.cost_congr {x y : Costs} (hv : t.Valid) (hop : op ≤ t.goalOp)
    (hxy : ∀ e, .leaf e ∈ t.condition op → y e = x e) :
    t.preconditionCost op y = t.preconditionCost op x := by
  obtain ⟨f, hf⟩ := hv.formula op hop
  rw [preconditionCost, preconditionCost, hf, Formula.expressionCost_nodes, Formula.expressionCost_nodes]
  exact f.cost_congr fun e he => hxy e (by rw [hf]; exact (f.mem_leaves e).mp he)

theorem mem_readers : r ∈ t.readers e ↔ r ≤ t.goalOp ∧ .leaf e ∈ t.condition r := by
  rw [readers, List.mem_filter, List.mem_range, Nat.lt_succ_iff, decide_eq_true_eq]

theorem nodup_readers (e : Expression) : (t.readers e).Nodup := List.nodup_range.filter _

/-- An operator whose cost and count are those of its precondition under given costs. -/
structure Consistent (t : RelaxedTask) (costs : Costs) (s : Fixpoint) (op : ℕ) : Prop where
  opCost : s.opCost op = t.preconditionCost op costs
  unreached : s.unreached op = t.countUnreached costs op

def Live (reopen : Bool) (s : Fixpoint) (op : ℕ) : Prop := s.closed op = true → reopen = true

/-- Open operators wait in the heap; no entry is cheaper than its operator. -/
structure Queued (t : RelaxedTask) (s : Fixpoint) : Prop where
  mem_heap : ∀ op ≤ t.goalOp, s.closed op = false → s.opCost op ≠ ⊤ → (s.opCost op, op) ∈ s.heap
  entry_le : ∀ p ∈ s.heap, p.2 ≤ t.goalOp ∧ s.opCost p.2 ≤ p.1 ∧ p.1 ≠ ⊤

/-- Costs only fall, and no operator is closed on the way. Where no operator gets
cheaper, the heap is as before. -/
structure Extends (t : RelaxedTask) (s s' : Fixpoint) : Prop where
  condCost_le : ∀ e, s'.condCost e ≤ s.condCost e
  opCost_le : ∀ op, s'.opCost op ≤ s.opCost op
  closed : ∀ op, s'.closed op = true → s.closed op = true ∧ s'.opCost op = s.opCost op
  heap_eq : (∀ op ≤ t.goalOp, s'.opCost op = s.opCost op) → s'.heap = s.heap

theorem Extends.refl (s : Fixpoint) : t.Extends s s :=
  ⟨fun _ => le_rfl, fun _ => le_rfl, fun _ h => ⟨h, rfl⟩, fun _ => rfl⟩

theorem Extends.trans {s'' : Fixpoint} (h : t.Extends s s') (h' : t.Extends s' s'') :
    t.Extends s s'' := by
  refine ⟨fun e => (h'.condCost_le e).trans (h.condCost_le e),
    fun op => (h'.opCost_le op).trans (h.opCost_le op), fun op hc => ?_, fun hsame => ?_⟩
  · obtain ⟨hc', heq'⟩ := h'.closed op hc
    obtain ⟨hc, heq⟩ := h.closed op hc'
    exact ⟨hc, heq'.trans heq⟩
  · have hfirst : ∀ op ≤ t.goalOp, s'.opCost op = s.opCost op := fun op hop =>
      (h.opCost_le op).antisymm ((hsame op hop).symm.le.trans (h'.opCost_le op))
    rw [h'.heap_eq fun op hop => (hsame op hop).trans (hfirst op hop).symm, h.heap_eq hfirst]

/-! ### Readers of a condition -/

/-- What `updateReader` can do: nothing to a closed reader, count, or make cheaper. -/
theorem updateReader_cases (reopen firstReach : Bool) (s : Fixpoint) (r : ℕ) :
    (t.updateReader reopen firstReach s r = s ∧ ¬ Live reopen s r) ∨
    (Live reopen s r ∧
      (containsOrNode (t.condition r) = false ∧ 0 < leftUnreached firstReach s r ∨
        s.opCost r ≤ t.preconditionCost r s.condCost) ∧
      t.updateReader reopen firstReach s r =
        { s with unreached := Function.update s.unreached r (leftUnreached firstReach s r) }) ∨
    (Live reopen s r ∧ t.preconditionCost r s.condCost < s.opCost r ∧
      t.updateReader reopen firstReach s r =
        { s with
          unreached := Function.update s.unreached r (leftUnreached firstReach s r)
          opCost := Function.update s.opCost r (t.preconditionCost r s.condCost)
          closed := Function.update s.closed r false
          heap := (t.preconditionCost r s.condCost, r) :: s.heap }) := by
  rw [updateReader]
  split_ifs with hclosed
  · rw [Bool.and_eq_true, Bool.not_eq_true'] at hclosed
    exact .inl ⟨rfl, fun hl => by simp [hl hclosed.1] at hclosed⟩
  · have hlive : Live reopen s r := by
      intro hc
      by_contra hr
      exact hclosed (by simp [hc, hr])
    refine .inr ?_
    simp only [Bool.and_eq_true, Bool.not_eq_true', decide_eq_true_eq]
    split_ifs with hskip hlt
    · exact .inl ⟨hlive, .inl hskip, rfl⟩
    · exact .inr ⟨hlive, hlt, rfl⟩
    · exact .inl ⟨hlive, .inr (not_lt.mp hlt), rfl⟩

theorem Extends.updateReader (reopen firstReach : Bool) (s : Fixpoint) (hr : r ≤ t.goalOp) :
    t.Extends s (t.updateReader reopen firstReach s r) := by
  rcases updateReader_cases (t := t) reopen firstReach s r with
    ⟨heq, -⟩ | ⟨-, -, heq⟩ | ⟨-, hlt, heq⟩
  · rw [heq]
    exact .refl s
  · rw [heq]
    exact ⟨fun _ => le_rfl, fun _ => le_rfl, fun _ h => ⟨h, rfl⟩, fun _ => rfl⟩
  · rw [heq]
    refine ⟨fun _ => le_rfl, fun op => ?_, fun op hc => ?_, fun hsame => ?_⟩
    · rcases eq_or_ne op r with rfl | hne
      · simpa using hlt.le
      · simp [hne]
    · rcases eq_or_ne op r with rfl | hne
      · simp at hc
      · simpa [hne] using hc
    · exact absurd (by simpa using hsame r hr) hlt.ne

theorem Queued.updateReader (hq : t.Queued s) (firstReach : Bool) (hr : r ≤ t.goalOp) :
    t.Queued (t.updateReader reopen firstReach s r) := by
  rcases updateReader_cases (t := t) reopen firstReach s r with
    ⟨heq, -⟩ | ⟨-, -, heq⟩ | ⟨-, hlt, heq⟩
  · rwa [heq]
  · rw [heq]
    exact ⟨hq.mem_heap, hq.entry_le⟩
  · rw [heq]
    refine ⟨fun op hop hc hfin => ?_, fun p hp => ?_⟩
    · rcases eq_or_ne op r with rfl | hne
      · simp
      · simp only [Function.update_of_ne hne] at hc hfin ⊢
        exact List.mem_cons_of_mem _ (hq.mem_heap op hop hc hfin)
    · rcases List.mem_cons.mp hp with rfl | hp
      · exact ⟨hr, by simp, (hlt.trans_le le_top).ne⟩
      · obtain ⟨hle, hcost, hfin⟩ := hq.entry_le p hp
        refine ⟨hle, le_trans ?_ hcost, hfin⟩
        rcases eq_or_ne p.2 r with hpr | hne
        · simpa [hpr] using hlt.le
        · simp [hne]

/-- A reader that lags behind the costs catches up. -/
theorem consistent_updateReader {x : Costs} {firstReach : Bool} (hv : t.Valid) (hr : r ≤ t.goalOp)
    (hx : t.Consistent x s r) (hle : ∀ e, s.condCost e ≤ x e)
    (hcount : leftUnreached firstReach s r = t.countUnreached s.condCost r)
    (hlive : Live reopen s r) :
    t.Consistent s.condCost (t.updateReader reopen firstReach s r) r := by
  have hmono : t.preconditionCost r s.condCost ≤ s.opCost r := by
    rw [hx.opCost]
    exact (hv.isLocal r).mono hle
  rcases updateReader_cases (t := t) reopen firstReach s r with
    ⟨-, hnot⟩ | ⟨-, hkeep, heq⟩ | ⟨-, hlt, heq⟩
  · exact absurd hlive hnot
  · rw [heq]
    refine ⟨?_, by simpa using hcount⟩
    rcases hkeep with ⟨hor, hpos⟩ | hge
    · obtain ⟨f, hf⟩ := hv.formula r hr
      rw [hcount] at hpos
      have htop : t.preconditionCost r s.condCost = ⊤ := containsOrNode_nodes_cost hf hor hpos
      rw [htop, top_le_iff] at hmono
      exact hmono.trans htop.symm
    · exact hge.antisymm hmono
  · rw [heq]
    exact ⟨by simp, by simpa using hcount⟩

theorem updateReader_of_ne (reopen firstReach : Bool) (s : Fixpoint) (hne : op ≠ r) :
    (t.updateReader reopen firstReach s r).opCost op = s.opCost op ∧
      (t.updateReader reopen firstReach s r).unreached op = s.unreached op ∧
      (t.updateReader reopen firstReach s r).closed op = s.closed op := by
  rcases updateReader_cases (t := t) reopen firstReach s r with
    ⟨heq, -⟩ | ⟨-, -, heq⟩ | ⟨-, -, heq⟩ <;> rw [heq] <;> simp [hne]

theorem updateReader_condCost (reopen firstReach : Bool) (s : Fixpoint) (r : ℕ) :
    (t.updateReader reopen firstReach s r).condCost = s.condCost ∧
      (t.updateReader reopen firstReach s r).minAchieverPreCost = s.minAchieverPreCost ∧
      (t.updateReader reopen firstReach s r).reachedBy = s.reachedBy := by
  rcases updateReader_cases (t := t) reopen firstReach s r with
    ⟨heq, -⟩ | ⟨-, -, heq⟩ | ⟨-, -, heq⟩ <;> rw [heq] <;> exact ⟨rfl, rfl, rfl⟩

theorem live_updateReader (reopen firstReach : Bool) (s : Fixpoint) (r op : ℕ) :
    Live reopen (t.updateReader reopen firstReach s r) op ↔ Live reopen s op := by
  rcases updateReader_cases (t := t) reopen firstReach s r with
    ⟨heq, -⟩ | ⟨-, -, heq⟩ | ⟨hlive, -, heq⟩
  · rw [heq]
  · rw [heq]
    exact Iff.rfl
  · rw [heq]
    rcases eq_or_ne op r with rfl | hne
    · exact ⟨fun _ => hlive, fun _ hc => by simp at hc⟩
    · simp [Live, hne]

/-- A reader's cost falls only above the costs that stay. -/
theorem lt_of_pushed {x : Costs} {firstReach : Bool} (hv : t.Valid) (hx : t.Consistent x s r)
    (hagree : AgreeUpTo h x s.condCost) {p : ℕ∞ × ℕ}
    (hp : p ∈ (t.updateReader reopen firstReach s r).heap) : p ∈ s.heap ∨ h < p.1 := by
  rcases updateReader_cases (t := t) reopen firstReach s r with
    ⟨heq, -⟩ | ⟨-, -, heq⟩ | ⟨-, hlt, heq⟩
  · rw [heq] at hp
    exact .inl hp
  · rw [heq] at hp
    exact .inl hp
  · rw [heq] at hp
    rcases List.mem_cons.mp hp with rfl | hp
    · refine .inr (lt_of_not_ge fun hle => ?_)
      rw [hx.opCost, (hv.isLocal r).eq_of_agree hagree.symm hle] at hlt
      exact lt_irrefl _ hlt
    · exact .inl hp

/-- What a change of costs does to the loop's variables, beyond lowering costs: the
costs up to `h` stay, no operator is pushed below `h`, and none is reopened. -/
structure Beyond (h : ℕ∞) (s s' : Fixpoint) : Prop where
  agree : AgreeUpTo h s.condCost s'.condCost
  heap : ∀ p ∈ s'.heap, p ∈ s.heap ∨ h < p.1
  closed : s'.closed = s.closed

/-- All readers catch up with the costs. -/
theorem foldl_updateReader (reopen firstReach : Bool) {x : Costs} {rs : List ℕ} (hv : t.Valid)
    (hrs : rs.Nodup)
    (hle : ∀ r ∈ rs, r ≤ t.goalOp) (hcosts : ∀ e, s.condCost e ≤ x e)
    (hlag : ∀ op ≤ t.goalOp, Live reopen s op →
      if op ∈ rs then t.Consistent x s op ∧ leftUnreached firstReach s op = t.countUnreached s.condCost op
      else t.Consistent s.condCost s op) :
    let s' := rs.foldl (t.updateReader reopen firstReach) s
    (∀ op ≤ t.goalOp, Live reopen s' op → t.Consistent s.condCost s' op) ∧ t.Extends s s' ∧
      (t.Queued s → t.Queued s') ∧
      (s'.condCost = s.condCost ∧ s'.minAchieverPreCost = s.minAchieverPreCost ∧
        s'.reachedBy = s.reachedBy) ∧
      (reopen = false → ∀ h, AgreeUpTo h x s.condCost →
        (∀ p ∈ s'.heap, p ∈ s.heap ∨ h < p.1) ∧ s'.closed = s.closed) := by
  induction rs generalizing s with
  | nil => exact ⟨fun op hop hl => by simpa using hlag op hop hl, .refl s, id, ⟨rfl, rfl, rfl⟩,
      fun _ _ _ => ⟨fun _ => .inl, rfl⟩⟩
  | cons r rs ih =>
    obtain ⟨hnot, hrs⟩ := List.nodup_cons.mp hrs
    have hr := hle r List.mem_cons_self
    obtain ⟨hcond, hmin, hby⟩ := updateReader_condCost (t := t) reopen firstReach s r
    have hfirst := Extends.updateReader reopen firstReach s hr
    obtain ⟨hcons, hext, hqueued, ⟨hcond', hmin', hby'⟩, hbeyond⟩ :=
      ih (s := t.updateReader reopen firstReach s r) hrs (fun r' hr' => hle r' (List.mem_cons_of_mem r hr'))
        (by rw [hcond]; exact hcosts) (by
          intro op hop hl
          have hlag := hlag op hop ((live_updateReader reopen firstReach s r op).mp hl)
          rw [hcond]
          rcases eq_or_ne op r with rfl | hne
          · rw [if_neg hnot]
            rw [if_pos List.mem_cons_self] at hlag
            exact consistent_updateReader hv hop hlag.1 hcosts hlag.2 ((live_updateReader _ _ _ _ op).mp hl)
          · obtain ⟨hop', hun, -⟩ := updateReader_of_ne (t := t) reopen firstReach s hne
            have hsame : ∀ {y}, t.Consistent y s op →
                t.Consistent y (t.updateReader reopen firstReach s r) op :=
              fun hy => ⟨hop'.trans hy.opCost, hun.trans hy.unreached⟩
            by_cases hmem : op ∈ rs
            · rw [if_pos hmem]
              rw [if_pos (List.mem_cons_of_mem r hmem)] at hlag
              refine ⟨hsame hlag.1, ?_⟩
              rw [leftUnreached, hun]
              exact hlag.2
            · rw [if_neg hmem]
              rw [if_neg fun h => hmem ((List.mem_cons.mp h).resolve_left hne)] at hlag
              exact hsame hlag)
    rw [hcond] at hcons hcond'
    refine ⟨hcons, hfirst.trans hext, fun hq => hqueued (hq.updateReader firstReach hr),
      ⟨hcond', hmin'.trans hmin, hby'.trans hby⟩, fun hreopen h hagree => ?_⟩
    obtain ⟨hheap, hclosed⟩ := hbeyond hreopen h (by rw [hcond]; exact hagree)
    have hkeep : (t.updateReader reopen firstReach s r).closed = s.closed := by
      funext op
      have hlive := live_updateReader (t := t) reopen firstReach s r op
      subst hreopen
      rw [Live, Live] at hlive
      cases hc : s.closed op <;> cases hc' : (t.updateReader false firstReach s r).closed op <;>
        simp_all
    refine ⟨fun p hp => ?_, hclosed.trans hkeep⟩
    rcases hheap p hp with hp | hp
    · by_cases hl : Live reopen s r
      · have hcons := hlag r hr hl
        rw [if_pos List.mem_cons_self] at hcons
        exact lt_of_pushed hv hcons.1 hagree hp
      · rcases updateReader_cases (t := t) reopen firstReach s r with ⟨heq, -⟩ | ⟨hl', -⟩ | ⟨hl', -⟩
        · rw [heq] at hp
          exact .inl hp
        · exact absurd hl' hl
        · exact absurd hl' hl
    · exact .inr hp

/-- The loop's invariant. -/
structure Inv (t : RelaxedTask) (reopen : Bool) (s : Fixpoint) : Prop where
  consistent : ∀ op ≤ t.goalOp, Live reopen s op → t.Consistent s.condCost s op
  queued : t.Queued s
  le_initial : ∀ e, s.condCost e ≤ t.initialCosts e
  eq_zero : ∀ e, s.condCost e = 0 → t.initialCosts e = 0

/-- The invariant says nothing of supporters and achievers. -/
theorem Inv.annotate (hi : t.Inv reopen s) (m : Costs) (by' : Expression → Option ℕ) :
    t.Inv reopen { s with minAchieverPreCost := m, reachedBy := by' } :=
  ⟨fun op hop hl => ⟨(hi.consistent op hop hl).1, (hi.consistent op hop hl).2⟩,
    ⟨hi.queued.1, hi.queued.2⟩, hi.le_initial, hi.eq_zero⟩

theorem Extends.annotate (s : Fixpoint) (m : Costs) (by' : Expression → Option ℕ) :
    t.Extends s { s with minAchieverPreCost := m, reachedBy := by' } :=
  ⟨fun _ => le_rfl, fun _ => le_rfl, fun _ h => ⟨h, rfl⟩, fun _ => rfl⟩

/-- Operator `op` gives the conditions it achieves numerically a repetition count. -/
def Achieves (t : RelaxedTask) (op : ℕ) (e : Expression) : Prop :=
  ∃ o, t.operators[op]? = some o ∧ ∃ c ∈ o.numericConds, c.1 = e

/-- What the operators offer a condition, as a weight over the precondition of an
operator; for hmax that may be another achiever of the condition. -/
def offers (t : RelaxedTask) (e : Expression) : Set (ℕ × ℕ) :=
  {p | ∃ op o, t.operators[op]? = some o ∧
    (e ∈ o.effects ∧ p = (o.cost, op) ∨
      t.initialCosts e ≠ 0 ∧ ∃ rep, (e, some rep) ∈ o.numericConds ∧ p.1 = rep * o.cost ∧
        if t.isHmax then t.Achieves p.2 e else p.2 = op)}

/-- Costs that no condition falls below. -/
structure LowerBound (t : RelaxedTask) (L : Costs) : Prop where
  initial : ∀ e, L e ≤ t.initialCosts e
  offer : ∀ e, ∀ p ∈ t.offers e, L e ≤ p.1 + t.preconditionCost p.2 L

structure Sound (t : RelaxedTask) (L : Costs) (s : Fixpoint) : Prop where
  condCost : ∀ e, L e ≤ s.condCost e
  minAchiever : ∀ e, s.minAchieverPreCost e = ⊤ ∨
    ∃ op, t.Achieves op e ∧ t.preconditionCost op L ≤ s.minAchieverPreCost e

/-- What making offers of operator `op`, whose precondition costs `c`, does. -/
structure Offering (t : RelaxedTask) (reopen : Bool) (op : ℕ) (c : ℕ∞) (s s' : Fixpoint) : Prop where
  inv : t.Inv reopen s'
  extend : t.Extends s s'
  min_le : ∀ e, s'.minAchieverPreCost e ≤ s.minAchieverPreCost e
  min_ge : ∀ e, min c (s.minAchieverPreCost e) ≤ s'.minAchieverPreCost e
  min_of_ne : ∀ e, s'.minAchieverPreCost e ≠ s.minAchieverPreCost e → t.Achieves op e
  sound : ∀ L, t.LowerBound L → t.preconditionCost op L ≤ c → t.Sound L s → t.Sound L s'
  beyond : reopen = false → c ≠ ⊤ →
    (t.isHmax = true → ∀ e, t.Achieves op e → c ≤ s.minAchieverPreCost e) → Beyond c s s'

theorem Beyond.refl (s : Fixpoint) : Beyond h s s :=
  ⟨fun _ => ⟨fun _ => rfl, fun _ => rfl⟩, fun _ => .inl, rfl⟩

theorem Beyond.trans {s'' : Fixpoint} (hs : Beyond h s s') (hs' : Beyond h s' s'') :
    Beyond h s s'' := by
  refine ⟨fun e => ⟨fun hle => ?_, fun hle => ?_⟩, fun p hp => ?_, hs'.closed.trans hs.closed⟩
  · have heq := (hs.agree e).1 hle
    exact ((hs'.agree e).1 (heq.trans_le hle)).trans heq
  · have heq := (hs'.agree e).2 hle
    exact ((hs.agree e).2 (heq.trans_le hle)).trans heq
  · exact (hs'.heap p hp).elim (hs.heap p) .inr

theorem Offering.refl {c : ℕ∞} (hi : t.Inv reopen s) : t.Offering reopen op c s s :=
  ⟨hi, .refl s, fun _ => le_rfl, fun _ => min_le_right _ _, fun _ hne => absurd rfl hne, fun _ _ _ => id,
    fun _ _ _ => .refl s⟩

theorem Offering.trans {c : ℕ∞} {s'' : Fixpoint} (hs : t.Offering reopen op c s s')
    (hs' : t.Offering reopen op c s' s'') : t.Offering reopen op c s s'' where
  inv := hs'.inv
  extend := hs.extend.trans hs'.extend
  min_le := fun e => (hs'.min_le e).trans (hs.min_le e)
  min_ge := fun e => (le_min (min_le_left _ _) (hs.min_ge e)).trans (hs'.min_ge e)
  min_of_ne := by
    intro e hne
    by_cases heq : s'.minAchieverPreCost e = s.minAchieverPreCost e
    · exact hs'.min_of_ne e (heq ▸ hne)
    · exact hs.min_of_ne e heq
  sound := fun L hL hop hsound => hs'.sound L hL hop (hs.sound L hL hop hsound)
  beyond := by
    intro hreopen hfin hmin
    exact (hs.beyond hreopen hfin hmin).trans (hs'.beyond hreopen hfin fun hmax e he =>
      (le_min le_rfl (hmin hmax e he)).trans (hs.min_ge e))

/-! ### One condition gets cheaper -/

/-- When a condition gets cheaper only its readers lag behind. -/
theorem Inv.lag {cost : ℕ∞} (hi : t.Inv reopen s) (hv : t.Valid) (hcost : cost ≠ ⊤) (hop : op ≤ t.goalOp)
    (hl : Live reopen s op) :
    if op ∈ t.readers e then t.Consistent s.condCost s op ∧
      leftUnreached (s.condCost e = ⊤) s op = t.countUnreached (Function.update s.condCost e cost) op
    else t.Consistent (Function.update s.condCost e cost) s op := by
  have hcons := hi.consistent op hop hl
  split_ifs with hmem
  · have hleaf := mem_distinctLeaves.mpr (mem_readers.mp hmem).2
    refine ⟨hcons, ?_⟩
    rw [countUnreached, countP_update hcost hleaf (List.nodup_dedup _), leftUnreached, hcons.unreached,
      countUnreached]
    simp
  · have hnot : .leaf e ∉ t.condition op := fun h => hmem (mem_readers.mpr ⟨hop, h⟩)
    have hsame : ∀ e', .leaf e' ∈ t.condition op → Function.update s.condCost e cost e' = s.condCost e' :=
      fun e' he' => Function.update_of_ne (fun h : e' = e => hnot (h ▸ he')) ..
    refine ⟨hcons.opCost.trans (hv.cost_congr hop hsame).symm, hcons.unreached.trans ?_⟩
    refine List.countP_congr fun e' he' => ?_
    rw [hsame e' (mem_distinctLeaves.mp he')]

/-- A condition is offered at `cost`. -/
theorem updateConditionCost_spec (op : ℕ) (e : Expression) {c : ℕ∞} (cost : ℕ∞)
    (hv : t.Valid) (hi : t.Inv reopen s) (hpos : 0 < cost)
    (hL : ∀ L, t.LowerBound L → t.preconditionCost op L ≤ c → t.Sound L s → L e ≤ cost)
    (hbeyond : reopen = false → c ≠ ⊤ →
      (t.isHmax = true → ∀ e, t.Achieves op e → c ≤ s.minAchieverPreCost e) → c < cost) :
    t.Offering reopen op c s (t.updateConditionCost reopen op s e cost) ∧
      (t.updateConditionCost reopen op s e cost).condCost e ≤ cost ∧
      (t.updateConditionCost reopen op s e cost).minAchieverPreCost = s.minAchieverPreCost := by
  rw [updateConditionCost]
  by_cases hlt : cost < s.condCost e
  · rw [if_pos hlt]
    have hle : ∀ e', Function.update s.condCost e cost e' ≤ s.condCost e' := by
      intro e'
      rcases eq_or_ne e' e with rfl | hne
      · rw [Function.update_self]
        exact hlt.le
      · rw [Function.update_of_ne hne]
    obtain ⟨hcons, hext, hqueued, ⟨hcond, hmin, -⟩, hbey⟩ :=
      foldl_updateReader (t := t) reopen (s.condCost e = ⊤)
      (s := { s with
        condCost := Function.update s.condCost e cost
        reachedBy := if t.isHff then Function.update s.reachedBy e (some op) else s.reachedBy })
      hv (nodup_readers e) (fun r hr => (mem_readers.mp hr).1) hle
      fun op hop hl => by
        have hlag := hi.lag (e := e) hv (hlt.trans_le le_top).ne hop hl
        by_cases hmem : op ∈ t.readers e
        · rw [if_pos hmem] at hlag ⊢
          exact ⟨⟨hlag.1.1, hlag.1.2⟩, hlag.2⟩
        · rw [if_neg hmem] at hlag ⊢
          exact ⟨hlag.1, hlag.2⟩
    change _ = Function.update s.condCost e cost at hcond
    refine ⟨⟨⟨?_, hqueued ⟨hi.queued.1, hi.queued.2⟩, ?_, ?_⟩, ?_, ?_, ?_, ?_, ?_, ?_⟩, ?_, hmin⟩
    · rw [hcond]
      exact hcons
    · rw [hcond]
      exact fun e' => (hle e').trans (hi.le_initial e')
    · rw [hcond]
      intro e' h0
      rcases eq_or_ne e' e with rfl | hne
      · rw [Function.update_self] at h0
        exact absurd h0 hpos.ne'
      · rw [Function.update_of_ne hne] at h0
        exact hi.eq_zero e' h0
    · refine ⟨fun e' => (hext.condCost_le e').trans (hle e'), hext.opCost_le, hext.closed, hext.heap_eq⟩
    · exact fun e' => (congrFun hmin e').le
    · exact fun e' => (min_le_right _ _).trans (congrFun hmin e').ge
    · exact fun e' hne => absurd (congrFun hmin e') hne
    · intro L hLb hop hsound
      refine ⟨fun e' => ?_, fun e' => ?_⟩
      · rw [hcond]
        rcases eq_or_ne e' e with rfl | hne
        · rw [Function.update_self]
          exact hL L hLb hop hsound
        · rw [Function.update_of_ne hne]
          exact hsound.condCost e'
      · rw [hmin]
        exact hsound.minAchiever e'
    · intro hreopen hfin hm
      have hc := hbeyond hreopen hfin hm
      have hagree : AgreeUpTo c s.condCost (Function.update s.condCost e cost) := by
        intro e'
        rcases eq_or_ne e' e with rfl | hne
        · rw [Function.update_self]
          exact ⟨fun h => absurd h (hc.trans hlt).not_ge, fun h => absurd h hc.not_ge⟩
        · rw [Function.update_of_ne hne]
          exact ⟨fun _ => rfl, fun _ => rfl⟩
      obtain ⟨hheap, hclosed⟩ := hbey hreopen c hagree
      exact ⟨by rw [hcond]; exact hagree, hheap, hclosed⟩
    · rw [hcond]
      exact (Function.update_self ..).le
  · rw [if_neg hlt]
    split_ifs with htie
    · simp only [Bool.and_eq_true, decide_eq_true_eq] at htie
      refine ⟨⟨hi.annotate _ _, .annotate s _ _, fun _ => le_rfl, fun _ => min_le_right _ _,
        fun _ hne => absurd rfl hne, fun L _ _ hs => ⟨hs.1, hs.2⟩,
        fun _ _ _ => ⟨(Beyond.refl s).1, (Beyond.refl s).2, rfl⟩⟩,
        htie.1.2.ge, rfl⟩
    · exact ⟨.refl hi, not_lt.mp hlt, rfl⟩

section Expansion

variable {o : RelaxedOperator} {c : ℕ∞}

/-- The cheapest precondition among the achievers expanded so far, with this one. -/
theorem Offering.lowerMin (hi : t.Inv reopen s) (he : t.Achieves op e) :
    t.Offering reopen op c s { s with
      minAchieverPreCost := Function.update s.minAchieverPreCost e (min c (s.minAchieverPreCost e)) } where
  inv := hi.annotate _ _
  extend := .annotate s _ _
  min_le := by
    intro e'
    rcases eq_or_ne e' e with rfl | hne
    · simp
    · simp [hne]
  min_ge := by
    intro e'
    rcases eq_or_ne e' e with rfl | hne
    · simp
    · simp [hne]
  min_of_ne := by
    intro e' hne
    rcases eq_or_ne e' e with rfl | hne'
    · exact he
    · simp [hne'] at hne
  sound := by
    intro L hL hop hsound
    refine ⟨hsound.condCost, fun e' => ?_⟩
    rcases eq_or_ne e' e with rfl | hne
    · simp only [Function.update_self]
      rcases min_choice c (s.minAchieverPreCost e') with h | h
      · exact .inr ⟨op, he, by rwa [h]⟩
      · rw [h]
        exact hsound.minAchiever e'
    · simp only [Function.update_of_ne hne]
      exact hsound.minAchiever e'
  beyond := fun _ _ _ => ⟨(Beyond.refl s).1, (Beyond.refl s).2, rfl⟩

theorem offerNumeric_spec {cond : Expression × Option ℕ} (hv : t.Valid) (hi : t.Inv reopen s)
    (ho : t.operators[op]? = some o) (hc : cond ∈ o.numericConds) :
    ∃ s', t.offerNumeric reopen op o.cost c s cond = some s' ∧ t.Offering reopen op c s s' ∧
      (t.initialCosts cond.1 ≠ 0 → ∀ rep, cond.2 = some rep → s'.condCost cond.1 ≤
        (rep * o.cost : ℕ) + if t.isHmax then min c (s.minAchieverPreCost cond.1) else c) ∧
      (t.isHmax = true → t.initialCosts cond.1 ≠ 0 → s'.minAchieverPreCost cond.1 ≤ c) := by
  obtain ⟨e, r⟩ := cond
  have hmem := List.mem_of_getElem? ho
  rw [offerNumeric]
  by_cases hzero : s.condCost e = 0
  · rw [if_pos hzero]
    have h0 := hi.eq_zero e hzero
    exact ⟨s, rfl, .refl hi, fun hne => absurd h0 hne, fun _ hne => absurd h0 hne⟩
  · have hinit : t.initialCosts e ≠ 0 := fun h => hzero (le_zero_iff.mp (h ▸ hi.le_initial e))
    obtain ⟨rep, hrep, rfl⟩ := hv.repetitions o hmem _ hc hinit
    have hweight : (0 : ℕ∞) < (rep * o.cost : ℕ) := by
      exact_mod_cast Nat.mul_pos hrep (hv.cost_pos o hmem)
    have hach : t.Achieves op e := ⟨o, ho, _, hc, rfl⟩
    have hoffer : ∀ op', (if t.isHmax then t.Achieves op' e else op' = op) →
        (rep * o.cost, op') ∈ t.offers e := fun op' h =>
      ⟨op, o, ho, .inr ⟨hinit, rep, hc, rfl, h⟩⟩
    rw [if_neg hzero, Option.map_some]
    cases hmax : t.isHmax with
    | true =>
      simp only [if_true, ← min_def_lt]
      have hlower := Offering.lowerMin (c := c) hi hach
      obtain ⟨hupd, hcost, hmin⟩ := updateConditionCost_spec op e (c := c)
        ((rep * o.cost : ℕ) + min c (s.minAchieverPreCost e)) hv hlower.inv
        (hweight.trans_le le_self_add)
        (by
          intro L hL _ hsound
          rcases hsound.minAchiever e with h | ⟨op', hop', hle⟩
          · simp only [Function.update_self] at h
            simp [h]
          · simp only [Function.update_self] at hle
            exact (hL.offer e _ (hoffer op' (by rw [if_pos hmax]; exact hop'))).trans (by gcongr))
        (by
          intro _ hfin hge
          have hge := hge hmax e hach
          simp only [Function.update_self] at hge
          have heq : min c (s.minAchieverPreCost e) = c := (min_le_left _ _).antisymm hge
          rw [heq]
          exact ENat.lt_add_left hfin hweight)
      refine ⟨_, rfl, hlower.trans hupd, fun _ rep' hrep' => ?_, fun _ _ => ?_⟩
      · obtain rfl := Option.some.inj hrep'
        exact hcost
      · rw [hmin]
        simp
    | false =>
      simp only [Bool.false_eq_true, if_false]
      obtain ⟨hupd, hcost, -⟩ := updateConditionCost_spec op e (c := c)
        ((rep * o.cost : ℕ) + c) hv hi (hweight.trans_le le_self_add)
        (fun L hL hop _ => (hL.offer e _ (hoffer op (by simp [hmax]))).trans (by gcongr))
        (fun _ hfin _ => ENat.lt_add_left hfin hweight)
      refine ⟨_, rfl, hupd, fun _ rep' hrep' => ?_, fun h => by cases h⟩
      obtain rfl := Option.some.inj hrep'
      exact hcost

theorem effects_spec (hv : t.Valid) (ho : t.operators[op]? = some o) {es : List Expression} :
    (∀ e ∈ es, e ∈ o.effects) → ∀ s, t.Inv reopen s →
    t.Offering reopen op c s (es.foldl (fun r e => t.updateConditionCost reopen op r e (o.cost + c)) s) ∧
      ∀ e ∈ es, (es.foldl (fun r e => t.updateConditionCost reopen op r e (o.cost + c)) s).condCost e ≤
        o.cost + c := by
  have hweight : (0 : ℕ∞) < o.cost := by exact_mod_cast hv.cost_pos o (List.mem_of_getElem? ho)
  induction es with
  | nil => exact fun _ s hi => ⟨.refl hi, by simp⟩
  | cons e es ih =>
    intro hes s hi
    obtain ⟨hfirst, hcost, -⟩ := updateConditionCost_spec op e (c := c)
      (o.cost + c) hv hi (hweight.trans_le le_self_add)
      (fun L hL hop _ => (hL.offer e (o.cost, op) ⟨op, o, ho, .inl ⟨hes e List.mem_cons_self, rfl⟩⟩).trans
        (by gcongr))
      (fun _ hfin _ => ENat.lt_add_left hfin hweight)
    obtain ⟨hrest, hcosts⟩ := ih (fun e' he' => hes e' (List.mem_cons_of_mem e he')) _ hfirst.inv
    rw [List.foldl_cons]
    refine ⟨hfirst.trans hrest, fun e' he' => ?_⟩
    rcases List.mem_cons.mp he' with rfl | he'
    · exact (hrest.extend.condCost_le e').trans hcost
    · exact hcosts e' he'

theorem numericConds_spec (hv : t.Valid) (ho : t.operators[op]? = some o)
    {cs : List (Expression × Option ℕ)} : (∀ cond ∈ cs, cond ∈ o.numericConds) → ∀ s, t.Inv reopen s →
    ∃ s', cs.foldlM (t.offerNumeric reopen op o.cost c) s = some s' ∧ t.Offering reopen op c s s' ∧
      ∀ cond ∈ cs, t.initialCosts cond.1 ≠ 0 →
        (∀ rep, cond.2 = some rep → s'.condCost cond.1 ≤
          (rep * o.cost : ℕ) + if t.isHmax then min c (s.minAchieverPreCost cond.1) else c) ∧
        (t.isHmax = true → s'.minAchieverPreCost cond.1 ≤ c) := by
  induction cs with
  | nil => exact fun _ s hi => ⟨s, rfl, .refl hi, by simp⟩
  | cons cond cs ih =>
    intro hcs s hi
    obtain ⟨s₁, hs₁, hfirst, hcost, hmin⟩ := offerNumeric_spec (c := c) hv hi ho (hcs cond List.mem_cons_self)
    obtain ⟨s₂, hs₂, hrest, hcosts⟩ := ih (fun c' hc' => hcs c' (List.mem_cons_of_mem cond hc')) s₁ hfirst.inv
    refine ⟨s₂, by rw [List.foldlM_cons, hs₁]; exact hs₂, hfirst.trans hrest, fun cond' hc' hinit => ?_⟩
    rcases List.mem_cons.mp hc' with rfl | hc'
    · exact ⟨fun rep hrep => (hrest.extend.condCost_le _).trans (hcost hinit rep hrep),
        fun h => (hrest.min_le _).trans (hmin h hinit)⟩
    · obtain ⟨hrep, hle⟩ := hcosts cond' hc' hinit
      refine ⟨fun rep heq => (hrep rep heq).trans ?_, hle⟩
      split_ifs
      · gcongr
        exact hfirst.min_le _
      · exact le_rfl

/-- An expanded operator offers what it achieves. -/
theorem expand_spec (hv : t.Valid) (hi : t.Inv reopen s) (ho : t.operators[op]? = some o) :
    ∃ s', t.expand reopen op s = some s' ∧ t.Offering reopen op (s.opCost op) s s' ∧
      (∀ e ∈ o.effects, s'.condCost e ≤ o.cost + s.opCost op) ∧
      ∀ cond ∈ o.numericConds, t.initialCosts cond.1 ≠ 0 →
        (∀ rep, cond.2 = some rep → s'.condCost cond.1 ≤ (rep * o.cost : ℕ) +
          if t.isHmax then min (s.opCost op) (s.minAchieverPreCost cond.1) else s.opCost op) ∧
        (t.isHmax = true → s'.minAchieverPreCost cond.1 ≤ s.opCost op) := by
  obtain ⟨heff, hcost⟩ := effects_spec (c := s.opCost op) hv ho (fun e he => he) s hi
  obtain ⟨s', hs', hnum, hcosts⟩ := numericConds_spec (c := s.opCost op) hv ho (fun c hc => hc) _ heff.inv
  refine ⟨s', ?_, heff.trans hnum, fun e he => (hnum.extend.condCost_le e).trans (hcost e he),
    fun cond hc hinit => ⟨fun rep hrep => ((hcosts cond hc hinit).1 rep hrep).trans ?_,
      (hcosts cond hc hinit).2⟩⟩
  · rw [expand, ho]
    exact hs'
  · split_ifs
    · gcongr
      exact heff.min_le _
    · exact le_rfl

end Expansion

end RelaxedTask

end TamerLite
