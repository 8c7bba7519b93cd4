import TamerLite.RelaxedLoop

/-! The loop ends, and what the goal costs then. Where no numeric condition of hmax
has two achievers, operators are closed in the order of their costs, as in
Dijkstra's algorithm, and the costs up to the goal's solve the cost equations. -/

namespace TamerLite

open CostEquations Exploration

namespace RelaxedTask

variable {t : RelaxedTask} {queue : PriorityQueue costLt} {reachability : Bool} {s s' : Fixpoint}
  {op : ℕ} {e : Expression} {c : ℕ∞} {rest : List (ℕ∞ × ℕ)}

/-- Whether the loop goes on once the goal is popped. -/
def drains (t : RelaxedTask) (reachability : Bool) : Bool := reachability || t.drainHeap

def reopens (t : RelaxedTask) (reachability : Bool) : Bool := t.drainHeap && !reachability

/-- What a popped operator leaves behind when it is closed. -/
def close (s : Fixpoint) (op : ℕ) (rest : List (ℕ∞ × ℕ)) : Fixpoint :=
  { s with heap := rest, closed := Function.update s.closed op true }

/-- The ways an iteration can go. -/
inductive Turn (t : RelaxedTask) (reachability : Bool) (s : Fixpoint) : Option Fixpoint ⊕ Fixpoint → Prop
  | done (hnil : s.heap = []) : Turn t reachability s (.inl (some s))
  | stale {c : ℕ∞} {op : ℕ} {rest : List (ℕ∞ × ℕ)} (hperm : s.heap.Perm ((c, op) :: rest))
      (hstale : s.closed op = true ∨ c ≠ s.opCost op) :
      Turn t reachability s (.inr { s with heap := rest })
  | goal {rest : List (ℕ∞ × ℕ)} (hperm : s.heap.Perm ((s.opCost t.goalOp, t.goalOp) :: rest))
      (hleast : ∀ p ∈ rest, s.opCost t.goalOp ≤ p.1) (hopen : s.closed t.goalOp = false)
      (hdrain : t.drains reachability = false) :
      Turn t reachability s (.inl (some (close s t.goalOp rest)))
  | pastGoal {rest : List (ℕ∞ × ℕ)} (hperm : s.heap.Perm ((s.opCost t.goalOp, t.goalOp) :: rest))
      (hleast : ∀ p ∈ rest, s.opCost t.goalOp ≤ p.1) (hopen : s.closed t.goalOp = false)
      (hdrain : t.drains reachability = true) :
      Turn t reachability s (.inr (close s t.goalOp rest))
  | expand {op : ℕ} {rest : List (ℕ∞ × ℕ)} {o : RelaxedOperator} {s' : Fixpoint}
      (hperm : s.heap.Perm ((s.opCost op, op) :: rest))
      (hleast : ∀ p ∈ rest, s.opCost op ≤ p.1) (hopen : s.closed op = false)
      (ho : t.operators[op]? = some o)
      (hexpand : t.expand (t.reopens reachability) op (close s op rest) = some s') :
      Turn t reachability s (.inr s')

theorem turn_le (hpop : queue.pop s.heap = some ((c, op), rest)) : ∀ p ∈ rest, c ≤ p.1 := by
  intro p hp
  exact not_lt.mp (of_decide_eq_false (queue.pop_least hpop p hp))

theorem Inv.close (hi : t.Inv (t.reopens reachability) s)
    (hperm : s.heap.Perm ((s.opCost op, op) :: rest)) (hopen : s.closed op = false) :
    t.Inv (t.reopens reachability) (close s op rest) where
  consistent := by
    intro op' hop' hl
    have hlive : Live (t.reopens reachability) s op' := by
      rcases eq_or_ne op' op with rfl | hne
      · exact fun hc => by simp [hopen] at hc
      · simpa [Live, RelaxedTask.close, hne] using hl
    exact ⟨(hi.consistent op' hop' hlive).1, (hi.consistent op' hop' hlive).2⟩
  queued := by
    refine ⟨fun op' hop' hc hfin => ?_, fun p hp =>
      hi.queued.entry_le p (hperm.mem_iff.mpr (List.mem_cons_of_mem _ hp))⟩
    have hne : op' ≠ op := by
      rintro rfl
      simp [RelaxedTask.close] at hc
    have hc' : s.closed op' = false := by simpa [RelaxedTask.close, hne] using hc
    rcases List.mem_cons.mp (hperm.mem_iff.mp (hi.queued.mem_heap op' hop' hc' hfin)) with heq | hmem
    · exact absurd (Prod.mk.inj heq).2 hne
    · exact hmem
  le_initial := hi.le_initial
  eq_zero := hi.eq_zero

theorem Inv.stale (hi : t.Inv (t.reopens reachability) s) (hperm : s.heap.Perm ((c, op) :: rest))
    (hstale : s.closed op = true ∨ c ≠ s.opCost op) :
    t.Inv (t.reopens reachability) { s with heap := rest } where
  consistent := fun op' hop' hl => ⟨(hi.consistent op' hop' hl).1, (hi.consistent op' hop' hl).2⟩
  queued := by
    refine ⟨fun op' hop' hc hfin => ?_, fun p hp =>
      hi.queued.entry_le p (hperm.mem_iff.mpr (List.mem_cons_of_mem _ hp))⟩
    rcases List.mem_cons.mp (hperm.mem_iff.mp (hi.queued.mem_heap op' hop' hc hfin)) with heq | hmem
    · obtain ⟨hcost, rfl⟩ := Prod.mk.inj heq
      rcases hstale with h | h
      · exact absurd (h.symm.trans hc) Bool.noConfusion
      · exact absurd hcost.symm h
    · exact hmem
  le_initial := hi.le_initial
  eq_zero := hi.eq_zero

/-- No assertion fails, and an iteration goes one of these ways. -/
theorem turn_spec (queue : PriorityQueue costLt) (hv : t.Valid) (hi : t.Inv (t.reopens reachability) s) :
    t.Turn reachability s (t.turn queue reachability s) := by
  rw [turn]
  cases hpop : queue.pop s.heap with
  | none => exact .done (queue.pop_eq_none.mp hpop)
  | some x =>
    obtain ⟨⟨c, op⟩, rest⟩ := x
    have hperm := queue.pop_perm hpop
    have hleast : ∀ p ∈ rest, c ≤ p.1 := turn_le hpop
    simp only
    split_ifs with hstale hgoal hdrain
    · simp only [Bool.or_eq_true, decide_eq_true_eq] at hstale
      exact .stale hperm hstale
    all_goals
      simp only [Bool.or_eq_true, decide_eq_true_eq, not_or, not_not, Bool.not_eq_true] at hstale
      obtain ⟨hopen, rfl⟩ := hstale
    · subst hgoal
      exact .pastGoal hperm hleast hopen hdrain
    · subst hgoal
      exact .goal hperm hleast hopen (by simpa [drains] using hdrain)
    · have hlt : op < t.operators.length := by
        have hle := (hi.queued.entry_le _ (hperm.mem_iff.mpr List.mem_cons_self)).1
        exact lt_of_le_of_ne hle hgoal
      have ho : t.operators[op]? = some t.operators[op] := List.getElem?_eq_getElem hlt
      obtain ⟨s', hs', -⟩ := expand_spec hv (hi.close hperm hopen) ho
      have hexpand : t.expand (t.drainHeap && !reachability) op { s with
          heap := rest, closed := Function.update s.closed op true } = some s' := hs'
      simp only [hexpand]
      exact .expand hperm hleast hopen ho hs'

/-! ### Runs -/

/-- What the loop has done so far: nothing is below the lower bounds, and the closed
operators have made their offers. -/
structure Progress (t : RelaxedTask) (reopen : Bool) (s : Fixpoint) : Prop where
  inv : t.Inv reopen s
  sound : ∀ L, t.LowerBound L → t.Sound L s
  closed_ne_top : ∀ op, s.closed op = true → s.opCost op ≠ ⊤
  effects : ∀ op o, s.closed op = true → t.operators[op]? = some o →
    ∀ e ∈ o.effects, s.condCost e ≤ o.cost + s.opCost op
  numericConds : ∀ op o, s.closed op = true → t.operators[op]? = some o →
    ∀ e rep, (e, some rep) ∈ o.numericConds → t.initialCosts e ≠ 0 →
      s.condCost e ≤ (rep * o.cost : ℕ) + s.opCost op

theorem entry_ne_top (hi : t.Inv (t.reopens reachability) s)
    (hperm : s.heap.Perm ((c, op) :: rest)) : op ≤ t.goalOp ∧ c ≠ ⊤ := by
  obtain ⟨hle, -, hfin⟩ := hi.queued.entry_le _ (hperm.mem_iff.mpr List.mem_cons_self)
  exact ⟨hle, hfin⟩

/-- Popping the goal offers nothing. -/
theorem Progress.closeGoal (hp : t.Progress (t.reopens reachability) s)
    (hperm : s.heap.Perm ((s.opCost t.goalOp, t.goalOp) :: rest)) (hopen : s.closed t.goalOp = false) :
    t.Progress (t.reopens reachability) (close s t.goalOp rest) where
  inv := hp.inv.close hperm hopen
  sound := fun L hL => ⟨(hp.sound L hL).1, (hp.sound L hL).2⟩
  closed_ne_top := by
    intro op hc
    rcases eq_or_ne op t.goalOp with rfl | hne
    · exact (entry_ne_top hp.inv hperm).2
    · exact hp.closed_ne_top op (by simpa [close, hne] using hc)
  effects := by
    intro op o hc ho
    have hne : op ≠ t.goalOp := by
      rintro rfl
      simp [goalOp] at ho
    exact hp.effects op o (by simpa [close, hne] using hc) ho
  numericConds := by
    intro op o hc ho
    have hne : op ≠ t.goalOp := by
      rintro rfl
      simp [goalOp] at ho
    exact hp.numericConds op o (by simpa [close, hne] using hc) ho

theorem Progress.expand {o : RelaxedOperator} (hv : t.Valid)
    (hp : t.Progress (t.reopens reachability) s) (hperm : s.heap.Perm ((s.opCost op, op) :: rest))
    (hopen : s.closed op = false) (ho : t.operators[op]? = some o)
    (hexpand : t.expand (t.reopens reachability) op (close s op rest) = some s') :
    t.Progress (t.reopens reachability) s' := by
  obtain ⟨s'', hs'', hoffer, heff, hnum⟩ := expand_spec hv (hp.inv.close hperm hopen) ho
  obtain rfl := Option.some.inj (hexpand.symm.trans hs'')
  obtain ⟨hop, hfin⟩ := entry_ne_top hp.inv hperm
  have hcost : s.opCost op = t.preconditionCost op s.condCost :=
    (hp.inv.consistent op hop fun hc => absurd (hopen.symm.trans hc) Bool.noConfusion).opCost
  -- a closed operator was closed before, or is the popped one
  have hclosed : ∀ op', s'.closed op' = true →
      s'.opCost op' = s.opCost op' ∧ (op' = op ∨ s.closed op' = true) := by
    intro op' hc
    obtain ⟨hc', heq⟩ := hoffer.extend.closed op' hc
    refine ⟨heq, or_iff_not_imp_left.mpr fun hne => ?_⟩
    simpa [close, hne] using hc'
  refine ⟨hoffer.inv, fun L hL => hoffer.sound L hL ?_ ⟨(hp.sound L hL).1, (hp.sound L hL).2⟩, ?_, ?_, ?_⟩
  · show t.preconditionCost op L ≤ s.opCost op
    rw [hcost]
    exact (hv.isLocal op).mono (hp.sound L hL).condCost
  · intro op' hc
    obtain ⟨heq, rfl | hc'⟩ := hclosed op' hc
    · rwa [heq]
    · rw [heq]
      exact hp.closed_ne_top op' hc'
  · intro op' o' hc ho' e he
    obtain ⟨heq, rfl | hc'⟩ := hclosed op' hc
    · obtain rfl := Option.some.inj (ho.symm.trans ho')
      rw [heq]
      exact heff e he
    · rw [heq]
      exact (hoffer.extend.condCost_le e).trans (hp.effects op' o' hc' ho' e he)
  · intro op' o' hc ho' e rep he hinit
    obtain ⟨heq, rfl | hc'⟩ := hclosed op' hc
    · obtain rfl := Option.some.inj (ho.symm.trans ho')
      rw [heq]
      refine ((hnum _ he hinit).1 rep rfl).trans ?_
      split_ifs
      · gcongr
        exact min_le_left _ _
      · exact le_rfl
    · rw [heq]
      exact (hoffer.extend.condCost_le e).trans (hp.numericConds op' o' hc' ho' e rep he hinit)

/-- What an iteration shortens: the costs of the operators, or else the heap. -/
def measure (t : RelaxedTask) (s : Fixpoint) : (Fin (t.goalOp + 1) → ℕ∞) ×ₗ ℕ :=
  toLex (fun op => s.opCost op, s.heap.length)

theorem measure_lt {s₀ : Fixpoint} (hext : t.Extends s s') (hcost : s.opCost = s₀.opCost)
    (hlen : s.heap.length < s₀.heap.length) : t.measure s' < t.measure s₀ := by
  rw [measure, measure, Prod.Lex.toLex_lt_toLex, ← hcost]
  by_cases hsame : ∀ op ≤ t.goalOp, s'.opCost op = s.opCost op
  · refine .inr ⟨funext fun op => hsame op (Nat.lt_succ_iff.mp op.isLt), ?_⟩
    rw [hext.heap_eq hsame]
    exact hlen
  · push Not at hsame
    obtain ⟨op, hop, hne⟩ := hsame
    refine .inl (lt_of_le_of_ne (fun op => hext.opCost_le op) fun heq => hne ?_)
    exact congrFun heq ⟨op, Nat.lt_succ_iff.mpr hop⟩

theorem Progress.turn (hv : t.Valid) (hp : t.Progress (t.reopens reachability) s)
    (h : t.turn queue reachability s = .inr s') :
    t.Progress (t.reopens reachability) s' ∧ t.measure s' < t.measure s := by
  have hturn := turn_spec queue hv hp.inv
  rw [h] at hturn
  cases hturn with
  | stale hperm hstale =>
    refine ⟨⟨hp.inv.stale hperm hstale, fun L hL => ⟨(hp.sound L hL).1, (hp.sound L hL).2⟩,
      hp.closed_ne_top, hp.effects, hp.numericConds⟩, ?_⟩
    rw [measure, measure, Prod.Lex.toLex_lt_toLex]
    exact .inr ⟨rfl, by simp [hperm.length_eq]⟩
  | pastGoal hperm _ hopen _ =>
    refine ⟨hp.closeGoal hperm hopen, ?_⟩
    rw [measure, measure, Prod.Lex.toLex_lt_toLex]
    exact .inr ⟨rfl, by simp [close, hperm.length_eq]⟩
  | expand hperm _ hopen ho hexpand =>
    obtain ⟨s'', hs'', hoffer, -⟩ := expand_spec hv (hp.inv.close hperm hopen) ho
    obtain rfl := Option.some.inj (hexpand.symm.trans hs'')
    refine ⟨hp.expand hv hperm hopen ho hexpand, ?_⟩
    exact measure_lt hoffer.extend rfl (by simp [close, hperm.length_eq])

theorem progress_start : t.Progress (t.reopens reachability) t.start := by
  have hopen : ∀ op, t.start.closed op = false := fun _ => rfl
  have hnot : ∀ {op} {P : Prop}, t.start.closed op = true → P := fun hc => by cases hc
  refine ⟨⟨fun op hop _ => ⟨if_pos hop, rfl⟩, ⟨fun op hop _ hfin => ?_, fun p hp => ?_⟩, fun _ => le_rfl,
    fun _ => id⟩, fun L hL => ⟨hL.initial, fun _ => .inl rfl⟩, fun _ hc => hnot hc, fun _ _ hc => hnot hc,
    fun _ _ hc => hnot hc⟩
  · refine List.mem_filterMap.mpr ⟨op, List.mem_range.mpr (Nat.lt_succ_iff.mpr hop), ?_⟩
    exact if_pos (lt_top_iff_ne_top.mpr hfin)
  · obtain ⟨op, hop, hsome⟩ := List.mem_filterMap.mp hp
    obtain ⟨hlt, heq⟩ := Option.ite_none_right_eq_some.mp hsome
    obtain rfl := Option.some.inj heq
    refine ⟨Nat.lt_succ_iff.mp (List.mem_range.mp hop), le_rfl, hlt.ne⟩

/-! ### Exactness -/

/-- The relaxed cost equations. -/
def system (hv : t.Valid) : System Expression ℕ where
  initial := t.initialCosts
  precondition := t.preconditionCost
  offers := t.offers
  isLocal := hv.isLocal

theorem system_positive (hv : t.Valid) : (system hv).Positive := by
  rintro e p ⟨op, o, ho, ⟨-, rfl⟩ | ⟨hinit, rep, hrep, hweight, -⟩⟩
  · exact hv.cost_pos o (List.mem_of_getElem? ho)
  · have hmem := List.mem_of_getElem? ho
    obtain ⟨rep', hpos, heq⟩ := hv.repetitions o hmem _ hrep hinit
    obtain rfl := Option.some.inj heq
    rw [hweight]
    exact Nat.mul_pos hpos (hv.cost_pos o hmem)

theorem lowerBound_least (hv : t.Valid) : t.LowerBound (system hv).least :=
  ⟨System.le_initial (System.next_least _), fun _ _ hp => System.le_offer (System.next_least _) hp⟩

/-- Without a drain no condition of hmax has two achievers. -/
theorem Achieves.unique {op' : ℕ} (hdrain : t.drainHeap = false) (hmax : t.isHmax = true)
    (h : t.Achieves op e) (h' : t.Achieves op' e) : op = op' := by
  rw [drainHeap, hmax, Bool.true_and, Bool.not_eq_false', decide_eq_true_eq, List.nodup_flatMap] at hdrain
  have key : ∀ {i j : ℕ}, t.Achieves i e → t.Achieves j e → ¬ i < j := by
    rintro i j ⟨o, ho, c, hc, rfl⟩ ⟨o', ho', c', hc', heq⟩ hij
    obtain ⟨hi, rfl⟩ := List.getElem?_eq_some_iff.mp ho
    obtain ⟨hj, rfl⟩ := List.getElem?_eq_some_iff.mp ho'
    refine List.pairwise_iff_getElem.mp hdrain.2 i j hi hj hij (List.mem_map_of_mem hc) ?_
    rw [← heq]
    exact List.mem_map_of_mem hc'
  exact le_antisymm (not_lt.mp (key h' h)) (not_lt.mp (key h h'))

/-- Operators are closed in the order of their costs, which are those of their preconditions. -/
structure Ordered (t : RelaxedTask) (s : Fixpoint) : Prop where
  frontier : ∀ op, s.closed op = true → ∀ p ∈ s.heap, s.opCost op ≤ p.1
  opCost : ∀ op ≤ t.goalOp, s.opCost op = t.preconditionCost op s.condCost
  achievers : t.isHmax = true → ∀ e, s.minAchieverPreCost e ≠ ⊤ →
    ∃ op, s.closed op = true ∧ t.Achieves op e

theorem reopens_eq_false (hdrain : t.drainHeap = false) : t.reopens reachability = false := by
  simp [reopens, hdrain]

/-- An expansion changes nothing up to the cost of the operator. -/
theorem Ordered.beyond {o : RelaxedOperator} (hv : t.Valid) (hdrain : t.drainHeap = false)
    (hp : t.Progress (t.reopens reachability) s) (ho : t.Ordered s)
    (hperm : s.heap.Perm ((s.opCost op, op) :: rest)) (hopen : s.closed op = false)
    (hop : t.operators[op]? = some o)
    (hexpand : t.expand (t.reopens reachability) op (close s op rest) = some s') :
    Beyond (s.opCost op) (close s op rest) s' := by
  obtain ⟨s'', hs'', hoffer, -⟩ := expand_spec hv (hp.inv.close hperm hopen) hop
  obtain rfl := Option.some.inj (hexpand.symm.trans hs'')
  refine hoffer.beyond (reopens_eq_false hdrain) (entry_ne_top hp.inv hperm).2 fun hmax e he => ?_
  -- the only achiever is still open
  have htop : s.minAchieverPreCost e = ⊤ := by
    by_contra hne
    obtain ⟨op', hc, he'⟩ := ho.achievers hmax e hne
    rw [he'.unique hdrain hmax he] at hc
    exact absurd (hopen.symm.trans hc) Bool.noConfusion
  exact htop ▸ le_top

theorem Ordered.expand {o : RelaxedOperator} (hv : t.Valid) (hdrain : t.drainHeap = false)
    (hp : t.Progress (t.reopens reachability) s) (ho : t.Ordered s)
    (hperm : s.heap.Perm ((s.opCost op, op) :: rest)) (hleast : ∀ p ∈ rest, s.opCost op ≤ p.1)
    (hopen : s.closed op = false) (hop : t.operators[op]? = some o)
    (hexpand : t.expand (t.reopens reachability) op (close s op rest) = some s') :
    t.Ordered s' ∧ s'.closed = Function.update s.closed op true := by
  have hbeyond := ho.beyond hv hdrain hp hperm hopen hop hexpand
  obtain ⟨s'', hs'', hoffer, -⟩ := expand_spec hv (hp.inv.close hperm hopen) hop
  obtain rfl := Option.some.inj (hexpand.symm.trans hs'')
  have hclosed : s'.closed = Function.update s.closed op true := hbeyond.closed
  have hbefore : ∀ op', s'.closed op' = true → s'.opCost op' = s.opCost op' ∧ s.opCost op' ≤ s.opCost op := by
    intro op' hc
    refine ⟨(hoffer.extend.closed op' hc).2, ?_⟩
    rw [hclosed] at hc
    rcases eq_or_ne op' op with rfl | hne
    · exact le_rfl
    · rw [Function.update_of_ne hne] at hc
      exact ho.frontier op' hc _ (hperm.mem_iff.mpr List.mem_cons_self)
  refine ⟨⟨fun op' hc p hmem => ?_, fun op' hop' => ?_, fun hmax e hne => ?_⟩, hclosed⟩
  · obtain ⟨heq, hle⟩ := hbefore op' hc
    rw [heq]
    exact hle.trans ((hbeyond.heap p hmem).elim (hleast p) le_of_lt)
  · cases hc : s'.closed op' with
    | false =>
      exact (hoffer.inv.consistent op' hop' fun h => absurd (hc.symm.trans h) Bool.noConfusion).opCost
    | true =>
      obtain ⟨heq, hle⟩ := hbefore op' hc
      rw [heq, ho.opCost op' hop']
      exact ((hv.isLocal op').eq_of_agree hbeyond.agree ((ho.opCost op' hop').symm.trans_le hle)).symm
  · by_cases hsame : s'.minAchieverPreCost e = s.minAchieverPreCost e
    · obtain ⟨op', hc, he⟩ := ho.achievers hmax e (hsame ▸ hne)
      refine ⟨op', ?_, he⟩
      rw [hclosed]
      rcases eq_or_ne op' op with rfl | hne'
      · exact Function.update_self ..
      · rwa [Function.update_of_ne hne']
    · refine ⟨op, ?_, hoffer.min_of_ne e hsame⟩
      rw [hclosed]
      exact Function.update_self ..

theorem ordered_start : t.Ordered t.start :=
  ⟨fun _ hc => (by cases hc), fun _ hop => if_pos hop, fun _ _ h => absurd rfl h⟩

/-- Popping the goal keeps the order. -/
theorem Ordered.closeGoal (ho : t.Ordered s) (hleast : ∀ p ∈ rest, s.opCost t.goalOp ≤ p.1)
    (hperm : s.heap.Perm ((s.opCost t.goalOp, t.goalOp) :: rest)) :
    t.Ordered (close s t.goalOp rest) := by
  refine ⟨fun op hc p hmem => ?_, ho.opCost, fun hmax e hne => ?_⟩
  · rcases eq_or_ne op t.goalOp with rfl | hne
    · exact hleast p hmem
    · refine ho.frontier op ?_ p (hperm.mem_iff.mpr (List.mem_cons_of_mem _ hmem))
      simpa [close, hne] using hc
  · obtain ⟨op, hc, he⟩ := ho.achievers hmax e hne
    refine ⟨op, ?_, he⟩
    rcases eq_or_ne op t.goalOp with rfl | hne'
    · exact Function.update_self ..
    · simpa [close, hne'] using hc

/-- Both invariants hold as long as the loop runs. -/
theorem Ordered.turn (hv : t.Valid) (hdrain : t.drainHeap = false)
    (h : t.Progress (t.reopens reachability) s ∧ t.Ordered s)
    (hturn : t.turn queue reachability s = .inr s') :
    t.Progress (t.reopens reachability) s' ∧ t.Ordered s' := by
  obtain ⟨hp, ho⟩ := h
  refine ⟨(hp.turn hv hturn).1, ?_⟩
  have hcases := turn_spec queue hv hp.inv
  rw [hturn] at hcases
  cases hcases with
  | stale hperm _ =>
    exact ⟨fun op hc p hmem => ho.frontier op hc p (hperm.mem_iff.mpr (List.mem_cons_of_mem _ hmem)),
      ho.opCost, ho.achievers⟩
  | pastGoal hperm hleast _ _ => exact ho.closeGoal hleast hperm
  | expand hperm hleast hopen hop hexpand =>
    exact (ho.expand hv hdrain hp hperm hleast hopen hop hexpand).1

/-- Where every operator cheaper than `h` is closed, no cost up to `h` is too high. -/
theorem le_of_closed {h : ℕ∞} {y : Costs} (hv : t.Valid) (hdrain : t.drainHeap = false)
    (hp : t.Progress (t.reopens false) s) (ho : t.Ordered s)
    (hclosed : ∀ op < t.goalOp, s.opCost op < h → s.closed op = true) (hy : (system hv).next y = y)
    (l : Expression) (hl : y l ≤ h) : s.condCost l ≤ y l := by
  cases hyl : y l with
  | top => exact le_top
  | coe v =>
    induction v using Nat.strong_induction_on generalizing l with
    | _ v ih =>
      have hfin : y l ≠ ⊤ := by rw [hyl]; exact ENat.natCast_ne_top v
      rw [← hyl]
      rcases System.exists_source hy hfin with heq | ⟨p, hoffer, heq⟩
      · exact (hp.inv.le_initial l).trans heq.ge
      · have hlt := System.precondition_lt (system_positive hv) hoffer heq hfin
        have hpre : t.preconditionCost p.2 s.condCost ≤ t.preconditionCost p.2 y := by
          refine hv.isLocal p.2 y s.condCost fun l' hl' => ?_
          have hlt' : y l' < y l := lt_of_le_of_lt hl' hlt
          obtain ⟨u, hu⟩ := ENat.ne_top_iff_exists.mp hlt'.ne_top
          rw [← hu]
          refine ih u ?_ l' (hlt'.le.trans hl) hu.symm
          rw [← hu, hyl] at hlt'
          exact_mod_cast hlt'
        have hmade : s.condCost l ≤ p.1 + t.preconditionCost p.2 s.condCost := by
          obtain ⟨op, o, hop, hcase⟩ := hoffer
          have hle : op < t.goalOp := (List.getElem?_eq_some_iff.mp hop).1
          have hopen : t.preconditionCost op s.condCost < h → s.closed op = true := fun hc =>
            hclosed op hle (by rwa [ho.opCost op hle.le])
          rcases hcase with ⟨heff, rfl⟩ | ⟨hinit, rep, hrep, hweight, hach⟩
          · have hc := hopen (hpre.trans_lt (hlt.trans_le hl))
            have := hp.effects op o hc hop l heff
            rwa [ho.opCost op hle.le] at this
          · obtain rfl : p.2 = op := by
              split_ifs at hach with hmax
              · exact hach.unique hdrain hmax ⟨o, hop, _, hrep, rfl⟩
              · exact hach
            have hc := hopen (hpre.trans_lt (hlt.trans_le hl))
            have := hp.numericConds p.2 o hc hop l rep hrep hinit
            rwa [ho.opCost p.2 hle.le, ← hweight] at this
        calc s.condCost l ≤ p.1 + t.preconditionCost p.2 s.condCost := hmade
          _ ≤ p.1 + t.preconditionCost p.2 y := by gcongr
          _ = y l := heq.symm

/-- Up to a cost below which every operator is closed, the costs are those of the fix-point. -/
theorem agree_least {h : ℕ∞} (hv : t.Valid) (hdrain : t.drainHeap = false)
    (hp : t.Progress (t.reopens false) s) (ho : t.Ordered s)
    (hclosed : ∀ op < t.goalOp, s.opCost op < h → s.closed op = true) :
    AgreeUpTo h s.condCost (system hv).least := by
  have hge := (hp.sound _ (lowerBound_least hv)).condCost
  have hle := le_of_closed hv hdrain hp ho hclosed (System.next_least (system hv))
  exact fun l => ⟨fun h => (hge l).antisymm (hle l ((hge l).trans h)), fun h => (hle l h).antisymm (hge l)⟩

/-- Once the heap is drained, what the fix-point reaches is reached. -/
theorem ne_top_of_drained {y : Costs} (hv : t.Valid) (hp : t.Progress (t.reopens reachability) s)
    (hnil : s.heap = []) (hy : (system hv).next y = y) (l : Expression) (hl : y l ≠ ⊤) :
    s.condCost l ≠ ⊤ := by
  have hclosed : ∀ op ≤ t.goalOp, t.preconditionCost op s.condCost ≠ ⊤ → s.closed op = true := by
    intro op hop hfin
    by_contra hc
    rw [Bool.not_eq_true] at hc
    have hcost := (hp.inv.consistent op hop fun h => absurd (hc.symm.trans h) Bool.noConfusion).opCost
    have := hp.inv.queued.mem_heap op hop hc (hcost ▸ hfin)
    rw [hnil] at this
    cases this
  obtain ⟨v, hyl⟩ := ENat.ne_top_iff_exists.mp hl
  induction v using Nat.strong_induction_on generalizing l with
  | _ v ih =>
    rcases System.exists_source hy hl with heq | ⟨p, hoffer, heq⟩
    · exact ne_top_of_le_ne_top (fun htop => hl (heq.trans htop)) (hp.inv.le_initial l)
    · have hlt := System.precondition_lt (system_positive hv) hoffer heq hl
      have hpre : p.2 ≤ t.goalOp → t.preconditionCost p.2 s.condCost ≠ ⊤ := by
        intro hop
        obtain ⟨f, hf⟩ := hv.formula p.2 hop
        -- among the leaves, those that cost no more than the whole condition suffice
        let z : Costs := fun e => if y e ≤ t.preconditionCost p.2 y then y e else ⊤
        have hz : t.preconditionCost p.2 z ≤ t.preconditionCost p.2 y :=
          hv.isLocal p.2 y z fun e he => (if_pos he).le
        have hz' : t.preconditionCost p.2 z ≠ ⊤ := ne_top_of_le_ne_top hlt.ne_top hz
        rw [preconditionCost, hf, Formula.expressionCost_nodes] at hz' ⊢
        refine f.cost_ne_top (fun e he => ?_) hz'
        have hle : y e ≤ t.preconditionCost p.2 y := by
          by_contra hcon
          exact he (if_neg hcon)
        have hlt' : y e < y l := lt_of_le_of_lt hle hlt
        obtain ⟨u, hu⟩ := ENat.ne_top_iff_exists.mp hlt'.ne_top
        refine ih u ?_ e hlt'.ne_top hu
        rw [← hu, ← hyl] at hlt'
        exact_mod_cast hlt'
      have hfinite : ∀ op ≤ t.goalOp, s.closed op = true → ∀ w : ℕ, (w : ℕ∞) + s.opCost op ≠ ⊤ :=
        fun op _ hc w => by simpa using hp.closed_ne_top op hc
      obtain ⟨op, o, hop, hcase⟩ := hoffer
      have hle : op < t.goalOp := (List.getElem?_eq_some_iff.mp hop).1
      rcases hcase with ⟨heff, rfl⟩ | ⟨hinit, rep, hrep, -, hach⟩
      · have hc := hclosed op hle.le (hpre hle.le)
        exact ne_top_of_le_ne_top (hfinite op hle.le hc _) (hp.effects op o hc hop l heff)
      · obtain ⟨o', hop', ⟨_, r⟩, hcond, rfl⟩ : t.Achieves p.2 l := by
          split_ifs at hach
          · exact hach
          · exact hach ▸ ⟨o, hop, _, hrep, rfl⟩
        have hle' : p.2 < t.goalOp := (List.getElem?_eq_some_iff.mp hop').1
        obtain ⟨rep', -, hsome⟩ := hv.repetitions o' (List.mem_of_getElem? hop') _ hcond hinit
        obtain rfl : r = some rep' := hsome
        have hc := hclosed p.2 hle'.le (hpre hle'.le)
        exact ne_top_of_le_ne_top (hfinite p.2 hle'.le hc _)
          (hp.numericConds p.2 o' hc hop' _ rep' hcond hinit)

/-- What the goal costs when the loop ends. -/
structure Answer (t : RelaxedTask) (L : Costs) (s : Fixpoint) : Prop where
  exact : t.drainHeap = false → t.preconditionCost t.goalOp s.condCost = t.preconditionCost t.goalOp L
  ge : t.preconditionCost t.goalOp L ≤ t.preconditionCost t.goalOp s.condCost
  ne_top : t.preconditionCost t.goalOp L ≠ ⊤ → t.preconditionCost t.goalOp s.condCost ≠ ⊤
  le_initial : t.preconditionCost t.goalOp s.condCost ≤ t.preconditionCost t.goalOp t.initialCosts

theorem answer_spec (hv : t.Valid) (hp : t.Progress (t.reopens false) s)
    (ho : t.drainHeap = false → t.Ordered s) (h : t.turn queue false s = .inl (some s')) :
    t.Answer (system hv).least s' := by
  have hcases := turn_spec queue hv hp.inv
  rw [h] at hcases
  have hlocal := hv.isLocal t.goalOp
  suffices hs : s'.condCost = s.condCost ∧
      (t.drainHeap = false → t.preconditionCost t.goalOp s.condCost =
        t.preconditionCost t.goalOp (system hv).least) ∧
      (t.drainHeap = true → ∀ l, (system hv).least l ≠ ⊤ → s.condCost l ≠ ⊤) by
    obtain ⟨heq, hexact, hdrained⟩ := hs
    have hge := hlocal.mono (hp.sound _ (lowerBound_least hv)).condCost
    refine ⟨fun hd => heq ▸ hexact hd, heq ▸ hge, fun hfin => ?_, heq ▸ hlocal.mono hp.inv.le_initial⟩
    rw [heq]
    cases hd : t.drainHeap with
    | false => rwa [hexact hd]
    | true =>
      obtain ⟨f, hf⟩ := hv.formula t.goalOp le_rfl
      rw [preconditionCost, hf, Formula.expressionCost_nodes] at hfin ⊢
      exact f.cost_ne_top (hdrained hd) hfin
  cases hcases with
  | done hnil =>
    refine ⟨rfl, fun hd => ?_, fun _ => ne_top_of_drained hv hp hnil (System.next_least _)⟩
    have hagree := agree_least (h := ⊤) hv hd hp (ho hd) fun op hop hlt => by
      by_contra hc
      have := hp.inv.queued.mem_heap op hop.le (by simpa using hc) hlt.ne
      rw [hnil] at this
      cases this
    exact (hlocal.eq_of_agree hagree le_top).symm
  | goal hperm hleast hopen hdrains =>
    have hd : t.drainHeap = false := by simpa [drains] using hdrains
    refine ⟨rfl, fun _ => ?_, fun hd' => absurd (hd.symm.trans hd') Bool.noConfusion⟩
    have hagree := agree_least (h := s.opCost t.goalOp) hv hd hp (ho hd) fun op hop hlt => by
      by_contra hc
      have := hp.inv.queued.mem_heap op hop.le (by simpa using hc) hlt.ne_top
      rcases List.mem_cons.mp (hperm.mem_iff.mp this) with heq | hmem
      · exact hop.ne (Prod.mk.inj heq).2
      · exact hlt.not_ge (hleast _ hmem)
    exact (hlocal.eq_of_agree hagree ((ho hd).opCost t.goalOp le_rfl).ge).symm

/-- The loop ends without a failed assertion, in a state where the goal's cost is that of
the least solution, or in a drained heap is at least that and finite exactly then. -/
theorem run_spec (hv : t.Valid) (queue : PriorityQueue costLt) :
    ∃ n s, t.run queue false n = .inl (some s) ∧ t.Answer (system hv).least s := by
  have hstep : ∀ s s', t.Progress (t.reopens false) s ∧ (t.drainHeap = false → t.Ordered s) →
      t.turn queue false s = .inr s' →
      (t.Progress (t.reopens false) s' ∧ (t.drainHeap = false → t.Ordered s')) ∧
        t.measure s' < t.measure s := fun s s' h hturn =>
    ⟨⟨(h.1.turn hv hturn).1, fun hd => (Ordered.turn hv hd ⟨h.1, h.2 hd⟩ hturn).2⟩, (h.1.turn hv hturn).2⟩
  obtain ⟨n, r, s, hn, ⟨hp, ho⟩, hr⟩ := Exploration.exists_answer hstep
    ⟨progress_start, fun _ => ordered_start⟩
  have hturn := turn_spec queue hv hp.inv
  rw [hr] at hturn
  obtain ⟨s', rfl⟩ : ∃ s', r = some s' := by cases hturn <;> exact ⟨_, rfl⟩
  exact ⟨n, s', hn, answer_spec hv hp ho hr⟩

end RelaxedTask

end TamerLite
