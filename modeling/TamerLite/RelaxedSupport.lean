import TamerLite.RelaxedFixpoint

/-! Which operator supports a condition when the loop ends. Whatever order equal
costs are popped in, it is the largest operator that offers the condition its cost. -/

namespace TamerLite

open CostEquations Exploration

namespace RelaxedTask

variable {t : RelaxedTask} {queue : PriorityQueue costLt} {reachability : Bool} {s s' : Fixpoint}
  {op : ℕ} {e : Expression} {c : ℕ∞} {rest : List (ℕ∞ × ℕ)}

/-! ### The monotone queue -/

/-- An iteration without a drain: what is in the heap afterwards is no cheaper than what
was popped, closed operators stay closed, and the popped one is closed unless its entry is stale. -/
theorem Ordered.turn_monotone (hv : t.Valid) (hdrain : t.drainHeap = false)
    (h : t.Progress (t.reopens reachability) s ∧ t.Ordered s)
    (hpop : queue.pop s.heap = some ((c, op), rest)) (hturn : t.turn queue reachability s = .inr s') :
    (∀ p ∈ s'.heap, c ≤ p.1) ∧ (∀ op', s.closed op' = true → s'.closed op' = true) ∧
      (c = s.opCost op → s'.closed op = true) := by
  obtain ⟨hp, ho⟩ := h
  have hperm := queue.pop_perm hpop
  have hleast := turn_le hpop
  have hclose : ∀ op', op' = op ∨ s.closed op' = true → Function.update s.closed op true op' = true := by
    rintro op' (rfl | hc)
    · exact Function.update_self ..
    · rcases eq_or_ne op' op with rfl | hne
      · exact Function.update_self ..
      · exact (Function.update_of_ne hne ..).trans hc
  rw [RelaxedTask.turn, hpop] at hturn
  simp only at hturn
  split_ifs at hturn with hstale hgoal hdrains
  · obtain rfl := Sum.inr.inj hturn
    simp only [Bool.or_eq_true, decide_eq_true_eq] at hstale
    exact ⟨hleast, fun _ => id, fun heq => hstale.resolve_right fun hne => hne heq⟩
  all_goals
    simp only [Bool.or_eq_true, decide_eq_true_eq, not_or, not_not, Bool.not_eq_true] at hstale
    obtain ⟨hopen, rfl⟩ := hstale
  · obtain rfl := Sum.inr.inj hturn
    exact ⟨hleast, fun op' hc => hclose op' (.inr hc), fun _ => hclose op (.inl rfl)⟩
  · have hlt : op < t.operators.length :=
      lt_of_le_of_ne (entry_ne_top hp.inv hperm).1 hgoal
    have hop : t.operators[op]? = some (t.operators.get ⟨op, hlt⟩) := List.getElem?_eq_getElem hlt
    obtain ⟨s'', hs'', -⟩ := expand_spec hv (hp.inv.close hperm hopen) hop
    have hexpand : t.expand (t.drainHeap && !reachability) op { s with
        heap := rest, closed := Function.update s.closed op true } = some s'' := hs''
    simp only [hexpand] at hturn
    obtain rfl := Sum.inr.inj hturn
    have hbeyond := ho.beyond hv hdrain hp hperm hopen hop hs''
    rw [hbeyond.closed]
    exact ⟨fun p hmem => (hbeyond.heap p hmem).elim (hleast p) le_of_lt,
      fun op' hc => hclose op' (.inr hc), fun _ => hclose op (.inl rfl)⟩

/-- Without a drain no entry of the heap is ever cheaper than what has been popped, and an operator
whose cost has been popped is closed for good. -/
theorem run_monotone (hv : t.Valid) (hdrain : t.drainHeap = false) {n k : ℕ} {u v : Fixpoint}
    (hu : t.run queue reachability n = .inr u) (hpop : queue.pop u.heap = some ((c, op), rest))
    (hrun : t.run queue reachability (n + 1 + k) = .inr v) :
    (∀ p ∈ v.heap, c ≤ p.1) ∧ (∀ op', u.closed op' = true → v.closed op' = true) ∧
      (c = u.opCost op → v.closed op = true) := by
  have hinv : ∀ {n s}, t.run queue reachability n = .inr s →
      t.Progress (t.reopens reachability) s ∧ t.Ordered s := by
    intro n s hs
    exact @Exploration.iterate_inv _ _ _ (fun s => t.Progress (t.reopens reachability) s ∧ t.Ordered s)
      _ _ _ (fun _ _ => Ordered.turn hv hdrain) ⟨progress_start, ordered_start⟩ hs
  have hnext : ∀ {n s s'}, t.run queue reachability n = .inr s →
      t.run queue reachability (n + 1) = .inr s' → t.turn queue reachability s = .inr s' := by
    intro n s s' hs hs'
    rw [RelaxedTask.run, iterate_succ] at hs'
    rw [RelaxedTask.run] at hs
    rw [hs] at hs'
    exact hs'
  induction k generalizing v with
  | zero => exact Ordered.turn_monotone hv hdrain (hinv hu) hpop (hnext hu hrun)
  | succ k ih =>
    rw [← Nat.add_assoc] at hrun
    cases hw : t.run queue reachability (n + 1 + k) with
    | inl r =>
      rw [RelaxedTask.run, iterate_succ, ← RelaxedTask.run, hw] at hrun
      cases hrun
    | inr w =>
      obtain ⟨hheap, hclosed, hop⟩ := ih hw
      have hturn := hnext hw hrun
      cases hpop' : queue.pop w.heap with
      | none =>
        rw [RelaxedTask.turn, hpop'] at hturn
        cases hturn
      | some x =>
        obtain ⟨⟨c', op'⟩, rest'⟩ := x
        obtain ⟨hheap', hclosed', -⟩ := Ordered.turn_monotone hv hdrain (hinv hw) hpop' hturn
        have hle : c ≤ c' := hheap _ ((queue.pop_perm hpop').mem_iff.mpr List.mem_cons_self)
        exact ⟨fun p hp => hle.trans (hheap' p hp), fun op hc => hclosed' op (hclosed op hc),
          fun heq => hclosed' op (hop heq)⟩

/-! ### Offers -/

/-- An operator has offered a condition `cost`: it is cheaper by now, or one that is at
least as large supports it. -/
def Offered (s : Fixpoint) (e : Expression) (op : ℕ) (cost : ℕ∞) : Prop :=
  s.condCost e < cost ∨ s.condCost e = cost ∧ ∃ op', s.reachedBy e = some op' ∧ op ≤ op'

/-- What `updateConditionCost` does to the condition and its supporter. -/
theorem updateConditionCost_cases (hff : t.isHff = true) (reopen : Bool) (op : ℕ) (s : Fixpoint)
    (e : Expression) (cost : ℕ∞) :
    (cost < s.condCost e ∧
      (t.updateConditionCost reopen op s e cost).condCost = Function.update s.condCost e cost ∧
      (t.updateConditionCost reopen op s e cost).reachedBy = Function.update s.reachedBy e (some op)) ∨
    (cost = s.condCost e ∧ (∀ op', s.reachedBy e = some op' → op' < op) ∧
      (t.updateConditionCost reopen op s e cost).condCost = s.condCost ∧
      (t.updateConditionCost reopen op s e cost).reachedBy = Function.update s.reachedBy e (some op)) ∨
    (s.condCost e ≤ cost ∧ (cost = s.condCost e → ∃ op', s.reachedBy e = some op' ∧ op ≤ op') ∧
      t.updateConditionCost reopen op s e cost = s) := by
  rw [updateConditionCost]
  by_cases hlt : cost < s.condCost e
  · rw [if_pos hlt]
    have hfold : ∀ (rs : List ℕ) (s : Fixpoint) (b : Bool),
        (rs.foldl (t.updateReader reopen b) s).condCost = s.condCost ∧
          (rs.foldl (t.updateReader reopen b) s).reachedBy = s.reachedBy := by
      intro rs
      induction rs with
      | nil => exact fun _ _ => ⟨rfl, rfl⟩
      | cons r rs ih =>
        intro s b
        obtain ⟨hcond, -, hby⟩ := updateReader_condCost (t := t) reopen b s r
        rw [List.foldl_cons, (ih _ b).1, (ih _ b).2]
        exact ⟨hcond, hby⟩
    refine .inl ⟨hlt, (hfold _ _ _).1, (hfold _ _ _).2.trans ?_⟩
    rw [if_pos hff]
  · rw [if_neg hlt, hff, Bool.true_and]
    refine .inr ?_
    split_ifs with htie
    · rw [Bool.and_eq_true, decide_eq_true_eq, Option.all_eq_true] at htie
      exact .inl ⟨htie.1, fun op' hop' => of_decide_eq_true (htie.2 op' hop'), rfl, rfl⟩
    · refine .inr ⟨not_lt.mp hlt, fun heq => ?_, rfl⟩
      rw [Bool.and_eq_true, decide_eq_true_eq, not_and, Option.all_eq_true] at htie
      have hnot := htie heq
      push Not at hnot
      obtain ⟨op', hop', hle⟩ := hnot
      exact ⟨op', hop', by simpa using hle⟩

/-- An operator that offers a cost has offered it. -/
theorem offered_updateConditionCost (hff : t.isHff = true) (reopen : Bool) (op : ℕ) (s : Fixpoint)
    (e : Expression) (cost : ℕ∞) : Offered (t.updateConditionCost reopen op s e cost) e op cost := by
  rcases updateConditionCost_cases hff reopen op s e cost with
    ⟨-, hcond, hby⟩ | ⟨heq, -, hcond, hby⟩ | ⟨hle, htie, hsame⟩
  · exact .inr ⟨by rw [hcond, Function.update_self], op, by rw [hby, Function.update_self], le_rfl⟩
  · exact .inr ⟨by rw [hcond, heq], op, by rw [hby, Function.update_self], le_rfl⟩
  · rw [hsame]
    rcases hle.lt_or_eq with hlt | heq
    · exact .inl hlt
    · exact .inr ⟨heq, htie heq.symm⟩

/-- What has been offered stays so. -/
theorem Offered.updateConditionCost (hff : t.isHff = true) {e' : Expression} {op' : ℕ} {cost' : ℕ∞}
    (h : Offered s e' op' cost') (reopen : Bool) (op : ℕ) (e : Expression) (cost : ℕ∞) :
    Offered (t.updateConditionCost reopen op s e cost) e' op' cost' := by
  rcases eq_or_ne e' e with rfl | hne
  · rcases updateConditionCost_cases hff reopen op s e' cost with
      ⟨hlt, hcond, -⟩ | ⟨-, hby', hcond, hby⟩ | ⟨-, -, hsame⟩
    · refine .inl ?_
      rw [hcond, Function.update_self]
      exact hlt.trans_le (h.elim le_of_lt fun h => h.1.le)
    · rcases h with hlt | ⟨heq, op'', hop'', hle⟩
      · exact .inl (by rwa [hcond])
      · refine .inr ⟨by rw [hcond, heq], op, by rw [hby, Function.update_self], ?_⟩
        exact hle.trans (hby' op'' hop'').le
    · rwa [hsame]
  · rcases updateConditionCost_cases hff reopen op s e cost with
      ⟨-, hcond, hby⟩ | ⟨-, -, hcond, hby⟩ | ⟨-, -, hsame⟩
    · rwa [Offered, hcond, hby, Function.update_of_ne hne, Function.update_of_ne hne]
    · rwa [Offered, hcond, hby, Function.update_of_ne hne]
    · rwa [hsame]

/-- The offers of a task where a condition is offered the cost of one precondition only. -/
theorem mem_offers (hmax : t.isHmax = false) {w : ℕ} : (w, op) ∈ t.offers e ↔
    ∃ o, t.operators[op]? = some o ∧ (e ∈ o.effects ∧ w = o.cost ∨
      t.initialCosts e ≠ 0 ∧ ∃ rep, (e, some rep) ∈ o.numericConds ∧ w = rep * o.cost) := by
  constructor
  · rintro ⟨op', o, ho, ⟨he, heq⟩ | ⟨hinit, rep, hrep, hw, hop⟩⟩
    · obtain ⟨rfl, rfl⟩ := Prod.mk.inj heq
      exact ⟨o, ho, .inl ⟨he, rfl⟩⟩
    · rw [hmax, if_neg Bool.false_ne_true] at hop
      obtain rfl : op = op' := hop
      exact ⟨o, ho, .inr ⟨hinit, rep, hrep, hw⟩⟩
  · rintro ⟨o, ho, ⟨he, rfl⟩ | ⟨hinit, rep, hrep, rfl⟩⟩
    · exact ⟨op, o, ho, .inl ⟨he, rfl⟩⟩
    · exact ⟨op, o, ho, .inr ⟨hinit, rep, hrep, rfl, by simp [hmax]⟩⟩

/-- An expansion is a series of offers: what each of them keeps the expansion keeps, and what
an offer establishes is established for all. -/
theorem expand_offers {P : Fixpoint → Prop} {Q : Expression → ℕ → Fixpoint → Prop} {o : RelaxedOperator}
    {reopen : Bool} (hmax : t.isHmax = false) (ho : t.operators[op]? = some o) (hs : P s)
    (hexpand : t.expand reopen op s = some s')
    (hzero : ∀ s e w, P s → s.condCost e = 0 → (w, op) ∈ t.offers e →
      t.initialCosts e ≠ 0 → Q e w s)
    (hinit : ∀ s e, P s → s.condCost e ≤ t.initialCosts e)
    (hstep : ∀ r e w, (w, op) ∈ t.offers e → P r →
      P (t.updateConditionCost reopen op r e (w + s.opCost op)) ∧
      Q e w (t.updateConditionCost reopen op r e (w + s.opCost op)) ∧
      ∀ e' w', Q e' w' r → Q e' w' (t.updateConditionCost reopen op r e (w + s.opCost op))) :
    P s' ∧ ∀ e w, (w, op) ∈ t.offers e → Q e w s' := by
  have heffects : ∀ es : List Expression, (∀ e ∈ es, e ∈ o.effects) → ∀ r, P r →
      let r' := es.foldl (fun r e => t.updateConditionCost reopen op r e (o.cost + s.opCost op)) r
      P r' ∧ (∀ e ∈ es, Q e o.cost r') ∧ ∀ e' w', Q e' w' r → Q e' w' r' := by
    intro es
    induction es with
    | nil => exact fun _ r hr => ⟨hr, by simp, fun _ _ => id⟩
    | cons e es ih =>
      intro hes r hr
      obtain ⟨hP, hQ, hkeep⟩ := hstep r e o.cost
        ((mem_offers hmax).mpr ⟨o, ho, .inl ⟨hes e List.mem_cons_self, rfl⟩⟩) hr
      obtain ⟨hP', hQ', hkeep'⟩ := ih (fun e' he' => hes e' (List.mem_cons_of_mem e he')) _ hP
      refine ⟨hP', fun e' he' => ?_, fun e' w' h => hkeep' e' w' (hkeep e' w' h)⟩
      rcases List.mem_cons.mp he' with rfl | he'
      · exact hkeep' e' o.cost hQ
      · exact hQ' e' he'
  have hnumeric : ∀ cs : List (Expression × Option ℕ), (∀ cond ∈ cs, cond ∈ o.numericConds) → ∀ r r',
      P r → cs.foldlM (t.offerNumeric reopen op o.cost (s.opCost op)) r = some r' →
      P r' ∧ (∀ e rep, (e, some rep) ∈ cs → t.initialCosts e ≠ 0 → Q e (rep * o.cost) r') ∧
        ∀ e' w', Q e' w' r → Q e' w' r' := by
    intro cs
    induction cs with
    | nil =>
      intro _ r r' hr hfold
      obtain rfl := Option.some.inj hfold
      exact ⟨hr, by simp, fun _ _ => id⟩
    | cons cond cs ih =>
      intro hcs r r' hr hfold
      rw [List.foldlM_cons] at hfold
      obtain ⟨r₁, hr₁, hfold⟩ := Option.bind_eq_some_iff.mp hfold
      have hmem := hcs cond List.mem_cons_self
      have hfirst : P r₁ ∧ (∀ rep, cond.2 = some rep → t.initialCosts cond.1 ≠ 0 →
          Q cond.1 (rep * o.cost) r₁) ∧ ∀ e' w', Q e' w' r → Q e' w' r₁ := by
        rw [offerNumeric] at hr₁
        by_cases hcond : r.condCost cond.1 = 0
        · rw [if_pos hcond] at hr₁
          obtain rfl := Option.some.inj hr₁
          refine ⟨hr, fun rep hrep hne => ?_, fun _ _ => id⟩
          exact hzero r cond.1 _ hr hcond ((mem_offers hmax).mpr
            ⟨o, ho, .inr ⟨hne, rep, hrep ▸ hmem, rfl⟩⟩) hne
        · rw [if_neg hcond, hmax] at hr₁
          obtain ⟨rep, hrep, rfl⟩ := Option.map_eq_some_iff.mp hr₁
          have hne : t.initialCosts cond.1 ≠ 0 := fun h =>
            hcond (le_zero_iff.mp (h ▸ hinit r cond.1 hr))
          obtain ⟨hP, hQ, hkeep⟩ := hstep r cond.1 (rep * o.cost) ((mem_offers hmax).mpr
            ⟨o, ho, .inr ⟨hne, rep, hrep ▸ hmem, rfl⟩⟩) hr
          exact ⟨hP, fun rep' hrep' _ => by rwa [Option.some.inj (hrep'.symm.trans hrep)], hkeep⟩
      obtain ⟨hP, hQ, hkeep⟩ := hfirst
      obtain ⟨hP', hQ', hkeep'⟩ := ih (fun c' hc' => hcs c' (List.mem_cons_of_mem cond hc')) r₁ r' hP hfold
      refine ⟨hP', fun e rep he hne => ?_, fun e' w' h => hkeep' e' w' (hkeep e' w' h)⟩
      rcases List.mem_cons.mp he with rfl | he
      · exact hkeep' _ _ (hQ rep rfl hne)
      · exact hQ' e rep he hne
  rw [expand, ho, Option.bind_eq_bind, Option.bind_some] at hexpand
  obtain ⟨hP, hQ, -⟩ := heffects o.effects (fun _ => id) s hs
  obtain ⟨hP', hQ', hkeep'⟩ := hnumeric o.numericConds (fun _ => id) _ s' hP hexpand
  refine ⟨hP', fun e w hw => ?_⟩
  obtain ⟨o', ho', hcase⟩ := (mem_offers hmax).mp hw
  obtain rfl := Option.some.inj (ho.symm.trans ho')
  rcases hcase with ⟨he, rfl⟩ | ⟨hne, rep, hrep, rfl⟩
  · exact hkeep' e _ (hQ e he)
  · exact hQ' e rep hrep hne

/-! ### Supporters -/

/-- What hff records: a supporter is a closed operator that offers the condition its cost,
and every closed operator has made its offers. -/
structure Recorded (t : RelaxedTask) (s : Fixpoint) : Prop where
  supported : ∀ e op, s.reachedBy e = some op →
    s.closed op = true ∧ ∃ w, (w, op) ∈ t.offers e ∧ s.condCost e = w + s.opCost op
  offered : ∀ op, s.closed op = true → ∀ e w, (w, op) ∈ t.offers e → Offered s e op (w + s.opCost op)

theorem not_isHmax (hff : t.isHff = true) : t.isHmax = false := by
  rw [isHff, decide_eq_true_eq] at hff
  simp [isHmax, hff]

theorem drainHeap_of_isHff (hff : t.isHff = true) : t.drainHeap = false := by
  rw [drainHeap, not_isHmax hff, Bool.false_and]

theorem Recorded.expand {o : RelaxedOperator} (hv : t.Valid) (hff : t.isHff = true)
    (hp : t.Progress (t.reopens reachability) s) (hr : t.Recorded s)
    (hperm : s.heap.Perm ((s.opCost op, op) :: rest)) (hopen : s.closed op = false)
    (hop : t.operators[op]? = some o)
    (hexpand : t.expand (t.reopens reachability) op (close s op rest) = some s') : t.Recorded s' := by
  have hmax := not_isHmax hff
  have hreopen : t.reopens reachability = false := reopens_eq_false (drainHeap_of_isHff hff)
  have hfin := (entry_ne_top hp.inv hperm).2
  let s₀ := close s op rest
  -- the offers made before, in terms of the costs that closed operators keep
  let P : Fixpoint → Prop := fun r => t.Inv (t.reopens reachability) r ∧ r.closed = s₀.closed ∧
    (∀ op', s₀.closed op' = true → r.opCost op' = s₀.opCost op') ∧
    (∀ e op', r.reachedBy e = some op' →
      s₀.closed op' = true ∧ ∃ w, (w, op') ∈ t.offers e ∧ r.condCost e = w + s₀.opCost op') ∧
    ∀ op', s.closed op' = true → ∀ e w, (w, op') ∈ t.offers e → Offered r e op' (w + s₀.opCost op')
  have hclosed : ∀ op', s.closed op' = true → s₀.closed op' = true := by
    intro op' hc
    rcases eq_or_ne op' op with rfl | hne
    · exact Function.update_self ..
    · exact (Function.update_of_ne hne ..).trans hc
  have hstart : P s₀ := by
    refine ⟨hp.inv.close hperm hopen, rfl, fun _ _ => rfl, fun e op' hby => ?_, hr.offered⟩
    obtain ⟨hc, hw⟩ := hr.supported e op' hby
    exact ⟨hclosed op' hc, hw⟩
  obtain ⟨⟨-, hsame, hcost, hsup, hoff⟩, hmade⟩ := expand_offers (P := P)
    (Q := fun e w r => Offered r e op (w + s₀.opCost op)) hmax hop hstart hexpand
    (fun r e w hP h0 hw hinit => .inl (by
      rw [h0]
      exact (show (0 : ℕ∞) < w by exact_mod_cast system_positive hv e _ hw).trans_le le_self_add))
    (fun r e hP => hP.1.le_initial e)
    (by
      intro r e w hw ⟨hi, hcl, hco, hsu, hof⟩
      obtain ⟨hspec, -, -⟩ := updateConditionCost_spec op e (c := s₀.opCost op) (w + s₀.opCost op)
        hv hi ((show (0 : ℕ∞) < w by exact_mod_cast system_positive hv e _ hw).trans_le le_self_add)
        (fun L hL hle _ => (hL.offer e _ hw).trans (by gcongr))
        (fun _ _ _ => ENat.lt_add_left hfin (by exact_mod_cast system_positive hv e _ hw))
      have hcl' := (hspec.beyond hreopen hfin fun h => absurd (hmax.symm.trans h) Bool.noConfusion).closed
      refine ⟨⟨hspec.inv, hcl'.trans hcl, fun op' hc => ?_, fun e' op' hby => ?_, fun op' hc e' w' hw' =>
        (hof op' hc e' w' hw').updateConditionCost hff _ op e _⟩, offered_updateConditionCost hff _ op r e _,
        fun e' w' h => h.updateConditionCost hff _ op e _⟩
      · rw [(hspec.extend.closed op' (by rw [hcl', hcl]; exact hc)).2, hco op' hc]
      · have hnew : ∀ r' : Fixpoint, r'.reachedBy = Function.update r.reachedBy e (some op) →
            r'.condCost e = w + s₀.opCost op → (∀ e' ≠ e, r'.condCost e' = r.condCost e') →
            r'.reachedBy e' = some op' →
            s₀.closed op' = true ∧ ∃ w, (w, op') ∈ t.offers e' ∧ r'.condCost e' = w + s₀.opCost op' := by
          intro r' hby hcond hrest hr'
          rw [hby] at hr'
          rcases eq_or_ne e' e with rfl | hne
          · rw [Function.update_self, Option.some.injEq] at hr'
            subst hr'
            exact ⟨Function.update_self .., w, hw, hcond⟩
          · rw [Function.update_of_ne hne] at hr'
            rw [hrest e' hne]
            exact hsu e' op' hr'
        rcases updateConditionCost_cases hff (t.reopens reachability) op r e (w + s₀.opCost op) with
          ⟨-, hcond, hby'⟩ | ⟨heq, -, hcond, hby'⟩ | ⟨-, -, hsame⟩
        · refine hnew _ hby' (by rw [hcond, Function.update_self]) (fun e'' hne => ?_) hby
          rw [hcond, Function.update_of_ne hne]
        · exact hnew _ hby' (by rw [hcond, heq]) (fun e'' _ => by rw [hcond]) hby
        · rw [hsame] at hby ⊢
          exact hsu e' op' hby)
  refine ⟨fun e op' hby => ?_, fun op' hc e w hw => ?_⟩
  · obtain ⟨hc, w, hw, heq⟩ := hsup e op' hby
    refine ⟨by rw [hsame]; exact hc, w, hw, ?_⟩
    rw [heq, hcost op' hc]
  · rw [hsame] at hc
    rw [hcost op' hc]
    rcases eq_or_ne op' op with rfl | hne
    · exact hmade e w hw
    · exact hoff op' ((Function.update_of_ne hne ..).symm.trans hc) e w hw

/-- The supporters keep their meaning as long as the loop runs. -/
theorem Recorded.turn (hv : t.Valid) (hff : t.isHff = true)
    (hp : t.Progress (t.reopens reachability) s) (hr : t.Recorded s)
    (hturn : t.turn queue reachability s = .inr s') : t.Recorded s' := by
  have hcases := turn_spec queue hv hp.inv
  rw [hturn] at hcases
  cases hcases with
  | stale _ _ => exact ⟨hr.supported, hr.offered⟩
  | pastGoal hperm _ hopen _ =>
    refine ⟨fun e op hby => ?_, fun op hc e w hw => ?_⟩
    · obtain ⟨hc, hw⟩ := hr.supported e op hby
      refine ⟨?_, hw⟩
      rcases eq_or_ne op t.goalOp with rfl | hne
      · exact Function.update_self ..
      · exact (Function.update_of_ne hne ..).trans hc
    · have hne : op ≠ t.goalOp := by
        rintro rfl
        obtain ⟨o, ho, -⟩ := (mem_offers (not_isHmax hff)).mp hw
        simp [goalOp] at ho
      exact hr.offered op ((Function.update_of_ne hne ..).symm.trans hc) e w hw
  | expand hperm _ hopen hop hexpand => exact hr.expand hv hff hp hperm hopen hop hexpand

theorem recorded_start : t.Recorded t.start :=
  ⟨fun _ _ h => (by cases h), fun _ h => (by cases h)⟩

/-- The operators that offer a condition what it costs. -/
def supporters (t : RelaxedTask) (L : Costs) (e : Expression) : Set ℕ :=
  {op | ∃ w, (w, op) ∈ t.offers e ∧ L e = w + t.preconditionCost op L}

/-- What the loop has settled when it ends: the costs up to the goal's, and for hff the
supporters of the conditions that cost no more. -/
structure Settled (t : RelaxedTask) (L : Costs) (s : Fixpoint) : Prop where
  agree : AgreeUpTo (t.preconditionCost t.goalOp L) L s.condCost
  supporter : t.isHff = true → ∀ e op, L e ≤ t.preconditionCost t.goalOp L → L e ≠ ⊤ →
    (s.reachedBy e = some op ↔ IsGreatest (t.supporters L e) op)

/-- Every operator cheaper than `h` is closed: a supporter below `h` is the largest one. -/
theorem Recorded.isGreatest {h : ℕ∞} {L : Costs} (hv : t.Valid) (hff : t.isHff = true)
    (hr : t.Recorded s) (ho : t.Ordered s) (hagree : AgreeUpTo h L s.condCost)
    (hclosed : ∀ op < t.goalOp, s.opCost op < h → s.closed op = true) {e : Expression} (hle : L e ≤ h)
    (hfin : L e ≠ ⊤) (op : ℕ) : s.reachedBy e = some op ↔ IsGreatest (t.supporters L e) op := by
  have heq : s.condCost e = L e := (hagree e).1 hle
  have hlt : ∀ {op w}, (w, op) ∈ t.offers e → op < t.goalOp ∧ (0 : ℕ∞) < w := by
    intro op w hw
    obtain ⟨o, hop, -⟩ := (mem_offers (not_isHmax hff)).mp hw
    exact ⟨(List.getElem?_eq_some_iff.mp hop).1, by exact_mod_cast system_positive hv e _ hw⟩
  -- what a supporter's precondition costs is settled
  have hcost : ∀ {op w}, (w, op) ∈ t.offers e →
      (L e = w + s.opCost op ∨ L e = w + t.preconditionCost op L) →
      s.opCost op = t.preconditionCost op L ∧ s.opCost op < h := by
    intro op w hw hcase
    obtain ⟨hop, hpos⟩ := hlt hw
    have hbelow : ∀ x : ℕ∞, L e = w + x → x < L e := by
      intro x hx
      have hx' : x ≠ ⊤ := fun htop => hfin (by rw [hx, htop, add_top])
      rw [hx]
      exact ENat.lt_add_left hx' hpos
    have hsame := ho.opCost op hop.le
    rcases hcase with hcase | hcase
    · have hx := (hbelow _ hcase).trans_le hle
      refine ⟨?_, hx⟩
      rw [hsame, (hv.isLocal op).eq_of_agree hagree.symm (hsame ▸ hx.le)]
    · have hx := (hbelow _ hcase).trans_le hle
      have hsettled := (hv.isLocal op).eq_of_agree hagree hx.le
      exact ⟨hsame.trans hsettled, by rwa [hsame, hsettled]⟩
  have hmem : ∀ op, s.reachedBy e = some op → op ∈ t.supporters L e := by
    intro op hby
    obtain ⟨-, w, hw, hsup⟩ := hr.supported e op hby
    refine ⟨w, hw, ?_⟩
    rw [← (hcost hw (.inl (heq ▸ hsup))).1, ← hsup, heq]
  have hmade : ∀ op ∈ t.supporters L e, ∃ op', s.reachedBy e = some op' ∧ op ≤ op' := by
    rintro op ⟨w, hw, hsup⟩
    obtain ⟨hsame, hbelow⟩ := hcost hw (.inr hsup)
    rcases hr.offered op (hclosed op (hlt hw).1 hbelow) e w hw with hcheaper | ⟨-, hby⟩
    · rw [heq, hsame, hsup] at hcheaper
      exact absurd hcheaper (lt_irrefl _)
    · exact hby
  constructor
  · intro hby
    refine ⟨hmem op hby, fun op' hop' => ?_⟩
    obtain ⟨op'', hby', hle'⟩ := hmade op' hop'
    obtain rfl := Option.some.inj (hby.symm.trans hby')
    exact hle'
  · rintro ⟨hop, hgreatest⟩
    obtain ⟨op', hby, hle'⟩ := hmade op hop
    obtain rfl := le_antisymm hle' (hgreatest (hmem op' hby))
    exact hby

theorem settled_spec (hv : t.Valid) (hdrain : t.drainHeap = false) (hp : t.Progress (t.reopens false) s)
    (ho : t.Ordered s) (hr : t.isHff = true → t.Recorded s)
    (h : t.turn queue false s = .inl (some s')) : t.Settled (system hv).least s' := by
  have hcases := turn_spec queue hv hp.inv
  rw [h] at hcases
  -- an open operator is in the heap, so none is cheaper than what is popped last
  have hend : ∀ c : ℕ∞, (∀ op < t.goalOp, s.opCost op < c → s.closed op = true) →
      t.preconditionCost t.goalOp (system hv).least ≤ c →
      AgreeUpTo (t.preconditionCost t.goalOp (system hv).least) (system hv).least s.condCost ∧
        (t.isHff = true → ∀ e op, (system hv).least e ≤ t.preconditionCost t.goalOp (system hv).least →
          (system hv).least e ≠ ⊤ →
          (s.reachedBy e = some op ↔ IsGreatest (t.supporters (system hv).least e) op)) := by
    intro c hclosed hle
    have hagree := (agree_least hv hdrain hp ho hclosed).symm
    refine ⟨fun l => ⟨fun hl => (hagree l).1 (hl.trans hle), fun hl => (hagree l).2 (hl.trans hle)⟩, ?_⟩
    exact fun hff e op he hfin => (hr hff).isGreatest hv hff ho hagree hclosed (he.trans hle) hfin op
  have hopen : ∀ op ≤ t.goalOp, s.closed op = false → s.opCost op ≠ ⊤ → (s.opCost op, op) ∈ s.heap :=
    hp.inv.queued.mem_heap
  cases hcases with
  | done hnil =>
    obtain ⟨hagree, hsup⟩ := hend ⊤ (fun op hop hlt => by
      by_contra hc
      have := hopen op hop.le (by simpa using hc) hlt.ne
      rw [hnil] at this
      cases this) le_top
    exact ⟨hagree, hsup⟩
  | goal hperm hleast hopen' hdrains =>
    have hclosed : ∀ op < t.goalOp, s.opCost op < s.opCost t.goalOp → s.closed op = true := by
      intro op hop hlt
      by_contra hc
      have := hopen op hop.le (by simpa using hc) hlt.ne_top
      rcases List.mem_cons.mp (hperm.mem_iff.mp this) with heq | hmem
      · exact hop.ne (Prod.mk.inj heq).2
      · exact hlt.not_ge (hleast _ hmem)
    have hge : t.preconditionCost t.goalOp (system hv).least ≤ s.opCost t.goalOp := by
      rw [ho.opCost t.goalOp le_rfl]
      exact (hv.isLocal t.goalOp).mono (hp.sound _ (lowerBound_least hv)).condCost
    obtain ⟨hagree, hsup⟩ := hend _ hclosed hge
    exact ⟨hagree, hsup⟩

/-- The loop without a drain ends in a state where what the goal needs is settled. -/
theorem run_settled (hv : t.Valid) (hdrain : t.drainHeap = false) (queue : PriorityQueue costLt) :
    ∃ n s, t.run queue false n = .inl (some s) ∧ t.Answer (system hv).least s ∧
      t.Settled (system hv).least s := by
  have hstep : ∀ s s', (t.Progress (t.reopens false) s ∧ t.Ordered s) ∧ (t.isHff = true → t.Recorded s) →
      t.turn queue false s = .inr s' →
      ((t.Progress (t.reopens false) s' ∧ t.Ordered s') ∧ (t.isHff = true → t.Recorded s')) ∧
        t.measure s' < t.measure s := fun s s' h hturn =>
    ⟨⟨Ordered.turn hv hdrain h.1 hturn, fun hff => (h.2 hff).turn hv hff h.1.1 hturn⟩,
      (h.1.1.turn hv hturn).2⟩
  obtain ⟨n, r, s, hn, ⟨⟨hp, ho⟩, hrec⟩, hr⟩ := Exploration.exists_answer hstep
    ⟨⟨progress_start, ordered_start⟩, fun _ => recorded_start⟩
  have hturn := turn_spec queue hv hp.inv
  rw [hr] at hturn
  obtain ⟨s', rfl⟩ : ∃ s', r = some s' := by cases hturn <;> exact ⟨_, rfl⟩
  exact ⟨n, s', hn, answer_spec hv hp (fun _ => ho) hr, settled_spec hv hdrain hp ho hrec hr⟩

/-! ### The draining loop -/

/-- Two states of the loop whose heaps hold the same entries. -/
def SameHeap (s s' : Fixpoint) : Prop := ∃ heap, s.heap.Perm heap ∧ s' = { s with heap := heap }

theorem SameHeap.updateReader (h : SameHeap s s') (reopen firstReach : Bool) (r : ℕ) :
    SameHeap (t.updateReader reopen firstReach s r) (t.updateReader reopen firstReach s' r) := by
  obtain ⟨heap, hperm, rfl⟩ := h
  rw [RelaxedTask.updateReader, RelaxedTask.updateReader]
  dsimp only [leftUnreached]
  split_ifs
  all_goals first
    | exact ⟨heap, hperm, rfl⟩
    | exact ⟨_, hperm.cons _, rfl⟩

theorem SameHeap.updateConditionCost (h : SameHeap s s') (reopen : Bool) (op : ℕ) (e : Expression)
    (cost : ℕ∞) :
    SameHeap (t.updateConditionCost reopen op s e cost) (t.updateConditionCost reopen op s' e cost) := by
  have hfold : ∀ (rs : List ℕ) {s s' : Fixpoint} (b : Bool), SameHeap s s' →
      SameHeap (rs.foldl (t.updateReader reopen b) s) (rs.foldl (t.updateReader reopen b) s') := by
    intro rs
    induction rs with
    | nil => exact fun _ h => h
    | cons r rs ih => exact fun b h => ih b (h.updateReader reopen b r)
  obtain ⟨heap, hperm, rfl⟩ := h
  rw [RelaxedTask.updateConditionCost, RelaxedTask.updateConditionCost]
  dsimp only
  by_cases hlt : cost < s.condCost e
  · rw [if_pos hlt, if_pos hlt]
    exact hfold _ _ ⟨heap, hperm, rfl⟩
  · rw [if_neg hlt, if_neg hlt]
    split_ifs <;> exact ⟨heap, hperm, rfl⟩

theorem SameHeap.offerNumeric (h : SameHeap s s') (reopen : Bool) (op operatorCost : ℕ) (c : ℕ∞)
    (cond : Expression × Option ℕ) :
    Option.Rel SameHeap (t.offerNumeric reopen op operatorCost c s cond)
      (t.offerNumeric reopen op operatorCost c s' cond) := by
  obtain ⟨heap, hperm, rfl⟩ := h
  rw [RelaxedTask.offerNumeric, RelaxedTask.offerNumeric]
  dsimp only
  by_cases hzero : s.condCost cond.1 = 0
  · rw [if_pos hzero, if_pos hzero]
    exact .some ⟨heap, hperm, rfl⟩
  · rw [if_neg hzero, if_neg hzero]
    cases cond.2 with
    | none => exact .none
    | some rep =>
      refine .some ?_
      dsimp only
      split_ifs
      all_goals
        refine SameHeap.updateConditionCost ?_ reopen op _ _
        exact ⟨heap, hperm, rfl⟩

theorem SameHeap.expand (h : SameHeap s s') (reopen : Bool) (op : ℕ) :
    Option.Rel SameHeap (t.expand reopen op s) (t.expand reopen op s') := by
  have heffects : ∀ (es : List Expression) (cost : ℕ∞) {s s' : Fixpoint}, SameHeap s s' →
      SameHeap (es.foldl (fun r e => t.updateConditionCost reopen op r e cost) s)
        (es.foldl (fun r e => t.updateConditionCost reopen op r e cost) s') := by
    intro es cost
    induction es with
    | nil => exact fun h => h
    | cons e es ih => exact fun h => ih (h.updateConditionCost reopen op e cost)
  have hnumeric : ∀ (cs : List (Expression × Option ℕ)) (w : ℕ) (c : ℕ∞) {s s' : Fixpoint}, SameHeap s s' →
      Option.Rel SameHeap (cs.foldlM (t.offerNumeric reopen op w c) s)
        (cs.foldlM (t.offerNumeric reopen op w c) s') := by
    intro cs w c
    induction cs with
    | nil => exact fun h => .some h
    | cons cond cs ih =>
      intro s s' h
      rw [List.foldlM_cons, List.foldlM_cons]
      have hfirst : Option.Rel SameHeap (t.offerNumeric reopen op w c s cond)
          (t.offerNumeric reopen op w c s' cond) := h.offerNumeric reopen op w c cond
      generalize t.offerNumeric reopen op w c s cond = u at hfirst
      generalize t.offerNumeric reopen op w c s' cond = u' at hfirst
      cases hfirst with
      | none => exact .none
      | some h => exact ih h
  have hcost : s'.opCost = s.opCost := by
    obtain ⟨heap, -, rfl⟩ := h
    rfl
  rw [RelaxedTask.expand, RelaxedTask.expand, hcost]
  cases t.operators[op]? with
  | none => exact .none
  | some o => exact hnumeric _ _ _ (heffects _ _ h)

theorem heapLt_antisymm {p q : ℕ∞ × ℕ} (hpq : heapLt p q = false) (hqp : heapLt q p = false) : p = q := by
  rw [heapLt, decide_eq_false_iff_not] at hpq hqp
  have hfst : p.1 = q.1 := le_antisymm (not_lt.mp fun h => hqp (.inl h)) (not_lt.mp fun h => hpq (.inl h))
  refine Prod.ext hfst (le_antisymm (not_lt.mp fun h => hqp (.inr ⟨hfst.symm, h⟩))
    (not_lt.mp fun h => hpq (.inr ⟨hfst, h⟩)))

/-- Binary heaps that hold the same entries pop the same one. -/
theorem pop_heapLt (q q' : PriorityQueue heapLt) {heap heap' : List (ℕ∞ × ℕ)} (hperm : heap.Perm heap') :
    Option.Rel (fun x y => x.1 = y.1 ∧ x.2.Perm y.2) (q.pop heap) (q'.pop heap') := by
  cases hpop : q.pop heap with
  | none =>
    have hnil := q.pop_eq_none.mp hpop
    subst hnil
    have hnil' := List.nil_perm.mp hperm
    rw [q'.pop_eq_none.mpr hnil']
    exact .none
  | some x =>
    cases hpop' : q'.pop heap' with
    | none =>
      have hnil := q'.pop_eq_none.mp hpop'
      subst hnil
      rw [q.pop_eq_none.mpr (List.perm_nil.mp hperm)] at hpop
      cases hpop
    | some y =>
      have hx := q.pop_perm hpop
      have hy := q'.pop_perm hpop'
      have hxy : x.1 = y.1 := by
        have hmem : x.1 = y.1 ∨ x.1 ∈ y.2 :=
          List.mem_cons.mp (hy.mem_iff.mp (hperm.mem_iff.mp (hx.mem_iff.mpr List.mem_cons_self)))
        have hmem' : y.1 = x.1 ∨ y.1 ∈ x.2 :=
          List.mem_cons.mp (hx.mem_iff.mp (hperm.mem_iff.mpr (hy.mem_iff.mpr List.mem_cons_self)))
        rcases hmem with heq | hmem
        · exact heq
        · rcases hmem' with heq | hmem'
          · exact heq.symm
          · exact (heapLt_antisymm (q.pop_least hpop _ hmem') (q'.pop_least hpop' _ hmem)).symm
      refine .some ⟨hxy, ?_⟩
      have := (hx.symm.trans hperm).trans hy
      rw [hxy] at this
      exact (List.perm_cons _).mp this

theorem SameHeap.turn (q q' : PriorityQueue heapLt) (h : SameHeap s s') :
    Sum.LiftRel (Option.Rel SameHeap) SameHeap (t.turn q.byCost reachability s)
      (t.turn q'.byCost reachability s') := by
  obtain ⟨heap, hperm, rfl⟩ := h
  have hpop := pop_heapLt q q' hperm
  rw [RelaxedTask.turn, RelaxedTask.turn]
  dsimp only [PriorityQueue.byCost]
  generalize q.pop s.heap = x at hpop
  generalize q'.pop heap = y at hpop
  cases hpop with
  | none => exact .inl (.some ⟨heap, hperm, rfl⟩)
  | @some x y hxy =>
    obtain ⟨⟨c, op⟩, rest⟩ := x
    obtain ⟨⟨c', op'⟩, rest'⟩ := y
    obtain ⟨heq, hrest⟩ := hxy
    obtain ⟨rfl, rfl⟩ := Prod.mk.inj heq
    dsimp only
    split_ifs
    · exact .inr ⟨rest', hrest, rfl⟩
    · exact .inr ⟨rest', hrest, rfl⟩
    · exact .inl (.some ⟨rest', hrest, rfl⟩)
    · have hclosed : SameHeap { s with heap := rest, closed := Function.update s.closed op true }
          { s with heap := rest', closed := Function.update s.closed op true } := ⟨rest', hrest, rfl⟩
      have hexpand : Option.Rel SameHeap
          (t.expand (t.drainHeap && !reachability) op { s with
            heap := rest, closed := Function.update s.closed op true })
          (t.expand (t.drainHeap && !reachability) op { s with
            heap := rest', closed := Function.update s.closed op true }) := hclosed.expand _ op
      generalize t.expand (t.drainHeap && !reachability) op { s with
        heap := rest, closed := Function.update s.closed op true } = u at hexpand
      generalize t.expand (t.drainHeap && !reachability) op { s with
        heap := rest', closed := Function.update s.closed op true } = u' at hexpand
      cases hexpand with
      | none => exact .inl .none
      | some h => exact .inr h

/-- Two binary heaps take the loop through the same costs. -/
theorem run_heapLt (q q' : PriorityQueue heapLt) (n : ℕ) :
    Sum.LiftRel (Option.Rel SameHeap) SameHeap (t.run q.byCost reachability n)
      (t.run q'.byCost reachability n) :=
  iterate_liftRel (fun h => h.turn q q') (.inr ⟨_, .rfl, rfl⟩)

end RelaxedTask

end TamerLite
