import TamerLite.RelaxedSupport
import TamerLite.Worklist

/-! The relaxed plan that hff extracts from the supporters. It ends, it does not
depend on the order in which equal costs are popped, and its actions reach the goal. -/

namespace TamerLite

open CostEquations Exploration

/-- A step of `_supporting_conditions`: the cost of an operand, with the leaves it rests on. -/
def supportStep (costs : Costs) (stack : List (ℕ∞ × List Expression)) :
    HeuristicNode → List (ℕ∞ × List Expression)
  | .leaf e => (costs e, [e]) :: stack
  | .and n => (stack.take n).foldl (fun r x => (r.1 + x.1, r.2 ++ x.2)) (0, []) :: stack.drop n
  | .or n => (stack.take n).foldl (fun r x => if x.1 < r.1 then x else r) (⊤, []) :: stack.drop n

/-- `_supporting_conditions`: every operand of a conjunction, and the first cheapest one of
a disjunction. It is `none` where the assertion fails. -/
def supportingConditions (expr : HeuristicExpression) (costs : Costs) : Option (List Expression) :=
  match expr.foldl (supportStep costs) [] with
  | [x] => some x.2
  | _ => none

namespace Formula

section Support

variable (costs : Costs)

mutual

def support : Formula → ℕ∞ × List Expression
  | leaf e => (costs e, [e])
  | and fs => (supportAll fs).reverse.foldl (fun r x => (r.1 + x.1, r.2 ++ x.2)) (0, [])
  | or fs => (supportAll fs).reverse.foldl (fun r x => if x.1 < r.1 then x else r) (⊤, [])

def supportAll : List Formula → List (ℕ∞ × List Expression)
  | [] => []
  | f :: fs => support f :: supportAll fs

end

theorem supportAll_eq_map (fs : List Formula) : supportAll costs fs = fs.map (support costs) := by
  induction fs with
  | nil => rfl
  | cons f fs ih => rw [supportAll, ih, List.map_cons]

theorem foldl_support (f : Formula) : ∀ stack,
    f.nodes.foldl (supportStep costs) stack = f.support costs :: stack := by
  induction f using Formula.rec (motive_2 := fun fs => ∀ stack,
    (nodesAll fs).foldl (supportStep costs) stack = (supportAll costs fs).reverse ++ stack) with
  | leaf e => exact fun stack => rfl
  | and fs ih =>
    intro stack
    have hlen : fs.length = (supportAll costs fs).reverse.length := by simp [supportAll_eq_map]
    rw [nodes, List.foldl_append, ih, hlen]
    simp [supportStep, support]
  | or fs ih =>
    intro stack
    have hlen : fs.length = (supportAll costs fs).reverse.length := by simp [supportAll_eq_map]
    rw [nodes, List.foldl_append, ih, hlen]
    simp [supportStep, support]
  | nil stack => rfl
  | cons f fs ih ihs stack =>
    rw [nodesAll, List.foldl_append, ih, ihs, supportAll, List.reverse_cons, List.append_assoc,
      List.singleton_append]

theorem supportingConditions_nodes (f : Formula) :
    supportingConditions f.nodes costs = some (f.support costs).2 := by
  rw [supportingConditions, foldl_support]

end Support

variable {costs : Costs}

/-- A conjunction rests on what its operands rest on. -/
theorem foldl_andSupport (xs : List (ℕ∞ × List Expression)) :
    xs.foldl (fun r x => (r.1 + x.1, r.2 ++ x.2)) ((0, []) : ℕ∞ × List Expression) =
      (andCost false (xs.map Prod.fst), (xs.map Prod.snd).flatten) := by
  have hacc : ∀ (xs : List (ℕ∞ × List Expression)) (r : ℕ∞ × List Expression),
      xs.foldl (fun r x => (r.1 + x.1, r.2 ++ x.2)) r =
        (r.1 + andCost false (xs.map Prod.fst), r.2 ++ (xs.map Prod.snd).flatten) := by
    intro xs
    induction xs with
    | nil => simp
    | cons x xs ih =>
      intro r
      rw [List.foldl_cons, ih, List.map_cons, andCost_cons]
      simp [add_assoc]
  rw [hacc]
  simp

/-- A disjunction rests on an operand that is as cheap. -/
theorem foldl_orSupport (xs : List (ℕ∞ × List Expression)) :
    (xs.foldl (fun r x => if x.1 < r.1 then x else r) ((⊤, []) : ℕ∞ × List Expression)).1 =
        orCost (xs.map Prod.fst) ∧
      (xs.foldl (fun r x => if x.1 < r.1 then x else r) ((⊤, []) : ℕ∞ × List Expression) = (⊤, []) ∨
        xs.foldl (fun r x => if x.1 < r.1 then x else r) ((⊤, []) : ℕ∞ × List Expression) ∈ xs) := by
  have hacc : ∀ (xs : List (ℕ∞ × List Expression)) (r : ℕ∞ × List Expression),
      (xs.foldl (fun r x => if x.1 < r.1 then x else r) r).1 = min r.1 (orCost (xs.map Prod.fst)) ∧
        (xs.foldl (fun r x => if x.1 < r.1 then x else r) r = r ∨
          xs.foldl (fun r x => if x.1 < r.1 then x else r) r ∈ xs) := by
    intro xs
    induction xs with
    | nil => simp
    | cons x xs ih =>
      intro r
      obtain ⟨hcost, hmem⟩ := ih (if x.1 < r.1 then x else r)
      rw [List.foldl_cons, List.map_cons, orCost_cons]
      constructor
      · rw [hcost, ← min_assoc]
        congr 1
        split_ifs with hlt
        · exact (min_eq_right hlt.le).symm
        · exact (min_eq_left (not_lt.mp hlt)).symm
      · rcases hmem with hmem | hmem
        · rw [hmem]
          split_ifs
          · exact .inr List.mem_cons_self
          · exact .inl rfl
        · exact .inr (List.mem_cons_of_mem x hmem)
  obtain ⟨hcost, hmem⟩ := hacc xs (⊤, [])
  exact ⟨hcost.trans (min_eq_right le_top), hmem⟩

theorem support_fst (f : Formula) : (f.support costs).1 = f.cost false costs := by
  induction f using Formula.rec (motive_2 := fun fs =>
    (supportAll costs fs).map Prod.fst = costAll false costs fs) with
  | leaf e => rfl
  | and fs ih => rw [support, foldl_andSupport, cost, List.map_reverse, ih]
  | or fs ih => rw [support, (foldl_orSupport _).1, cost, List.map_reverse, ih]
  | nil => rfl
  | cons f fs ih ihs => rw [supportAll, costAll, List.map_cons, ih, ihs]

/-- A formula rests on leaves of its own that cost no more. -/
theorem mem_support {e : Expression} (f : Formula) :
    e ∈ (f.support costs).2 → e ∈ f.leaves ∧ costs e ≤ f.cost false costs := by
  induction f using Formula.rec (motive_2 := fun fs => ∀ f ∈ fs, e ∈ (f.support costs).2 →
    e ∈ f.leaves ∧ costs e ≤ f.cost false costs) with
  | leaf e' =>
    intro he
    obtain rfl := List.mem_singleton.mp he
    exact ⟨by simp [leaves], le_rfl⟩
  | and fs ih =>
    intro he
    rw [support, foldl_andSupport] at he
    obtain ⟨l, hl, he⟩ := List.mem_flatten.mp he
    obtain ⟨x, hx, rfl⟩ := List.mem_map.mp hl
    rw [List.mem_reverse, supportAll_eq_map] at hx
    obtain ⟨f, hf, rfl⟩ := List.mem_map.mp hx
    obtain ⟨hleaf, hle⟩ := ih f hf he
    refine ⟨mem_leavesAll.mpr ⟨f, hf, hleaf⟩, hle.trans (le_andCost (List.mem_reverse.mpr ?_))⟩
    rw [costAll_eq_map]
    exact List.mem_map_of_mem hf
  | or fs ih =>
    intro he
    have hcost : ((or fs).support costs).1 = (or fs).cost false costs := support_fst (or fs)
    rw [support] at he hcost
    rcases (foldl_orSupport (supportAll costs fs).reverse).2 with hnil | hmem
    · rw [hnil] at he
      cases he
    · rw [List.mem_reverse, supportAll_eq_map, List.mem_map] at hmem
      obtain ⟨f, hf, heq⟩ := hmem
      rw [← supportAll_eq_map] at heq
      rw [← heq] at he hcost
      obtain ⟨hleaf, hle⟩ := ih f hf he
      refine ⟨mem_leavesAll.mpr ⟨f, hf, hleaf⟩, ?_⟩
      rwa [← hcost, support_fst]
  | nil f hf _ => cases hf
  | cons f fs ih ihs f' hf' he =>
    rcases List.mem_cons.mp hf' with rfl | hf'
    · exact ih he
    · exact ihs f' hf' he

/-- A reached formula is true where the leaves it rests on are. -/
theorem truth_of_support {leaf : Expression → Bool} (f : Formula) : f.cost false costs ≠ ⊤ →
    (∀ e ∈ (f.support costs).2, leaf e = true) → f.truth leaf = true := by
  induction f using Formula.rec (motive_2 := fun fs => ∀ f ∈ fs, f.cost false costs ≠ ⊤ →
    (∀ e ∈ (f.support costs).2, leaf e = true) → f.truth leaf = true) with
  | leaf e => exact fun _ h => h e (List.mem_singleton_self e)
  | and fs ih =>
    intro hfin h
    rw [support, foldl_andSupport] at h
    rw [truth, truthAll_eq_map, List.all_map, List.all_eq_true]
    intro f hf
    have hmem : f.support costs ∈ (supportAll costs fs).reverse := by
      rw [List.mem_reverse, supportAll_eq_map]
      exact List.mem_map_of_mem hf
    refine ih f hf (ne_top_of_le_ne_top hfin (le_andCost (List.mem_reverse.mpr ?_))) fun e he =>
      h e (List.mem_flatten.mpr ⟨_, List.mem_map_of_mem hmem, he⟩)
    rw [costAll_eq_map]
    exact List.mem_map_of_mem hf
  | or fs ih =>
    intro hfin h
    rw [← support_fst] at hfin
    rw [support] at h hfin
    rcases (foldl_orSupport (supportAll costs fs).reverse).2 with hnil | hmem
    · rw [hnil] at hfin
      exact absurd rfl hfin
    · rw [List.mem_reverse, supportAll_eq_map, List.mem_map] at hmem
      obtain ⟨f, hf, heq⟩ := hmem
      rw [← supportAll_eq_map] at heq
      rw [← heq] at h hfin
      rw [support_fst] at hfin
      rw [truth, truthAll_eq_map, List.any_map, List.any_eq_true]
      exact ⟨f, hf, ih f hf hfin h⟩
  | nil f hf _ _ => cases hf
  | cons f fs ih ihs f' hf' hfin h =>
    rcases List.mem_cons.mp hf' with rfl | hf'
    · exact ih hfin h
    · exact ihs f' hf' hfin h

/-- What a formula rests on depends only on the leaves that cost no more. -/
theorem support_congr {h : ℕ∞} (f : Formula) : ∀ {x y : Costs}, AgreeUpTo h x y → f.cost false x ≤ h →
    f.support y = f.support x := by
  induction f using Formula.rec (motive_2 := fun fs => ∀ f ∈ fs, ∀ {x y : Costs}, AgreeUpTo h x y →
    f.cost false x ≤ h → f.support y = f.support x) with
  | leaf e =>
    intro x y hagree hle
    rw [support, support, (hagree e).1 hle]
  | and fs ih =>
    intro x y hagree hle
    have hsame : supportAll y fs = supportAll x fs := by
      rw [supportAll_eq_map, supportAll_eq_map]
      refine List.map_congr_left fun f hf => ih f hf hagree (le_trans ?_ hle)
      refine le_andCost (List.mem_reverse.mpr ?_)
      rw [costAll_eq_map]
      exact List.mem_map_of_mem hf
    rw [support, support, hsame]
  | or fs ih =>
    intro x y hagree hle
    -- both folds hold the same operand, or one above `h` each
    have hstep : ∀ a b r r' : ℕ∞ × List Expression, (b = a ∨ h < a.1 ∧ h < b.1) →
        (r' = r ∨ h < r.1 ∧ h < r'.1) →
        (if b.1 < r'.1 then b else r') = (if a.1 < r.1 then a else r) ∨
          h < (if a.1 < r.1 then a else r).1 ∧ h < (if b.1 < r'.1 then b else r').1 := by
      intro a b r r' hab hr
      rcases le_or_gt a.1 h with ha | ha
      · obtain rfl := hab.resolve_right fun hab => ha.not_gt hab.1
        rcases hr with rfl | ⟨hr, hr'⟩
        · exact .inl rfl
        · rw [if_pos (ha.trans_lt hr), if_pos (ha.trans_lt hr')]
          exact .inl rfl
      · have hb : h < b.1 := hab.elim (fun heq => heq ▸ ha) And.right
        rcases le_or_gt r.1 h with hr' | hr'
        · obtain rfl := hr.resolve_right fun hr => hr'.not_gt hr.1
          rw [if_neg (hr'.trans ha.le).not_gt, if_neg (hr'.trans hb.le).not_gt]
          exact .inl rfl
        · have hr'' : h < r'.1 := hr.elim (fun heq => heq ▸ hr') And.right
          refine .inr ⟨?_, ?_⟩ <;> split_ifs <;> assumption
    have hfold : ∀ (xs ys : List (ℕ∞ × List Expression)),
        List.Forall₂ (fun a b => b = a ∨ h < a.1 ∧ h < b.1) xs ys → ∀ r r' : ℕ∞ × List Expression,
        (r' = r ∨ h < r.1 ∧ h < r'.1) →
        let u := xs.foldl (fun r x => if x.1 < r.1 then x else r) r
        let u' := ys.foldl (fun r x => if x.1 < r.1 then x else r) r'
        u' = u ∨ h < u.1 ∧ h < u'.1 := by
      intro xs ys hall
      induction hall with
      | nil => exact fun r r' hr => hr
      | cons hab _ ih' =>
        intro r r' hr
        rw [List.foldl_cons, List.foldl_cons]
        exact ih' _ _ (hstep _ _ _ _ hab hr)
    have hall : List.Forall₂ (fun a b => b = a ∨ h < a.1 ∧ h < b.1) (supportAll x fs).reverse
        (supportAll y fs).reverse := by
      refine List.rel_reverse ?_
      rw [supportAll_eq_map, supportAll_eq_map, List.forall₂_map_left_iff, List.forall₂_map_right_iff,
        List.forall₂_same]
      intro f hf
      by_cases hx : f.cost false x ≤ h
      · exact .inl (ih f hf hagree hx)
      · by_cases hy : f.cost false y ≤ h
        · exact .inl (ih f hf hagree.symm hy).symm
        · rw [support_fst, support_fst]
          exact .inr ⟨not_le.mp hx, not_le.mp hy⟩
    rw [← support_fst] at hle
    rw [support] at hle ⊢
    rcases hfold _ _ hall (⊤, []) (⊤, []) (.inl rfl) with heq | ⟨hlt, -⟩
    · exact heq
    · exact absurd hle hlt.not_ge
  | nil f hf => cases hf
  | cons f fs ih ihs f' hf' hagree hle =>
    rcases List.mem_cons.mp hf' with rfl | hf'
    · exact ih hagree hle
    · exact ihs f' hf' hagree hle

end Formula

/-! ### Extraction -/

/-- The variables of the extraction; the top of the stack comes first. -/
structure Extraction extends Worklist.Walk Expression where
  relaxedPlan : Finset Action

namespace RelaxedTask

variable (t : RelaxedTask) (action : ℕ → Option Action)

/-- An iteration of the extraction; it answers `none` where the source raises. -/
def backchain (s : Fixpoint) (x : Extraction) : Option (Finset Action) ⊕ Extraction :=
  match x.stack with
  | [] => .inl (some x.relaxedPlan)
  | g :: stack =>
    match s.reachedBy g with
    | none => .inr { x with stack := stack }
    | some op =>
      match action op, supportingConditions (t.condition op) s.condCost with
      | some a, some conditions =>
        .inr ⟨Worklist.Walk.visitAll ⟨stack, x.seen⟩ conditions, insert a x.relaxedPlan⟩
      | _, _ => .inl none

/-- What comes before the extraction. -/
def supportGoal (s : Fixpoint) : Option Extraction :=
  (supportingConditions (t.condition t.goalOp) s.condCost).map fun conditions =>
    ⟨⟨conditions.reverse, conditions.toFinset⟩, ∅⟩

/-- The relaxed plan, with at most `n` iterations. -/
def extract (s : Fixpoint) (n : ℕ) : Option (Finset Action) ⊕ Extraction :=
  match t.supportGoal s with
  | none => .inl none
  | some x => iterate (t.backchain action s) n (.inr x)

variable {t action} {L : Costs} {s s' : Fixpoint} {x : Extraction}

/-- The conditions that the extraction can come across. -/
def leafConditions (t : RelaxedTask) : Finset Expression :=
  (Finset.range (t.goalOp + 1)).biUnion fun op => (distinctLeaves (t.condition op)).toFinset

/-- What a condition needs is stated by leaves whose truth makes it true. -/
def Suffices (conditions : List Expression) (c : HeuristicExpression) : Prop :=
  ∀ leaf : Expression → Bool, (∀ e ∈ conditions, leaf e = true) → c.isTrue leaf = some true

/-- What the extraction finds for a reached precondition. -/
theorem supportingConditions_spec {h : ℕ∞} {y : Costs} {op : ℕ} (hv : t.Valid) (hff : t.isHff = true)
    (hop : op ≤ t.goalOp) (hagree : AgreeUpTo h L y) (hle : t.preconditionCost op L ≤ h)
    (hfin : t.preconditionCost op L ≠ ⊤) :
    ∃ conditions, supportingConditions (t.condition op) L = some conditions ∧
      supportingConditions (t.condition op) y = some conditions ∧
      (∀ e ∈ conditions, e ∈ t.leafConditions ∧ L e ≤ t.preconditionCost op L) ∧
      Suffices conditions (t.condition op) := by
  obtain ⟨f, hf⟩ := hv.formula op hop
  have hcost : t.preconditionCost op L = f.cost false L := by
    rw [preconditionCost, not_isHmax hff, hf, Formula.expressionCost_nodes]
  rw [hcost] at hle hfin ⊢
  rw [hf]
  refine ⟨(f.support L).2, f.supportingConditions_nodes L, ?_, fun e he => ?_, fun leaf hleaf => ?_⟩
  · rw [f.supportingConditions_nodes, f.support_congr hagree hle]
  · obtain ⟨hleaf, hle⟩ := f.mem_support he
    refine ⟨Finset.mem_biUnion.mpr ⟨op, Finset.mem_range.mpr (Nat.lt_succ_iff.mpr hop), ?_⟩, hle⟩
    rw [List.mem_toFinset, mem_distinctLeaves, hf]
    exact (f.mem_leaves e).mp hleaf
  · rw [(f.computes_truth leaf).isTrue, f.truth_of_support hfin hleaf]

/-- What the extraction keeps: it visits conditions that cost no more than the goal, and what
supports a condition it has dealt with is in the plan, its precondition visited. -/
structure Backchained (t : RelaxedTask) (action : ℕ → Option Action) (L : Costs) (s : Fixpoint)
    (x : Extraction) : Prop where
  goal : ∃ conditions, supportingConditions (t.condition t.goalOp) L = some conditions ∧
    ∀ e ∈ conditions, e ∈ x.seen
  le_goal : ∀ e ∈ x.seen, L e ≤ t.preconditionCost t.goalOp L
  visited : ∀ e ∈ x.stack, e ∈ x.seen
  actions : ∀ a ∈ x.relaxedPlan, ∃ op, action op = some a
  supported : ∀ e ∈ x.seen, e ∉ x.stack → ∀ op, s.reachedBy e = some op →
    ∃ a ∈ x.relaxedPlan, action op = some a ∧ ∃ conditions,
      supportingConditions (t.condition op) L = some conditions ∧ ∀ e' ∈ conditions, e' ∈ x.seen

/-- A supporter of a condition that costs no more than the goal. -/
theorem Settled.supporter_lt (hv : t.Valid) (hff : t.isHff = true) (hs : t.Settled L s)
    (hfin : t.preconditionCost t.goalOp L ≠ ⊤) {e : Expression} {op : ℕ}
    (hle : L e ≤ t.preconditionCost t.goalOp L) (hby : s.reachedBy e = some op) :
    op < t.goalOp ∧ t.preconditionCost op L < L e ∧ op ∈ t.supporters L e := by
  have hfin' : L e ≠ ⊤ := ne_top_of_le_ne_top hfin hle
  have hmem := ((hs.supporter hff e op hle hfin').mp hby).1
  obtain ⟨w, hw, hcost⟩ := hmem
  obtain ⟨o, ho, -⟩ := (mem_offers (not_isHmax hff)).mp hw
  refine ⟨(List.getElem?_eq_some_iff.mp ho).1, ?_, w, hw, hcost⟩
  have hpos : (0 : ℕ∞) < w := by exact_mod_cast system_positive hv e _ hw
  have hpre : t.preconditionCost op L ≠ ⊤ := fun htop => hfin' (by rw [hcost, htop, add_top])
  rw [hcost]
  exact ENat.lt_add_left hpre hpos

/-- An iteration of the extraction, in any state in which the same is settled. -/
theorem Backchained.step (hv : t.Valid) (hff : t.isHff = true)
    (haction : ∀ op < t.goalOp, ∃ a, action op = some a) (hs : t.Settled L s)
    (hfin : t.preconditionCost t.goalOp L ≠ ⊤) (hx : t.Backchained action L s x) :
    (x.stack = [] ∧ ∀ s', t.Settled L s' → t.backchain action s' x = .inl (some x.relaxedPlan)) ∨
    ∃ x', (∀ s', t.Settled L s' → t.backchain action s' x = .inr x') ∧
      t.Backchained action L s x' ∧ x'.remaining t.leafConditions < x.remaining t.leafConditions := by
  rcases hstack : x.stack with _ | ⟨g, stack⟩
  · refine .inl ⟨rfl, fun s' _ => ?_⟩
    rw [backchain, hstack]
  · refine .inr ?_
    have hg := hx.visited g (by rw [hstack]; exact List.mem_cons_self)
    have hle := hx.le_goal g hg
    have hfin' : L g ≠ ⊤ := ne_top_of_le_ne_top hfin hle
    have hsame : ∀ s', t.Settled L s' → s'.reachedBy g = s.reachedBy g := by
      intro s' hs'
      refine Option.ext fun op => ?_
      rw [hs'.supporter hff g op hle hfin', hs.supporter hff g op hle hfin']
    have hrest : ∀ e ∈ stack, e ∈ x.seen := fun e he =>
      hx.visited e (by rw [hstack]; exact List.mem_cons_of_mem g he)
    rcases hby : s.reachedBy g with _ | op
    · refine ⟨{ x with stack := stack }, fun s' hs' => ?_,
        ⟨hx.goal, hx.le_goal, hrest, hx.actions, fun e he hnot op hop => ?_⟩, ?_⟩
      · rw [backchain, hstack]
        simp only [hsame s' hs', hby]
      · rcases eq_or_ne e g with rfl | hne
        · cases hby.symm.trans hop
        · refine hx.supported e he (fun hmem => ?_) op hop
          rw [hstack] at hmem
          exact hnot ((List.mem_cons.mp hmem).resolve_left hne)
      · simp [Worklist.Walk.remaining, hstack]
    · obtain ⟨hop, hlt, -⟩ := hs.supporter_lt hv hff hfin hle hby
      obtain ⟨a, ha⟩ := haction op hop
      obtain ⟨conditions, hconds, -, hleaf, -⟩ := supportingConditions_spec hv hff hop.le hs.agree
        (hlt.le.trans hle) hlt.ne_top
      obtain ⟨hvisited, hstacked, -⟩ := @Worklist.Walk.visitAll_spec _ _ ⟨stack, x.seen⟩ conditions
        t.leafConditions fun e he => (hleaf e he).1
      refine ⟨⟨Worklist.Walk.visitAll ⟨stack, x.seen⟩ conditions, insert a x.relaxedPlan⟩,
        fun s' hs' => ?_, ⟨?_, fun e he => ?_, fun e he => ?_, fun a' ha' => ?_,
        fun e he hnot op' hop' => ?_⟩,
        Worklist.Walk.remaining_pop hstack fun e he => (hleaf e he).1⟩
      · obtain ⟨conditions', hconds', hsame', -, -⟩ := supportingConditions_spec hv hff hop.le hs'.agree
          (hlt.le.trans hle) hlt.ne_top
        obtain rfl := Option.some.inj (hconds.symm.trans hconds')
        rw [backchain, hstack]
        simp only [hsame s' hs', hby, ha, hsame']
      · obtain ⟨goals, hgoals, hall⟩ := hx.goal
        exact ⟨goals, hgoals, fun e he => (hvisited e).mpr (.inl (hall e he))⟩
      · rcases (hvisited e).mp he with he | he
        · exact hx.le_goal e he
        · exact (hleaf e he).2.trans (hlt.le.trans hle)
      · rw [hvisited]
        exact ((hstacked e).mp he).imp (hrest e) And.left
      · rcases Finset.mem_insert.mp ha' with rfl | ha'
        · exact ⟨op, ha⟩
        · exact hx.actions a' ha'
      · rw [hstacked, not_or, not_and, not_not] at hnot
        have he' : e ∈ x.seen := ((hvisited e).mp he).elim id hnot.2
        rcases eq_or_ne e g with rfl | hne
        · obtain rfl := Option.some.inj (hby.symm.trans hop')
          exact ⟨a, Finset.mem_insert_self _ _, ha, conditions, hconds, fun e' he' =>
            (hvisited e').mpr (.inr he')⟩
        · obtain ⟨a', ha', haction', conditions', hconds', hall⟩ := hx.supported e he' (fun hmem => by
            rw [hstack] at hmem
            exact hnot.1 ((List.mem_cons.mp hmem).resolve_left hne)) op' hop'
          exact ⟨a', Finset.mem_insert_of_mem ha', haction', conditions', hconds', fun e' he' =>
            (hvisited e').mpr (.inl (hall e' he'))⟩

/-- What the extraction starts from. -/
theorem supportGoal_spec (hv : t.Valid) (hff : t.isHff = true) (hs : t.Settled L s)
    (hfin : t.preconditionCost t.goalOp L ≠ ⊤) :
    ∃ x, (∀ s', t.Settled L s' → t.supportGoal s' = some x) ∧ t.Backchained action L s x := by
  obtain ⟨conditions, hconds, -, hleaf, -⟩ := supportingConditions_spec hv hff le_rfl hs.agree le_rfl hfin
  refine ⟨⟨⟨conditions.reverse, conditions.toFinset⟩, ∅⟩, fun s' hs' => ?_,
    ⟨⟨conditions, hconds, fun e he => List.mem_toFinset.mpr he⟩, fun e he => ?_, fun e he => ?_,
      fun a ha => absurd ha (Finset.notMem_empty a), fun e he hnot => ?_⟩⟩
  · obtain ⟨conditions', hconds', hsame, -, -⟩ :=
      supportingConditions_spec hv hff le_rfl hs'.agree le_rfl hfin
    obtain rfl := Option.some.inj (hconds.symm.trans hconds')
    rw [supportGoal, hsame, Option.map_some]
  · exact (hleaf e (List.mem_toFinset.mp he)).2
  · exact List.mem_toFinset.mpr (List.mem_reverse.mp he)
  · exact absurd (List.mem_reverse.mpr (List.mem_toFinset.mp he)) hnot

/-- What the operators of a set make true in the relaxed problem. -/
inductive Reached (t : RelaxedTask) (ops : Set ℕ) : Expression → Prop
  | initial {e : Expression} (he : t.initialCosts e ≠ ⊤) : Reached t ops e
  | offer {e : Expression} {w op : ℕ} {conditions : List Expression} (hop : op ∈ ops)
      (hw : (w, op) ∈ t.offers e) (hsuff : Suffices conditions (t.condition op))
      (hconds : ∀ e' ∈ conditions, Reached t ops e') : Reached t ops e

/-- The operators of the actions of a plan. -/
def operatorsOf (action : ℕ → Option Action) (plan : Finset Action) : Set ℕ :=
  {op | ∃ a ∈ plan, action op = some a}

/-- What the extraction has visited when it ends is reached by the actions of its plan. -/
theorem Backchained.reached (hv : t.Valid) (hff : t.isHff = true) (hL : (system hv).next L = L)
    (hs : t.Settled L s) (hfin : t.preconditionCost t.goalOp L ≠ ⊤) (hx : t.Backchained action L s x)
    (hstack : x.stack = []) : ∀ e ∈ x.seen, t.Reached (operatorsOf action x.relaxedPlan) e := by
  have hcost : ∀ (n : ℕ) (e : Expression), L e = n → e ∈ x.seen →
      t.Reached (operatorsOf action x.relaxedPlan) e := by
    intro n
    induction n using Nat.strong_induction_on with
    | _ n ih =>
      intro e hn he
      have hle := hx.le_goal e he
      have hfin' : L e ≠ ⊤ := ne_top_of_le_ne_top hfin hle
      rcases hby : s.reachedBy e with _ | op
      · refine .initial ?_
        rcases System.exists_source hL hfin' with heq | ⟨⟨w, op⟩, hw, heq⟩
        · rwa [← show L e = t.initialCosts e from heq]
        · -- a supporter would be recorded
          obtain ⟨op', hgreatest⟩ : ∃ op', IsGreatest (t.supporters L e) op' := by
            have hbound : (t.supporters L e).Finite := by
              refine (Set.finite_lt_nat t.goalOp).subset ?_
              rintro op' ⟨w', hw', -⟩
              obtain ⟨o, ho, -⟩ := (mem_offers (not_isHmax hff)).mp hw'
              exact (List.getElem?_eq_some_iff.mp ho).1
            obtain ⟨op', hop', hmax⟩ := Set.exists_max_image _ id hbound ⟨op, w, hw, heq⟩
            exact ⟨op', hop', hmax⟩
          cases hby.symm.trans ((hs.supporter hff e op' hle hfin').mpr hgreatest)
      · obtain ⟨hop, hlt, w, hw, -⟩ := hs.supporter_lt hv hff hfin hle hby
        obtain ⟨a, ha, haction, conditions, hconds, hvisited⟩ := hx.supported e he
          (by rw [hstack]; exact List.not_mem_nil) op hby
        obtain ⟨conditions', hconds', -, hleaf, hsuff⟩ := supportingConditions_spec hv hff hop.le hs.agree
          (hlt.le.trans hle) hlt.ne_top
        obtain rfl := Option.some.inj (hconds.symm.trans hconds')
        refine .offer ⟨a, ha, haction⟩ hw hsuff fun e' he' => ?_
        have hlt' : L e' < L e := (hleaf e' he').2.trans_lt hlt
        obtain ⟨m, hm⟩ := ENat.ne_top_iff_exists.mp hlt'.ne_top
        refine ih m ?_ e' hm.symm (hvisited e' he')
        rw [← hm, hn] at hlt'
        exact_mod_cast hlt'
  intro e he
  obtain ⟨n, hn⟩ := ENat.ne_top_iff_exists.mp (ne_top_of_le_ne_top hfin (hx.le_goal e he))
  exact hcost n e hn.symm he

/-- The extraction ends with a plan whose actions reach the goal, and it is the same plan
wherever the same is settled. -/
theorem extract_spec (hv : t.Valid) (hff : t.isHff = true)
    (haction : ∀ op < t.goalOp, ∃ a, action op = some a) (hL : (system hv).next L = L)
    (hs : t.Settled L s) (hfin : t.preconditionCost t.goalOp L ≠ ⊤) :
    ∃ n plan, (∀ m ≥ n, ∀ s', t.Settled L s' → t.extract action s' m = .inl (some plan)) ∧
      (∀ a ∈ plan, ∃ op, action op = some a) ∧ ∃ conditions, Suffices conditions (t.condition t.goalOp) ∧
        ∀ e ∈ conditions, t.Reached (operatorsOf action plan) e := by
  obtain ⟨x, hx, hback⟩ : ∃ x, (∀ s', t.Settled L s' → t.supportGoal s' = some x) ∧
      t.Backchained action L s x := supportGoal_spec hv hff hs hfin
  have hstep : ∀ y z, t.Backchained action L s y → t.backchain action s y = .inr z →
      t.Backchained action L s z ∧ z.remaining t.leafConditions < y.remaining t.leafConditions := by
    intro y z hy hturn
    rcases hy.step hv hff haction hs hfin with ⟨-, hend⟩ | ⟨z', hz', hback', hlt⟩
    · cases hturn.symm.trans (hend s hs)
    · obtain rfl := Sum.inr.inj (hturn.symm.trans (hz' s hs))
      exact ⟨hback', hlt⟩
  obtain ⟨n, r, y, hn, hy, hr⟩ := Exploration.exists_answer hstep hback
  rcases hy.step hv hff haction hs hfin with ⟨hstack, hend⟩ | ⟨z, hz, -, -⟩
  · obtain rfl := Sum.inl.inj (hr.symm.trans (hend s hs))
    refine ⟨n, y.relaxedPlan, fun m hm s' hs' => ?_, hy.actions, ?_⟩
    · -- both extractions go the same way
      have hsame : Sum.LiftRel (· = ·) (fun y z => y = z ∧ t.Backchained action L s y)
          (iterate (t.backchain action s) m (.inr x)) (iterate (t.backchain action s') m (.inr x)) := by
        refine iterate_liftRel (fun {y z} h => ?_) (.inr ⟨rfl, hback⟩)
        obtain ⟨rfl, hy⟩ := h
        rcases hy.step hv hff haction hs hfin with ⟨-, hend⟩ | ⟨z, hz, hback', -⟩
        · rw [hend s hs, hend s' hs']
          exact .inl rfl
        · rw [hz s hs, hz s' hs']
          exact .inr ⟨rfl, hback'⟩
      rw [iterate_of_le hn hm] at hsame
      rw [extract, hx s' hs']
      simp only
      generalize iterate (t.backchain action s') m (.inr x) = answer at hsame
      cases hsame with
      | inl heq => rw [heq]
    · obtain ⟨conditions, hconds, hvisited⟩ := hy.goal
      obtain ⟨conditions', hconds', -, -, hsuff⟩ :=
        supportingConditions_spec hv hff le_rfl hs.agree le_rfl hfin
      obtain rfl := Option.some.inj (hconds.symm.trans hconds')
      exact ⟨conditions, hsuff, fun e he => hy.reached hv hff hL hs hfin hstack e (hvisited e he)⟩
  · cases hr.symm.trans (hz s hs)

end RelaxedTask

end TamerLite
