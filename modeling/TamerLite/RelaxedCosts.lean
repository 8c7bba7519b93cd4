import TamerLite.CostEquations
import TamerLite.HeuristicExpression

/-! What a condition of the heuristic costs, given the costs of its leaves. -/

namespace TamerLite

open CostEquations

/-- The cost of each leaf condition; an unreached one costs `⊤`. -/
abbrev Costs := Expression → ℕ∞

/-- The sum of the operands of a conjunction, or their maximum for hmax. -/
def andCost (hmax : Bool) (xs : List ℕ∞) : ℕ∞ :=
  xs.foldl (fun r x => if hmax then if r < x then x else r else r + x) 0

def orCost (xs : List ℕ∞) : ℕ∞ := xs.foldl (fun r x => if x < r then x else r) ⊤

def costStep (hmax : Bool) (costs : Costs) (stack : List ℕ∞) : HeuristicNode → List ℕ∞
  | .leaf e => costs e :: stack
  | .and n => andCost hmax (stack.take n) :: stack.drop n
  | .or n => orCost (stack.take n) :: stack.drop n

/-- `_expression_cost`: what is left on the stack; an empty condition costs nothing. -/
def expressionCost (hmax : Bool) (expr : HeuristicExpression) (costs : Costs) : ℕ∞ :=
  (expr.foldl (costStep hmax costs) []).head?.getD 0

def containsOrNode (expr : HeuristicExpression) : Bool :=
  expr.any fun | .or _ => true | _ => false

/-- The leaves of a condition, each once. -/
def distinctLeaves (expr : HeuristicExpression) : List Expression :=
  (expr.filterMap fun | .leaf e => some e | _ => none).dedup

/-! ### Conjunctions and disjunctions of costs -/

section Operands

variable {hmax : Bool} {x k : ℕ∞} {xs ys : List ℕ∞}

theorem foldl_and (r : ℕ∞) :
    xs.foldl (fun r x => if hmax then if r < x then x else r else r + x) r =
      if hmax then max r (andCost hmax xs) else r + andCost hmax xs := by
  unfold andCost
  cases hmax with
  | true =>
    simp only [if_true]
    induction xs generalizing r with
    | nil => simp
    | cons x xs ih =>
      have hmaxstep : ∀ r : ℕ∞, (if r < x then x else r) = max r x := fun r => by
        rw [max_def_lt]
      rw [List.foldl_cons, List.foldl_cons, ih, ih (if (0 : ℕ∞) < x then x else 0), hmaxstep, hmaxstep,
        max_eq_right (zero_le (a := x)), max_assoc]
  | false =>
    simp only [Bool.false_eq_true, if_false]
    induction xs generalizing r with
    | nil => simp
    | cons x xs ih => rw [List.foldl_cons, List.foldl_cons, ih, ih (0 + x), zero_add, add_assoc]

@[simp] theorem andCost_nil : andCost hmax [] = 0 := rfl

theorem andCost_cons : andCost hmax (x :: xs) =
    if hmax then max x (andCost hmax xs) else x + andCost hmax xs := by
  have h : (if hmax then if (0 : ℕ∞) < x then x else 0 else 0 + x) = x := by
    cases hmax with
    | true =>
      rcases eq_or_ne x 0 with rfl | hx
      · simp
      · simp [pos_iff_ne_zero.mpr hx]
    | false => simp
  rw [andCost, List.foldl_cons, h, foldl_and]

theorem le_andCost (hx : x ∈ xs) : x ≤ andCost hmax xs := by
  induction xs with
  | nil => cases hx
  | cons y xs ih =>
    rw [andCost_cons]
    rcases List.mem_cons.mp hx with rfl | hx
    · cases hmax with
      | true => exact le_max_left _ _
      | false => exact le_self_add
    · cases hmax with
      | true => exact (ih hx).trans (le_max_right _ _)
      | false => exact (ih hx).trans le_add_self

theorem andCost_mono (h : List.Forall₂ (· ≤ ·) ys xs) : andCost hmax ys ≤ andCost hmax xs := by
  induction h with
  | nil => exact le_rfl
  | cons hle _ ih =>
    rw [andCost_cons, andCost_cons]
    cases hmax with
    | true => exact max_le_max hle ih
    | false => exact add_le_add hle ih

theorem foldl_or (r : ℕ∞) :
    xs.foldl (fun r x => if x < r then x else r) r = min r (orCost xs) := by
  unfold orCost
  induction xs generalizing r with
  | nil => simp
  | cons x xs ih =>
    have hminstep : ∀ r : ℕ∞, (if x < r then x else r) = min r x := fun r => by
      rw [min_comm, min_def_lt]
    rw [List.foldl_cons, List.foldl_cons, ih, ih (if x < (⊤ : ℕ∞) then x else ⊤), hminstep, hminstep,
      min_eq_right (le_top (a := x)), min_assoc]

@[simp] theorem orCost_nil : orCost [] = ⊤ := rfl

theorem orCost_cons : orCost (x :: xs) = min x (orCost xs) := by
  have h : (if x < (⊤ : ℕ∞) then x else ⊤) = x := by
    by_cases hx : x < ⊤
    · rw [if_pos hx]
    · rw [if_neg hx, not_lt_top_iff.mp hx]
  rw [orCost, List.foldl_cons, h, foldl_or]

theorem orCost_le (hx : x ∈ xs) : orCost xs ≤ x := by
  induction xs with
  | nil => cases hx
  | cons y xs ih =>
    rw [orCost_cons]
    rcases List.mem_cons.mp hx with rfl | hx
    · exact min_le_left _ _
    · exact (min_le_right _ _).trans (ih hx)

theorem orCost_mem (h : orCost xs ≠ ⊤) : orCost xs ∈ xs := by
  induction xs with
  | nil => exact absurd rfl h
  | cons y xs ih =>
    rw [orCost_cons] at h ⊢
    rcases min_choice y (orCost xs) with hy | hxs
    · rw [hy]
      exact List.mem_cons_self
    · rw [hxs] at h ⊢
      exact List.mem_cons_of_mem y (ih h)

end Operands

/-! ### Formulas -/

/-- The tree of a condition. -/
inductive Formula
  | leaf (e : Expression)
  | and (fs : List Formula)
  | or (fs : List Formula)

namespace Formula

mutual

/-- The postfix form of a tree. -/
def nodes : Formula → HeuristicExpression
  | leaf e => [.leaf e]
  | and fs => nodesAll fs ++ [.and fs.length]
  | or fs => nodesAll fs ++ [.or fs.length]

def nodesAll : List Formula → HeuristicExpression
  | [] => []
  | f :: fs => nodes f ++ nodesAll fs

end

mutual

def leaves : Formula → List Expression
  | leaf e => [e]
  | and fs => leavesAll fs
  | or fs => leavesAll fs

def leavesAll : List Formula → List Expression
  | [] => []
  | f :: fs => leaves f ++ leavesAll fs

end

section Cost

variable (hmax : Bool) (costs : Costs)

mutual

def cost : Formula → ℕ∞
  | leaf e => costs e
  | and fs => andCost hmax (costAll fs).reverse
  | or fs => orCost (costAll fs).reverse

def costAll : List Formula → List ℕ∞
  | [] => []
  | f :: fs => cost f :: costAll fs

end

@[simp] theorem length_costAll (fs : List Formula) : (costAll hmax costs fs).length = fs.length := by
  induction fs with
  | nil => rfl
  | cons f fs ih => rw [costAll, List.length_cons, List.length_cons, ih]

theorem costAll_eq_map (fs : List Formula) : costAll hmax costs fs = fs.map (cost hmax costs) := by
  induction fs with
  | nil => rfl
  | cons f fs ih => rw [costAll, ih, List.map_cons]

/-- Evaluating the postfix form leaves the cost on the stack. -/
theorem foldl_nodes (f : Formula) : ∀ stack,
    f.nodes.foldl (costStep hmax costs) stack = f.cost hmax costs :: stack := by
  induction f using Formula.rec (motive_2 := fun fs => ∀ stack,
    (nodesAll fs).foldl (costStep hmax costs) stack = (costAll hmax costs fs).reverse ++ stack) with
  | leaf e => exact fun stack => rfl
  | and fs ih =>
    intro stack
    have hlen : fs.length = (costAll hmax costs fs).reverse.length := by simp
    rw [nodes, List.foldl_append, ih, hlen]
    simp [costStep, cost]
  | or fs ih =>
    intro stack
    have hlen : fs.length = (costAll hmax costs fs).reverse.length := by simp
    rw [nodes, List.foldl_append, ih, hlen]
    simp [costStep, cost]
  | nil stack => rfl
  | cons f fs ih ihs stack =>
    rw [nodesAll, List.foldl_append, ih, ihs, costAll, List.reverse_cons, List.append_assoc,
      List.singleton_append]

theorem expressionCost_nodes (f : Formula) : expressionCost hmax f.nodes costs = f.cost hmax costs := by
  rw [expressionCost, foldl_nodes]
  rfl

end Cost

variable {hmax : Bool} {costs : Costs}

/-- A condition's cost depends only on the leaves that cost no more. -/
theorem cost_local (f : Formula) : Local fun costs => f.cost hmax costs := by
  induction f using Formula.rec (motive_2 := fun fs => ∀ f ∈ fs, Local fun costs => f.cost hmax costs) with
  | leaf e => exact fun x y h => h e le_rfl
  | and fs ih =>
    intro x y h
    show andCost hmax (costAll hmax y fs).reverse ≤ andCost hmax (costAll hmax x fs).reverse
    have hle : ∀ f ∈ fs, f.cost hmax x ≤ andCost hmax (costAll hmax x fs).reverse := by
      intro f hf
      refine le_andCost (List.mem_reverse.mpr ?_)
      rw [costAll_eq_map]
      exact List.mem_map_of_mem hf
    refine andCost_mono (List.rel_reverse ?_)
    rw [costAll_eq_map, costAll_eq_map, List.forall₂_map_left_iff, List.forall₂_map_right_iff,
      List.forall₂_same]
    exact fun f hf => ih f hf x y fun l hl => h l (hl.trans (hle f hf))
  | or fs ih =>
    intro x y h
    show orCost (costAll hmax y fs).reverse ≤ orCost (costAll hmax x fs).reverse
    by_cases htop : orCost (costAll hmax x fs).reverse = ⊤
    · rw [htop]
      exact le_top
    · obtain ⟨f, hf, heq⟩ : ∃ f ∈ fs, f.cost hmax x = orCost (costAll hmax x fs).reverse := by
        have hmem := List.mem_reverse.mp (orCost_mem htop)
        generalize orCost (costAll hmax x fs).reverse = c at hmem
        rw [costAll_eq_map] at hmem
        exact List.mem_map.mp hmem
      have hy : f.cost hmax y ∈ (costAll hmax y fs).reverse := by
        rw [List.mem_reverse, costAll_eq_map]
        exact List.mem_map_of_mem hf
      calc orCost (costAll hmax y fs).reverse ≤ f.cost hmax y := orCost_le hy
        _ ≤ f.cost hmax x := ih f hf x y fun l hl => h l (hl.trans heq.le)
        _ = orCost (costAll hmax x fs).reverse := heq
  | nil f hf => cases hf
  | cons f fs ih ihs f' hf' =>
    rcases List.mem_cons.mp hf' with rfl | hf'
    · exact ih
    · exact ihs f' hf'

/-- Whether a condition is reached depends only on which leaves are. -/
theorem cost_ne_top {x y : Costs} (hxy : ∀ e, x e ≠ ⊤ → y e ≠ ⊤) (f : Formula) :
    f.cost hmax x ≠ ⊤ → f.cost hmax y ≠ ⊤ := by
  have hand : ∀ xs : List ℕ∞, andCost hmax xs ≠ ⊤ ↔ ∀ x ∈ xs, x ≠ ⊤ := by
    intro xs
    induction xs with
    | nil => simp
    | cons x xs ih =>
      rw [andCost_cons, List.forall_mem_cons, ← ih]
      cases hmax <;> simp [← lt_top_iff_ne_top]
  induction f using Formula.rec (motive_2 := fun fs => ∀ f ∈ fs,
    f.cost hmax x ≠ ⊤ → f.cost hmax y ≠ ⊤) with
  | leaf e => exact hxy e
  | and fs ih =>
    simp only [cost, costAll_eq_map, hand, List.mem_reverse, List.forall_mem_map]
    exact fun h f hf => ih f hf (h f hf)
  | or fs ih =>
    intro h
    rw [cost, costAll_eq_map] at h ⊢
    have hmem := List.mem_reverse.mp (orCost_mem h)
    obtain ⟨f, hf, heq⟩ := List.mem_map.mp hmem
    have hfin : f.cost hmax y ≠ ⊤ := ih f hf (heq ▸ h)
    exact ne_top_of_le_ne_top hfin (orCost_le (List.mem_reverse.mpr (List.mem_map_of_mem hf)))
  | nil f hf _ => cases hf
  | cons f fs ih ihs f' hf' h =>
    rcases List.mem_cons.mp hf' with rfl | hf'
    · exact ih h
    · exact ihs f' hf' h

theorem cost_congr {x y : Costs} (f : Formula) : (∀ e ∈ f.leaves, y e = x e) →
    f.cost hmax y = f.cost hmax x := by
  induction f using Formula.rec (motive_2 := fun fs => (∀ e ∈ leavesAll fs, y e = x e) →
    costAll hmax y fs = costAll hmax x fs) with
  | leaf e => exact fun h => h e (by simp [leaves])
  | and fs ih =>
    intro h
    rw [cost, cost, ih h]
  | or fs ih =>
    intro h
    rw [cost, cost, ih h]
  | nil h => rfl
  | cons f fs ih ihs h =>
    rw [costAll, costAll, ih fun e he => h e (List.mem_append_left _ he),
      ihs fun e he => h e (List.mem_append_right _ he)]

theorem mem_leavesAll {fs : List Formula} {e : Expression} :
    e ∈ leavesAll fs ↔ ∃ f ∈ fs, e ∈ f.leaves := by
  induction fs with
  | nil => simp [leavesAll]
  | cons f fs ih => simp [leavesAll, ih]

theorem mem_leaves (f : Formula) (e : Expression) : e ∈ f.leaves ↔ .leaf e ∈ f.nodes := by
  induction f using Formula.rec (motive_2 := fun fs => e ∈ leavesAll fs ↔ .leaf e ∈ nodesAll fs) with
  | leaf e' => simp [leaves, nodes]
  | and fs ih => simp [leaves, nodes, ih]
  | or fs ih => simp [leaves, nodes, ih]
  | nil => simp [leavesAll, nodesAll]
  | cons f fs ih ihs => simp [leavesAll, nodesAll, ih, ihs]

/-- Without a disjunction an unreached leaf leaves the whole condition unreached. -/
theorem cost_eq_top {e : Expression} (htop : costs e = ⊤) (f : Formula) :
    containsOrNode f.nodes = false → e ∈ f.leaves → f.cost hmax costs = ⊤ := by
  have hand : ∀ fs : List Formula, ⊤ ∈ costAll hmax costs fs → (and fs).cost hmax costs = ⊤ :=
    fun fs h => top_le_iff.mp (le_andCost (List.mem_reverse.mpr h))
  induction f using Formula.rec (motive_2 := fun fs => containsOrNode (nodesAll fs) = false →
    e ∈ leavesAll fs → ⊤ ∈ costAll hmax costs fs) with
  | leaf e' =>
    intro _ he
    rw [leaves, List.mem_singleton] at he
    exact he ▸ htop
  | and fs ih =>
    intro hor he
    refine hand fs (ih ?_ he)
    simpa [containsOrNode, nodes] using hor
  | or fs _ =>
    intro hor
    simp [containsOrNode, nodes] at hor
  | nil _ he => cases he
  | cons f fs ih ihs hor he =>
    rw [nodesAll, containsOrNode, List.any_append, Bool.or_eq_false_iff] at hor
    rcases List.mem_append.mp he with he | he
    · rw [costAll, ih hor.1 he]
      exact List.mem_cons_self
    · exact List.mem_cons_of_mem _ (ihs hor.2 he)

mutual

/-- Whether a formula is true, given which leaves are. -/
def truth (leaf : Expression → Bool) : Formula → Bool
  | .leaf e => leaf e
  | and fs => (truthAll leaf fs).all id
  | or fs => (truthAll leaf fs).any id

def truthAll (leaf : Expression → Bool) : List Formula → List Bool
  | [] => []
  | f :: fs => truth leaf f :: truthAll leaf fs

end

theorem truthAll_eq_map (leaf : Expression → Bool) (fs : List Formula) :
    truthAll leaf fs = fs.map (truth leaf) := by
  induction fs with
  | nil => rfl
  | cons f fs ih => rw [truthAll, ih, List.map_cons]

theorem length_truthAll (leaf : Expression → Bool) (fs : List Formula) :
    (truthAll leaf fs).length = fs.length := by
  induction fs with
  | nil => rfl
  | cons f fs ih => rw [truthAll, List.length_cons, List.length_cons, ih]

/-- Evaluating the postfix form leaves the truth value on the stack. -/
theorem computes_truth (leaf : Expression → Bool) (f : Formula) :
    Computes leaf f.nodes (f.truth leaf) := by
  induction f using Formula.rec (motive_2 := fun fs => ∀ stack,
    (nodesAll fs).foldl (truthStep leaf) stack = (truthAll leaf fs).reverse ++ stack) with
  | leaf e => exact fun stack => rfl
  | and fs ih =>
    intro stack
    rw [nodes, List.foldl_append, ih, ← length_truthAll leaf fs, ← List.length_reverse]
    simp [truthStep, truth]
  | or fs ih =>
    intro stack
    rw [nodes, List.foldl_append, ih, ← length_truthAll leaf fs, ← List.length_reverse]
    simp [truthStep, truth]
  | nil stack => rfl
  | cons f fs ih ihs stack =>
    rw [nodesAll, List.foldl_append, ih, ihs, truthAll, List.reverse_cons, List.append_assoc,
      List.singleton_append]

/-- A property of costs that a true formula has from its true leaves. -/
theorem cost_of_truth {leaf : Expression → Bool} {P : ℕ∞ → Prop} (hzero : P 0)
    (hand : ∀ x y, P x → P y → P (if hmax then max x y else x + y)) (hle : ∀ x y, y ≤ x → P x → P y)
    (f : Formula) : (∀ e ∈ f.leaves, leaf e = true → P (costs e)) → f.truth leaf = true →
    P (f.cost hmax costs) := by
  have hall : ∀ xs : List ℕ∞, (∀ x ∈ xs, P x) → P (andCost hmax xs) := by
    intro xs hxs
    induction xs with
    | nil => exact hzero
    | cons x xs ih =>
      rw [andCost_cons]
      exact hand _ _ (hxs x List.mem_cons_self) (ih fun y hy => hxs y (List.mem_cons_of_mem x hy))
  induction f using Formula.rec (motive_2 := fun fs => ∀ f ∈ fs,
    (∀ e ∈ f.leaves, leaf e = true → P (costs e)) → f.truth leaf = true → P (f.cost hmax costs)) with
  | leaf e => exact fun h => h e (by simp [leaves])
  | and fs ih =>
    intro h ht
    refine hall _ fun x hx => ?_
    rw [List.mem_reverse, costAll_eq_map] at hx
    obtain ⟨f, hf, rfl⟩ := List.mem_map.mp hx
    refine ih f hf (fun e he => h e (mem_leavesAll.mpr ⟨f, hf, he⟩)) ?_
    rw [truth, truthAll_eq_map, List.all_map, List.all_eq_true] at ht
    exact ht f hf
  | or fs ih =>
    intro h ht
    rw [truth, truthAll_eq_map, List.any_map, List.any_eq_true] at ht
    obtain ⟨f, hf, ht⟩ := ht
    refine hle _ _ (orCost_le ?_) (ih f hf (fun e he => h e (mem_leavesAll.mpr ⟨f, hf, he⟩)) ht)
    rw [List.mem_reverse, costAll_eq_map]
    exact List.mem_map_of_mem hf
  | nil f hf _ _ => cases hf
  | cons f fs ih ihs f' hf' h ht =>
    rcases List.mem_cons.mp hf' with rfl | hf'
    · exact ih h ht
    · exact ihs f' hf' h ht

end Formula

end TamerLite
