import TamerLite.Converter
import TamerLite.Enumeration
import TamerLite.Evaluators
import TamerLite.Novelty

/-! Conjunctions as the converter lays them out: splitting one gives back its
conjuncts, and each of them is true where the conjunction holds. -/

namespace TamerLite

open Converter

theorem map_shift (n : ℕ) (operands : List ℕ) :
    (operands.map fun o : ℕ => ((o : ℤ) + n).toNat).map (fun o : ℕ => ((o : ℤ) + -n).toNat) =
      operands := by
  rw [List.map_map]
  conv_rhs => rw [← List.map_id operands]
  refine List.map_congr_left fun o _ => ?_
  simp only [Function.comp_apply, id_eq]
  omega

theorem shiftNode_shiftNode (n : ℕ) (e : ExpressionNode) : shiftNode (-n) (shiftNode n e) = e := by
  cases e with
  | operator kind operands => exact congrArg _ (map_shift n operands)
  | interpretedFunction fn rt operands => exact congrArg _ (map_shift n operands)
  | fluent | constant => rfl

theorem shiftExpression_shiftExpression (n : ℕ) (exp : Expression) :
    shiftExpression (shiftExpression exp n) (-n) = exp := by
  rw [shiftExpression, shiftExpression, List.map_map]
  conv_rhs => rw [← List.map_id exp]
  exact List.map_congr_left fun e _ => shiftNode_shiftNode n e

theorem length_shiftExpression (n : ℤ) (exp : Expression) :
    (shiftExpression exp n).length = exp.length := by
  rw [shiftExpression, List.length_map]

/-- Where the part after the last operand starts. -/
def splitEnd (last : ℕ) (operands : List ℕ) : ℕ := operands.foldl (fun _ i => i + 1) last

theorem splitParts_append (exp : Expression) (last : ℕ) (is js : List ℕ) :
    splitParts exp last (is ++ js) =
      splitParts exp last is ++ splitParts exp (splitEnd last is) js := by
  induction is generalizing last with
  | nil => rfl
  | cons i is ih =>
    rw [List.cons_append, splitParts, splitParts, ih]
    rfl

theorem splitParts_append_right {exp : Expression} {is : List ℕ} (last : ℕ)
    (h : ∀ i ∈ is, i < exp.length) (suffix : Expression) :
    splitParts (exp ++ suffix) last is = splitParts exp last is := by
  induction is generalizing last with
  | nil => rfl
  | cons i is ih =>
    have hi := h i List.mem_cons_self
    rw [splitParts, splitParts, ih (i + 1) fun j hj => h j (List.mem_cons_of_mem i hj), slice, slice,
      List.take_append_of_le_length (by omega)]

theorem splitEnd_joinArgs {xs : List Expression} (hne : ∀ x ∈ xs, x ≠ []) :
    splitEnd 0 (joinArgs xs).2 = (joinArgs xs).1.length := by
  induction xs using List.reverseRecOn with
  | nil => rfl
  | append_singleton xs x _ =>
    have hx := List.length_pos_iff.mpr (hne x (by simp))
    rw [joinArgs_concat, splitEnd, List.foldl_append, List.length_append, length_shiftExpression]
    show (joinArgs xs).1.length + x.length - 1 + 1 = _
    omega

/-- Splitting what was joined. -/
theorem splitParts_joinArgs {xs : List Expression} (hne : ∀ x ∈ xs, x ≠ []) :
    splitParts (joinArgs xs).1 0 (joinArgs xs).2 = xs := by
  induction xs using List.reverseRecOn with
  | nil => rfl
  | append_singleton xs x ih =>
    have hxs : ∀ y ∈ xs, y ≠ [] := fun y hy => hne y (by simp [hy])
    have hx := List.length_pos_iff.mpr (hne x (by simp))
    rw [joinArgs_concat, splitParts_append, splitParts_append_right 0 (joinArgs_lt hxs), ih hxs,
      splitEnd_joinArgs hxs, splitParts, splitParts]
    have hslice : slice ((joinArgs xs).1 ++ shiftExpression x (joinArgs xs).1.length)
        (joinArgs xs).1.length ((joinArgs xs).1.length + x.length - 1 + 1) =
          shiftExpression x (joinArgs xs).1.length := by
      rw [slice, List.take_of_length_le, List.drop_left]
      rw [List.length_append, length_shiftExpression]
      omega
    rw [hslice, shiftExpression_shiftExpression]

theorem splitExpression_walkNary {xs : List Expression} (hne : ∀ x ∈ xs, x ≠ []) :
    splitExpression (walkNary .and xs) = xs := by
  rw [splitExpression, walkNary, List.getLast?_concat]
  show splitParts _ 0 _ = xs
  rw [splitParts_append_right 0 (joinArgs_lt hne), splitParts_joinArgs hne]

theorem splitExpression_of_ne_and {exp : Expression}
    (h : ∀ operands, exp.getLast? ≠ some (.operator .and operands)) :
    splitExpression exp = [exp] := by
  rw [splitExpression]
  split
  · rename_i operands hlast
    exact absurd hlast (h operands)
  · rfl

/-- A conjunction of conjunctions of Boolean expressions, laid out as the
converter lays it out. -/
inductive Conjunction (fluents : List ValueType) : Expression → Prop
  | and {xs : List Expression} : (∀ x ∈ xs, Conjunction fluents x) →
      Conjunction fluents (walkNary .and xs)
  | leaf {exp : Expression} : (∀ operands, exp.getLast? ≠ some (.operator .and operands)) →
      typeOf fluents exp = some .bool → Conjunction fluents exp

namespace Conjunction

variable {fluents : List ValueType} {exp c : Expression}

theorem ne_nil (h : Conjunction fluents exp) : exp ≠ [] := by
  cases h with
  | and => simp [walkNary]
  | leaf _ ht =>
    rintro rfl
    simp [typeOf] at ht

theorem of_split (h : Conjunction fluents exp) (hc : c ∈ splitExpression exp) :
    Conjunction fluents c := by
  cases h with
  | and hxs =>
    rw [splitExpression_walkNary fun x hx => (hxs x hx).ne_nil] at hc
    exact hxs c hc
  | leaf hand ht =>
    rw [splitExpression_of_ne_and hand, List.mem_singleton] at hc
    exact hc ▸ leaf hand ht

/-- What a conjunction is split into holds where it does. -/
theorem holds_split [Callables] {a : Assignments} (h : Conjunction fluents exp)
    (hh : holds exp a = true) (hc : c ∈ splitExpression exp) : holds c a = true := by
  cases h with
  | and hxs =>
    have hne := fun x hx => (hxs x hx).ne_nil
    rw [splitExpression_walkNary hne] at hc
    rw [holds, evaluate_walkNary hne] at hh
    obtain ⟨v, hv, htruthy⟩ := (Option.any_eq_true _ _).mp hh
    obtain ⟨vs, hvs, hand⟩ := Option.bind_eq_some_iff.mp hv
    have hall : vs.all ConstantNode.truthy = true := by
      rw [← Option.some.inj hand] at htruthy
      exact htruthy
    obtain ⟨w, hw, hcw⟩ := (Enumeration.mapM_eq_some hvs).1 c hc
    rw [holds, hcw]
    exact List.all_eq_true.mp hall w hw
  | leaf hand _ =>
    rw [splitExpression_of_ne_and hand, List.mem_singleton] at hc
    exact hc ▸ hh

end Conjunction

end TamerLite
