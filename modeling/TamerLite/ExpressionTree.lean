import TamerLite.Conjunctions
import TamerLite.Simplify

/-! Postfix expressions that are trees: the arguments of a node are laid out one
after another right before it, and it has their roots as operands. -/

namespace TamerLite

open Converter

inductive ExprTree
  | node (e : ExpressionNode) (args : List ExprTree)

namespace ExprTree

mutual

def size : ExprTree → ℕ
  | node _ args => sizes args + 1

def sizes : List ExprTree → ℕ
  | [] => 0
  | t :: ts => size t + sizes ts

end

/-- Where the roots of trees laid out from position `n` on are. -/
def roots (n : ℕ) : List ExprTree → List ℕ
  | [] => []
  | t :: ts => (n + t.size - 1) :: roots (n + t.size) ts

mutual

/-- A tree laid out from position `n` on. -/
def layout (n : ℕ) : ExprTree → Expression
  | node e args => layouts n args ++ [e.withOperands (roots n args)]

def layouts (n : ℕ) : List ExprTree → Expression
  | [] => []
  | t :: ts => layout n t ++ layouts (n + t.size) ts

end

/-- Constants and fluents have no arguments. -/
def arityOk (e : ExpressionNode) (args : List ExprTree) : Bool :=
  match e with
  | .constant _ | .fluent _ => args.isEmpty
  | _ => true

mutual

def wellFormed : ExprTree → Bool
  | node e args => arityOk e args && wellFormeds args

def wellFormeds : List ExprTree → Bool
  | [] => true
  | t :: ts => wellFormed t && wellFormeds ts

end

def args : ExprTree → List ExprTree
  | node _ args => args

def root : ExprTree → ExpressionNode
  | node e _ => e

theorem size_pos (t : ExprTree) : 0 < t.size := by
  cases t
  exact Nat.succ_pos _

theorem wellFormeds_iff {ts : List ExprTree} : wellFormeds ts = true ↔ ∀ t ∈ ts, t.wellFormed = true := by
  induction ts with
  | nil => simp [wellFormeds]
  | cons t ts ih => simp [wellFormeds, ih]

@[simp] theorem length_layout (n : ℕ) (t : ExprTree) : (t.layout n).length = t.size := by
  induction t using ExprTree.rec (motive_2 := fun ts => ∀ n, (layouts n ts).length = sizes ts)
    generalizing n with
  | node e args ih => simp [layout, size, ih]
  | nil => simp [layouts, sizes]
  | cons t ts ih ihs => simp [layouts, sizes, ih, ihs]

@[simp] theorem length_layouts (n : ℕ) (ts : List ExprTree) : (layouts n ts).length = sizes ts := by
  induction ts generalizing n with
  | nil => rfl
  | cons t ts ih => simp [layouts, sizes, ih]

theorem layout_ne_nil (n : ℕ) (t : ExprTree) : t.layout n ≠ [] := by
  cases t
  simp [layout]

@[simp] theorem length_roots (n : ℕ) (ts : List ExprTree) : (roots n ts).length = ts.length := by
  induction ts generalizing n with
  | nil => rfl
  | cons t ts ih => simp [roots, ih]

theorem roots_add (n m : ℕ) (ts : List ExprTree) : roots (n + m) ts = (roots n ts).map (· + m) := by
  induction ts generalizing n with
  | nil => rfl
  | cons t ts ih =>
    have ht := t.size_pos
    rw [roots, roots, List.map_cons, ← ih, show n + m + t.size = n + t.size + m by omega]
    congr 1
    omega

theorem withOperands_shift (e : ExpressionNode) (operands : List ℕ) (m : ℕ) :
    shiftNode m (e.withOperands operands) = e.withOperands (operands.map (· + m)) := by
  have hmap : (operands.map fun o : ℕ => ((o : ℤ) + (m : ℤ)).toNat) = operands.map (· + m) :=
    List.map_congr_left fun o _ => by omega
  cases e with
  | operator kind _ => exact congrArg _ hmap
  | interpretedFunction fn rt _ => exact congrArg _ hmap
  | fluent | constant => rfl

/-- Laying a tree out further on shifts it. -/
theorem layout_add (m : ℕ) (t : ExprTree) (n : ℕ) :
    t.layout (n + m) = shiftExpression (t.layout n) m := by
  induction t using ExprTree.rec (motive_2 := fun ts => ∀ n,
    layouts (n + m) ts = shiftExpression (layouts n ts) m) generalizing n with
  | node e args ih =>
    rw [layout, layout, ih, roots_add, shiftExpression, shiftExpression, List.map_append,
      List.map_singleton, withOperands_shift]
  | nil n => rfl
  | cons t ts ih ihs n =>
    rw [layouts, layouts, ih, show n + m + t.size = n + t.size + m by omega, ihs]
    exact List.map_append.symm

theorem layout_eq_shift (n : ℕ) (t : ExprTree) : t.layout n = shiftExpression (t.layout 0) n := by
  rw [← layout_add, Nat.zero_add]

theorem layouts_append (n : ℕ) (ts us : List ExprTree) :
    layouts n (ts ++ us) = layouts n ts ++ layouts (n + sizes ts) us := by
  induction ts generalizing n with
  | nil => rfl
  | cons t ts ih => rw [List.cons_append, layouts, layouts, ih, sizes, List.append_assoc, Nat.add_assoc]

theorem roots_append (n : ℕ) (ts us : List ExprTree) :
    roots n (ts ++ us) = roots n ts ++ roots (n + sizes ts) us := by
  induction ts generalizing n with
  | nil => rfl
  | cons t ts ih => rw [List.cons_append, roots, roots, ih, sizes, List.cons_append, Nat.add_assoc]

/-- The converter's loop lays trees out. -/
theorem joinArgs_layouts (ts : List ExprTree) :
    joinArgs (ts.map (layout 0)) = (layouts 0 ts, roots 0 ts) := by
  induction ts using List.reverseRecOn with
  | nil => rfl
  | append_singleton ts t ih =>
    rw [List.map_append, List.map_singleton, joinArgs_concat, ih, layouts_append, roots_append,
      Nat.zero_add, length_layouts, length_layout, layouts, layouts, roots, roots, List.append_nil,
      layout_eq_shift (sizes ts) t]

/-! ### Subtrees -/

/-- Every position of a laid out tree is the root of a subtree, laid out right there. -/
theorem exists_subtree (t : ExprTree) : ∀ n i, t.wellFormed = true → i < t.size →
    ∃ pre u post, t.layout n = pre ++ layout (n + pre.length) u ++ post ∧ u.wellFormed = true ∧
      i + 1 = pre.length + u.size := by
  induction t using ExprTree.rec (motive_2 := fun ts => ∀ n i, wellFormeds ts = true → i < sizes ts →
    ∃ pre u post, layouts n ts = pre ++ layout (n + pre.length) u ++ post ∧ u.wellFormed = true ∧
      i + 1 = pre.length + u.size) with
  | node e args ih =>
    intro n i hwf hi
    by_cases hroot : i = sizes args
    · exact ⟨[], node e args, [], by simp, hwf, by simp [size, hroot]⟩
    · rw [wellFormed, Bool.and_eq_true] at hwf
      rw [size] at hi
      obtain ⟨pre, u, post, heq, hu, hlen⟩ := ih n i hwf.2 (by omega)
      exact ⟨pre, u, post ++ [e.withOperands (roots n args)], by simp [layout, heq], hu, hlen⟩
  | nil n i _ hi => exact absurd hi (Nat.not_lt_zero i)
  | cons t ts ih ihs n i hwf hi =>
    rw [wellFormeds, Bool.and_eq_true] at hwf
    rw [sizes] at hi
    by_cases hfirst : i < t.size
    · obtain ⟨pre, u, post, heq, hu, hlen⟩ := ih n i hwf.1 hfirst
      exact ⟨pre, u, post ++ layouts (n + t.size) ts, by simp [layouts, heq], hu, hlen⟩
    · obtain ⟨pre, u, post, heq, hu, hlen⟩ := ihs (n + t.size) (i - t.size) hwf.2 (by omega)
      refine ⟨t.layout n ++ pre, u, post, ?_, hu, ?_⟩
      · rw [layouts, heq, List.length_append, length_layout]
        simp [Nat.add_assoc]
      · rw [List.length_append, length_layout]
        omega

end ExprTree

/-- A postfix expression in which the operands of each node are the roots of the
subtrees right before it. -/
def IsTree (exp : Expression) : Prop := ∃ t : ExprTree, t.wellFormed = true ∧ exp = t.layout 0

/-- Whether an operator takes that many operands. -/
def OperatorKind.takes (n : ℕ) : OperatorKind → Bool
  | .and | .or | .plus | .times => true
  | .not => n = 1
  | .eq | .le | .lt | .minus | .div => n = 2

namespace ExprTree

mutual

/-- Every operator has as many arguments as it takes. -/
def proper : ExprTree → Bool
  | node (.operator kind _) args => kind.takes args.length && propers args
  | node _ args => propers args

def propers : List ExprTree → Bool
  | [] => true
  | t :: ts => proper t && propers ts

end

end ExprTree

theorem IsTree.ne_nil {exp : Expression} (h : IsTree exp) : exp ≠ [] := by
  obtain ⟨t, -, rfl⟩ := h
  exact t.layout_ne_nil 0

/-- A tree whose operators have their operands: what the converter yields. -/
def IsExpression (exp : Expression) : Prop :=
  ∃ t : ExprTree, t.wellFormed = true ∧ t.proper = true ∧ exp = t.layout 0

namespace ExprTree

theorem propers_iff {ts : List ExprTree} : propers ts = true ↔ ∀ t ∈ ts, t.proper = true := by
  induction ts with
  | nil => simp [propers]
  | cons t ts ih => simp [propers, ih]

end ExprTree

theorem IsExpression.isTree {exp : Expression} (h : IsExpression exp) : IsTree exp := by
  obtain ⟨t, hwf, -, heq⟩ := h
  exact ⟨t, hwf, heq⟩

theorem exists_trees {xs : List Expression} (h : ∀ x ∈ xs, IsExpression x) :
    ∃ ts : List ExprTree, (∀ t ∈ ts, t.wellFormed = true) ∧ (∀ t ∈ ts, t.proper = true) ∧
      xs = ts.map (ExprTree.layout 0) := by
  induction xs with
  | nil => exact ⟨[], by simp, by simp, rfl⟩
  | cons x xs ih =>
    obtain ⟨t, hwf, hproper, rfl⟩ := h x List.mem_cons_self
    obtain ⟨ts, hwfs, hpropers, rfl⟩ := ih fun y hy => h y (List.mem_cons_of_mem _ hy)
    refine ⟨t :: ts, fun u hu => ?_, fun u hu => ?_, rfl⟩
    · rcases List.mem_cons.mp hu with rfl | hu
      · exact hwf
      · exact hwfs u hu
    · rcases List.mem_cons.mp hu with rfl | hu
      · exact hproper
      · exact hpropers u hu

end TamerLite
