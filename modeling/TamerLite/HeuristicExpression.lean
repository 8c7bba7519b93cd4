import TamerLite.LinearPolynomials

/-! The conditions of the heuristic: conjunctions and disjunctions of leaves, in
postfix order, and how an expression is converted into one. -/

namespace TamerLite

inductive HeuristicNode
  | leaf (expression : Expression)
  | and (n : ℕ)
  | or (n : ℕ)
deriving DecidableEq, Repr

abbrev HeuristicExpression := List HeuristicNode

/-- The loop of `_convert_to_heuristic_expression`; the stack's top comes first. -/
def convertLoop (exp : Expression) :
    ℕ → List (ℕ × Bool) → HeuristicExpression → Option HeuristicExpression
  | _, [], result => some result
  | 0, _ :: _, _ => none
  | fuel + 1, (idx, processed) :: stack, result =>
    match exp[idx]? with
    | none => none
    | some (.constant (.bool true)) => convertLoop exp fuel stack (result ++ [.and 0])
    | some (.constant v) => convertLoop exp fuel stack (result ++ [.leaf [.constant v]])
    | some (.fluent f) => convertLoop exp fuel stack (result ++ [.leaf [.fluent f]])
    | some (.operator .and operands) =>
      if processed then convertLoop exp fuel stack (result ++ [.and operands.length])
      else convertLoop exp fuel (operands.reverse.map (·, false) ++ (idx, true) :: stack) result
    | some (.operator .or operands) =>
      if processed then convertLoop exp fuel stack (result ++ [.or operands.length])
      else convertLoop exp fuel (operands.reverse.map (·, false) ++ (idx, true) :: stack) result
    | some _ => convertLoop exp fuel stack (result ++ [.leaf (extractSubExpression exp idx)])

/-- Every node is on the stack at most twice. -/
def convertToHeuristicExpression (exp : Expression) : Option HeuristicExpression :=
  convertLoop exp (2 * exp.length) [(exp.length - 1, false)] []

/-! ### Truth -/

/-- What a node does to the stack of truth values. -/
def truthStep (truth : Expression → Bool) (stack : List Bool) : HeuristicNode → List Bool
  | .leaf e => truth e :: stack
  | .and n => (stack.take n).all id :: stack.drop n
  | .or n => (stack.take n).any id :: stack.drop n

/-- Whether a condition is true, given which leaves are. -/
def HeuristicExpression.isTrue (truth : Expression → Bool) (h : HeuristicExpression) : Option Bool :=
  match h.foldl (truthStep truth) [] with
  | [b] => some b
  | _ => none

/-- A condition that leaves one truth value on the stack. -/
def Computes (truth : Expression → Bool) (h : HeuristicExpression) (b : Bool) : Prop :=
  ∀ stack, h.foldl (truthStep truth) stack = b :: stack

section Truth

variable {truth : Expression → Bool} {h : HeuristicExpression}

theorem Computes.isTrue {b : Bool} (hb : Computes truth h b) : h.isTrue truth = some b := by
  rw [HeuristicExpression.isTrue, hb []]

theorem computes_leaf (e : Expression) : Computes truth [.leaf e] (truth e) := fun _ => rfl

/-- Conditions one after another leave their values, the last one on top. -/
theorem foldl_flatten {hs : List HeuristicExpression} {bs : List Bool}
    (h : List.Forall₂ (Computes truth) hs bs) (stack : List Bool) :
    hs.flatten.foldl (truthStep truth) stack = bs.reverse ++ stack := by
  induction h generalizing stack with
  | nil => rfl
  | cons hb _ ih => rw [List.flatten_cons, List.foldl_append, hb, ih, List.reverse_cons, List.append_assoc,
      List.singleton_append]

theorem computes_and {hs : List HeuristicExpression} {bs : List Bool}
    (h : List.Forall₂ (Computes truth) hs bs) :
    Computes truth (hs.flatten ++ [.and hs.length]) (bs.all id) := by
  intro stack
  rw [List.foldl_append, foldl_flatten h, h.length_eq, ← List.length_reverse]
  simp [truthStep]

theorem computes_or {hs : List HeuristicExpression} {bs : List Bool}
    (h : List.Forall₂ (Computes truth) hs bs) :
    Computes truth (hs.flatten ++ [.or hs.length]) (bs.any id) := by
  intro stack
  rw [List.foldl_append, foldl_flatten h, h.length_eq, ← List.length_reverse]
  simp [truthStep]

end Truth

/-! ### The converted tree -/

namespace ExprTree

mutual

/-- What a tree is converted into: the operands of a connective from the last one to
the first, and then the connective. -/
def heuristic : ExprTree → HeuristicExpression
  | node (.constant (.bool true)) _ => [.and 0]
  | node (.operator .and _) args => (heuristics args).reverse.flatten ++ [.and args.length]
  | node (.operator .or _) args => (heuristics args).reverse.flatten ++ [.or args.length]
  | node e args => [.leaf (layout 0 (node e args))]

def heuristics : List ExprTree → List HeuristicExpression
  | [] => []
  | t :: ts => heuristic t :: heuristics ts

end

mutual

/-- How many turns the loop takes for a tree. -/
def turns : ExprTree → ℕ
  | node (.operator .and _) args => turnsAll args + 2
  | node (.operator .or _) args => turnsAll args + 2
  | node _ _ => 1

def turnsAll : List ExprTree → ℕ
  | [] => 0
  | t :: ts => turns t + turnsAll ts

end

theorem turns_le (t : ExprTree) : t.turns ≤ 2 * t.size := by
  induction t using ExprTree.rec (motive_2 := fun ts => turnsAll ts ≤ 2 * sizes ts) with
  | node e args ih =>
    rw [size]
    cases e with
    | operator kind operands =>
      cases kind with
      | and | or =>
        rw [turns]
        omega
      | _ =>
        simp only [turns]
        omega
    | _ =>
      simp only [turns]
      omega
  | nil => exact Nat.zero_le _
  | cons t ts ih ihs =>
    rw [turnsAll, sizes]
    omega

@[simp] theorem length_heuristics (ts : List ExprTree) : (heuristics ts).length = ts.length := by
  induction ts with
  | nil => rfl
  | cons t ts ih => rw [heuristics, List.length_cons, List.length_cons, ih]

@[simp] theorem convertLoop_nil (exp : Expression) (fuel : ℕ) (result : HeuristicExpression) :
    convertLoop exp fuel [] result = some result := by
  cases fuel <;> rfl

theorem getElem?_root {exp pre post : Expression} {e : ExpressionNode} {args : List ExprTree}
    (hexp : exp = pre ++ (node e args).layout pre.length ++ post) :
    exp[pre.length + (node e args).size - 1]? = some (e.withOperands (roots pre.length args)) := by
  rw [hexp, layout, size, show pre.length + (sizes args + 1) - 1 = pre.length + sizes args by omega,
    List.append_assoc, List.append_assoc, List.getElem?_append_right (by omega),
    Nat.add_sub_cancel_left, List.getElem?_append_right (by simp)]
  simp

/-- The loop converts a laid out tree whose root is on top of the stack. -/
theorem convertLoop_layout {exp : Expression} (t : ExprTree) : ∀ (pre post : Expression) (fuel : ℕ)
    (stack : List (ℕ × Bool)) (result : HeuristicExpression), t.wellFormed = true →
    exp = pre ++ t.layout pre.length ++ post →
    convertLoop exp (t.turns + fuel) ((pre.length + t.size - 1, false) :: stack) result =
      convertLoop exp fuel stack (result ++ t.heuristic) := by
  induction t using ExprTree.rec (motive_2 := fun ts => ∀ (pre post : Expression) (fuel : ℕ)
    (stack : List (ℕ × Bool)) (result : HeuristicExpression), wellFormeds ts = true →
    exp = pre ++ layouts pre.length ts ++ post →
    convertLoop exp (turnsAll ts + fuel) ((roots pre.length ts).reverse.map (·, false) ++ stack) result =
      convertLoop exp fuel stack (result ++ (heuristics ts).reverse.flatten)) with
  | node e args ih =>
    intro pre post fuel stack result hwf hexp
    have hroot := getElem?_root hexp
    have hextract := extractSubExpression_layout (i := pre.length + (node e args).size - 1) hwf hexp
      (by have := (node e args).size_pos; omega)
    rw [wellFormed, Bool.and_eq_true] at hwf
    have hargs := fun fuel stack result =>
      ih pre ([e.withOperands (roots pre.length args)] ++ post) fuel stack result hwf.2
        (by rw [hexp, layout]; simp)
    cases e with
    | constant v =>
      obtain rfl := List.isEmpty_iff.mp hwf.1
      rw [turns, Nat.add_comm, convertLoop, hroot]
      · cases v with
        | bool b => cases b <;> rfl
        | num | object => rfl
      · simp
      · simp
    | fluent f =>
      obtain rfl := List.isEmpty_iff.mp hwf.1
      rw [turns, Nat.add_comm, convertLoop, hroot]
      · rfl
      · simp
      · simp
    | interpretedFunction fn rt operands =>
      rw [turns, Nat.add_comm, convertLoop, hroot]
      · show convertLoop exp fuel stack (result ++ [.leaf (extractSubExpression exp _)]) = _
        rw [hextract, heuristic]
        all_goals simp
      · simp
      · simp
    | operator kind operands =>
      have hloop : ∀ (fuel : ℕ) (stack : List (ℕ × Bool)) (result : HeuristicExpression)
          (processed : Bool),
          convertLoop exp (fuel + 1) ((pre.length + (node (.operator kind operands) args).size - 1,
            processed) :: stack) result =
          if kind = .and ∨ kind = .or then
            if processed then
              convertLoop exp fuel stack (result ++
                [if kind = .and then .and args.length else .or args.length])
            else convertLoop exp fuel ((roots pre.length args).reverse.map (·, false) ++
              (pre.length + (node (.operator kind operands) args).size - 1, true) :: stack) result
          else convertLoop exp fuel stack (result ++
            [.leaf (extractSubExpression exp
              (pre.length + (node (.operator kind operands) args).size - 1))]) := by
        intro fuel stack result processed
        rw [convertLoop, hroot]
        cases kind <;> simp [ExpressionNode.withOperands]
      by_cases hkind : kind = .and ∨ kind = .or
      · have hturns : (node (.operator kind operands) args).turns + fuel =
            turnsAll args + (fuel + 1) + 1 := by
          rcases hkind with rfl | rfl <;> rw [turns] <;> omega
        rw [hturns, hloop, if_pos hkind, if_neg Bool.false_ne_true, hargs, hloop, if_pos hkind,
          if_pos rfl, List.append_assoc]
        congr 2
        rcases hkind with rfl | rfl <;> rfl
      · have hleaf : (node (.operator kind operands) args).turns = 1 ∧
            (node (.operator kind operands) args).heuristic =
              [.leaf (layout 0 (node (.operator kind operands) args))] := by
          cases kind <;> simp_all [turns, heuristic]
        rw [hleaf.1, hleaf.2, Nat.add_comm, hloop, if_neg hkind, hextract]
  | nil pre post fuel stack result _ _ =>
    rw [turnsAll, Nat.zero_add]
    simp [roots, heuristics]
  | cons t ts ih ihs pre post fuel stack result hwf hexp =>
    rw [wellFormeds, Bool.and_eq_true] at hwf
    rw [layouts] at hexp
    have hpos : (pre ++ t.layout pre.length).length = pre.length + t.size := by simp
    have hts := ihs (pre ++ t.layout pre.length) post (t.turns + fuel)
      ((pre.length + t.size - 1, false) :: stack) result hwf.2 (by rw [hpos, hexp]; simp)
    rw [hpos] at hts
    have ht := ih pre (layouts (pre.length + t.size) ts ++ post) fuel stack
      (result ++ (heuristics ts).reverse.flatten) hwf.1 (by rw [hexp]; simp)
    rw [turnsAll, show t.turns + turnsAll ts + fuel = turnsAll ts + (t.turns + fuel) by omega, roots,
      List.reverse_cons, List.map_append, List.append_assoc]
    refine (hts.trans ht).trans ?_
    rw [heuristics, List.reverse_cons, List.flatten_append, List.append_assoc]
    simp

/-- An expression is converted into what its tree is. -/
theorem convertToHeuristicExpression_layout {t : ExprTree} (hwf : t.wellFormed = true) :
    convertToHeuristicExpression (t.layout 0) = some t.heuristic := by
  have hle := t.turns_le
  have hexp : t.layout 0 = [] ++ t.layout 0 ++ [] := by simp
  have h := convertLoop_layout t [] [] (2 * t.size - t.turns) [] [] hwf hexp
  rw [show t.turns + (2 * t.size - t.turns) = 2 * t.size by omega, convertLoop_nil] at h
  rw [convertToHeuristicExpression, length_layout]
  simpa using h

variable [Callables] {core : Core} {assignments : Assignments}

/-- The converted tree is true when the tree is. -/
theorem computes_heuristic (t : ExprTree) : ∀ v, t.wellFormed = true →
    t.value core (getValue assignments) = some v →
    Computes (core.holds · assignments) t.heuristic (core.isTrue v) := by
  induction t using ExprTree.rec (motive_2 := fun ts => ∀ vs, wellFormeds ts = true →
    values core (getValue assignments) ts = some vs →
    List.Forall₂ (Computes (core.holds · assignments)) (heuristics ts) (vs.map core.isTrue)) with
  | node e args ih =>
    intro v hwf hv
    have hleaf : Computes (core.holds · assignments) [.leaf ((node e args).layout 0)] (core.isTrue v) := by
      have h : Computes (core.holds · assignments) [.leaf ((node e args).layout 0)]
          (core.holds ((node e args).layout 0) assignments) := computes_leaf _
      rw [holds_layout hwf, hv] at h
      exact h
    rw [wellFormed, Bool.and_eq_true] at hwf
    rw [value, Option.bind_eq_some_iff] at hv
    obtain ⟨vs, hvs, hv⟩ := hv
    have hargs := List.rel_reverse (ih vs hwf.2 hvs)
    have htrue : ∀ b : Bool, core.isTrue (.bool b) = b := by
      intro b
      cases core <;> cases b <;> rfl
    cases e with
    | operator kind operands =>
      cases kind with
      | and =>
        obtain rfl := Option.some.inj hv
        have h := computes_and hargs
        rw [List.length_reverse, length_heuristics] at h
        rw [heuristic, htrue]
        simpa [List.all_map, Function.comp_def] using h
      | or =>
        obtain rfl := Option.some.inj hv
        have h := computes_or hargs
        rw [List.length_reverse, length_heuristics] at h
        rw [heuristic, htrue]
        simpa [List.any_map, Function.comp_def] using h
      | _ => exact hleaf
    | constant c =>
      cases c with
      | bool b =>
        cases b with
        | true =>
          obtain rfl := Option.some.inj hv
          rw [htrue]
          exact fun stack => rfl
        | false => exact hleaf
      | num | object => exact hleaf
    | fluent | interpretedFunction => exact hleaf
  | nil vs _ hvs =>
    obtain rfl := Option.some.inj hvs
    exact .nil
  | cons t ts ih ihs vs hwf hvs =>
    rw [wellFormeds, Bool.and_eq_true] at hwf
    rw [values_cons, Option.bind_eq_some_iff] at hvs
    obtain ⟨v, hv, hvs⟩ := hvs
    obtain ⟨vs', hvs', rfl⟩ := Option.map_eq_some_iff.mp hvs
    exact .cons (ih v hwf.1 hv) (ihs vs' hwf.2 hvs')

end ExprTree

end TamerLite
