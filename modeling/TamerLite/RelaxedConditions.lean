import TamerLite.RelaxedLoop
import TamerLite.RelaxedOperators

/-! The conditions of a delete-relaxation heuristic are formulas, and its leaves
are of few kinds. -/

namespace TamerLite

/-! ### Formulas -/

def IsFormula (h : HeuristicExpression) : Prop := ∃ f : Formula, h = f.nodes

theorem isFormula_leaf (e : Expression) : IsFormula [.leaf e] := ⟨.leaf e, rfl⟩

theorem exists_formulas {hs : List HeuristicExpression} (h : ∀ h ∈ hs, IsFormula h) :
    ∃ fs : List Formula, hs.flatten = Formula.nodesAll fs ∧ fs.length = hs.length := by
  induction hs with
  | nil => exact ⟨[], rfl, rfl⟩
  | cons h' hs ih =>
    obtain ⟨f, rfl⟩ := h h' List.mem_cons_self
    obtain ⟨fs, hfs, hlen⟩ := ih fun h'' hh => h h'' (List.mem_cons_of_mem _ hh)
    exact ⟨f :: fs, by rw [List.flatten_cons, hfs, Formula.nodesAll], by simp [hlen]⟩

theorem isFormula_and {hs : List HeuristicExpression} (h : ∀ h ∈ hs, IsFormula h) :
    IsFormula (hs.flatten ++ [.and hs.length]) := by
  obtain ⟨fs, hfs, hlen⟩ := exists_formulas h
  exact ⟨.and fs, by rw [Formula.nodes, hfs, hlen]⟩

theorem isFormula_or {hs : List HeuristicExpression} (h : ∀ h ∈ hs, IsFormula h) :
    IsFormula (hs.flatten ++ [.or hs.length]) := by
  obtain ⟨fs, hfs, hlen⟩ := exists_formulas h
  exact ⟨.or fs, by rw [Formula.nodes, hfs, hlen]⟩

theorem IsFormula.ne_nil {h : HeuristicExpression} (hf : IsFormula h) : h ≠ [] := by
  obtain ⟨f, rfl⟩ := hf
  cases f <;> simp [Formula.nodes]

theorem isFormula_conjunction {hs : List HeuristicExpression} (hne : hs ≠ []) (h : ∀ h ∈ hs, IsFormula h) :
    IsFormula (conjunction hs) := by
  have hfilter : hs.filter (fun p => !p.isEmpty) = hs := by
    rw [List.filter_eq_self]
    intro h' hh
    simpa using (h h' hh).ne_nil
  rw [conjunction, hfilter]
  split_ifs with hlen
  · exact isFormula_and h
  · obtain ⟨h', rfl⟩ := List.length_eq_one_iff.mp
      (le_antisymm (not_lt.mp hlen) (List.length_pos_iff.mpr hne))
    simpa using h h' List.mem_cons_self

/-- A converted tree is a formula. -/
theorem ExprTree.isFormula_heuristic (t : ExprTree) : IsFormula t.heuristic := by
  induction t using ExprTree.rec (motive_2 := fun ts => ∀ h ∈ heuristics ts, IsFormula h) with
  | node e args ih =>
    have hrev : ∀ h ∈ (heuristics args).reverse, IsFormula h := fun h hh => ih h (List.mem_reverse.mp hh)
    have hlen : (heuristics args).reverse.length = args.length := by simp
    cases e with
    | operator kind operands =>
      cases kind with
      | and =>
        have h := isFormula_and hrev
        rwa [hlen] at h
      | or =>
        have h := isFormula_or hrev
        rwa [hlen] at h
      | _ => exact isFormula_leaf _
    | constant v =>
      cases v with
      | bool b =>
        cases b with
        | true => exact ⟨.and [], rfl⟩
        | false => exact isFormula_leaf _
      | num | object => exact isFormula_leaf _
    | fluent | interpretedFunction => exact isFormula_leaf _
  | nil h hh => cases hh
  | cons t ts ih ihs h hh =>
    rw [heuristics] at hh
    rcases List.mem_cons.mp hh with rfl | hh
    · exact ih
    · exact ihs h hh

section Simplify

variable {core : Core} {domains : List FluentDomain} {disable : Bool} {h h' : HeuristicExpression}

theorem isFormula_disjunction {hs : List HeuristicExpression} (h : ∀ h ∈ hs, IsFormula h) :
    IsFormula (disjunction hs) := by
  match hs, h with
  | [], _ => exact isFormula_leaf _
  | [h'], h => exact h h' List.mem_cons_self
  | h₁ :: h₂ :: hs, h => exact isFormula_or h

theorem isFormula_bothEqual (f1 f2 : Fluent) (o1 o2 : Object) : IsFormula (bothEqual f1 f2 o1 o2) :=
  ⟨.and [.leaf (equalsObject f1 o1), .leaf (equalsObject f2 o2)], rfl⟩

theorem isFormula_simplifyNumeric {e : Expression} (hs : simplifyNumericLeafNode core e = some h) :
    IsFormula h := by
  unfold simplifyNumericLeafNode at hs
  split at hs
  · exact keepLinear_eq hs ▸ ⟨.and [.leaf _, .leaf _], rfl⟩
  · split at hs
    · exact keepLinear_eq hs ▸ ⟨.or [.leaf _, .leaf _], rfl⟩
    · exact keepLinear_eq hs ▸ isFormula_leaf _
    · exact keepLinear_eq hs ▸ isFormula_leaf _
    · cases hs
  · cases hs

theorem isFormula_simplifyLeaf {e : Expression} (hs : simplifyLeaf core domains e disable = some (some h)) :
    IsFormula h := by
  rw [simplifyLeaf] at hs
  by_cases hif : hasInterpretedFunction e = true
  · rw [if_pos hif] at hs
    cases hs
  · rw [if_neg hif, Option.bind_eq_bind, Option.bind_eq_some_iff] at hs
    obtain ⟨b, -, hs⟩ := hs
    cases b with
    | true =>
      cases disable with
      | true => cases hs
      | false => exact isFormula_simplifyNumeric (Option.some.inj hs)
    | false =>
      rw [if_neg Bool.false_ne_true, Option.bind_eq_bind, Option.bind_eq_some_iff] at hs
      obtain ⟨r, hr, hs⟩ := hs
      cases r with
      | some h' =>
        obtain rfl : h' = h := Option.some.inj (Option.some.inj hs)
        unfold simplifyFluentNotEqualsObject at hr
        split at hr
        · obtain ⟨objs, -, hr⟩ := Option.map_eq_some_iff.mp hr
          obtain rfl := Option.some.inj hr
          refine isFormula_disjunction fun h hh => ?_
          obtain ⟨o, -, rfl⟩ := List.mem_map.mp hh
          exact isFormula_leaf _
        · cases hr
      | none =>
        have hs : simplifyObjectEquality domains e = some h := Option.some.inj hs
        unfold simplifyObjectEquality at hs
        split at hs
        · simp only [Option.bind_eq_bind, Option.bind_eq_some_iff] at hs
          obtain ⟨objs1, -, objs2, -, hs⟩ := hs
          obtain rfl := Option.some.inj hs
          refine isFormula_disjunction fun h hh => ?_
          obtain ⟨o, -, rfl⟩ := List.mem_map.mp hh
          exact isFormula_bothEqual ..
        · simp only [Option.bind_eq_bind, Option.bind_eq_some_iff] at hs
          obtain ⟨objs1, -, objs2, -, hs⟩ := hs
          obtain rfl := Option.some.inj hs
          refine isFormula_disjunction fun h hh => ?_
          obtain ⟨o1, -, hh⟩ := List.mem_flatMap.mp hh
          obtain ⟨o2, -, rfl⟩ := List.mem_map.mp hh
          exact isFormula_bothEqual ..
        · cases hs

/-- What a node is rewritten to; the inner `none` keeps it. -/
def simplifyNode (core : Core) (domains : List FluentDomain) (disable : Bool) :
    HeuristicNode → Option (Option HeuristicExpression)
  | .leaf e => simplifyLeaf core domains e disable
  | _ => some none

theorem simplifyCondition_cons {node : HeuristicNode} :
    simplifyCondition core domains disable (node :: h) = some h' ↔
      ∃ new rest, simplifyNode core domains disable node = some new ∧
        simplifyCondition core domains disable h = some rest ∧ h' = new.getD [node] ++ rest := by
  have hdef : simplifyCondition core domains disable (node :: h) =
      (simplifyNode core domains disable node).bind fun new =>
        (simplifyCondition core domains disable h).bind fun rest => some (new.getD [node] ++ rest) := by
    cases node <;> rfl
  rw [hdef]
  simp only [Option.bind_eq_some_iff, Option.some.injEq, exists_and_left]
  exact exists_congr fun new => and_congr_right fun _ => exists_congr fun rest =>
    and_congr_right fun _ => eq_comm

theorem simplifyCondition_append {h₁ h₂ : HeuristicExpression} :
    simplifyCondition core domains disable (h₁ ++ h₂) = some h' →
    ∃ h₁' h₂', simplifyCondition core domains disable h₁ = some h₁' ∧
      simplifyCondition core domains disable h₂ = some h₂' ∧ h' = h₁' ++ h₂' := by
  induction h₁ generalizing h' with
  | nil => exact fun hs => ⟨[], h', rfl, hs, rfl⟩
  | cons node h₁ ih =>
    intro hs
    obtain ⟨new, rest, hnew, hrest, rfl⟩ := simplifyCondition_cons.mp hs
    obtain ⟨h₁', h₂', hh₁, hh₂, rfl⟩ := ih hrest
    exact ⟨new.getD [node] ++ h₁', h₂', simplifyCondition_cons.mpr ⟨new, h₁', hnew, hh₁, rfl⟩, hh₂,
      (List.append_assoc ..).symm⟩

theorem simplifyCondition_singleton {node : HeuristicNode}
    (hs : simplifyCondition core domains disable [node] = some h') :
    ∃ new, simplifyNode core domains disable node = some new ∧ h' = new.getD [node] := by
  obtain ⟨new, rest, hnew, hrest, rfl⟩ := simplifyCondition_cons.mp hs
  obtain rfl : rest = [] := (Option.some.inj hrest).symm
  exact ⟨new, hnew, List.append_nil _⟩

/-- Rewriting the leaves of a formula gives a formula. -/
theorem isFormula_simplifyCondition (f : Formula) : ∀ h',
    simplifyCondition core domains disable f.nodes = some h' → IsFormula h' := by
  induction f using Formula.rec (motive_2 := fun fs => ∀ h',
    simplifyCondition core domains disable (Formula.nodesAll fs) = some h' →
    ∃ fs' : List Formula, h' = Formula.nodesAll fs' ∧ fs'.length = fs.length) with
  | leaf e =>
    intro h' hs
    obtain ⟨r, hr, rfl⟩ := simplifyCondition_singleton hs
    cases r with
    | none => exact isFormula_leaf e
    | some h => exact isFormula_simplifyLeaf hr
  | and fs ih =>
    intro h' hs
    obtain ⟨h₁, h₂, hh₁, hh₂, rfl⟩ := simplifyCondition_append hs
    obtain ⟨fs', rfl, hlen⟩ := ih h₁ hh₁
    obtain ⟨new, hnew, rfl⟩ := simplifyCondition_singleton hh₂
    obtain rfl := Option.some.inj hnew
    exact ⟨.and fs', by rw [Option.getD_none, Formula.nodes, hlen]⟩
  | or fs ih =>
    intro h' hs
    obtain ⟨h₁, h₂, hh₁, hh₂, rfl⟩ := simplifyCondition_append hs
    obtain ⟨fs', rfl, hlen⟩ := ih h₁ hh₁
    obtain ⟨new, hnew, rfl⟩ := simplifyCondition_singleton hh₂
    obtain rfl := Option.some.inj hnew
    exact ⟨.or fs', by rw [Option.getD_none, Formula.nodes, hlen]⟩
  | nil h' hs => exact ⟨[], (Option.some.inj hs).symm, rfl⟩
  | cons f fs ih ihs h' hs =>
    obtain ⟨h₁, h₂, hh₁, hh₂, rfl⟩ := simplifyCondition_append hs
    obtain ⟨f', rfl⟩ := ih h₁ hh₁
    obtain ⟨fs', rfl, hlen⟩ := ihs h₂ hh₂
    exact ⟨f' :: fs', rfl, by simp [hlen]⟩

end Simplify

end TamerLite
