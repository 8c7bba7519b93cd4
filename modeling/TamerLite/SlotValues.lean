import TamerLite.Simplify
import TamerLite.TypedOperators

/-! What the slots of a postfix expression are worth, each given by the values of
its operands. -/

namespace TamerLite

namespace Core

variable (core : Core)

/-- What an operator makes of the values of its operands. -/
def applyOperator : OperatorKind → List ConstantNode → Option ConstantNode
  | .and, vs => some (.bool (vs.all core.isTrue))
  | .or, vs => some (.bool (vs.any core.isTrue))
  | .not, v :: _ => some (.bool (core.isFalse v))
  | .eq, v :: w :: _ => some (.bool (core.equals v w))
  | .plus, v :: vs =>
    ((v :: vs).mapM core.number).map fun qs => .num (qs.foldr (combine .plus) (unit .plus))
  | .times, v :: vs =>
    ((v :: vs).mapM core.number).map fun qs => .num (qs.foldr (combine .times) (unit .times))
  | kind, v :: w :: _ => do arithmetic kind (← core.number v) (← core.number w)
  | _, _ => none

/-- A comparison, a difference or a quotient takes two numbers. -/
theorem exists_of_arithmetic {kind : OperatorKind} {vs : List ConstantNode} {v : ConstantNode}
    (hkind : kind = .le ∨ kind = .lt ∨ kind = .minus ∨ kind = .div)
    (h : core.applyOperator kind vs = some v) :
    ∃ w w' rest x x', vs = w :: w' :: rest ∧ core.number w = some x ∧ core.number w' = some x' ∧
      arithmetic kind x x' = some v := by
  rcases vs with - | ⟨w, - | ⟨w', rest⟩⟩
  · rcases hkind with rfl | rfl | rfl | rfl <;> cases h
  · rcases hkind with rfl | rfl | rfl | rfl <;> cases h
  · have hv : (do arithmetic kind (← core.number w) (← core.number w')) = some v := by
      rcases hkind with rfl | rfl | rfl | rfl <;> exact h
    simp only [Option.bind_eq_bind, Option.bind_eq_some_iff] at hv
    obtain ⟨x, hx, x', hx', hv⟩ := hv
    exact ⟨w, w', rest, x, x', rfl, hx, hx', hv⟩

theorem combine_comm (kind : OperatorKind) (x y : ℚ) : combine kind x y = combine kind y x := by
  cases kind <;> simp [combine, add_comm, mul_comm]

theorem combine_assoc (kind : OperatorKind) (x y z : ℚ) :
    combine kind (combine kind x y) z = combine kind x (combine kind y z) := by
  cases kind <;> simp [combine, add_assoc, mul_assoc]

theorem combine_unit (kind : OperatorKind) (x : ℚ) : combine kind x (unit kind) = x := by
  cases kind <;> simp [combine, unit]

instance (kind : OperatorKind) : Std.Commutative (combine kind) := ⟨combine_comm kind⟩

instance (kind : OperatorKind) : Std.Associative (combine kind) := ⟨combine_assoc kind⟩

theorem foldlM_number {kind : OperatorKind} {vs : List ConstantNode} (x : ℚ) :
    vs.foldlM (fun x w => (core.number w).map (combine kind x)) x =
      (vs.mapM core.number).map fun qs => combine kind x (qs.foldr (combine kind) (unit kind)) := by
  induction vs generalizing x with
  | nil => simp [combine_unit]
  | cons v vs ih =>
    rw [List.foldlM_cons, List.mapM_cons]
    cases core.number v with
    | none => rfl
    | some y =>
      simp only [Option.map_some, Option.bind_eq_bind, Option.bind_some, ih]
      cases vs.mapM core.number with
      | none => rfl
      | some qs => simp [combine_assoc]

theorem foldNum_eq {kind : OperatorKind} (v : ConstantNode) (vs : List ConstantNode) :
    foldNum (combine kind) (v :: vs) =
      ((v :: vs).mapM python.number).map fun qs => qs.foldr (combine kind) (unit kind) := by
  rw [List.mapM_cons]
  show (v.toNum.bind fun x => vs.foldlM (fun x w => (python.number w).map (combine kind x)) x) =
    (v.toNum.bind _).map _
  cases v.toNum with
  | none => rfl
  | some y =>
    rw [Option.bind_some, Option.bind_some, foldlM_number]
    cases vs.mapM python.number with
    | none => rfl
    | some qs => rfl

theorem equals_python (v w : ConstantNode) : python.equals v w = v.eqv w := by
  cases v with
  | bool b =>
    cases w with
    | bool b' => cases b <;> cases b' <;> rfl
    | num q => simp [equals, number, ConstantNode.eqv, ConstantNode.toNum]
    | object o => rfl
  | num q => cases w <;> simp [equals, number, ConstantNode.eqv, ConstantNode.toNum]
  | object o => cases w <;> simp [equals, number, ConstantNode.eqv, ConstantNode.toNum]

theorem applyOperator_python (kind : OperatorKind) (vs : List ConstantNode) :
    python.applyOperator kind vs = TamerLite.applyOperator kind vs := by
  match kind, vs with
  | .and, vs => rfl
  | .or, vs => rfl
  | .not, [] => rfl
  | .not, v :: vs => rfl
  | .eq, [] => rfl
  | .eq, [v] => rfl
  | .eq, v :: w :: vs => exact congrArg (fun b => some (ConstantNode.bool b)) (equals_python v w)
  | .plus, [] => rfl
  | .plus, v :: vs =>
    have h := @foldNum_eq .plus v vs
    rw [TamerLite.applyOperator, show (fun x y : ℚ => x + y) = combine .plus from rfl, h,
      Option.map_map]
    rfl
  | .times, [] => rfl
  | .times, v :: vs =>
    have h := @foldNum_eq .times v vs
    rw [TamerLite.applyOperator, show (fun x y : ℚ => x * y) = combine .times from rfl, h,
      Option.map_map]
    rfl
  | .le, [] | .le, [_] | .lt, [] | .lt, [_] => rfl
  | .minus, [] | .minus, [_] | .div, [] | .div, [_] => rfl
  | .le, v :: w :: vs | .lt, v :: w :: vs | .minus, v :: w :: vs => rfl
  | .div, v :: w :: vs => rfl

variable {core} {kind : OperatorKind} {res vs : List ConstantNode} {operands : List ℕ}

theorem evalOperatorRust_of_values (h : Operands res operands vs) :
    evalOperatorRust kind operands res = rust.applyOperator kind vs := by
  have hfold : ∀ {is us} (x : ℚ), Operands res is us →
      is.foldlM (fun x p => do return combine kind x (← rust.number (← res[p]?))) x =
        (us.mapM rust.number).map fun qs =>
          combine kind x (qs.foldr (combine kind) (unit kind)) := by
    intro is us x hu
    rw [← foldlM_number]
    induction hu generalizing x with
    | nil => rfl
    | @cons i u is us hi _ ih =>
      rw [List.foldlM_cons, List.foldlM_cons, hi]
      cases hn : rust.number u with
      | none => simp [hn]
      | some y => simpa [hn] using ih _
  cases kind with
  | and => simp only [evalOperatorRust, applyOperator, allOperands_eq h, Option.map_some]
  | or => simp only [evalOperatorRust, applyOperator, anyOperands_eq h, Option.map_some]
  | not =>
    cases h with
    | nil => rfl
    | cons hi _ => simp [evalOperatorRust, applyOperator, hi]
  | eq =>
    cases h with
    | nil => rfl
    | cons hi h =>
      cases h with
      | nil => simp [evalOperatorRust, applyOperator]
      | cons hj _ => simp [evalOperatorRust, applyOperator, hi, hj]
  | plus | times =>
    cases h with
    | nil => rfl
    | @cons i v is vs hi h =>
      simp only [evalOperatorRust, applyOperator, hi, Option.bind_eq_bind, Option.bind_some,
        List.mapM_cons]
      cases rust.number v with
      | none => rfl
      | some y =>
        have := hfold y h
        simp only [Option.bind_eq_bind] at this
        simp only [Option.bind_some, this]
        cases vs.mapM rust.number <;> rfl
  | le | lt | minus | div =>
    cases h with
    | nil => rfl
    | @cons i v is vs hi h =>
      cases h with
      | nil => simp [evalOperatorRust, applyOperator]
      | cons hj _ => simp [evalOperatorRust, applyOperator, hi, hj]

/-- An operator applied to positions is applied to the values there. -/
theorem evalOperator_eq (h : Operands res operands vs) :
    core.evalOperator kind operands res = core.applyOperator kind vs := by
  cases core with
  | python => rw [applyOperator_python]; exact evalOperator_of_values h.mapM
  | rust => exact evalOperatorRust_of_values h

end Core

/-! ### Slots -/

section

variable [Callables]

/-- The value of a node, from those of its operands. -/
def Core.nodeValue (core : Core) (get : Fluent → Option ConstantNode) (e : ExpressionNode)
    (vs : List ConstantNode) : Option ConstantNode :=
  match e with
  | .constant v => some v
  | .fluent f => get f
  | .interpretedFunction fn rt _ => (Callables.function fn vs).bind (ConstantNode.coerce rt)
  | .operator kind _ => core.applyOperator kind vs

/-- Every operand stands before its node. -/
def Ordered (res : Expression) : Prop :=
  ∀ {i : ℕ} {e : ExpressionNode}, res[i]? = some e → ∀ o ∈ e.operands, o < i

/-- The slots `res` have the values `vals`. -/
structure Valued (core : Core) (get : Fluent → Option ConstantNode) (res : Expression)
    (vals : List ConstantNode) : Prop where
  length : vals.length = res.length
  ordered : Ordered res
  value : ∀ {i : ℕ} {e : ExpressionNode}, res[i]? = some e →
    ∃ vs, Operands vals e.operands vs ∧ core.nodeValue get e vs = vals[i]?

end

variable {core : Core} {get : Fluent → Option ConstantNode} {res : Expression}
  {vals vs : List ConstantNode} {e : ExpressionNode} {v : ConstantNode} {is : List ℕ}

theorem Operands.lt (h : Operands vals is vs) : ∀ i ∈ is, i < vals.length := by
  induction h with
  | nil => simp
  | cons hi _ ih =>
    intro i hm
    rcases List.mem_cons.mp hm with rfl | hm
    · exact (List.getElem?_eq_some_iff.mp hi).1
    · exact ih i hm

theorem Operands.exists_of_mem (h : Operands vals is vs) (hv : v ∈ vs) :
    ∃ i ∈ is, vals[i]? = some v := by
  induction h with
  | nil => exact absurd hv List.not_mem_nil
  | @cons i w is vs hi _ ih =>
    rcases List.mem_cons.mp hv with rfl | hv
    · exact ⟨i, List.mem_cons_self, hi⟩
    · obtain ⟨j, hj, hjv⟩ := ih hv
      exact ⟨j, List.mem_cons_of_mem _ hj, hjv⟩

theorem Operands.congr {vals' : List ConstantNode} (h : Operands vals is vs)
    (hc : ∀ i ∈ is, vals'[i]? = vals[i]?) : Operands vals' is vs := by
  induction h with
  | nil => exact .nil
  | cons hi _ ih =>
    exact .cons ((hc _ List.mem_cons_self).trans hi)
      (ih fun i hm => hc i (List.mem_cons_of_mem _ hm))

theorem Operands.append (h : Operands vals is vs) (r : List ConstantNode) :
    Operands (vals ++ r) is vs :=
  h.congr fun i hi => List.getElem?_append_left (h.lt i hi)

theorem exists_operandValues (h : ∀ i ∈ is, i < vals.length) : ∃ vs, Operands vals is vs := by
  induction is with
  | nil => exact ⟨[], .nil⟩
  | cons i is ih =>
    obtain ⟨vs, hvs⟩ := ih fun j hj => h j (List.mem_cons_of_mem _ hj)
    exact ⟨_ :: vs, .cons (List.getElem?_eq_getElem (h i List.mem_cons_self)) hvs⟩

variable [Callables]

theorem evalNode_eq (h : Operands vals e.operands vs) :
    core.evalNode get vals e = core.nodeValue get e vs := by
  cases e with
  | constant | fluent => rfl
  | interpretedFunction fn rt operands =>
    show (operands.mapM (vals[·]?)).bind _ = _
    rw [show operands.mapM (vals[·]?) = some vs from h.mapM]
    rfl
  | operator kind operands => exact Core.evalOperator_eq h

namespace Valued

theorem nil : Valued core get [] [] :=
  ⟨rfl, fun h => absurd h (by simp), fun h => absurd h (by simp)⟩

theorem append (h : Valued core get res vals) (hvs : Operands vals e.operands vs)
    (hv : core.nodeValue get e vs = some v) : Valued core get (res ++ [e]) (vals ++ [v]) := by
  have hcases : ∀ {i e'}, (res ++ [e])[i]? = some e' →
      res[i]? = some e' ∨ i = res.length ∧ e' = e := by
    intro i e' hi
    rcases Nat.lt_trichotomy i res.length with hlt | rfl | hgt
    · exact .inl (List.getElem?_append_left hlt ▸ hi)
    · exact .inr ⟨rfl, by simpa using hi.symm⟩
    · rw [List.getElem?_eq_none (by simp; omega)] at hi
      contradiction
  constructor
  · simp [h.length]
  · intro i e' hi o ho
    rcases hcases hi with hi | ⟨rfl, rfl⟩
    · exact h.ordered hi o ho
    · exact h.length ▸ hvs.lt o ho
  · intro i e' hi
    rcases hcases hi with hi | ⟨rfl, rfl⟩
    · obtain ⟨us, hus, hu⟩ := h.value hi
      have hlt := (List.getElem?_eq_some_iff.mp hi).1
      exact ⟨us, hus.append _, by rw [hu, List.getElem?_append_left (h.length ▸ hlt)]⟩
    · exact ⟨vs, hvs.append _, by rw [hv, ← h.length]; simp⟩

/-- A slot no other slot refers to can be replaced by a constant. -/
theorem set (h : Valued core get res vals) {f : ℕ} (hf : ∀ e ∈ res, f ∉ e.operands)
    (c : ConstantNode) : Valued core get (res.set f (.constant c)) (vals.set f c) := by
  constructor
  · simp [h.length]
  · intro i e hi o ho
    by_cases hif : f = i
    · subst hif
      rw [List.getElem?_set_self'] at hi
      obtain ⟨e', -, rfl⟩ := Option.map_eq_some_iff.mp hi
      simp [ExpressionNode.operands] at ho
    · rw [List.getElem?_set_ne hif] at hi
      exact h.ordered hi o ho
  · intro i e hi
    by_cases hif : f = i
    · subst hif
      rw [List.getElem?_set_self'] at hi
      obtain ⟨e', he', rfl⟩ := Option.map_eq_some_iff.mp hi
      have hlt := (List.getElem?_eq_some_iff.mp he').1
      refine ⟨[], .nil, ?_⟩
      rw [List.getElem?_set_self (h.length ▸ hlt)]
      rfl
    · rw [List.getElem?_set_ne hif] at hi
      obtain ⟨us, hus, hu⟩ := h.value hi
      have hne : ∀ o ∈ e.operands, f ≠ o := by
        rintro o ho rfl
        exact hf e (List.mem_of_getElem? hi) ho
      exact ⟨us, hus.congr fun o ho => List.getElem?_set_ne (hne o ho),
        by rw [hu, List.getElem?_set_ne hif]⟩

theorem constant (h : Valued core get res vals) {i : ℕ} {c : ConstantNode}
    (hi : res[i]? = some (.constant c)) : vals[i]? = some c := by
  obtain ⟨us, -, hu⟩ := h.value hi
  exact hu.symm

theorem of_append (h : Valued core get (res ++ [e]) (vals ++ [v])) : Valued core get res vals ∧
    ∃ vs, Operands vals e.operands vs ∧ core.nodeValue get e vs = some v := by
  have hlen : vals.length = res.length := by simpa using h.length
  have hin : ∀ {i e'}, res[i]? = some e' → (res ++ [e])[i]? = some e' := fun hi =>
    (List.getElem?_append_left (List.getElem?_eq_some_iff.mp hi).1).trans hi
  have hcut : ∀ {is us}, (∀ o ∈ is, o < res.length) → Operands (vals ++ [v]) is us →
      Operands vals is us := fun his hus =>
    hus.congr fun o ho => (List.getElem?_append_left (hlen ▸ his o ho)).symm
  have hlast : (res ++ [e])[res.length]? = some e := by simp
  constructor
  · constructor
    · exact hlen
    · exact fun hi => h.ordered (hin hi)
    · intro i e' hi
      obtain ⟨us, hus, hu⟩ := h.value (hin hi)
      have hlt := (List.getElem?_eq_some_iff.mp hi).1
      rw [List.getElem?_append_left (hlen ▸ hlt)] at hu
      exact ⟨us, hcut (fun o ho => (h.ordered (hin hi) o ho).trans hlt) hus, hu⟩
  · obtain ⟨vs, hvs, hv⟩ := h.value hlast
    refine ⟨vs, hcut (h.ordered hlast) hvs, ?_⟩
    rw [hv, ← hlen]
    simp

/-- The slots of a postfix expression have the values its evaluation gives them. -/
theorem evalNodes_iff {exp : Expression} (ho : Ordered exp) :
    core.evalNodes get exp [] = some vals ↔ Valued core get exp vals := by
  induction exp using List.reverseRecOn generalizing vals with
  | nil =>
    constructor
    · intro h
      obtain rfl := Option.some.inj h
      exact nil
    · intro h
      obtain rfl := List.length_eq_zero_iff.mp h.length
      rfl
  | append_singleton exp e ih =>
    have hsub : Ordered exp := by
      intro i e' hi
      exact ho (List.getElem?_append_left (List.getElem?_eq_some_iff.mp hi).1 |>.trans hi)
    have hlast : ∀ o ∈ e.operands, o < exp.length := ho (by simp)
    rw [Core.evalNodes, List.foldlM_append, ← Core.evalNodes]
    simp only [Option.bind_eq_bind, Option.bind_eq_some_iff, ih hsub]
    constructor
    · intro h
      obtain ⟨ws, hws, h⟩ := h
      obtain ⟨vs, hvs⟩ := exists_operandValues (hws.length ▸ hlast)
      simp only [List.foldlM_cons, List.foldlM_nil, evalNode_eq hvs, Option.bind_eq_bind,
        Option.pure_def, Option.bind_fun_some, Option.map_eq_some_iff] at h
      obtain ⟨v, hv, rfl⟩ := h
      exact hws.append hvs hv
    · intro h
      obtain ⟨ws, v, rfl⟩ : ∃ ws v, vals = ws ++ [v] := by
        rcases List.eq_nil_or_concat vals with rfl | ⟨ws, v, rfl⟩
        · exact absurd h.length (by simp)
        · exact ⟨ws, v, List.concat_eq_append⟩
      obtain ⟨hws, vs, hvs, hv⟩ := h.of_append
      refine ⟨ws, hws, ?_⟩
      simp [evalNode_eq hvs, hv]

end Valued

end TamerLite
