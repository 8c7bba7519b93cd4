import Mathlib.Data.Int.Log
import TamerLite.Dict
import TamerLite.SubExpressions

/-! The linear polynomials the heuristic extracts from numeric expressions: they
have the values of the expressions. -/

namespace TamerLite

/-- Coefficients of fluents; `none` is the key of the constant term. -/
abbrev LinearPolynomial := Dict (Option Fluent) ℚ

namespace LinearPolynomial

def constant (q : ℚ) : LinearPolynomial := .singleton none q

def ofFluent (f : Fluent) : LinearPolynomial := .singleton (some f) 1

/-- `is_constant`, with the constant. -/
def isConstant (p : LinearPolynomial) : Option ℚ :=
  match p.entries with
  | [(none, q)] => some q
  | _ => none

/-- Zero coefficients are dropped, but not a zero constant. -/
def simplify (p : LinearPolynomial) : LinearPolynomial := p.filter fun k v => v ≠ 0 || k = none

/-- `operands[1] - operands[0]`, in place. -/
def subtract (p q : LinearPolynomial) : LinearPolynomial :=
  simplify (q.entries.foldl (fun r e => r.modify e.1 (fun v => v - e.2) 0) p)

def add (r p : LinearPolynomial) : LinearPolynomial :=
  p.entries.foldl (fun r e => r.modify e.1 (fun v => v + e.2) 0) r

/-- The sum of operands; the Rust core starts from the first one popped. -/
def sum : Core → List LinearPolynomial → Option LinearPolynomial
  | .python, ps => some (simplify (ps.foldl add .empty))
  | .rust, [] => none
  | .rust, p :: ps => some (simplify (ps.foldl add p))

/-- Division by a constant that is not zero. -/
def divide (p divisor : LinearPolynomial) : Option LinearPolynomial :=
  match isConstant divisor with
  | none => none
  | some q => if q = 0 then none else some (p.mapValues (· / q))

/-- The loop over factors: the product of the constants and the one other factor. -/
def factors (constMultiplier : ℚ) (polynomial : Option LinearPolynomial) :
    List LinearPolynomial → Option (ℚ × Option LinearPolynomial)
  | [] => some (constMultiplier, polynomial)
  | p :: ps =>
    match isConstant p, polynomial with
    | some q, _ => factors (constMultiplier * q) polynomial ps
    | none, some _ => none
    | none, none => factors constMultiplier (some p) ps

def product (ps : List LinearPolynomial) : Option LinearPolynomial :=
  match factors 1 none ps with
  | none => none
  | some (c, none) => some (constant c)
  | some (c, some p) => if c = 0 then some (constant c) else some (p.mapValues (· * c))

/-- What an operator makes of the operands it pops, the last one first. -/
def operate (core : Core) : OperatorKind → List LinearPolynomial → Option LinearPolynomial
  | .minus, q :: p :: _ => some (subtract p q)
  | .plus, ps => sum core ps
  | .div, q :: p :: _ => divide p q
  | .times, ps => product ps
  | _, _ => none

/-- One turn of the loop; the stack's top comes first. -/
def step (core : Core) (res : List LinearPolynomial) : ExpressionNode → Option (List LinearPolynomial)
  | .constant v => (core.number v).map fun q => constant q :: res
  | .fluent f => some (ofFluent f :: res)
  | .operator kind operands =>
    if operands.length ≤ res.length then
      (operate core kind (res.take operands.length)).map (· :: res.drop operands.length)
    else none
  | .interpretedFunction .. => none

end LinearPolynomial

/-- `_to_linear_polynomial`, before the Rust core rounds the coefficients; `none` when the
expression is not linear. -/
def toLinearPolynomial (core : Core) (exp : Expression) : Option LinearPolynomial :=
  match exp.foldlM (LinearPolynomial.step core) [] with
  | some [p] => some p
  | _ => none

namespace LinearPolynomial

/-! ### The operations keep the values -/

/-- What a key is worth in a state. -/
def worth (core : Core) (get : Fluent → Option ConstantNode) : Option Fluent → ℚ
  | none => 1
  | some f => ((get f).bind core.number).getD 0

/-- The value of a polynomial in a state. -/
def value (core : Core) (get : Fluent → Option ConstantNode) (p : LinearPolynomial) : ℚ :=
  p.linearSum (worth core get)

section Values

variable (core : Core) (get : Fluent → Option ConstantNode) (p q : LinearPolynomial)

@[simp] theorem value_constant (c : ℚ) : (constant c).value core get = c := by
  simp [value, constant, worth]

@[simp] theorem value_ofFluent (f : Fluent) :
    (ofFluent f).value core get = ((get f).bind core.number).getD 0 := by
  simp [value, ofFluent, worth]

@[simp] theorem value_simplify : (simplify p).value core get = p.value core get := by
  refine p.linearSum_filter _ _ fun k v hv => ?_
  simp only [ne_eq, decide_not, Bool.or_eq_false_iff, Bool.not_eq_eq_eq_not, Bool.not_false,
    decide_eq_true_eq] at hv
  exact hv.1

theorem value_subtract : (subtract p q).value core get = p.value core get - q.value core get := by
  rw [subtract, value_simplify]
  show Dict.linearSum _ _ = _
  rw [Dict.linearSum_merge _ (-1) (fun w v => v - w) (by intro w v; ring)]
  show _ + -1 * q.linearSum _ = p.linearSum _ - q.linearSum _
  ring

theorem value_add : (add p q).value core get = p.value core get + q.value core get := by
  show Dict.linearSum _ _ = _
  rw [add, Dict.linearSum_merge _ 1 (fun w v => v + w) (by intro w v; ring), one_mul]
  rfl

theorem value_foldl_add (ps : List LinearPolynomial) : (ps.foldl add p).value core get =
    p.value core get + (ps.map (value core get)).sum := by
  induction ps generalizing p with
  | nil => simp
  | cons q ps ih => rw [List.foldl_cons, ih, value_add, List.map_cons, List.sum_cons, add_assoc]

variable {core get p q}

theorem value_sum {ps : List LinearPolynomial} (h : sum core ps = some p) :
    p.value core get = (ps.map (value core get)).sum := by
  cases core with
  | python =>
    obtain rfl := Option.some.inj h
    rw [value_simplify, value_foldl_add]
    exact zero_add _
  | rust =>
    match ps, h with
    | q :: ps, h =>
      obtain rfl := Option.some.inj h
      rw [value_simplify, value_foldl_add, List.map_cons, List.sum_cons]

theorem value_of_isConstant {c : ℚ} (h : isConstant p = some c) : p.value core get = c := by
  unfold isConstant at h
  split at h
  · next he =>
    obtain rfl := Option.some.inj h
    rw [value, Dict.linearSum, he]
    simp [worth]
  · cases h

theorem value_divide {r : LinearPolynomial} (h : divide p q = some r) :
    r.value core get = p.value core get / q.value core get := by
  unfold divide at h
  split at h
  · cases h
  · next c hc =>
    split_ifs at h with hzero
    obtain rfl := Option.some.inj h
    rw [value_of_isConstant hc, div_eq_mul_inv]
    exact p.linearSum_mapValues _ c⁻¹ _ fun v => div_eq_mul_inv v c

/-- The product of the factors seen so far. -/
def pending (core : Core) (get : Fluent → Option ConstantNode) (c : ℚ) :
    Option LinearPolynomial → ℚ
  | none => c
  | some p => c * p.value core get

theorem value_factors (core : Core) (get : Fluent → Option ConstantNode)
    {ps : List LinearPolynomial} {c c' : ℚ} {o o' : Option LinearPolynomial}
    (h : factors c o ps = some (c', o')) :
    pending core get c' o' = pending core get c o * (ps.map (value core get)).prod := by
  induction ps generalizing c o with
  | nil =>
    obtain ⟨rfl, rfl⟩ := Prod.mk.inj (Option.some.inj h)
    simp
  | cons p ps ih =>
    rw [List.map_cons, List.prod_cons]
    cases hp : isConstant p with
    | some q =>
      simp only [factors, hp] at h
      rw [ih h, value_of_isConstant hp]
      cases o with
      | none => exact mul_assoc c q _
      | some r =>
        simp only [pending]
        ring
    | none =>
      cases o with
      | some r => simp [factors, hp] at h
      | none =>
        simp only [factors, hp] at h
        rw [ih h]
        exact mul_assoc c _ _

theorem value_product {ps : List LinearPolynomial} (h : product ps = some p) :
    p.value core get = (ps.map (value core get)).prod := by
  unfold product at h
  split at h
  · cases h
  · next c hc =>
    obtain rfl := Option.some.inj h
    have hv := value_factors core get hc
    rw [value_constant]
    simpa [pending] using hv
  · next c r hc =>
    have hv := value_factors core get hc
    simp only [pending, one_mul] at hv
    split_ifs at h with hzero
    · obtain rfl := Option.some.inj h
      rw [value_constant, ← hv, hzero, zero_mul]
    · obtain rfl := Option.some.inj h
      rw [← hv, mul_comm c]
      exact r.linearSum_mapValues _ c _ fun v => rfl

end Values

/-! ### Soundness -/

section Soundness

variable {core : Core} {get : Fluent → Option ConstantNode}

theorem number_num (core : Core) (x : ℚ) : core.number (.num x) = some x := by
  cases core <;> rfl

variable [Callables]

/-- The polynomial has the number the tree stands for, if it stands for one. -/
def Sound (core : Core) (get : Fluent → Option ConstantNode) (t : ExprTree)
    (p : LinearPolynomial) : Prop :=
  ∀ v x, t.value core get = some v → core.number v = some x → p.value core get = x

theorem Sound.values {ts : List ExprTree} {ps : List LinearPolynomial} {vs : List ConstantNode}
    {xs : List ℚ} (h : List.Forall₂ (Sound core get) ts ps)
    (hvs : ExprTree.values core get ts = some vs) (hxs : vs.mapM core.number = some xs) :
    ps.map (value core get) = xs := by
  induction h generalizing vs xs with
  | nil =>
    obtain rfl := Option.some.inj hvs
    exact Option.some.inj hxs
  | @cons t p ts ps ht _ ih =>
    rw [ExprTree.values_cons, Option.bind_eq_some_iff] at hvs
    obtain ⟨v, hv, hvs⟩ := hvs
    obtain ⟨vs', hvs', rfl⟩ := Option.map_eq_some_iff.mp hvs
    simp only [List.mapM_cons, Option.bind_eq_bind, Option.bind_eq_some_iff] at hxs
    obtain ⟨x, hx, xs', hxs', hxs⟩ := hxs
    obtain rfl := Option.some.inj hxs
    rw [List.map_cons, ht v x hv hx, ih hvs' hxs']

/-- A comparison, a difference or a quotient has the value its numbers give it. -/
theorem value_arithmetic {kind : OperatorKind} {operands : List ℕ} {t t' : ExprTree}
    {v : ConstantNode} (hkind : kind = .le ∨ kind = .lt ∨ kind = .minus ∨ kind = .div)
    (h : (ExprTree.node (.operator kind operands) [t, t']).value core get = some v) :
    ∃ w w' x x', t.value core get = some w ∧ t'.value core get = some w' ∧
      core.number w = some x ∧ core.number w' = some x' ∧ Core.arithmetic kind x x' = some v := by
  rw [ExprTree.value, ExprTree.values_cons, ExprTree.values_cons] at h
  cases hw : t.value core get with
  | none => simp [hw] at h
  | some w =>
    cases hw' : t'.value core get with
    | none => simp [hw, hw'] at h
    | some w' =>
      rw [hw, hw'] at h
      obtain ⟨u, u', rest, x, x', hu, hx, hx', hv⟩ := core.exists_of_arithmetic hkind h
      obtain ⟨rfl, rfl, -⟩ : w = u ∧ w' = u' ∧ [] = rest := by simpa using hu
      exact ⟨w, w', x, x', rfl, rfl, hx, hx', hv⟩

/-- An operation on sound operands is sound. -/
theorem sound_operate {kind : OperatorKind} {operands : List ℕ} {ts : List ExprTree}
    {ps : List LinearPolynomial} {p : LinearPolynomial} (htakes : kind.takes ts.length = true)
    (hps : List.Forall₂ (Sound core get) ts ps) (h : operate core kind ps.reverse = some p) :
    Sound core get (.node (.operator kind operands) ts) p := by
  intro v x hv hx
  have hsum : ∀ xs : List ℚ, xs.foldr (Core.combine .plus) (Core.unit .plus) = xs.sum := by
    intro xs
    induction xs with
    | nil => rfl
    | cons y xs ih => rw [List.foldr_cons, ih, List.sum_cons]; rfl
  have hprod : ∀ xs : List ℚ, xs.foldr (Core.combine .times) (Core.unit .times) = xs.prod := by
    intro xs
    induction xs with
    | nil => rfl
    | cons y xs ih => rw [List.foldr_cons, ih, List.prod_cons]; rfl
  cases kind with
  | plus =>
    rw [ExprTree.value, Option.bind_eq_some_iff] at hv
    obtain ⟨vs, hvs, hv⟩ := hv
    cases vs with
    | nil => cases hv
    | cons w vs =>
      obtain ⟨xs, hxs, rfl⟩ := Option.map_eq_some_iff.mp hv
      rw [number_num, Option.some.injEq] at hx
      rw [value_sum h, List.map_reverse, List.sum_reverse, Sound.values hps hvs hxs, ← hsum, hx]
  | times =>
    rw [ExprTree.value, Option.bind_eq_some_iff] at hv
    obtain ⟨vs, hvs, hv⟩ := hv
    cases vs with
    | nil => cases hv
    | cons w vs =>
      obtain ⟨xs, hxs, rfl⟩ := Option.map_eq_some_iff.mp hv
      rw [number_num, Option.some.injEq] at hx
      rw [value_product h, List.map_reverse, List.prod_reverse, Sound.values hps hvs hxs, ← hprod, hx]
  | minus =>
    obtain ⟨t, t', rfl⟩ := List.length_eq_two.mp (of_decide_eq_true htakes)
    obtain ⟨q, qs, ht, hqs, rfl⟩ := List.forall₂_cons_left_iff.mp hps
    obtain ⟨q', qs', ht', hqs', rfl⟩ := List.forall₂_cons_left_iff.mp hqs
    obtain rfl := List.forall₂_nil_left_iff.mp hqs'
    obtain ⟨w, w', y, y', hw, hw', hy, hy', hv⟩ := value_arithmetic (by simp) hv
    obtain rfl := Option.some.inj h
    obtain rfl := Option.some.inj hv
    rw [number_num, Option.some.injEq] at hx
    rw [value_subtract, ht w y hw hy, ht' w' y' hw' hy', hx]
  | div =>
    obtain ⟨t, t', rfl⟩ := List.length_eq_two.mp (of_decide_eq_true htakes)
    obtain ⟨q, qs, ht, hqs, rfl⟩ := List.forall₂_cons_left_iff.mp hps
    obtain ⟨q', qs', ht', hqs', rfl⟩ := List.forall₂_cons_left_iff.mp hqs
    obtain rfl := List.forall₂_nil_left_iff.mp hqs'
    obtain ⟨w, w', y, y', hw, hw', hy, hy', hv⟩ := value_arithmetic (by simp) hv
    rw [Core.arithmetic, Option.ite_none_left_eq_some] at hv
    obtain rfl := Option.some.inj hv.2
    rw [number_num, Option.some.injEq] at hx
    rw [value_divide h, ht w y hw hy, ht' w' y' hw' hy', hx]
  | _ => simp [operate] at h

/-- Processing a laid out tree puts a sound polynomial on the stack. -/
theorem foldlM_layout (t : ExprTree) : ∀ n (res r : List LinearPolynomial),
    t.wellFormed = true → t.proper = true → (t.layout n).foldlM (step core) res = some r →
    ∃ p, r = p :: res ∧ Sound core get t p := by
  induction t using ExprTree.rec (motive_2 := fun ts => ∀ n (res r : List LinearPolynomial),
    ExprTree.wellFormeds ts = true → ExprTree.propers ts = true →
    (ExprTree.layouts n ts).foldlM (step core) res = some r →
    ∃ ps, r = ps.reverse ++ res ∧ List.Forall₂ (Sound core get) ts ps) with
  | node e args ih =>
    intro n res r hwf hproper h
    rw [ExprTree.wellFormed, Bool.and_eq_true] at hwf
    rw [ExprTree.layout, List.foldlM_append] at h
    obtain ⟨r', hr', h⟩ := Option.bind_eq_some_iff.mp h
    rw [List.foldlM_cons, Option.bind_eq_bind, Option.bind_eq_some_iff] at h
    obtain ⟨r'', hstep, h⟩ := h
    obtain rfl := Option.some.inj h
    cases e with
    | constant c =>
      obtain rfl := List.isEmpty_iff.mp hwf.1
      obtain rfl := Option.some.inj hr'
      obtain ⟨q, hq, rfl⟩ := Option.map_eq_some_iff.mp hstep
      refine ⟨constant q, rfl, fun v x hv hx => ?_⟩
      obtain rfl := Option.some.inj hv
      rw [value_constant]
      exact Option.some.inj (hq.symm.trans hx)
    | fluent f =>
      obtain rfl := List.isEmpty_iff.mp hwf.1
      obtain rfl := Option.some.inj hr'
      obtain rfl := Option.some.inj hstep
      refine ⟨ofFluent f, rfl, fun v x hv hx => ?_⟩
      have hget : get f = some v := hv
      rw [value_ofFluent, hget, Option.bind_some, hx]
      rfl
    | interpretedFunction fn rt operands => cases hstep
    | operator kind operands =>
      rw [ExprTree.proper, Bool.and_eq_true] at hproper
      obtain ⟨ps, rfl, hps⟩ := ih n res r' hwf.2 hproper.2 hr'
      have hlen : (ExprTree.roots n args).length = ps.reverse.length := by
        rw [ExprTree.length_roots, List.length_reverse, hps.length_eq]
      simp only [ExpressionNode.withOperands, step, hlen, List.length_append,
        Nat.le_add_right, if_true, List.take_left, List.drop_left] at hstep
      obtain ⟨p, hp, rfl⟩ := Option.map_eq_some_iff.mp hstep
      exact ⟨p, rfl, sound_operate hproper.1 hps hp⟩
  | nil n res r _ _ h =>
    obtain rfl := Option.some.inj h
    exact ⟨[], rfl, .nil⟩
  | cons t ts ih ihs n res r hwf hproper h =>
    rw [ExprTree.wellFormeds, Bool.and_eq_true] at hwf
    rw [ExprTree.propers, Bool.and_eq_true] at hproper
    rw [ExprTree.layouts, List.foldlM_append] at h
    obtain ⟨r', hr', h⟩ := Option.bind_eq_some_iff.mp h
    obtain ⟨p, rfl, hp⟩ := ih n res r' hwf.1 hproper.1 hr'
    obtain ⟨ps, rfl, hps⟩ := ihs _ (p :: res) r hwf.2 hproper.2 h
    exact ⟨p :: ps, by simp, .cons hp hps⟩

/-- The polynomial of an expression has its value. -/
theorem toLinearPolynomial_sound (get : Fluent → Option ConstantNode) {t : ExprTree}
    {p : LinearPolynomial}
    (hwf : t.wellFormed = true) (hproper : t.proper = true)
    (h : toLinearPolynomial core (t.layout 0) = some p) : Sound core get t p := by
  unfold toLinearPolynomial at h
  split at h
  · next q hq =>
    obtain rfl := Option.some.inj h
    obtain ⟨p', hp', hsound⟩ := foldlM_layout t 0 [] [q] hwf hproper hq
    obtain rfl : q = p' := (List.cons.inj hp').1
    exact hsound
  · cases h

end Soundness

end LinearPolynomial

/-! ### Numeric effects -/

inductive NumericEffect
  | constantAssign (value : ℚ)
  | constantIncrease (k : ℚ)
  | complex (value : Expression)
deriving DecidableEq

/-- `_update_numeric_effects`: what kind of effect it takes one to be. -/
def updateNumericEffects (effect : Effect) : NumericEffect :=
  match effect.value with
  | [.constant (.num q)] => .constantAssign q
  | [.constant (.bool b)] => .constantAssign (if b then 1 else 0)
  | value =>
    match toLinearPolynomial .python value with
    | none => .complex value
    | some p =>
      let rest := p.erase none
      if rest.entries.length = 1 ∧ (rest.get? (some effect.fluent)).getD 0 = 1 then
        .constantIncrease ((p.get? none).getD 0)
      else .complex value

/-! ### Simple numeric conditions -/

/-- The fluents of a linear condition and their weights, the constant term last. -/
structure SimpleCondition where
  fluents : List Fluent
  weights : List ℚ
  isLt : Bool
deriving DecidableEq

namespace SimpleCondition

def ofPolynomial (p : LinearPolynomial) (isLt : Bool) : SimpleCondition where
  fluents := (p.erase none).entries.filterMap Prod.fst
  weights := (p.erase none).entries.map Prod.snd ++ [(p.get? none).getD 0]
  isLt := isLt

/-- The weights as floats, where the conversion does not overflow. -/
def toFloats (float : ℚ → Option ℚ) (c : SimpleCondition) : Option SimpleCondition :=
  (c.weights.mapM float).map fun weights => { c with weights := weights }

/-- The weighted sum in a state. -/
def sum (core : Core) (get : Fluent → Option ConstantNode) (c : SimpleCondition) : ℚ :=
  (c.fluents.zipWith (fun f w => w * LinearPolynomial.worth core get (some f)) c.weights).sum +
    c.weights.getLast?.getD 0

/-- The weighted sum is below zero, or at most zero. -/
def holds (core : Core) (get : Fluent → Option ConstantNode) (c : SimpleCondition) : Prop :=
  if c.isLt then c.sum core get < 0 else c.sum core get ≤ 0

end SimpleCondition

/-- `_extract_fluents_weights_simple_numeric_condition`. -/
def extractFluentsWeights (core : Core) (float : ℚ → Option ℚ) (exp : Expression) :
    Option SimpleCondition :=
  match exp.getLast? with
  | some (.operator kind operands) =>
    if kind = .lt ∨ kind = .le then do
      let p ← toLinearPolynomial core (exp.dropLast ++ [.operator .minus operands])
      (SimpleCondition.ofPolynomial p (kind = .lt)).toFloats float
    else none
  | _ => none

namespace SimpleCondition

variable {core : Core} {get : Fluent → Option ConstantNode} {p : LinearPolynomial}

/-- The weighted sum of a polynomial's condition is the polynomial's value. -/
theorem sum_ofPolynomial (isLt : Bool) :
    (ofPolynomial p isLt).sum core get = p.value core get := by
  have hkeys : ∀ e ∈ (p.erase none).entries, e.1 ≠ none := by
    intro e he
    simpa using (List.mem_filter.mp he).2
  have hsum : ∀ (l : List (Option Fluent × ℚ)) (k : ℚ), (∀ e ∈ l, e.1 ≠ none) →
      ((l.filterMap Prod.fst).zipWith (fun f w => w * LinearPolynomial.worth core get (some f))
        (l.map Prod.snd ++ [k])).sum =
      (l.map fun e => e.2 * LinearPolynomial.worth core get e.1).sum := by
    intro l k hl
    induction l with
    | nil => rfl
    | cons e l ih =>
      obtain ⟨f, hf⟩ := Option.ne_none_iff_exists'.mp (hl e List.mem_cons_self)
      rw [List.filterMap_cons_some hf, List.map_cons, List.cons_append, List.zipWith_cons_cons,
        List.sum_cons, List.map_cons, List.sum_cons, hf,
        ih fun e' he' => hl e' (List.mem_cons_of_mem e he')]
  rw [sum, LinearPolynomial.value, p.linearSum_erase _ none]
  simp only [ofPolynomial, List.getLast?_concat, Option.getD_some]
  rw [hsum _ _ hkeys]
  exact congrArg _ (mul_one _).symm

end SimpleCondition

section Meaning

variable {core : Core} {assignments : Assignments} {exp : Expression}

theorem toFloats_eq {float : ℚ → Option ℚ} {c exact : SimpleCondition}
    (h : exact.toFloats float = some c) (hfloat : ∀ w ∈ exact.weights, float w = some w) :
    c = exact := by
  have hmap : ∀ ws : List ℚ, (∀ w ∈ ws, float w = some w) → ws.mapM float = some ws := by
    intro ws
    induction ws with
    | nil => exact fun _ => rfl
    | cons w ws ih =>
      intro hws
      rw [List.mapM_cons, hws w List.mem_cons_self,
        ih fun w' hw' => hws w' (List.mem_cons_of_mem w hw')]
      rfl
  rw [SimpleCondition.toFloats, hmap _ hfloat] at h
  exact (Option.some.inj h).symm

variable [Callables]

/-- What has a polynomial is a fluent or stands for a number. -/
theorem number_isSome {t : ExprTree} {p : LinearPolynomial} {get : Fluent → Option ConstantNode}
    {v : ConstantNode} (hwf : t.wellFormed = true)
    (h : toLinearPolynomial core (t.layout 0) = some p) (hv : t.value core get = some v) :
    (∃ f, t = .node (.fluent f) []) ∨ ∃ x, core.number v = some x := by
  obtain ⟨e, args⟩ := t
  rw [ExprTree.wellFormed, Bool.and_eq_true] at hwf
  rw [ExprTree.value, Option.bind_eq_some_iff] at hv
  obtain ⟨vs, -, hv⟩ := hv
  unfold toLinearPolynomial at h
  split at h
  · next q hq =>
    rw [ExprTree.layout, List.foldlM_append] at hq
    obtain ⟨r, -, hq⟩ := Option.bind_eq_some_iff.mp hq
    rw [List.foldlM_cons, Option.bind_eq_bind, Option.bind_eq_some_iff] at hq
    obtain ⟨r', hstep, -⟩ := hq
    cases e with
    | fluent f => exact .inl ⟨f, by rw [List.isEmpty_iff.mp hwf.1]⟩
    | constant c =>
      obtain ⟨x, hx, -⟩ := Option.map_eq_some_iff.mp hstep
      obtain rfl := Option.some.inj hv
      exact .inr ⟨x, hx⟩
    | interpretedFunction fn rt operands => cases hstep
    | operator kind operands =>
      refine .inr ?_
      cases kind with
      | plus | times =>
        cases vs with
        | nil => cases hv
        | cons w vs =>
          obtain ⟨xs, -, rfl⟩ := Option.map_eq_some_iff.mp hv
          exact ⟨_, LinearPolynomial.number_num core _⟩
      | minus =>
        obtain ⟨w, w', rest, x, x', -, -, -, hv⟩ := core.exists_of_arithmetic (by simp) hv
        obtain rfl := Option.some.inj hv
        exact ⟨_, LinearPolynomial.number_num core _⟩
      | div =>
        obtain ⟨w, w', rest, x, x', -, -, -, hv⟩ := core.exists_of_arithmetic (by simp) hv
        obtain ⟨-, hv⟩ := Option.ite_none_left_eq_some.mp hv
        obtain rfl := Option.some.inj hv
        exact ⟨_, LinearPolynomial.number_num core _⟩
      | and | or | not | eq | le | lt =>
        simp only [ExpressionNode.withOperands, LinearPolynomial.step, LinearPolynomial.operate] at hstep
        split_ifs at hstep
        cases hstep
  · cases h

/-- A constant increase by `k` adds exactly `k`. -/
theorem value_constantIncrease {effect : Effect} {k x : ℚ} {v w : ConstantNode}
    (hexp : IsExpression effect.value) (h : updateNumericEffects effect = .constantIncrease k)
    (hv : evaluate effect.value assignments = some v)
    (hw : getValue assignments effect.fluent = some w) (hx : w.toNum = some x) :
    v.toNum = some (x + k) := by
  obtain ⟨t, hwf, hproper, heq⟩ := hexp
  unfold updateNumericEffects at h
  split at h
  · cases h
  · cases h
  · split at h
    · cases h
    · next p hp =>
      simp only at h
      split_ifs at h with hone
      obtain rfl := NumericEffect.constantIncrease.inj h
      obtain ⟨hlen, hcoef⟩ := hone
      obtain ⟨⟨f, c⟩, he⟩ := List.length_eq_one_iff.mp hlen
      have hget : (p.erase none).get? (some effect.fluent) = some 1 := by
        cases hg : (p.erase none).get? (some effect.fluent) with
        | none => simp [hg] at hcoef
        | some c' => rw [hg] at hcoef; exact congrArg some hcoef
      have hmem := Dict.get?_eq_some_iff.mp hget
      rw [he, List.mem_singleton] at hmem
      obtain ⟨rfl, rfl⟩ := Prod.mk.inj hmem
      have hvalue : p.value .python (getValue assignments) = x + (p.get? none).getD 0 := by
        rw [LinearPolynomial.value, p.linearSum_erase _ none, Dict.linearSum, he]
        simp only [List.map_singleton, List.sum_singleton, one_mul, LinearPolynomial.worth, mul_one,
          hw, Option.bind_some]
        rw [show Core.python.number w = some x from hx]
        rfl
      rw [heq] at hp hv
      rw [← Core.evaluate_python, ExprTree.evaluate_layout _ hwf] at hv
      have hsound := LinearPolynomial.toLinearPolynomial_sound (getValue assignments) hwf hproper hp
      obtain ⟨y, hy⟩ : ∃ y, Core.python.number v = some y := by
        rcases number_isSome hwf hp hv with ⟨g, rfl⟩ | hnum
        · obtain rfl : LinearPolynomial.ofFluent g = p := Option.some.inj hp
          have hfluent : g = effect.fluent := by
            have hentries : [(some g, (1 : ℚ))] = [(some effect.fluent, 1)] := he
            simpa using hentries
          have hgw : getValue assignments g = some v := hv
          rw [hfluent, hw] at hgw
          obtain rfl := Option.some.inj hgw
          exact ⟨x, hx⟩
        · exact hnum
      rw [← hvalue, hsound v y hv hy]
      exact hy

/-- A condition with fluents and weights is true exactly when the sum weighted by the
polynomial's coefficients is below, or at most, zero. -/
theorem holds_ofPolynomial {t t' : ExprTree} {operands : List ℕ} {kind : OperatorKind}
    {p : LinearPolynomial} {v : ConstantNode} (hkind : kind = .lt ∨ kind = .le)
    (hwf : (ExprTree.node (.operator kind operands) [t, t']).wellFormed = true)
    (hproper : (ExprTree.node (.operator kind operands) [t, t']).proper = true)
    (h : toLinearPolynomial core ((ExprTree.node (.operator .minus operands) [t, t']).layout 0) = some p)
    (hv : (ExprTree.node (.operator kind operands) [t, t']).value core (getValue assignments) = some v) :
    v = .bool true ↔ (SimpleCondition.ofPolynomial p (kind = .lt)).holds core (getValue assignments) := by
  obtain ⟨w, w', x, x', hw, hw', hx, hx', harith⟩ :=
    LinearPolynomial.value_arithmetic (by tauto) hv
  have hminus : (ExprTree.node (.operator .minus operands) [t, t']).value core (getValue assignments) =
      some (.num (x - x')) := by
    rw [ExprTree.value, ExprTree.values_cons, ExprTree.values_cons, hw, hw']
    show (do Core.arithmetic .minus (← core.number w) (← core.number w')) = _
    rw [hx, hx']
    rfl
  have hproper' : (ExprTree.node (.operator .minus operands) [t, t']).proper = true := by
    rw [ExprTree.proper, Bool.and_eq_true] at hproper ⊢
    exact ⟨rfl, hproper.2⟩
  have hsound := LinearPolynomial.toLinearPolynomial_sound (getValue assignments)
    (t := .node (.operator .minus operands) [t, t']) hwf hproper' h
  have hsum : p.value core (getValue assignments) = x - x' :=
    hsound _ _ hminus (LinearPolynomial.number_num core _)
  rw [SimpleCondition.holds, SimpleCondition.sum_ofPolynomial, hsum]
  rcases hkind with rfl | rfl
  · obtain rfl := Option.some.inj harith
    simp [SimpleCondition.ofPolynomial]
  · obtain rfl := Option.some.inj harith
    simp [SimpleCondition.ofPolynomial]

theorem extractFluentsWeights_spec {float : ℚ → Option ℚ} {c : SimpleCondition}
    (hexp : IsExpression exp) (h : extractFluentsWeights core float exp = some c) :
    ∃ exact : SimpleCondition, exact.toFloats float = some c ∧ ∀ assignments v,
      core.evaluate exp assignments = some v →
      (v = .bool true ↔ exact.holds core (getValue assignments)) := by
  obtain ⟨⟨e, args⟩, hwf, hproper, rfl⟩ := hexp
  rw [extractFluentsWeights, ExprTree.layout, List.getLast?_concat] at h
  cases e with
  | operator kind operands =>
    simp only [ExpressionNode.withOperands, List.dropLast_concat] at h
    split_ifs at h with hkind
    simp only [Option.bind_eq_bind, Option.bind_eq_some_iff] at h
    obtain ⟨p, hp, hc⟩ := h
    have htakes : kind.takes args.length = true := by
      rw [ExprTree.proper, Bool.and_eq_true] at hproper
      exact hproper.1
    have htwo : args.length = 2 := by
      rcases hkind with rfl | rfl <;> exact of_decide_eq_true htakes
    obtain ⟨t, t', rfl⟩ := List.length_eq_two.mp htwo
    refine ⟨_, hc, fun assignments v hv => ?_⟩
    rw [ExprTree.evaluate_layout core hwf] at hv
    exact holds_ofPolynomial hkind hwf hproper hp hv
  | fluent | constant | interpretedFunction => cases h

/-- Polynomials have the values of their expressions; constant increases add exactly their
constants; and a simple condition is true exactly when the sum weighted by the coefficients,
before they become floats, is below or at most zero. -/
theorem linear_polynomials_sound (core : Core) (float : ℚ → Option ℚ) :
    (∀ exp p, IsExpression exp → toLinearPolynomial core exp = some p → ∀ assignments v x,
      core.evaluate exp assignments = some v → core.number v = some x →
      p.value core (getValue assignments) = x) ∧
    (∀ (effect : Effect) k, IsExpression effect.value →
      updateNumericEffects effect = .constantIncrease k → ∀ assignments v w x,
      evaluate effect.value assignments = some v →
      getValue assignments effect.fluent = some w → w.toNum = some x → v.toNum = some (x + k)) ∧
    ∀ exp c, IsExpression exp → extractFluentsWeights core float exp = some c →
      ∃ exact : SimpleCondition, exact.toFloats float = some c ∧
        ((∀ w ∈ exact.weights, float w = some w) → c = exact) ∧ ∀ assignments v,
        core.evaluate exp assignments = some v →
        (v = .bool true ↔ exact.holds core (getValue assignments)) := by
  refine ⟨fun exp p hexp h assignments v x hv hx => ?_, fun effect k hexp h assignments v w x hv hw hx =>
    value_constantIncrease hexp h hv hw hx, fun exp c hexp h => ?_⟩
  · obtain ⟨t, hwf, hproper, rfl⟩ := hexp
    rw [ExprTree.evaluate_layout core hwf] at hv
    exact LinearPolynomial.toLinearPolynomial_sound _ hwf hproper h v x hv hx
  · obtain ⟨exact, hexact, hholds⟩ := extractFluentsWeights_spec hexp h
    exact ⟨exact, hexact, toFloats_eq hexact, hholds⟩

end Meaning

section Counter

attribute [local instance] Callables.empty

def counterPlus : Expression := [.fluent ⟨0⟩, .constant (.num 2), .operator .plus [0, 1]]

def counterBelow : Expression := [.fluent ⟨0⟩, .constant (.num 3), .operator .lt [0, 1]]

theorem linear_polynomials_sound_counter :
    (∃ p, toLinearPolynomial .python counterPlus = some p ∧
      p.value .python (getValue [.num 5]) = 7) ∧
    (∃ v, evaluate counterPlus [.num 5] = some v ∧ v.toNum = some (5 + 2)) ∧
    ∃ c exact : SimpleCondition, extractFluentsWeights .python some counterBelow = some c ∧
      exact.toFloats some = some c ∧ (true = true ↔ exact.holds .python (getValue [.num 1])) := by
  obtain ⟨hvalue, hincrease, hcondition⟩ := linear_polynomials_sound .python some
  have hplus : IsExpression counterPlus :=
    ⟨.node (.operator .plus []) [.node (.fluent ⟨0⟩) [], .node (.constant (.num 2)) []], rfl, rfl, rfl⟩
  have hbelow : IsExpression counterBelow :=
    ⟨.node (.operator .lt []) [.node (.fluent ⟨0⟩) [], .node (.constant (.num 3)) []], rfl, rfl, rfl⟩
  obtain ⟨p, hp⟩ : ∃ p, toLinearPolynomial .python counterPlus = some p := ⟨_, rfl⟩
  obtain ⟨c, hc⟩ : ∃ c, extractFluentsWeights .python some counterBelow = some c :=
    Option.isSome_iff_exists.mp (by decide +kernel)
  refine ⟨⟨p, hp, ?_⟩, ⟨.num 7, by decide +kernel, ?_⟩, ?_⟩
  · exact hvalue counterPlus p hplus hp [.num 5] (.num 7) 7 (by decide +kernel) rfl
  · exact hincrease ⟨⟨0⟩, counterPlus⟩ 2 hplus (by decide +kernel) [.num 5] (.num 7) (.num 5) 5
      (by decide +kernel) rfl rfl
  · obtain ⟨exact, hexact, -, hholds⟩ := hcondition counterBelow c hbelow hc
    refine ⟨c, exact, hc, hexact, ?_⟩
    have := hholds [.num 1] (.bool true) (by decide +kernel)
    simpa using this

end Counter

/-! ### Doubles -/

def roundHalfEven (x : ℚ) : ℤ :=
  if x - ⌊x⌋ < 1 / 2 then ⌊x⌋
  else if 1 / 2 < x - ⌊x⌋ then ⌊x⌋ + 1
  else if ⌊x⌋ % 2 = 0 then ⌊x⌋ else ⌊x⌋ + 1

/-- Python's `float` of a number: the nearest double, ties to even; `none` on overflow. -/
def double (q : ℚ) : Option ℚ :=
  if q = 0 then some 0
  else
    let ulp : ℚ := 2 ^ (max (Int.log 2 |q|) (-1022) - 52)
    let r := roundHalfEven (q / ulp) * ulp
    if 2 ^ 1024 ≤ |r| then none else some r

section Counter

attribute [local instance] Callables.empty

/-- A fluent is below a number that is no double. -/
def belowCondition : Expression :=
  [.fluent ⟨0⟩, .constant (.num (2 ^ 53 + 1)), .operator .lt [0, 1]]

/-- The constant is rounded to the fluent's value, so the sum is not below zero. -/
theorem below_rounded : extractFluentsWeights .python double belowCondition =
      some ⟨[⟨0⟩], [1, -2 ^ 53], true⟩ ∧
    Core.evaluate .python belowCondition [.num (2 ^ 53)] = some (.bool true) ∧
    ¬ (SimpleCondition.mk [⟨0⟩] [1, -2 ^ 53] true).holds .python (getValue [.num (2 ^ 53)]) := by
  refine ⟨by decide +kernel, by decide +kernel, ?_⟩
  norm_num [SimpleCondition.holds, SimpleCondition.sum, LinearPolynomial.worth, getValue, Core.number,
    ConstantNode.toNum]

end Counter

end TamerLite
