import TamerLite.SubExpressions

/-! What the converter yields is a tree, it yields one for every expression it
supports, and in the encoding of a planning state it has the value it has there. -/

namespace TamerLite

namespace Converter

variable (C : Converter)

/-- Whether a node has a method that converts it, with the arguments it asks for. -/
def supportsNode (args : List FNode) : NodeKind → Bool
  | .and | .or | .interpretedFunctionExp .. => true
  | .not => args.length = 1
  | .plus | .times => 2 ≤ args.length
  | .minus | .div | .le | .lt | .equals => args.length = 2
  | .fluentExp f => (C.fluentIds (.node (.fluentExp f) args)).isSome
  | .objectExp o => args.isEmpty && (C.objectIds o).isSome
  | .boolConstant _ | .intConstant _ | .realConstant _ => args.isEmpty
  | _ => false

mutual

/-- A ground expression without quantifiers, implications and equivalences, whose fluents
and objects the encoding knows. -/
def supports : FNode → Bool
  | .node kind args => C.supportsNode args kind && supportsAll args

def supportsAll : List FNode → Bool
  | [] => true
  | e :: es => supports e && supportsAll es

end

/-! ### Trees -/

theorem isExpression_constant (v : ConstantNode) : IsExpression [.constant v] :=
  ⟨.node (.constant v) [], rfl, rfl, rfl⟩

theorem isExpression_walkNary {kind : OperatorKind} {xs : List Expression}
    (h : ∀ x ∈ xs, IsExpression x) (htakes : kind.takes xs.length = true) :
    IsExpression (walkNary kind xs) := by
  obtain ⟨ts, hwf, hproper, rfl⟩ := exists_trees h
  refine ⟨.node (.operator kind []) ts, ?_, ?_, ?_⟩
  · rw [ExprTree.wellFormed, Bool.and_eq_true, ExprTree.wellFormeds_iff]
    exact ⟨rfl, hwf⟩
  · rw [List.length_map] at htakes
    rw [ExprTree.proper, Bool.and_eq_true, ExprTree.propers_iff]
    exact ⟨htakes, hproper⟩
  · rw [walkNary, ExprTree.joinArgs_layouts]
    rfl

theorem isExpression_walk {args : List FNode} {kind : NodeKind} {xs : List Expression}
    {x : Expression} (hxs : ∀ x ∈ xs, IsExpression x) (h : C.walk args kind xs = some x) :
    IsExpression x := by
  cases kind with
  | and =>
    obtain rfl := Option.some.inj h
    rcases xs with - | ⟨x, - | ⟨y, xs⟩⟩
    · exact isExpression_constant (.bool true)
    · exact hxs x List.mem_cons_self
    · exact isExpression_walkNary hxs rfl
  | or =>
    obtain rfl := Option.some.inj h
    rcases xs with - | ⟨x, - | ⟨y, xs⟩⟩
    · exact isExpression_constant (.bool false)
    · exact hxs x List.mem_cons_self
    · exact isExpression_walkNary hxs rfl
  | not =>
    obtain ⟨x, rfl⟩ := C.walk_not_args h
    obtain rfl := Option.some.inj h
    exact isExpression_walkNary hxs rfl
  | plus | times =>
    simp only [walk, Option.ite_none_right_eq_some, Option.some.injEq] at h
    obtain ⟨-, rfl⟩ := h
    exact isExpression_walkNary hxs rfl
  | minus | div | le | lt =>
    obtain ⟨x, y, rfl⟩ := C.walk_binary_args (by simp) h
    obtain rfl := Option.some.inj h
    exact isExpression_walkNary hxs rfl
  | equals =>
    obtain ⟨e, e', x, y, rfl, rfl⟩ := C.walk_equals_args h
    obtain rfl := Option.some.inj h
    have hswap : ∀ z ∈ [y, x], IsExpression z := fun z hz => hxs z (by simpa [or_comm] using hz)
    unfold walkEquals
    split_ifs
    · exact isExpression_walkNary hswap rfl
    · exact isExpression_walkNary hxs rfl
  | fluentExp f =>
    obtain ⟨g, -, rfl⟩ := Option.map_eq_some_iff.mp h
    exact ⟨.node (.fluent g) [], rfl, rfl, rfl⟩
  | objectExp o =>
    cases xs with
    | cons y ys => cases h
    | nil =>
      obtain ⟨p, -, rfl⟩ := Option.map_eq_some_iff.mp h
      exact isExpression_constant _
  | boolConstant b | intConstant b | realConstant b =>
    cases xs with
    | cons y ys => cases h
    | nil =>
      obtain rfl := Option.some.inj h
      exact isExpression_constant _
  | interpretedFunctionExp fn rt =>
    obtain rfl := Option.some.inj h
    obtain ⟨ts, hwf, hproper, rfl⟩ := exists_trees hxs
    refine ⟨.node (.interpretedFunction fn rt []) ts, ?_, ?_, ?_⟩
    · rw [ExprTree.wellFormed, Bool.and_eq_true, ExprTree.wellFormeds_iff]
      exact ⟨rfl, hwf⟩
    · rw [ExprTree.proper, ExprTree.propers_iff]
      · exact hproper
      · simp
    · rw [ExprTree.joinArgs_layouts]
      rfl
  | implies | iff | quantifier | paramExp | variableExp => simp [walk] at h

theorem isExpression_convert (e : FNode) : ∀ x, C.convert e = some x → IsExpression x := by
  induction e using FNode.rec (motive_2 := fun es => ∀ xs, C.convertArgs es = some xs →
    ∀ x ∈ xs, IsExpression x) with
  | node kind args ih =>
    intro x h
    rw [convert, Option.bind_eq_some_iff] at h
    obtain ⟨xs, hxs, h⟩ := h
    exact C.isExpression_walk (ih xs hxs) h
  | nil xs h x hx =>
    obtain rfl := Option.some.inj h
    cases hx
  | cons e es ih ihs xs h y hy =>
    simp only [convertArgs, Option.bind_eq_bind, Option.bind_eq_some_iff] at h
    obtain ⟨x, hx, ys, hys, h⟩ := h
    obtain rfl := Option.some.inj h
    rcases List.mem_cons.mp hy with rfl | hy
    · exact ih y hx
    · exact ihs ys hys y hy

theorem walk_isSome {args : List FNode} {kind : NodeKind} {xs : List Expression}
    (hlen : xs.length = args.length) (h : C.supportsNode args kind = true) :
    ∃ x, C.walk args kind xs = some x := by
  cases kind with
  | and | or | interpretedFunctionExp => exact ⟨_, rfl⟩
  | not =>
    obtain ⟨x, rfl⟩ := List.length_eq_one_iff.mp (hlen.trans (of_decide_eq_true h))
    exact ⟨_, rfl⟩
  | plus | times =>
    have h2 : 2 ≤ xs.length := hlen ▸ of_decide_eq_true h
    exact ⟨_, if_pos h2⟩
  | minus | div | le | lt =>
    obtain ⟨x, y, rfl⟩ := List.length_eq_two.mp (hlen.trans (of_decide_eq_true h))
    exact ⟨_, rfl⟩
  | equals =>
    have h2 : args.length = 2 := of_decide_eq_true h
    obtain ⟨x, y, rfl⟩ := List.length_eq_two.mp (hlen.trans h2)
    obtain ⟨e, e', rfl⟩ := List.length_eq_two.mp h2
    exact ⟨_, rfl⟩
  | fluentExp f =>
    obtain ⟨g, hg⟩ := Option.isSome_iff_exists.mp h
    exact ⟨_, by rw [walk, hg]; rfl⟩
  | objectExp o =>
    obtain ⟨hargs, ho⟩ := Bool.and_eq_true_iff.mp h
    obtain rfl := List.isEmpty_iff.mp hargs
    obtain rfl := List.length_eq_zero_iff.mp hlen
    obtain ⟨p, hp⟩ := Option.isSome_iff_exists.mp ho
    exact ⟨_, by rw [walk, hp]; rfl⟩
  | boolConstant | intConstant | realConstant =>
    obtain rfl := List.isEmpty_iff.mp h
    obtain rfl := List.length_eq_zero_iff.mp hlen
    exact ⟨_, rfl⟩
  | implies | iff | quantifier | paramExp | variableExp => cases h

theorem convert_isSome (e : FNode) : C.supports e = true → ∃ x, C.convert e = some x := by
  induction e using FNode.rec (motive_2 := fun es => C.supportsAll es = true →
    ∃ xs, C.convertArgs es = some xs ∧ xs.length = es.length) with
  | node kind args ih =>
    intro h
    rw [supports, Bool.and_eq_true] at h
    obtain ⟨xs, hxs, hlen⟩ := ih h.2
    rw [convert, hxs, Option.bind_some]
    exact C.walk_isSome hlen h.1
  | nil => exact ⟨[], rfl, rfl⟩
  | cons e es ih ihs h =>
    rw [supportsAll, Bool.and_eq_true] at h
    obtain ⟨x, hx⟩ := ih h.1
    obtain ⟨xs, hxs, hlen⟩ := ihs h.2
    exact ⟨x :: xs, by rw [convertArgs, hx, hxs]; rfl, congrArg Nat.succ hlen⟩

/-! ### Planning states -/

variable [Callables]

omit C in
theorem nodeValue_congr {i j : Interpretation} (h : i.object = j.object) (kind : NodeKind) :
    nodeValue i kind = nodeValue j kind := by
  funext vs
  cases kind with
  | and | or =>
    match vs with
    | [] | [_] | _ :: _ :: _ => rfl
  | objectExp o => simp only [nodeValue, h]
  | _ => rfl

/-- Interpretations that agree on what the encoding knows give a converted expression
the same value. -/
theorem value_congr {i j : Interpretation}
    (hfluent : ∀ e f, C.fluentIds e = some f → i.fluent e = j.fluent e)
    (hobject : i.object = j.object) (e : FNode) :
    ∀ x, C.convert e = some x → e.value i = e.value j := by
  induction e using FNode.rec (motive_2 := fun es => ∀ xs, C.convertArgs es = some xs →
    FNode.values i es = FNode.values j es) with
  | node kind args ih =>
    intro x h
    rw [convert, Option.bind_eq_some_iff] at h
    obtain ⟨xs, hxs, h⟩ := h
    have hargs := ih xs hxs
    cases kind with
    | fluentExp f =>
      obtain ⟨g, hg, -⟩ := Option.map_eq_some_iff.mp h
      exact hfluent _ g hg
    | _ =>
      rw [FNode.value, FNode.value, hargs, nodeValue_congr hobject]
      · simp
      · simp
  | nil xs h => rfl
  | cons e es ih ihs xs h =>
    simp only [convertArgs, Option.bind_eq_bind, Option.bind_eq_some_iff] at h
    obtain ⟨x, hx, ys, hys, h⟩ := h
    rw [FNode.values, FNode.values, ih x hx, ihs ys hys]

end Converter

/-- What `search_state_of` reads: the fluent of each slot and the initial values. -/
structure StateEncoding where
  converter : Converter
  fluents : List FNode
  initialAssignments : Assignments
  fluentIds_iff : ∀ {e f}, converter.fluentIds e = some f ↔ fluents[f.idx]? = some e
  length : initialAssignments.length = fluents.length

namespace StateEncoding

variable (E : StateEncoding)

/-- `search_state_of`: static fluents keep their initial values. -/
def searchStateOf (state : FNode → ConstantNode) : Assignments :=
  E.fluents.zipWith (fun e v => if E.converter.isStaticFluentExp e then v else state e)
    E.initialAssignments

/-- The planning state gives the static fluents their initial values. -/
def AgreesOnStatic (state : FNode → ConstantNode) : Prop :=
  ∀ e f, E.converter.fluentIds e = some f → E.converter.isStaticFluentExp e = true →
    getValue E.initialAssignments f = some (state e)

def interpretation (state : FNode → ConstantNode) : Interpretation where
  fluent := fun e => some (state e)
  object := E.converter.objectIds

theorem getValue_searchStateOf {state : FNode → ConstantNode} (h : E.AgreesOnStatic state)
    {e : FNode} {f : Fluent} (hf : E.converter.fluentIds e = some f) :
    getValue (E.searchStateOf state) f = some (state e) := by
  have he := E.fluentIds_iff.mp hf
  have hlt : f.idx < E.initialAssignments.length :=
    E.length ▸ (List.getElem?_eq_some_iff.mp he).1
  have hv := List.getElem?_eq_getElem hlt
  rw [getValue, searchStateOf, List.getElem?_zipWith, he, hv]
  show some _ = _
  split_ifs with hs
  · rw [← hv]
    exact h e f hf hs
  · rfl

/-- What the converter yields has the expression's value in the encoding of a state. -/
theorem evaluate_searchStateOf [Callables] {state : FNode → ConstantNode}
    (h : E.AgreesOnStatic state) {e : FNode} {x : Expression} (hx : E.converter.convert e = some x) :
    evaluate x (E.searchStateOf state) = e.value (E.interpretation state) := by
  rw [E.converter.evaluate_convert _ hx]
  refine E.converter.value_congr (i := E.converter.interpretation (E.searchStateOf state))
    (j := E.interpretation state) (fun e' f hf => ?_) rfl e x hx
  show (E.converter.fluentIds e').bind (getValue (E.searchStateOf state)) = some (state e')
  rw [hf, Option.bind_some, E.getValue_searchStateOf h hf]

/-- The converter yields a tree for every expression it supports, and the tree has the
expression's value in the encoding of every planning state. -/
theorem convert_correct [Callables] (e : FNode) (h : E.converter.supports e = true) :
    ∃ x, E.converter.convert e = some x ∧ IsTree x ∧
      ∀ state, E.AgreesOnStatic state →
        evaluate x (E.searchStateOf state) = e.value (E.interpretation state) := by
  obtain ⟨x, hx⟩ := E.converter.convert_isSome e h
  exact ⟨x, hx, (E.converter.isExpression_convert e x hx).isTree,
    fun state hstate => E.evaluate_searchStateOf hstate hx⟩

section Lamp

attribute [local instance] Callables.empty

def lampOn : FNode := .node (.fluentExp ⟨"on", true⟩) []

/-- One fluent, and no objects. -/
def lampEncoding : StateEncoding where
  converter := ⟨fun e => if e = lampOn then some ⟨0⟩ else none, fun _ => none, []⟩
  fluents := [lampOn]
  initialAssignments := [.bool false]
  fluentIds_iff := by
    rintro e ⟨i⟩
    cases i with
    | zero => simp [eq_comm]
    | succ i => simp
  length := rfl

def powerFluent : UPFluent := ⟨"power", false⟩

def lampPower : FNode := .node (.fluentExp powerFluent) []

def lampLevel : FNode := .node (.fluentExp ⟨"level", false⟩) []

def dimmerConverter : Converter :=
  ⟨fun e => if e = lampOn then some ⟨0⟩ else if e = lampPower then some ⟨1⟩
    else if e = lampLevel then some ⟨2⟩ else none, fun _ => none, [powerFluent]⟩

theorem dimmerConverter_fluentIds_iff {e : FNode} {f : Fluent} :
    dimmerConverter.fluentIds e = some f ↔ [lampOn, lampPower, lampLevel][f.idx]? = some e := by
  have h₁ : lampPower ≠ lampOn := by decide
  have h₂ : lampLevel ≠ lampOn := by decide
  have h₃ : lampLevel ≠ lampPower := by decide
  obtain ⟨_ | _ | _ | i⟩ := f <;> simp only [dimmerConverter] <;> grind

/-- A lamp with a level that may reach its power, which never changes. -/
def dimmerEncoding : StateEncoding where
  converter := dimmerConverter
  fluents := [lampOn, lampPower, lampLevel]
  initialAssignments := [.bool false, .num 3, .num 0]
  fluentIds_iff := dimmerConverter_fluentIds_iff
  length := rfl

/-- On, and at full power. -/
def brightest : FNode → ConstantNode := fun e => if e = lampOn then .bool true else .num 3

theorem convert_correct_dimmer :
    ∃ x, dimmerEncoding.converter.convert
        (.node .and [lampOn, .node .equals [lampPower, lampLevel],
          .node .le [lampLevel, lampPower]]) = some x ∧ IsTree x ∧
      evaluate x (dimmerEncoding.searchStateOf brightest) = some (.bool true) := by
  obtain ⟨x, hx, htree, hvalue⟩ := dimmerEncoding.convert_correct
    (.node .and [lampOn, .node .equals [lampPower, lampLevel], .node .le [lampLevel, lampPower]])
    rfl
  have hstatic : dimmerEncoding.AgreesOnStatic brightest := by
    intro e f hf hs
    have he := dimmerEncoding.fluentIds_iff.mp hf
    obtain ⟨_ | _ | _ | i⟩ := f
    · cases he
      cases hs
    · cases he
      rfl
    · cases he
      cases hs
    · cases he
  exact ⟨x, hx, htree, hvalue _ hstatic⟩

end Lamp

end StateEncoding

end TamerLite
