import TamerLite.Evaluators

/-! Operators on typed operands: both cores compute what exact arithmetic does. -/

namespace TamerLite

section Operators

variable {cs vs : List ConstantNode} {is : List ℕ}

/-- The operands at the positions `is` are `vs`. -/
abbrev Operands {α : Type} (res : List α) : List ℕ → List α → Prop :=
  List.Forall₂ fun i v => res[i]? = some v

theorem getElem?_ofConstant {i : ℕ} {c : ConstantNode} (h : cs[i]? = some c) :
    (cs.map Value.ofConstant)[i]? = some (.ofConstant c) := by
  rw [List.getElem?_map, h]
  rfl

theorem allOperands_eq {α : Type} {p : α → Bool} {res vs : List α} (h : Operands res is vs) :
    allOperands p res is = some (vs.all p) := by
  induction h with
  | nil => rfl
  | @cons i v is vs hv _ ih =>
    rw [allOperands, hv, Option.bind_eq_bind, Option.bind_some, ih, List.all_cons]
    cases p v <;> rfl

theorem anyOperands_eq {α : Type} {p : α → Bool} {res vs : List α} (h : Operands res is vs) :
    anyOperands p res is = some (vs.any p) := by
  induction h with
  | nil => rfl
  | @cons i v is vs hv _ ih =>
    rw [anyOperands, hv, Option.bind_eq_bind, Option.bind_some, ih, List.any_cons]
    cases p v <;> rfl

theorem evalAnd_eq_allOperands : evalAnd cs is = allOperands ConstantNode.truthy cs is := by
  induction is with
  | nil => rfl
  | cons i is ih => simp only [evalAnd, allOperands, ih]

theorem evalOr_eq_anyOperands : evalOr cs is = anyOperands ConstantNode.truthy cs is := by
  induction is with
  | nil => rfl
  | cons i is ih => simp only [evalOr, anyOperands, ih]

theorem Operands.ofConstant (h : Operands cs is vs) :
    Operands (cs.map Value.ofConstant) is (vs.map .ofConstant) := by
  induction h with
  | nil => exact .nil
  | cons hv _ ih => exact .cons (getElem?_ofConstant hv) ih

theorem Operands.mapM {α : Type} {res vs : List α} (h : Operands res is vs) :
    is.mapM (res[·]?) = some vs := by
  induction h with
  | nil => rfl
  | cons hv _ ih =>
    rw [List.mapM_cons, hv, ih]
    rfl

theorem exists_operands {us : List ValueType}
    (h : is.mapM ((cs.map ConstantNode.type)[·]?) = some us) :
    ∃ vs, Operands cs is vs ∧ vs.map ConstantNode.type = us := by
  induction is generalizing us with
  | nil =>
    obtain rfl : [] = us := by simpa using h
    exact ⟨[], .nil, rfl⟩
  | cons i is ih =>
    simp only [List.mapM_cons, Option.bind_eq_bind, Option.bind_eq_some_iff] at h
    obtain ⟨u, hu, us', hus, h⟩ := h
    obtain rfl := Option.some.inj h
    obtain ⟨vs, hvs, rfl⟩ := ih hus
    rw [List.getElem?_map, Option.map_eq_some_iff] at hu
    obtain ⟨v, hv, rfl⟩ := hu
    exact ⟨v :: vs, .cons hv hvs, rfl⟩

theorem exists_bools (h : ∀ v ∈ vs, v.type = .bool) : ∃ bs : List Bool, vs = bs.map .bool := by
  induction vs with
  | nil => exact ⟨[], rfl⟩
  | cons v vs ih =>
    obtain ⟨bs, rfl⟩ := ih fun w hw => h w (List.mem_cons_of_mem _ hw)
    have hv := h v List.mem_cons_self
    cases v with
    | bool b => exact ⟨b :: bs, rfl⟩
    | num | object => exact absurd hv (by simp [ConstantNode.type])

theorem exists_numbers (h : ∀ v ∈ vs, v.type = .number) : ∃ qs : List ℚ, vs = qs.map .num := by
  induction vs with
  | nil => exact ⟨[], rfl⟩
  | cons v vs ih =>
    obtain ⟨qs, rfl⟩ := ih fun w hw => h w (List.mem_cons_of_mem _ hw)
    have hv := h v List.mem_cons_self
    cases v with
    | num q => exact ⟨q :: qs, rfl⟩
    | bool | object => exact absurd hv (by simp [ConstantNode.type])

@[simp] theorem PythonCore.truthy_ofConstant (c : ConstantNode) :
    PythonCore.truthy (.ofConstant c) = c.truthy := by
  cases c with
  | bool | object => rfl
  | num q =>
    rw [Value.ofConstant, Value.ofRational]
    split_ifs with h
    · simp [PythonCore.truthy, ConstantNode.truthy]
    · rfl

@[simp] theorem PythonCore.number_ofRational (q : ℚ) :
    PythonCore.number (.ofRational q) = some (.ofRat q) := by
  rw [Value.ofRational, Number.ofRat]
  split_ifs <;> rfl

@[simp] theorem RustCore.asNumRef_ofRational (q : ℚ) :
    RustCore.asNumRef (.ofRational q) = some (.ofRat q) := by
  rw [Value.ofRational, Number.ofRat]
  split_ifs <;> rfl

theorem Value.ofRational_eq_toValue (q : ℚ) : Value.ofRational q = (Number.ofRat q).toValue := by
  rw [Value.ofRational, Number.ofRat]
  split_ifs <;> rfl

@[simp] theorem Value.ofRational_intCast (z : ℤ) : Value.ofRational z = .int z := by
  simp [Value.ofRational]

@[simp] theorem PythonCore.normalise_toValue (x : Number) :
    PythonCore.normalise x.toValue = .ofRational x.toRat := by
  cases x with
  | int z => exact (Value.ofRational_intCast z).symm
  | fraction q => rfl

@[simp] theorem RustCore.intoNode_eq (x : Number) : RustCore.intoNode x = .ofRational x.toRat := by
  cases x with
  | int z => exact (Value.ofRational_intCast z).symm
  | fraction q => rfl

@[simp] theorem PythonCore.number_toValue (x : Number) : PythonCore.number x.toValue = some x := by
  cases x <;> rfl

theorem RustCore.numIsZero_eq (x : Number) : RustCore.numIsZero x = decide (x.toRat = 0) := by
  cases x with
  | int z => simp [RustCore.numIsZero, Number.toRat]
  | fraction q => rfl

theorem RustCore.numDiv_eq (x y : Number) : RustCore.numDiv x y =
    if y.toRat = 0 then none else some (.ofRational (x.toRat / y.toRat)) := by
  unfold RustCore.numDiv
  rw [RustCore.numIsZero_eq]
  by_cases h : y.toRat = 0
  · simp [h]
  · cases x <;> cases y <;> simp_all [Number.toRat]

theorem RustCore.numCmp_eq (x y : Number) : RustCore.numCmp x y = compare x.toRat y.toRat := by
  have hint : ∀ a b : ℤ, compare a b = compare (a : ℚ) b := by
    intro a b
    rcases lt_trichotomy a b with h | rfl | h
    · rw [compare_lt_iff_lt.mpr h, compare_lt_iff_lt.mpr (Int.cast_lt.mpr h)]
    · rw [compare_eq_iff_eq.mpr rfl, compare_eq_iff_eq.mpr rfl]
    · rw [compare_gt_iff_gt.mpr h, compare_gt_iff_gt.mpr (Int.cast_lt.mpr h)]
  have hscale : ∀ (a b : ℚ) (d : ℕ), d ≠ 0 → compare (a * d) (b * d) = compare a b := by
    intro a b d hd
    have hpos : (0 : ℚ) < d := by exact_mod_cast Nat.pos_of_ne_zero hd
    rcases lt_trichotomy a b with h | rfl | h
    · rw [compare_lt_iff_lt.mpr h, compare_lt_iff_lt.mpr (mul_lt_mul_of_pos_right h hpos)]
    · rw [compare_eq_iff_eq.mpr rfl, compare_eq_iff_eq.mpr rfl]
    · rw [compare_gt_iff_gt.mpr h, compare_gt_iff_gt.mpr (mul_lt_mul_of_pos_right h hpos)]
  cases x with
  | int a =>
    cases y with
    | int b => exact hint a b
    | fraction b =>
      show compare (a * b.den : ℤ) b.num = compare (a : ℚ) b
      rw [hint, ← hscale a b b.den b.den_nz, Rat.mul_den_eq_num]
      push_cast
      rfl
  | fraction a =>
    cases y with
    | int b =>
      show compare a.num (b * a.den : ℤ) = compare a (b : ℚ)
      rw [hint, ← hscale a b a.den a.den_nz, Rat.mul_den_eq_num]
      push_cast
      rfl
    | fraction b => rfl

section Folds

variable {f : ℚ → ℚ → ℚ} {g : ℤ → ℤ → ℤ} (hg : ∀ a b : ℤ, ((g a b : ℤ) : ℚ) = f a b)
  {qs : List ℚ} {i : ℕ} {q : ℚ}

theorem foldlM_operandNum {us : List ConstantNode} (h : Operands cs is us)
    (hu : us = qs.map .num) :
    is.foldlM (fun v j => (operandNum cs j).map (f v)) q = some (qs.foldl f q) := by
  induction h generalizing qs q with
  | nil =>
    obtain rfl := List.map_eq_nil_iff.mp hu.symm
    rfl
  | @cons i u is us hv _ ih =>
    obtain ⟨r, qs, rfl, rfl, rfl⟩ := List.map_eq_cons_iff.mp hu.symm
    have hi : operandNum cs i = some r := by simp [operandNum, hv, ConstantNode.toNum]
    rw [List.foldlM_cons, hi]
    exact ih rfl

theorem evalFold_eq (h : Operands cs (i :: is) ((q :: qs).map .num)) :
    evalFold f cs (i :: is) = some (qs.foldl f q) := by
  obtain ⟨hv, hvs⟩ := List.forall₂_cons.mp h
  have hi : operandNum cs i = some q := by simp [operandNum, hv, ConstantNode.toNum]
  rw [evalFold, hi]
  exact foldlM_operandNum hvs rfl

include hg

/-- Two numbers, as an operator that agrees on integers and fractions combines them. -/
theorem PythonCore.arithmetic_eq (x y : Number) : ∃ z : Number,
    PythonCore.arithmetic g f x.toValue y.toValue = some z.toValue ∧
      z.toRat = f x.toRat y.toRat := by
  cases x with
  | int a =>
    cases y with
    | int b => exact ⟨.int (g a b), rfl, hg a b⟩
    | fraction b => exact ⟨.fraction (f a b), rfl, rfl⟩
  | fraction a => cases y <;> exact ⟨.fraction _, rfl, rfl⟩

theorem RustCore.combine_eq (x y : Number) :
    (RustCore.combine g f x y).toRat = f x.toRat y.toRat := by
  cases x with
  | int a =>
    cases y with
    | int b => exact hg a b
    | fraction b => rfl
  | fraction a => cases y <;> rfl

theorem PythonCore.foldlM_eq {us : List ConstantNode} (h : Operands cs is us)
    (hu : us = qs.map .num) (x : Number) :
    ∃ z : Number, is.foldlM (fun v j => do
        PythonCore.arithmetic g f v (← (cs.map Value.ofConstant)[j]?)) x.toValue =
      some z.toValue ∧ z.toRat = qs.foldl f x.toRat := by
  induction h generalizing qs x with
  | nil =>
    obtain rfl := List.map_eq_nil_iff.mp hu.symm
    exact ⟨x, rfl, rfl⟩
  | @cons i u is us hv _ ih =>
    obtain ⟨r, qs, rfl, rfl, rfl⟩ := List.map_eq_cons_iff.mp hu.symm
    obtain ⟨y, hy, hyq⟩ := PythonCore.arithmetic_eq hg x (.ofRat r)
    obtain ⟨z, hz, hzq⟩ := ih rfl y
    have hi : (cs.map Value.ofConstant)[i]? = some (Number.ofRat r).toValue := by
      rw [getElem?_ofConstant hv, Value.ofConstant, Value.ofRational_eq_toValue]
    refine ⟨z, ?_, by rw [hzq, hyq, Number.toRat_ofRat, List.foldl_cons]⟩
    rw [List.foldlM_cons, hi, Option.bind_eq_bind, Option.bind_some, hy]
    exact hz

theorem PythonCore.evalFold_eq (h : Operands cs (i :: is) ((q :: qs).map .num)) :
    PythonCore.evalFold (PythonCore.arithmetic g f) (cs.map .ofConstant) (i :: is) =
      some (.ofRational (qs.foldl f q)) := by
  obtain ⟨hv, hvs⟩ := List.forall₂_cons.mp h
  obtain ⟨z, hz, hzq⟩ := PythonCore.foldlM_eq hg hvs rfl (.ofRat q)
  have hi : (cs.map Value.ofConstant)[i]? = some (Number.ofRat q).toValue := by
    rw [getElem?_ofConstant hv, Value.ofConstant, Value.ofRational_eq_toValue]
  rw [Number.toRat_ofRat] at hzq
  simp only [PythonCore.evalFold, hi, Option.bind_eq_bind, Option.bind_some] at hz ⊢
  rw [hz, Option.bind_some, PythonCore.normalise_toValue, hzq]
  rfl

theorem RustCore.foldlM_eq {us : List ConstantNode} (h : Operands cs is us)
    (hu : us = qs.map .num) (x : Number) :
    ∃ z : Number, is.foldlM (fun acc p => do
        return RustCore.combine g f acc
          (← RustCore.asNumRef (← (cs.map Value.ofConstant)[p]?))) x =
      some z ∧ z.toRat = qs.foldl f x.toRat := by
  induction h generalizing qs x with
  | nil =>
    obtain rfl := List.map_eq_nil_iff.mp hu.symm
    exact ⟨x, rfl, rfl⟩
  | @cons i u is us hv _ ih =>
    obtain ⟨r, qs, rfl, rfl, rfl⟩ := List.map_eq_cons_iff.mp hu.symm
    obtain ⟨z, hz, hzq⟩ := ih rfl (RustCore.combine g f x (.ofRat r))
    refine ⟨z, ?_, by rw [hzq, RustCore.combine_eq hg, Number.toRat_ofRat, List.foldl_cons]⟩
    rw [List.foldlM_cons, getElem?_ofConstant hv]
    simpa [Value.ofConstant] using hz

theorem RustCore.foldNumeric_eq (h : Operands cs (i :: is) ((q :: qs).map .num)) :
    RustCore.foldNumeric g f (cs.map .ofConstant) (i :: is) =
      some (.ofRational (qs.foldl f q)) := by
  obtain ⟨hv, hvs⟩ := List.forall₂_cons.mp h
  obtain ⟨z, hz, hzq⟩ := RustCore.foldlM_eq hg hvs rfl (.ofRat q)
  rw [Number.toRat_ofRat] at hzq
  rw [RustCore.foldNumeric, getElem?_ofConstant hv]
  simp only [Option.bind_eq_bind, Option.bind_some, Value.ofConstant,
    RustCore.asNumRef_ofRational, Option.pure_def] at hz ⊢
  rw [hz, Option.bind_some, RustCore.intoNode_eq, hzq]

end Folds

theorem PythonCore.equal_ofConstant (c d : ConstantNode) :
    PythonCore.equal (.ofConstant c) (.ofConstant d) = c.eqv d := by
  cases c with
  | bool b =>
    cases d with
    | bool b' => cases b <;> cases b' <;> rfl
    | num q =>
      rw [PythonCore.equal, Value.ofConstant_num, PythonCore.number_ofRational]
      simp [PythonCore.number, ConstantNode.eqv, ConstantNode.toNum]
    | object => rfl
  | num q =>
    cases d with
    | bool b =>
      rw [PythonCore.equal, Value.ofConstant_num, PythonCore.number_ofRational]
      simp [PythonCore.number, ConstantNode.eqv, ConstantNode.toNum]
    | num r => simp [PythonCore.equal, ConstantNode.eqv, ConstantNode.toNum]
    | object o =>
      rw [PythonCore.equal, Value.ofConstant_num, PythonCore.number_ofRational]
      rfl
  | object o =>
    cases d with
    | bool => rfl
    | num q =>
      rw [PythonCore.equal, Value.ofConstant_num, PythonCore.number_ofRational]
      rfl
    | object p => simp [PythonCore.equal, PythonCore.number, ConstantNode.eqv, Value.ofConstant]

theorem RustCore.equals_ofConstant (c d : ConstantNode) :
    RustCore.equals (.ofConstant c) (.ofConstant d) = decide (c = d) := by
  have hnum : ∀ q r : ℚ, (compare q r).isEq = decide (q = r) := by
    intro q r
    rw [Bool.eq_iff_iff, decide_eq_true_iff, Ordering.isEq_iff_eq_eq, compare_eq_iff_eq]
  have hinj : decide (Value.ofConstant c = Value.ofConstant d) = decide (c = d) :=
    decide_eq_decide.mpr Value.ofConstant_injective.eq_iff
  rw [RustCore.equals, hinj]
  cases c with
  | num q =>
    cases d with
    | num r => simp [RustCore.numCmp_eq, hnum]
    | bool | object => simp [Value.ofConstant, RustCore.asNumRef]
  | bool | object => cases d <;> simp [Value.ofConstant, RustCore.asNumRef]

/-- Between values of one type, Python's `==` is equality. -/
theorem eqv_of_type {c d : ConstantNode} (h : c.type = d.type) : c.eqv d = decide (c = d) := by
  cases c with
  | bool b =>
    cases d with
    | bool b' => cases b <;> cases b' <;> rfl
    | num | object => exact absurd h (by simp [ConstantNode.type])
  | num q =>
    cases d with
    | num r => simp [ConstantNode.eqv, ConstantNode.toNum]
    | bool | object => exact absurd h (by simp [ConstantNode.type])
  | object o =>
    cases d with
    | object p => simp [ConstantNode.eqv]
    | bool | num => exact absurd h (by simp [ConstantNode.type])

/-- On typed operands an operator does the same in both cores and in exact arithmetic. -/
structure OperatorAgrees (kind : OperatorKind) (operands : List ℕ) (cs : List ConstantNode)
    (t : ValueType) : Prop where
  python : PythonCore.evalOperator kind operands (cs.map .ofConstant) =
    (evalOperator kind operands cs).map .ofConstant
  rust : RustCore.evalOperator kind operands (cs.map .ofConstant) =
    (evalOperator kind operands cs).map .ofConstant
  type : ∀ c, evalOperator kind operands cs = some c → c.type = t

variable {operands : List ℕ} {t : ValueType}

theorem agrees_and (h : Operands cs operands vs) (hv : ∀ v ∈ vs, v.type = .bool) :
    OperatorAgrees .and operands cs .bool := by
  obtain ⟨bs, rfl⟩ := exists_bools hv
  have hm := h.ofConstant
  constructor
  · simp [PythonCore.evalOperator, evalOperator, evalAnd_eq_allOperands, allOperands_eq h,
      allOperands_eq hm, List.all_map, Function.comp_def, PythonCore.truthy, ConstantNode.truthy]
  · simp [RustCore.evalOperator, evalOperator, evalAnd_eq_allOperands, allOperands_eq h,
      allOperands_eq hm, List.all_map, Function.comp_def, ConstantNode.truthy]
  · intro c hc
    obtain ⟨_, -, rfl⟩ := Option.map_eq_some_iff.mp hc
    rfl

theorem agrees_or (h : Operands cs operands vs) (hv : ∀ v ∈ vs, v.type = .bool) :
    OperatorAgrees .or operands cs .bool := by
  obtain ⟨bs, rfl⟩ := exists_bools hv
  have hm := h.ofConstant
  constructor
  · simp [PythonCore.evalOperator, evalOperator, evalOr_eq_anyOperands, anyOperands_eq h,
      anyOperands_eq hm, List.any_map, Function.comp_def, PythonCore.truthy, ConstantNode.truthy]
  · simp [RustCore.evalOperator, evalOperator, evalOr_eq_anyOperands, anyOperands_eq h,
      anyOperands_eq hm, List.any_map, Function.comp_def, ConstantNode.truthy]
  · intro c hc
    obtain ⟨_, -, rfl⟩ := Option.map_eq_some_iff.mp hc
    rfl

theorem agrees_fold (h : Operands cs operands vs) (hv : ∀ v ∈ vs, v.type = .number)
    (hne : vs ≠ []) {kind : OperatorKind} (hk : kind = .plus ∨ kind = .times) :
    OperatorAgrees kind operands cs .number := by
  obtain ⟨qs, rfl⟩ := exists_numbers hv
  cases qs with
  | nil => exact absurd rfl hne
  | cons q qs =>
    obtain ⟨i, is, -, -, rfl⟩ := List.forall₂_cons_right_iff.mp h
    rcases hk with rfl | rfl
    · have hg : ∀ a b : ℤ, ((a + b : ℤ) : ℚ) = a + b := fun a b => Int.cast_add a b
      exact ⟨by simp [PythonCore.evalOperator, evalOperator, PythonCore.evalFold_eq hg h,
          evalFold_eq h, Value.ofConstant],
        by simp [RustCore.evalOperator, evalOperator, RustCore.foldNumeric_eq hg h,
          evalFold_eq h, Value.ofConstant],
        fun c hc => by
          obtain ⟨_, -, rfl⟩ := Option.map_eq_some_iff.mp hc
          rfl⟩
    · have hg : ∀ a b : ℤ, ((a * b : ℤ) : ℚ) = a * b := fun a b => Int.cast_mul a b
      exact ⟨by simp [PythonCore.evalOperator, evalOperator, PythonCore.evalFold_eq hg h,
          evalFold_eq h, Value.ofConstant],
        by simp [RustCore.evalOperator, evalOperator, RustCore.foldNumeric_eq hg h,
          evalFold_eq h, Value.ofConstant],
        fun c hc => by
          obtain ⟨_, -, rfl⟩ := Option.map_eq_some_iff.mp hc
          rfl⟩

theorem Operands.singleton {v : ConstantNode} (h : Operands cs operands [v]) :
    ∃ i, operands = [i] ∧ cs[i]? = some v := by
  obtain ⟨i, is, hi, hs, rfl⟩ := List.forall₂_cons_right_iff.mp h
  obtain rfl := List.forall₂_nil_right_iff.mp hs
  exact ⟨i, rfl, hi⟩

theorem Operands.pair {v w : ConstantNode} (h : Operands cs operands [v, w]) :
    ∃ i j, operands = [i, j] ∧ cs[i]? = some v ∧ cs[j]? = some w := by
  obtain ⟨i, is, hi, hs, rfl⟩ := List.forall₂_cons_right_iff.mp h
  obtain ⟨j, rfl, hj⟩ := Operands.singleton hs
  exact ⟨i, j, rfl, hi, hj⟩

theorem agrees_not {v : ConstantNode} (h : Operands cs operands [v])
    (hv : v.type = .bool) : OperatorAgrees .not operands cs .bool := by
  obtain ⟨i, rfl, hi⟩ := h.singleton
  have hall : ∀ w ∈ [v], w.type = .bool := by simpa using hv
  obtain ⟨_ | ⟨b, _⟩, hb⟩ := exists_bools hall
  · exact absurd hb (by simp)
  · obtain ⟨rfl, -⟩ := List.cons.inj hb
    have hi' := getElem?_ofConstant hi
    constructor
    · simp [PythonCore.evalOperator, evalOperator, hi, PythonCore.truthy, ConstantNode.truthy]
    · simp [RustCore.evalOperator, evalOperator, hi, ConstantNode.truthy]
    · intro c hc
      simp only [evalOperator, hi, List.getElem?_cons_zero, Option.bind_eq_bind, Option.bind_some,
        Option.pure_def, Option.some.injEq] at hc
      subst hc
      rfl

theorem agrees_eq {v w : ConstantNode} (h : Operands cs operands [v, w])
    (hv : v.type = w.type) : OperatorAgrees .eq operands cs .bool := by
  obtain ⟨i, j, rfl, hi, hj⟩ := h.pair
  constructor
  · simp [PythonCore.evalOperator, PythonCore.evalBinary, evalOperator, hi, hj,
      PythonCore.equal_ofConstant]
  · simp [RustCore.evalOperator, evalOperator, hi, hj, RustCore.equals_ofConstant, eqv_of_type hv]
  · intro c hc
    simp only [evalOperator, hi, hj, List.getElem?_cons_zero, List.getElem?_cons_succ,
      Option.bind_eq_bind, Option.bind_some, Option.pure_def, Option.some.injEq] at hc
    subst hc
    rfl

theorem agrees_binary {v w : ConstantNode} {kind : OperatorKind}
    (hk : kind = .le ∨ kind = .lt ∨ kind = .minus ∨ kind = .div)
    (h : Operands cs operands [v, w]) (hv : v.type = .number) (hw : w.type = .number) :
    OperatorAgrees kind operands cs (if kind = .le ∨ kind = .lt then .bool else .number) := by
  obtain ⟨i, j, rfl, hi, hj⟩ := h.pair
  obtain ⟨q, rfl⟩ : ∃ q, v = .num q := by
    cases v with
    | num q => exact ⟨q, rfl⟩
    | bool | object => exact absurd hv (by simp [ConstantNode.type])
  obtain ⟨r, rfl⟩ : ∃ r, w = .num r := by
    cases w with
    | num r => exact ⟨r, rfl⟩
    | bool | object => exact absurd hw (by simp [ConstantNode.type])
  have hnums : operandNums cs [i, j] = some (q, r) := by
    simp [operandNums, operandNum, hi, hj, ConstantNode.toNum]
  rcases hk with rfl | rfl | rfl | rfl
  · have hle : (compare q r).isLE = decide (q ≤ r) := by
      rw [Bool.eq_iff_iff, decide_eq_true_iff, Ordering.isLE_iff_ne_gt]
      exact compare_le_iff_le
    constructor
    · simp [PythonCore.evalOperator, PythonCore.evalBinary, evalOperator, hi, hj, hnums,
        PythonCore.compareWith]
    · simp [RustCore.evalOperator, RustCore.numBinary, evalOperator, hi, hj, hnums,
        RustCore.numCmp_eq, hle]
    · intro c hc
      obtain ⟨_, -, rfl⟩ := Option.map_eq_some_iff.mp hc
      rfl
  · have hlt : (compare q r).isLT = decide (q < r) := by
      rw [Bool.eq_iff_iff, decide_eq_true_iff, Ordering.isLT_iff_eq_lt, compare_lt_iff_lt]
    constructor
    · simp [PythonCore.evalOperator, PythonCore.evalBinary, evalOperator, hi, hj, hnums,
        PythonCore.compareWith]
    · simp [RustCore.evalOperator, RustCore.numBinary, evalOperator, hi, hj, hnums,
        RustCore.numCmp_eq, hlt]
    · intro c hc
      obtain ⟨_, -, rfl⟩ := Option.map_eq_some_iff.mp hc
      rfl
  · have hg : ∀ a b : ℤ, ((a - b : ℤ) : ℚ) = a - b := fun a b => Int.cast_sub a b
    obtain ⟨z, hz, hzq⟩ := PythonCore.arithmetic_eq hg (.ofRat q) (.ofRat r)
    rw [Number.toRat_ofRat, Number.toRat_ofRat] at hzq
    constructor
    · simp [PythonCore.evalOperator, PythonCore.evalBinary, evalOperator, hi, hj, hnums,
        Value.ofRational_eq_toValue, hz, hzq]
    · have h' : Operands cs [i, j] ([q, r].map .num) := h
      have := RustCore.foldNumeric_eq hg h'
      simp [RustCore.evalOperator, evalOperator, hnums, this]
    · intro c hc
      obtain ⟨_, -, rfl⟩ := Option.map_eq_some_iff.mp hc
      rfl
  · constructor
    · by_cases hr : r = 0
      · simp [PythonCore.evalOperator, PythonCore.evalBinary, evalOperator, hj, hnums,
          PythonCore.divide, hr]
      · simp [PythonCore.evalOperator, PythonCore.evalBinary, evalOperator, hi, hj, hnums,
          PythonCore.divide, hr, PythonCore.normalise]
    · by_cases hr : r = 0
      · simp [RustCore.evalOperator, RustCore.numBinary, evalOperator, hj, hnums,
          RustCore.numDiv_eq, hr]
      · simp [RustCore.evalOperator, RustCore.numBinary, evalOperator, hi, hj, hnums,
          RustCore.numDiv_eq, hr]
    · intro c hc
      simp only [evalOperator, hnums, Option.bind_eq_bind, Option.bind_some] at hc
      split_ifs at hc
      obtain rfl := Option.some.inj hc
      rfl

theorem operator_agrees {kind : OperatorKind} (h : Operands cs operands vs)
    (ht : operatorType kind (vs.map ConstantNode.type) = some t) :
    OperatorAgrees kind operands cs t := by
  have hall : ∀ {τ}, ((vs.map ConstantNode.type).all (· = τ)) = true → ∀ v ∈ vs, v.type = τ := by
    intro τ hτ v hv
    exact of_decide_eq_true (List.all_eq_true.mp hτ _ (List.mem_map_of_mem hv))
  have hone : ∀ {τ}, vs.map ConstantNode.type = [τ] → ∃ v, vs = [v] ∧ v.type = τ := by
    intro τ hτ
    obtain ⟨v, rfl, hv⟩ := List.map_eq_singleton_iff.mp hτ
    exact ⟨v, rfl, hv⟩
  have htwo : ∀ {τ τ'}, vs.map ConstantNode.type = [τ, τ'] →
      ∃ v w, vs = [v, w] ∧ v.type = τ ∧ w.type = τ' := by
    intro τ τ' hτ
    obtain ⟨v, ws, rfl, hv, hws⟩ := List.map_eq_cons_iff.mp hτ
    obtain ⟨w, rfl, hw⟩ := List.map_eq_singleton_iff.mp hws
    exact ⟨v, w, rfl, hv, hw⟩
  generalize hts : vs.map ConstantNode.type = ts at ht hall hone htwo
  revert ht
  fun_cases operatorType kind ts
  case case2 | case4 | case7 | case13 | case15 | case16 => exact fun ht => absurd ht (by simp)
  all_goals
    intro ht
    obtain rfl := Option.some.inj ht
  case case1 hτ => exact agrees_and h (hall hτ)
  case case3 hτ => exact agrees_or h (hall hτ)
  case case5 =>
    obtain ⟨v, rfl, hv⟩ := hone rfl
    exact agrees_not h hv
  case case6 =>
    obtain ⟨v, w, rfl, hv, hw⟩ := htwo rfl
    exact agrees_eq h (hv.trans hw.symm)
  case case12 hτ =>
    exact agrees_fold h (hall hτ) (by rintro rfl; exact absurd hts (by simp)) (.inl rfl)
  case case14 hτ =>
    exact agrees_fold h (hall hτ) (by rintro rfl; exact absurd hts (by simp)) (.inr rfl)
  all_goals
    obtain ⟨v, w, rfl, hv, hw⟩ := htwo rfl
    exact agrees_binary (by simp) h hv hw

end Operators

end TamerLite
