import TamerLite.SlotValues

/-! The folding pass of `simplify`: a slot no node has read yet keeps its value. -/

namespace TamerLite

variable {core : Core} {get : Fluent → Option ConstantNode} {res : Expression}
  {vals vs : List ConstantNode} {v : ConstantNode} {is : List ℕ} {kind : OperatorKind}

theorem bool?_eq_some {e : ExpressionNode} {b : Bool} (h : e.bool? = some b) :
    e = .constant (.bool b) := by
  cases e with
  | constant c =>
    cases c with
    | bool b' => rw [Option.some.inj (h : some b' = some b)]
    | num | object => simp [ExpressionNode.bool?] at h
  | _ => simp [ExpressionNode.bool?] at h

theorem number?_eq_some {e : ExpressionNode} {x : ℚ} (h : e.number? core = some x) :
    ∃ c, e = .constant c ∧ core.number c = some x := by
  cases e with
  | constant c => exact ⟨c, rfl, h⟩
  | _ => simp [ExpressionNode.number?, ExpressionNode.constant?] at h

section

variable [Callables]

/-- A node in place of one over `is` that is worth `v`. -/
structure Stands (core : Core) (get : Fluent → Option ConstantNode) (res : Expression)
    (vals : List ConstantNode) (is : List ℕ) (v : ConstantNode) (e : ExpressionNode) : Prop where
  value : ∃ us, Operands vals e.operands us ∧ core.nodeValue get e us = some v
  operands : ∀ o ∈ e.operands, o ∈ is ∨ ∃ e' ∈ res, o ∈ e'.operands
  fluent : ∀ f, e = .fluent f → e ∈ res

theorem stands_constant : Stands core get res vals is v (.constant v) :=
  ⟨⟨[], .nil, rfl⟩, fun _ ho => absurd ho (by simp [ExpressionNode.operands]),
    fun _ hf => nomatch hf⟩

theorem stands_operator (hvs : Operands vals is vs) (hv : core.applyOperator kind vs = some v) :
    Stands core get res vals is v (.operator kind is) :=
  ⟨⟨vs, hvs, hv⟩, fun _ ho => .inl ho, fun _ hf => nomatch hf⟩

/-- The node of a slot stands for what the slot is worth. -/
theorem Valued.stands (h : Valued core get res vals) {i : ℕ} {e : ExpressionNode}
    (hi : res[i]? = some e) (hv : vals[i]? = some v) : Stands core get res vals is v e := by
  obtain ⟨us, hus, hu⟩ := h.value hi
  exact ⟨⟨us, hus, hu.trans hv⟩, fun o ho => .inr ⟨e, List.mem_of_getElem? hi, ho⟩,
    fun f _ => List.mem_of_getElem? hi⟩

theorem Valued.exists_node (h : Valued core get res vals) {i : ℕ} (hv : vals[i]? = some v) :
    ∃ e, res[i]? = some e := by
  have hlt := (List.getElem?_eq_some_iff.mp hv).1
  exact ⟨_, List.getElem?_eq_getElem (h.length ▸ hlt)⟩

end

/-! ### Connectives -/

theorem applyOperator_connective {bs : List Bool} (decisive : Bool)
    (hk : kind = .and ∧ decisive = false ∨ kind = .or ∧ decisive = true) :
    core.applyOperator kind (bs.map .bool) =
      some (.bool (if decisive ∈ bs then decisive else !decisive)) := by
  have htrue : ∀ b, core.isTrue (.bool b) = b := by
    intro b
    cases core <;> cases b <;> rfl
  rcases hk with ⟨rfl, rfl⟩ | ⟨rfl, rfl⟩
  · by_cases hm : false ∈ bs <;>
      simp [Core.applyOperator, List.all_map, Function.comp_def, htrue, hm]
  · by_cases hm : true ∈ bs <;>
      simp [Core.applyOperator, List.any_map, Function.comp_def, htrue, hm]

section

variable [Callables]

theorem openOperands_spec (h : Valued core get res vals) (decisive : Bool) {bs : List Bool}
    (hvs : Operands vals is (bs.map .bool)) : ∃ r, openOperands res decisive is = some r ∧
      match r with
      | none => decisive ∈ bs
      | some js => ∃ cs : List Bool, Operands vals js (cs.map .bool) ∧
          (decisive ∈ bs ↔ decisive ∈ cs) ∧ ∀ j ∈ js, j ∈ is := by
  induction is generalizing bs with
  | nil =>
    cases bs with
    | nil => exact ⟨some [], rfl, [], .nil, Iff.rfl, fun j hj => hj⟩
    | cons b bs => exact absurd hvs (by simp)
  | cons i is ih =>
    cases bs with
    | nil => exact absurd hvs (by simp)
    | cons b bs =>
      obtain ⟨hi, hvs⟩ := List.forall₂_cons.mp hvs
      obtain ⟨e, he⟩ := h.exists_node hi
      obtain ⟨r, hr, hspec⟩ := ih hvs
      rw [openOperands, he, Option.bind_eq_bind, Option.bind_some]
      cases hb : e.bool? with
      | some b' =>
        rw [bool?_eq_some hb] at he
        have hbb : b = b' := by simpa [hi] using h.constant he
        subst hbb
        by_cases hd : b = decisive
        · exact ⟨none, by simp [hd], by simp [hd]⟩
        · refine ⟨r, by simp [hd, hr], ?_⟩
          cases r with
          | none => exact List.mem_cons_of_mem _ hspec
          | some js =>
            obtain ⟨cs, hcs, hiff, hsub⟩ := hspec
            refine ⟨cs, hcs, ?_, fun j hj => List.mem_cons_of_mem _ (hsub j hj)⟩
            rw [List.mem_cons, or_iff_right (Ne.symm hd), hiff]
      | none =>
        refine ⟨r.map (i :: ·), by simp [hr], ?_⟩
        cases r with
        | none => exact List.mem_cons_of_mem _ hspec
        | some js =>
          obtain ⟨cs, hcs, hiff, hsub⟩ := hspec
          refine ⟨b :: cs, .cons hi hcs, by rw [List.mem_cons, List.mem_cons, hiff], ?_⟩
          intro j hj
          rcases List.mem_cons.mp hj with rfl | hj
          · exact List.mem_cons_self
          · exact List.mem_cons_of_mem _ (hsub j hj)

theorem foldConnective_spec (h : Valued core get res vals) (decisive : Bool)
    (hk : kind = .and ∧ decisive = false ∨ kind = .or ∧ decisive = true)
    {bs : List Bool} (hvs : Operands vals is (bs.map .bool))
    (hv : core.applyOperator kind (bs.map .bool) = some v) :
    ∃ e, foldConnective res kind decisive is = some e ∧ Stands core get res vals is v e := by
  obtain ⟨r, hr, hspec⟩ := openOperands_spec h decisive hvs
  have hvalue := @applyOperator_connective core kind bs decisive hk
  obtain rfl := Option.some.inj (hv.symm.trans hvalue)
  rw [foldConnective, hr, Option.bind_eq_bind, Option.bind_some]
  match r, hspec with
  | none, hspec => exact ⟨_, rfl, by rw [if_pos hspec]; exact stands_constant⟩
  | some [], hspec =>
    obtain ⟨cs, hcs, hiff, -⟩ := hspec
    have hnil : cs = [] := by simpa using hcs
    refine ⟨_, rfl, ?_⟩
    rw [if_neg (by rw [hiff, hnil]; simp)]
    exact stands_constant
  | some [i], hspec =>
    obtain ⟨cs, hcs, hiff, -⟩ := hspec
    obtain ⟨c, rfl, hi⟩ : ∃ c, cs = [c] ∧ vals[i]? = some (.bool c) := by
      match cs, hcs with
      | [c], hcs => exact ⟨c, rfl, (List.forall₂_cons.mp hcs).1⟩
    obtain ⟨e, he⟩ := h.exists_node hi
    refine ⟨e, he, ?_⟩
    have hc : (if decisive ∈ bs then decisive else !decisive) = c := by
      simp only [hiff]
      cases decisive <;> cases c <;> simp
    rw [hc]
    exact h.stands he hi
  | some (i :: j :: js), hspec =>
    obtain ⟨cs, hcs, hiff, hsub⟩ := hspec
    refine ⟨_, rfl, ⟨_, hcs, ?_⟩, fun o ho => .inl (hsub o ho), fun f hf => nomatch hf⟩
    rw [Core.nodeValue, applyOperator_connective decisive hk]
    simp only [hiff]

end

/-! ### Operators on one or two operands -/

theorem Core.equals_number {w : ConstantNode} {x y : ℚ} (hx : core.number v = some x)
    (hy : core.number w = some y) : core.equals v w = decide (x = y) := by
  have hxy : v = w → x = y := by
    rintro rfl
    exact Option.some.inj (hx.symm.trans hy)
  simp only [Core.equals, hx, hy]
  by_cases h : x = y
  · simp [h]
  · simpa [h] using mt hxy h

section

variable [Callables]

theorem foldNot_spec (h : Valued core get res vals) (hvs : Operands vals is vs)
    (hv : core.applyOperator .not vs = some v) :
    ∃ e, foldNot res is = some e ∧ Stands core get res vals is v e := by
  cases hvs with
  | nil => exact absurd hv (by simp [Core.applyOperator])
  | @cons i w is vs hi hrest =>
    obtain ⟨e, he⟩ := h.exists_node hi
    simp only [foldNot, List.getElem?_cons_zero, Option.bind_eq_bind, Option.bind_some, he]
    cases hb : e.bool? with
    | none => exact ⟨_, rfl, stands_operator (.cons hi hrest) hv⟩
    | some b =>
      rw [bool?_eq_some hb] at he
      have hw : w = .bool b := by simpa [hi] using h.constant he
      have hfalse : core.isFalse (.bool b) = !b := by cases core <;> cases b <;> rfl
      subst hw
      obtain rfl := Option.some.inj hv
      rw [hfalse]
      exact ⟨_, rfl, stands_constant⟩

/-- Two slots with one node are worth the same. -/
theorem Valued.eq_of_node (h : Valued core get res vals) {i j : ℕ} {e : ExpressionNode}
    (hi : res[i]? = some e) (hj : res[j]? = some e) : vals[i]? = vals[j]? := by
  obtain ⟨us, hus, hu⟩ := h.value hi
  obtain ⟨ws, hws, hw⟩ := h.value hj
  have huw : us = ws := Option.some.inj (hus.mapM.symm.trans hws.mapM)
  rw [← hu, ← hw, huw]

theorem Valued.number (h : Valued core get res vals) {i : ℕ} {e : ExpressionNode} {x : ℚ}
    (hi : res[i]? = some e) (hx : e.number? core = some x) (hv : vals[i]? = some v) :
    core.number v = some x := by
  obtain ⟨c, rfl, hc⟩ := number?_eq_some hx
  rw [h.constant hi] at hv
  rwa [← Option.some.inj hv]

theorem foldEquals_spec (h : Valued core get res vals) (hvs : Operands vals is vs)
    (hv : core.applyOperator .eq vs = some v) :
    ∃ e, foldEquals core res is = some e ∧ Stands core get res vals is v e := by
  have hstay : Stands core get res vals is v (.operator .eq is) := stands_operator hvs hv
  match is, vs, hvs with
  | [], [], _ => exact absurd hv (by simp [Core.applyOperator])
  | [_], [_], _ => exact absurd hv (by simp [Core.applyOperator])
  | i :: j :: is, w :: u :: vs, hvs =>
    obtain ⟨hi, hrest⟩ := List.forall₂_cons.mp hvs
    obtain ⟨hj, -⟩ := List.forall₂_cons.mp hrest
    obtain ⟨e, he⟩ := h.exists_node hi
    obtain ⟨e', he'⟩ := h.exists_node hj
    obtain rfl := Option.some.inj hv
    simp only [foldEquals, List.getElem?_cons_zero, List.getElem?_cons_succ, Option.bind_eq_bind,
      Option.bind_some, he, he']
    by_cases hee : e = e'
    · have hwu : w = u := by
        have := h.eq_of_node he (hee ▸ he')
        rw [hi, hj] at this
        exact Option.some.inj this
      have htrue : core.equals w u = true := by simp [Core.equals, hwu]
      rw [if_pos hee, htrue]
      exact ⟨_, rfl, stands_constant⟩
    · rw [if_neg hee]
      cases hx : e.number? core with
      | none => exact ⟨_, rfl, hstay⟩
      | some x =>
        cases hy : e'.number? core with
        | none => exact ⟨_, rfl, hstay⟩
        | some y =>
          rw [Core.equals_number (h.number he hx hi) (h.number he' hy hj)]
          exact ⟨_, rfl, stands_constant⟩

theorem foldBinary_spec (h : Valued core get res vals)
    (hk : kind = .le ∨ kind = .lt ∨ kind = .minus ∨ kind = .div) (hvs : Operands vals is vs)
    (hv : core.applyOperator kind vs = some v) :
    ∃ e, foldBinary core res kind is = some e ∧ Stands core get res vals is v e := by
  have hstay : Stands core get res vals is v (.operator kind is) := stands_operator hvs hv
  match is, vs, hvs with
  | [], [], _ => exact absurd hv (by rcases hk with rfl | rfl | rfl | rfl <;> simp [Core.applyOperator])
  | [_], [_], _ =>
    exact absurd hv (by rcases hk with rfl | rfl | rfl | rfl <;> simp [Core.applyOperator])
  | i :: j :: is, w :: u :: vs, hvs =>
    obtain ⟨hi, hrest⟩ := List.forall₂_cons.mp hvs
    obtain ⟨hj, -⟩ := List.forall₂_cons.mp hrest
    obtain ⟨e, he⟩ := h.exists_node hi
    obtain ⟨e', he'⟩ := h.exists_node hj
    have hvalue : core.applyOperator kind (w :: u :: vs) =
        (core.number w).bind fun x => (core.number u).bind fun y => Core.arithmetic kind x y := by
      rcases hk with rfl | rfl | rfl | rfl <;> rfl
    simp only [foldBinary, List.getElem?_cons_zero, List.getElem?_cons_succ, Option.bind_eq_bind,
      Option.bind_some, he, he']
    cases hx : e.number? core with
    | none => exact ⟨_, rfl, hstay⟩
    | some x =>
      cases hy : e'.number? core with
      | none => exact ⟨_, rfl, hstay⟩
      | some y =>
        rw [hvalue, h.number he hx hi, h.number he' hy hj] at hv
        have hv' : Core.arithmetic kind x y = some v := hv
        simp only [hv']
        exact ⟨_, rfl, stands_constant⟩

end

/-! ### Sums and products -/

/-- The number a slot is worth. -/
def numberAt (core : Core) (vals : List ConstantNode) (i : ℕ) : ℚ :=
  ((vals[i]?).bind core.number).getD 0

/-- The number in a slot. -/
def constantAt (core : Core) (res : Expression) (i : ℕ) : Option ℚ :=
  (res[i]?).bind (ExpressionNode.number? core)

def total (kind : OperatorKind) (qs : List ℚ) : ℚ := qs.foldr (Core.combine kind) (Core.unit kind)

theorem total_append (kind : OperatorKind) (xs ys : List ℚ) :
    total kind (xs ++ ys) = Core.combine kind (total kind xs) (total kind ys) := by
  induction xs with
  | nil =>
    rw [List.nil_append, Core.combine_comm]
    exact (Core.combine_unit kind _).symm
  | cons x xs ih =>
    show Core.combine kind x (total kind (xs ++ ys)) = Core.combine kind (Core.combine kind x _) _
    rw [ih, Core.combine_assoc]
    rfl

theorem total_perm (kind : OperatorKind) {xs ys : List ℚ} (h : xs.Perm ys) : total kind xs = total kind ys :=
  h.foldr_eq _

/-- The value of a sum or a product of numbers. -/
theorem applyOperator_nary (hk : kind = .plus ∨ kind = .times) (hne : is ≠ [])
    (hvs : Operands vals is vs) (hn : ∀ i ∈ is, ((vals[i]?).bind core.number).isSome) :
    core.applyOperator kind vs = some (.num (total kind (is.map (numberAt core vals)))) := by
  have hmap : vs.mapM core.number = some (is.map (numberAt core vals)) := by
    clear hne
    induction hvs with
    | nil => rfl
    | @cons i u is us hi _ ih =>
      obtain ⟨x, hx⟩ := Option.isSome_iff_exists.mp (hn i List.mem_cons_self)
      have hat : numberAt core vals i = x := by rw [numberAt, hx, Option.getD_some]
      rw [hi, Option.bind_some] at hx
      rw [List.mapM_cons, hx, ih fun j hj => hn j (List.mem_cons_of_mem _ hj), List.map_cons, hat]
      rfl
  cases hvs with
  | nil => exact absurd rfl hne
  | cons hi hrest =>
    rcases hk with rfl | rfl <;> simp only [Core.applyOperator, hmap, Option.map_some, total]

theorem isSome_of_applyOperator (hk : kind = .plus ∨ kind = .times) (hvs : Operands vals is vs)
    (hv : core.applyOperator kind vs = some v) :
    is ≠ [] ∧ ∀ i ∈ is, ((vals[i]?).bind core.number).isSome := by
  have hall : ∀ {is us qs}, Operands vals is us → us.mapM core.number = some qs →
      ∀ i ∈ is, ((vals[i]?).bind core.number).isSome := by
    intro is us qs hus
    induction hus generalizing qs with
    | nil => exact fun _ i hi => absurd hi List.not_mem_nil
    | @cons i u is us hi _ ih =>
      intro h j hj
      simp only [List.mapM_cons, Option.bind_eq_bind, Option.bind_eq_some_iff] at h
      obtain ⟨x, hx, ys, hys, -⟩ := h
      rcases List.mem_cons.mp hj with rfl | hj
      · rw [hi, Option.bind_some, hx, Option.isSome_some]
      · exact ih hys j hj
  cases hvs with
  | nil => rcases hk with rfl | rfl <;> exact absurd hv (by simp [Core.applyOperator])
  | cons hi hrest =>
    refine ⟨List.cons_ne_nil _ _, ?_⟩
    rcases hk with rfl | rfl <;>
    · obtain ⟨qs, hqs, -⟩ := Option.map_eq_some_iff.mp hv
      exact hall (.cons hi hrest) hqs

/-- What the loop has after some operands: their constants folded, and the slot
of the first before the operands that stay, up to order. -/
theorem foldlM_foldOperand (h : ∀ i ∈ is, ∃ e, res[i]? = some e) :
    ∃ s, is.foldlM (foldOperand core res kind) ⟨Core.unit kind, none, []⟩ = some s ∧
      s.v = total kind (is.filterMap (constantAt core res)) ∧
      s.firstConstantOperand = is.find? (fun i => (constantAt core res i).isSome) ∧
      s.operands.Perm (s.firstConstantOperand.toList ++
        is.filter fun i => (constantAt core res i).isNone) := by
  induction is using List.reverseRecOn with
  | nil => exact ⟨_, rfl, rfl, rfl, .nil⟩
  | append_singleton is i ih =>
    obtain ⟨s, hs, hv, hfirst, hperm⟩ := ih fun j hj => h j (List.mem_append_left _ hj)
    obtain ⟨e, he⟩ := h i (by simp)
    have hat : constantAt core res i = e.number? core := by rw [constantAt, he, Option.bind_some]
    simp only [List.foldlM_append, List.foldlM_cons, List.foldlM_nil, Option.bind_eq_bind, hs,
      Option.bind_some, foldOperand, he, Option.pure_def, Option.bind_fun_some,
      List.filterMap_append, List.filter_append, List.find?_append, total_append]
    cases hx : e.number? core with
    | none =>
      have hfilter : [i].filter (fun i => (constantAt core res i).isNone) = [i] := by simp [hat, hx]
      refine ⟨_, rfl, ?_, ?_, ?_⟩
      · simp [hat, hx, hv, total, Core.combine_unit]
      · simp [hat, hx, hfirst]
      · rw [hfilter, ← List.append_assoc]
        exact hperm.append_right [i]
    | some x =>
      have hfilter : [i].filter (fun i => (constantAt core res i).isNone) = [] := by simp [hat, hx]
      have htotal : total kind ([i].filterMap (constantAt core res)) = x := by
        simp [hat, hx, total, Core.combine_unit]
      have hfind : [i].find? (fun i => (constantAt core res i).isSome) = some i := by simp [hat, hx]
      rw [htotal, hfilter, hfind, List.append_nil, ← hv, ← hfirst]
      by_cases hnone : s.firstConstantOperand = none
      · rw [hnone] at hperm ⊢
        exact ⟨_, if_pos rfl, rfl, rfl, (hperm.append_right [i]).trans List.perm_append_comm⟩
      · obtain ⟨f, hf⟩ := Option.ne_none_iff_exists'.mp hnone
        rw [hf] at hperm ⊢
        exact ⟨_, if_neg (by simp), rfl, rfl, hperm⟩

theorem map_filter_isSome {c : ℕ → Option ℚ} {g : ℕ → ℚ} (h : ∀ i ∈ is, ∀ x, c i = some x → g i = x) :
    (is.filter fun i => (c i).isSome).map g = is.filterMap c := by
  induction is with
  | nil => rfl
  | cons i is ih =>
    have ih := ih fun j hj => h j (List.mem_cons_of_mem _ hj)
    cases hc : c i with
    | none => simp [hc, ih]
    | some x => simp [hc, ih, h i List.mem_cons_self x hc]

variable [Callables]

/-- The constants and the rest of the operands, totalled apart. -/
theorem total_eq (h : Valued core get res vals) (hin : ∀ i ∈ is, i < vals.length) :
    total kind (is.map (numberAt core vals)) =
      Core.combine kind (total kind (is.filterMap (constantAt core res)))
        (total kind ((is.filter fun i => (constantAt core res i).isNone).map (numberAt core vals))) := by
  have hconst : ∀ i ∈ is, ∀ x, constantAt core res i = some x → numberAt core vals i = x := by
    intro i hi x hx
    obtain ⟨e, he, hx⟩ := Option.bind_eq_some_iff.mp hx
    have hv := List.getElem?_eq_getElem (hin i hi)
    rw [numberAt, hv, Option.bind_some, h.number he hx hv]
    rfl
  rw [← map_filter_isSome hconst, ← total_append, ← List.map_append]
  refine total_perm kind (List.Perm.map _ ?_)
  have := (List.filter_append_perm (fun i => (constantAt core res i).isSome) is).symm
  simpa [Option.isNone_iff_eq_none, Bool.not_eq_true] using this

theorem foldNary_spec (h : Valued core get res vals) (hk : kind = .plus ∨ kind = .times)
    (hfresh : ∀ i ∈ is, ∀ e ∈ res, i ∉ e.operands) (hvs : Operands vals is vs)
    (hv : core.applyOperator kind vs = some v) :
    ∃ res' vals' e, foldNary core res kind is = some (res', e) ∧ res'.length = res.length ∧
      Valued core get res' vals' ∧ Stands core get res vals' is v e ∧ (∀ i, i ∉ is → vals'[i]? = vals[i]?) ∧
      ∀ e ∈ res', e ∈ res ∨ ∃ c, e = .constant c := by
  obtain ⟨hne, hn⟩ := isSome_of_applyOperator hk hvs hv
  have hlt := hvs.lt
  obtain ⟨s, hs, hsv, hfirst, hperm⟩ := @foldlM_foldOperand core res is kind
    fun i hi => h.exists_node (List.getElem?_eq_getElem (hlt i hi))
  have hvalue := hv.symm.trans (applyOperator_nary hk hne hvs hn)
  rw [total_eq h hlt, ← hsv] at hvalue
  simp only [foldNary, hs, Option.bind_eq_bind, Option.bind_some]
  cases hf : s.firstConstantOperand with
  | none => exact ⟨res, vals, _, rfl, rfl, h, stands_operator hvs hv, fun _ _ => rfl, fun _ he => .inl he⟩
  | some f =>
    have hfis : f ∈ is := List.mem_of_find?_eq_some (hfirst.symm.trans hf)
    have hfc : (constantAt core res f).isSome = true :=
      List.find?_some (p := fun i => (constantAt core res i).isSome) (hfirst.symm.trans hf)
    rw [hf] at hperm
    by_cases hlen : s.operands.length = 1
    · have hopen : (is.filter fun i => (constantAt core res i).isNone) = [] := by
        have := hperm.length_eq
        simp only [Option.toList_some, List.length_append, List.length_singleton] at this
        exact List.length_eq_zero_iff.mp (by omega)
      rw [hopen] at hvalue
      obtain rfl : v = .num s.v := by
        simpa [total, Core.combine_unit] using Option.some.inj hvalue
      exact ⟨res, vals, _, if_pos hlen, rfl, h, stands_constant, fun _ _ => rfl, fun _ he => .inl he⟩
    · refine ⟨_, vals.set f (.num s.v), _, if_neg hlen, List.length_set,
        h.set (hfresh f hfis) _, ?_, ?_, ?_⟩
      · have hsub : ∀ o ∈ s.operands, o ∈ is := by
          intro o ho
          rcases List.mem_append.mp (hperm.mem_iff.mp ho) with ho | ho
          · exact List.mem_singleton.mp ho ▸ hfis
          · exact List.mem_of_mem_filter ho
        have hnum : ∀ q, core.number (.num q) = some q := fun q => by cases core <;> rfl
        have hself : ((vals.set f (.num s.v))[f]?).bind core.number = some s.v := by
          rw [List.getElem?_set_self (hlt f hfis), Option.bind_some, hnum]
        have hother : ∀ o, f ≠ o →
            ((vals.set f (.num s.v))[o]?).bind core.number = (vals[o]?).bind core.number :=
          fun o ho => by rw [List.getElem?_set_ne ho]
        obtain ⟨us, hus⟩ : ∃ us, Operands (vals.set f (.num s.v)) s.operands us :=
          exists_operandValues fun o ho => by
            rw [List.length_set]
            exact hlt o (hsub o ho)
        have hnus : ∀ o ∈ s.operands, (((vals.set f (.num s.v))[o]?).bind core.number).isSome := by
          intro o ho
          by_cases hfo : f = o
          · rw [← hfo, hself, Option.isSome_some]
          · rw [hother o hfo]
            exact hn o (hsub o ho)
        have hopen : ∀ o ∈ is.filter (fun i => (constantAt core res i).isNone),
            numberAt core (vals.set f (.num s.v)) o = numberAt core vals o := by
          intro o ho
          have hfo : f ≠ o := by
            rintro rfl
            simp [Option.isNone_iff_eq_none.mp (List.mem_filter.mp ho).2] at hfc
          rw [numberAt, numberAt, hother o hfo]
        refine ⟨⟨us, hus, ?_⟩, fun o ho => .inl (hsub o ho), fun _ hf => nomatch hf⟩
        have hne' : s.operands ≠ [] := by
          rintro hnil
          rw [hnil] at hperm
          exact absurd hperm.symm.eq_nil (by simp)
        have htotal := total_perm kind
          (hperm.map (numberAt core (vals.set f (.num s.v))))
        rw [Core.nodeValue, applyOperator_nary hk hne' hus hnus, htotal, hvalue, Option.toList_some,
          List.singleton_append, List.map_cons, List.map_congr_left hopen, numberAt, hself]
        rfl
      · intro i hi
        have hfi : f ≠ i := by
          rintro rfl
          exact hi hfis
        exact List.getElem?_set_ne hfi
      · intro e he
        rcases List.mem_or_eq_of_mem_set he with he | rfl
        · exact .inl he
        · exact .inr ⟨_, rfl⟩

/-! ### The pass -/

/-- The operands of its connectives are Booleans. -/
def BooleanConnectives (exp : Expression) (vals : List ConstantNode) : Prop :=
  ∀ kind operands, .operator kind operands ∈ exp → kind = .and ∨ kind = .or →
    ∀ i ∈ operands, ∃ b, vals[i]? = some (.bool b)

/-- The slots after a node that is worth `v`, and what stands for it. -/
structure Replaces (core : Core) (get assignments : Fluent → Option ConstantNode) (res : Expression)
    (vals : List ConstantNode) (e : ExpressionNode) (v : ConstantNode) (res' : Expression)
    (vals' : List ConstantNode) (e' : ExpressionNode) : Prop where
  length : res'.length = res.length
  valued : Valued core get res' vals'
  value : ∃ us, Operands vals' e'.operands us ∧ core.nodeValue get e' us = some v
  operands : ∀ o ∈ e'.operands, o ∈ e.operands ∨ ∃ e₁ ∈ res, o ∈ e₁.operands
  fluent : ∀ f, e' = .fluent f → e' ∈ res ∨ e = .fluent f ∧ assignments f = none
  agrees : ∀ i, i ∉ e.operands → vals'[i]? = vals[i]?
  nodes : ∀ e₁ ∈ res', e₁ ∈ res ∨ ∃ c, e₁ = .constant c

variable {assignments : Fluent → Option ConstantNode} {flag : Bool} {e e' : ExpressionNode}

theorem Stands.replaces (hs : Stands core get res vals e.operands v e')
    (h : Valued core get res vals) : Replaces core get assignments res vals e v res vals e' :=
  ⟨rfl, h, hs.value, hs.operands, fun f hf => .inl (hs.fluent f hf), fun _ _ => rfl,
    fun _ he => .inl he⟩

theorem mapM_constant? (h : Valued core get res vals) {nodes : List ExpressionNode}
    {cs : List ConstantNode} (hn : is.mapM (res[·]?) = some nodes)
    (hc : nodes.mapM ExpressionNode.constant? = some cs) : Operands vals is cs := by
  induction is generalizing nodes cs with
  | nil =>
    obtain rfl := Option.some.inj hn
    obtain rfl := Option.some.inj hc
    exact .nil
  | cons i is ih =>
    simp only [List.mapM_cons, Option.bind_eq_bind, Option.bind_eq_some_iff] at hn
    obtain ⟨e, he, es, hes, hn⟩ := hn
    obtain rfl := Option.some.inj hn
    simp only [List.mapM_cons, Option.bind_eq_bind, Option.bind_eq_some_iff] at hc
    obtain ⟨c, hec, ds, hds, hc⟩ := hc
    obtain rfl := Option.some.inj hc
    cases e with
    | constant d =>
      obtain rfl : d = c := Option.some.inj hec
      exact .cons (h.constant he) (ih hes hds)
    | _ => simp [ExpressionNode.constant?] at hec

theorem exists_nodes (h : Valued core get res vals) (hvs : Operands vals is vs) :
    ∃ nodes, is.mapM (res[·]?) = some nodes := by
  induction hvs with
  | nil => exact ⟨[], rfl⟩
  | cons hi _ ih =>
    obtain ⟨e, he⟩ := h.exists_node hi
    obtain ⟨nodes, hn⟩ := ih
    exact ⟨e :: nodes, by rw [List.mapM_cons, he, hn]; rfl⟩

theorem foldNode_operator (h : Valued core get res vals) {operands : List ℕ}
    (hfresh : ∀ i ∈ operands, ∀ e' ∈ res, i ∉ e'.operands)
    (hbool : kind = .and ∨ kind = .or → ∃ bs : List Bool, vs = bs.map .bool)
    (hvs : Operands vals operands vs) (hv : core.applyOperator kind vs = some v) :
    ∃ res' vals' e', foldNode core assignments flag res (.operator kind operands) =
        some (res', e') ∧
      Replaces core get assignments res vals (.operator kind operands) v res' vals' e' := by
  have hkeep : (∃ e', foldNode core assignments flag res (.operator kind operands) =
        some (res, e') ∧ Stands core get res vals operands v e') →
      ∃ res' vals' e', foldNode core assignments flag res (.operator kind operands) =
          some (res', e') ∧
        Replaces core get assignments res vals (.operator kind operands) v res' vals' e' := by
    intro hs
    obtain ⟨e', hfold, hs⟩ := hs
    exact ⟨res, vals, e', hfold, hs.replaces h⟩
  cases kind with
  | and =>
    obtain ⟨bs, rfl⟩ := hbool (.inl rfl)
    obtain ⟨e', he', hs⟩ := foldConnective_spec h false (.inl ⟨rfl, rfl⟩) hvs hv
    exact hkeep ⟨e', by rw [foldNode, he']; rfl, hs⟩
  | or =>
    obtain ⟨bs, rfl⟩ := hbool (.inr rfl)
    obtain ⟨e', he', hs⟩ := foldConnective_spec h true (.inr ⟨rfl, rfl⟩) hvs hv
    exact hkeep ⟨e', by rw [foldNode, he']; rfl, hs⟩
  | not =>
    obtain ⟨e', he', hs⟩ := foldNot_spec h hvs hv
    exact hkeep ⟨e', by rw [foldNode, he']; rfl, hs⟩
  | eq =>
    obtain ⟨e', he', hs⟩ := foldEquals_spec h hvs hv
    exact hkeep ⟨e', by rw [foldNode, he']; rfl, hs⟩
  | le | lt | minus | div =>
    obtain ⟨e', he', hs⟩ := foldBinary_spec h (by simp) hvs hv
    exact hkeep ⟨e', congrArg (Option.map fun e => (res, e)) he', hs⟩
  | plus | times =>
    obtain ⟨res', vals', e', hfold, hlen, hval, hs, hag, hnodes⟩ :=
      foldNary_spec h (by simp) hfresh hvs hv
    exact ⟨res', vals', e', hfold, hlen, hval, hs.value, hs.operands,
      fun f hf => .inl (hs.fluent f hf), hag, hnodes⟩

theorem foldNode_spec (hagree : ∀ f c, assignments f = some c → get f = some c)
    (h : Valued core get res vals) (hfresh : ∀ i ∈ e.operands, ∀ e' ∈ res, i ∉ e'.operands)
    (hbool : ∀ kind operands, e = .operator kind operands → kind = .and ∨ kind = .or →
      ∃ bs : List Bool, vs = bs.map .bool)
    (hvs : Operands vals e.operands vs) (hv : core.nodeValue get e vs = some v) :
    ∃ res' vals' e', foldNode core assignments flag res e = some (res', e') ∧
      Replaces core get assignments res vals e v res' vals' e' := by
  cases e with
  | constant c =>
    obtain rfl := Option.some.inj hv
    exact ⟨res, vals, _, rfl, stands_constant.replaces h⟩
  | fluent f =>
    cases ha : assignments f with
    | none =>
      refine ⟨res, vals, .fluent f, by rw [foldNode, ha], rfl, h, ⟨vs, hvs, hv⟩,
        fun o ho => .inl ho, ?_, fun _ _ => rfl, fun _ he => .inl he⟩
      intro g hg
      obtain rfl : f = g := by simpa using hg
      exact .inr ⟨rfl, ha⟩
    | some c =>
      obtain rfl : c = v := Option.some.inj ((hagree f c ha).symm.trans hv)
      exact ⟨res, vals, .constant c, by rw [foldNode, ha], stands_constant.replaces h⟩
  | interpretedFunction fn rt operands =>
    have hvs : Operands vals operands vs := hvs
    obtain ⟨nodes, hn⟩ := exists_nodes h hvs
    have hstay : Stands core get res vals operands v (.interpretedFunction fn rt operands) :=
      ⟨⟨vs, hvs, hv⟩, fun o ho => .inl ho, fun f hf => nomatch hf⟩
    have hkeep : foldNode core assignments flag res (.interpretedFunction fn rt operands) =
        some (res, .interpretedFunction fn rt operands) → ∃ res' vals' e',
          foldNode core assignments flag res (.interpretedFunction fn rt operands) =
            some (res', e') ∧ Replaces core get assignments res vals
              (.interpretedFunction fn rt operands) v res' vals' e' :=
      fun hfold => ⟨res, vals, _, hfold, hstay.replaces h⟩
    cases flag with
    | false => exact hkeep (by rw [foldNode, hn]; rfl)
    | true =>
      cases hc : nodes.mapM ExpressionNode.constant? with
      | none =>
        apply hkeep
        simp only [foldNode, hn, Option.bind_eq_bind, Option.bind_some, hc]
      | some cs =>
        have hcs := mapM_constant? h hn hc
        obtain rfl : vs = cs := Option.some.inj (hvs.mapM.symm.trans hcs.mapM)
        obtain ⟨r, hr, hrt⟩ := Option.bind_eq_some_iff.mp hv
        refine ⟨res, vals, .constant v, ?_, stands_constant.replaces h⟩
        simp only [foldNode, hn, Option.bind_eq_bind, Option.bind_some, hc, hr, hrt]
        rfl
  | operator kind operands => exact foldNode_operator h hfresh (hbool kind operands rfl) hvs hv

/-- The slots after the pass over `exp`, worth `vals'`. -/
structure Folds (core : Core) (get assignments : Fluent → Option ConstantNode) (exp : Expression)
    (vals : List ConstantNode) (res : Expression) (vals' : List ConstantNode) : Prop where
  length : res.length = exp.length
  valued : Valued core get res vals'
  consumed : ∀ e ∈ res, ∀ o ∈ e.operands, o ∈ exp.flatMap ExpressionNode.operands
  agrees : ∀ i, i ∉ exp.flatMap ExpressionNode.operands → vals'[i]? = vals[i]?
  fluents : ∀ f, .fluent f ∈ res → .fluent f ∈ exp ∧ assignments f = none

/-- A node is read once, so what it is worth is still in its slot then. -/
theorem Folds.step (flag : Bool) {exp : Expression} {vals' : List ConstantNode}
    (hagree : ∀ f c, assignments f = some c → get f = some c)
    (h : Folds core get assignments exp vals res vals') (hlen : vals.length = exp.length)
    (hfresh : ∀ i ∈ e.operands, i ∉ exp.flatMap ExpressionNode.operands)
    (hbool : ∀ kind operands, e = .operator kind operands → kind = .and ∨ kind = .or →
      ∃ bs : List Bool, vs = bs.map .bool)
    (hvs : Operands vals e.operands vs) (hv : core.nodeValue get e vs = some v) :
    ∃ res₁ vals₁ e', foldNode core assignments flag res e = some (res₁, e') ∧
      Folds core get assignments (exp ++ [e]) (vals ++ [v]) (res₁ ++ [e']) (vals₁ ++ [v]) := by
  have hvs' : Operands vals' e.operands vs := hvs.congr fun i hi => h.agrees i (hfresh i hi)
  have hunread : ∀ i ∈ e.operands, ∀ e' ∈ res, i ∉ e'.operands :=
    fun i hi e' he' hi' => hfresh i hi (h.consumed e' he' i hi')
  obtain ⟨res₁, vals₁, e', hfold, hr⟩ := foldNode_spec hagree h.valued hunread hbool hvs' hv
  obtain ⟨us, hus, hu⟩ := hr.value
  have hlen₁ : vals₁.length = vals.length := by
    rw [hr.valued.length, hr.length, h.length, hlen]
  refine ⟨res₁, vals₁, e', hfold, ?_, hr.valued.append hus hu, ?_, ?_, ?_⟩
  · simp [hr.length, h.length]
  · intro e₁ he₁ o ho
    rw [List.flatMap_append, List.mem_append]
    have hold : ∀ e₂ ∈ res, o ∈ e₂.operands → o ∈ exp.flatMap ExpressionNode.operands :=
      fun e₂ he₂ ho₂ => h.consumed e₂ he₂ o ho₂
    rcases List.mem_append.mp he₁ with he₁ | he₁
    · rcases hr.nodes e₁ he₁ with he₁ | ⟨c, rfl⟩
      · exact .inl (hold e₁ he₁ ho)
      · exact absurd ho List.not_mem_nil
    · obtain rfl := List.mem_singleton.mp he₁
      rcases hr.operands o ho with ho | ⟨e₂, he₂, ho⟩
      · exact .inr (by simpa using ho)
      · exact .inl (hold e₂ he₂ ho)
  · intro i hi
    simp only [List.flatMap_append, List.flatMap_cons, List.flatMap_nil, List.append_nil,
      List.mem_append, not_or] at hi
    rcases Nat.lt_or_ge i vals.length with hlt | hge
    · rw [List.getElem?_append_left (hlen₁ ▸ hlt), List.getElem?_append_left hlt,
        hr.agrees i hi.2, h.agrees i hi.1]
    · rw [List.getElem?_append_right (hlen₁ ▸ hge), List.getElem?_append_right hge, hlen₁]
  · intro f hf
    rw [List.mem_append, List.mem_singleton]
    have hold : .fluent f ∈ res → (.fluent f ∈ exp ∨ .fluent f = e) ∧ assignments f = none :=
      fun hf => ⟨.inl (h.fluents f hf).1, (h.fluents f hf).2⟩
    rcases List.mem_append.mp hf with hf | hf
    · rcases hr.nodes _ hf with hf | ⟨c, hc⟩
      · exact hold hf
      · cases hc
    · have hf' := List.mem_singleton.mp hf
      rcases hr.fluent f hf'.symm with hm | ⟨he, ha⟩
      · exact hold (hf' ▸ hm)
      · exact ⟨.inr he.symm, ha⟩

theorem foldSlots_spec (flag : Bool) {exp : Expression}
    (hagree : ∀ f c, assignments f = some c → get f = some c)
    (hnd : (exp.flatMap ExpressionNode.operands).Nodup) (hval : Valued core get exp vals)
    (hbool : BooleanConnectives exp vals) :
    ∃ res vals', foldSlots core assignments flag exp = some res ∧
      Folds core get assignments exp vals res vals' := by
  induction exp using List.reverseRecOn generalizing vals with
  | nil =>
    obtain rfl := List.length_eq_zero_iff.mp hval.length
    exact ⟨[], [], rfl, rfl, .nil, by simp, fun _ _ => rfl, by simp⟩
  | append_singleton exp e ih =>
    obtain ⟨ws, v, rfl⟩ : ∃ ws v, vals = ws ++ [v] := by
      rcases List.eq_nil_or_concat vals with rfl | ⟨ws, v, rfl⟩
      · exact absurd hval.length (by simp)
      · exact ⟨ws, v, List.concat_eq_append⟩
    obtain ⟨hws, vs, hvs, hv⟩ := hval.of_append
    rw [List.flatMap_append, List.nodup_append] at hnd
    have hin : ∀ {e' i}, e' ∈ exp ++ [e] → i ∈ e'.operands → i < ws.length := by
      intro e' i he' hi
      obtain ⟨n, hn⟩ := List.mem_iff_getElem?.mp he'
      have h₁ := hval.ordered hn i hi
      have h₂ := (List.getElem?_eq_some_iff.mp hn).1
      rw [List.length_append, List.length_singleton, ← hws.length] at h₂
      omega
    have hbool' : BooleanConnectives exp ws := by
      intro kind operands he hk i hi
      have he' : .operator kind operands ∈ exp ++ [e] := List.mem_append_left _ he
      obtain ⟨b, hb⟩ := hbool kind operands he' hk i hi
      rw [List.getElem?_append_left (hin he' hi)] at hb
      exact ⟨b, hb⟩
    obtain ⟨res, vals', hres, hf⟩ := ih hnd.1 hws hbool'
    have hfresh : ∀ i ∈ e.operands, i ∉ exp.flatMap ExpressionNode.operands := by
      intro i hi hm
      exact hnd.2.2 i hm i (by simpa using hi) rfl
    have hbs : ∀ kind operands, e = .operator kind operands → kind = .and ∨ kind = .or →
        ∃ bs : List Bool, vs = bs.map .bool := by
      rintro kind operands rfl hk
      apply exists_bools
      intro w hw
      obtain ⟨i, hi, hiw⟩ := hvs.exists_of_mem hw
      obtain ⟨b, hb⟩ := hbool kind operands (by simp) hk i hi
      rw [List.getElem?_append_left (hvs.lt i hi), hiw] at hb
      rw [Option.some.inj hb]
      rfl
    obtain ⟨res₁, vals₁, e', hfold, hstep⟩ := hf.step flag hagree hws.length hfresh hbs hvs hv
    refine ⟨_, _, ?_, hstep⟩
    rw [foldSlots, List.foldlM_append, ← foldSlots, hres]
    simp [hfold]

end TamerLite
