import TamerLite.EffectMerging
import TamerLite.EncodedSpace
import TamerLite.RelaxedEncoding
import TamerLite.TimedGoals

/-! The conditions of a typed problem without interpreted functions are converted to the
conditions that a heuristic takes. -/

namespace TamerLite

/-! ### Equalities of typed trees -/

namespace ExprTree

variable {domains : List FluentDomain} {assignments : Assignments} {t a b : ExprTree}
  {v w : ConstantNode}

theorem has_getValue (hin : WithinDomains domains assignments) {f : Fluent} {d : FluentDomain}
    (hd : domains[f.idx]? = some d) (hv : getValue assignments f = some v) : d.Has v := by
  obtain ⟨w, hw, hhas⟩ := hin _ _ hd
  obtain rfl := Option.some.inj (hw.symm.trans hv)
  exact hhas

theorem exists_object (hin : WithinDomains domains assignments) {f : Fluent} {d : FluentDomain}
    (hd : domains[f.idx]? = some d) (hkind : d.kind = .object)
    (hv : getValue assignments f = some v) : ∃ o, v = .object o := by
  have hhas := has_getValue hin hd hv
  cases v with
  | bool b => exact absurd (hkind.symm.trans hhas) (by decide)
  | num q => rcases hhas with h | h <;> exact absurd (hkind.symm.trans h) (by decide)
  | object o => exact ⟨o, rfl⟩

theorem exists_number_python (h : ∀ o, v ≠ .object o) : ∃ x, Core.python.number v = some x := by
  cases v with
  | bool b => exact ⟨_, rfl⟩
  | num q => exact ⟨_, rfl⟩
  | object o => exact absurd rfl (h o)

variable [Callables]

theorem allCompareAlike_iff {core : Core} {get : Fluent → Option ConstantNode}
    {ts : List ExprTree} : AllCompareAlike core get ts ↔ ∀ t ∈ ts, t.ComparesAlike core get := by
  induction ts with
  | nil => simp [AllCompareAlike]
  | cons t ts ih => simp [AllCompareAlike, ih]

/-- Arithmetic yields no object. -/
theorem Arithmetic.ne_object (ht : t.Arithmetic domains) (hin : WithinDomains domains assignments)
    (hv : t.value .python (getValue assignments) = some v) (o : Object) : v ≠ .object o := by
  cases ht with
  | number q =>
    obtain rfl : ConstantNode.num q = v := Option.some.inj hv
    intro h
    cases h
  | fluent hd hkind =>
    have hhas := has_getValue hin hd hv
    intro h
    rw [h] at hhas
    rcases hkind with hk | hk <;> exact absurd (hk.symm.trans hhas.1) (by decide)
  | operator hkind hargs =>
    obtain ⟨vs, -, hv⟩ := Option.bind_eq_some_iff.mp hv
    exact applyOperator_ne_object hv o

theorem Arithmetic.comparesAlike (ht : t.Arithmetic domains) {core : Core}
    {get : Fluent → Option ConstantNode} : t.ComparesAlike core get := by
  induction ht with
  | number q => exact ⟨by simp, trivial⟩
  | fluent hd hkind => exact ⟨by simp, trivial⟩
  | operator hkind hargs ih =>
    refine ⟨fun operands h => ?_, allCompareAlike_iff.mpr ih⟩
    rcases hkind with rfl | rfl | rfl | rfl <;> cases h

theorem values_pair {core : Core} {get : Fluent → Option ConstantNode}
    (h : values core get [a, b] = some [v, w]) :
    a.value core get = some v ∧ b.value core get = some w := by
  rw [values_eq_mapM] at h
  simpa [List.mapM_cons, Option.bind_eq_some_iff] using h

theorem Atom.comparesAlike (ht : t.Atom domains) (hin : WithinDomains domains assignments) :
    t.ComparesAlike .python (getValue assignments) := by
  cases ht with
  | fluent hd hkind => exact ⟨by simp, trivial⟩
  | compare hkind ha hb =>
    refine ⟨fun operands _ v w h => ?_, ha.comparesAlike, hb.comparesAlike, trivial⟩
    obtain ⟨hv, hw⟩ := values_pair h
    obtain ⟨x, hx⟩ := exists_number_python (ha.ne_object hin hv)
    obtain ⟨y, hy⟩ := exists_number_python (hb.ne_object hin hw)
    exact .inr ⟨x, y, hx, hy⟩
  | @equalsObject f d o operands hd hkind =>
    refine ⟨fun _ _ v w h => ?_, ⟨by simp, trivial⟩, ⟨by simp, trivial⟩, trivial⟩
    obtain ⟨hv, hw⟩ := values_pair h
    obtain ⟨p, rfl⟩ := exists_object hin hd hkind hv
    exact .inl ⟨p, o, rfl, (Option.some.inj hw).symm⟩
  | equalFluents hd hkind hd' hkind' =>
    refine ⟨fun _ _ v w h => ?_, ⟨by simp, trivial⟩, ⟨by simp, trivial⟩, trivial⟩
    obtain ⟨hv, hw⟩ := values_pair h
    obtain ⟨p, rfl⟩ := exists_object hin hd hkind hv
    obtain ⟨q, rfl⟩ := exists_object hin hd' hkind' hw
    exact .inl ⟨p, q, rfl, rfl⟩

end ExprTree

/-! ### Typed conditions -/

namespace FNode

variable (C : Converter) (domains : List FluentDomain)

/-- Numbers, numeric fluents and arithmetic. -/
inductive Arithmetic : FNode → Prop
  | int (z : ℤ) : Arithmetic (node (.intConstant z) [])
  | real (q : ℚ) : Arithmetic (node (.realConstant q) [])
  | fluent {f : UPFluent} {args : List FNode} {g : Fluent} {d : FluentDomain}
      (hg : C.fluentIds (node (.fluentExp f) args) = some g) (hd : domains[g.idx]? = some d)
      (hkind : d.kind = .int ∨ d.kind = .real) : Arithmetic (node (.fluentExp f) args)
  | operator {kind : NodeKind} {args : List FNode}
      (hkind : kind = .plus ∨ kind = .minus ∨ kind = .times ∨ kind = .div)
      (hargs : ∀ e ∈ args, Arithmetic e) : Arithmetic (node kind args)

/-- A fluent that holds objects. -/
def IsObjectFluent (e : FNode) : Prop := ∃ f args g d, e = node (.fluentExp f) args ∧
  C.fluentIds e = some g ∧ domains[g.idx]? = some d ∧ d.kind = .object

/-- A Boolean fluent, a comparison of numbers or an equality of objects. -/
inductive Atom : FNode → Prop
  | fluent {f : UPFluent} {args : List FNode} {g : Fluent} {d : FluentDomain}
      (hg : C.fluentIds (node (.fluentExp f) args) = some g) (hd : domains[g.idx]? = some d)
      (hkind : d.kind = .bool) : Atom (node (.fluentExp f) args)
  | compare {kind : NodeKind} {a b : FNode} (hkind : kind = .le ∨ kind = .lt ∨ kind = .equals)
      (ha : a.Arithmetic C domains) (hb : b.Arithmetic C domains) : Atom (node kind [a, b])
  | equalsObject {e : FNode} {o : UPObject} (he : e.IsObjectFluent C domains) :
      Atom (node .equals [e, node (.objectExp o) []])
  | objectEquals {e : FNode} {o : UPObject} (he : e.IsObjectFluent C domains) :
      Atom (node .equals [node (.objectExp o) [], e])
  | equalFluents {e e' : FNode} (he : e.IsObjectFluent C domains)
      (he' : e'.IsObjectFluent C domains) : Atom (node .equals [e, e'])

inductive Literal : FNode → Prop
  | false : Literal (node (.boolConstant Bool.false) [])
  | atom {e : FNode} (he : e.Atom C domains) : Literal e
  | not {e : FNode} (he : e.Atom C domains) : Literal (node .not [e])

/-- A typed condition in negation normal form. -/
inductive Supported : FNode → Prop
  | true : Supported (node (.boolConstant Bool.true) [])
  | literal {e : FNode} (he : e.Literal C domains) : Supported e
  | and {args : List FNode} (hargs : ∀ e ∈ args, Supported e) : Supported (node .and args)
  | or {args : List FNode} (hargs : ∀ e ∈ args, Supported e) : Supported (node .or args)

end FNode

/-! ### Their conversions -/

/-- The expression is laid out from a tree with the property. -/
def LaidOut (p : ExprTree → Prop) (x : Expression) : Prop :=
  ∃ t : ExprTree, t.wellFormed = true ∧ t.proper = true ∧ x = t.layout 0 ∧ p t

section

variable {p q : ExprTree → Prop} {x y : Expression} {xs : List Expression}

theorem LaidOut.mono (h : LaidOut p x) (hpq : ∀ t, p t → q t) : LaidOut q x := by
  obtain ⟨t, hwf, hproper, hx, ht⟩ := h
  exact ⟨t, hwf, hproper, hx, hpq t ht⟩

theorem laidOut_leaf {e : ExpressionNode} (he : ∀ ops, e.withOperands ops = e)
    (hwf : (ExprTree.node e []).wellFormed = true) (hproper : (ExprTree.node e []).proper = true)
    (hp : p (.node e [])) : LaidOut p [e] :=
  ⟨.node e [], hwf, hproper, by simp [ExprTree.layout, ExprTree.layouts, he], hp⟩

theorem LaidOut.exists_trees (h : ∀ x ∈ xs, LaidOut p x) : ∃ ts : List ExprTree,
    (∀ t ∈ ts, t.wellFormed = true) ∧ (∀ t ∈ ts, t.proper = true) ∧ (∀ t ∈ ts, p t) ∧
      xs = ts.map (ExprTree.layout 0) := by
  induction xs with
  | nil => exact ⟨[], by simp, by simp, by simp, rfl⟩
  | cons x xs ih =>
    obtain ⟨t, hwf, hproper, rfl, hp⟩ := h x List.mem_cons_self
    obtain ⟨ts, hwfs, hpropers, hps, rfl⟩ := ih fun y hy => h y (List.mem_cons_of_mem _ hy)
    exact ⟨t :: ts, List.forall_mem_cons.mpr ⟨hwf, hwfs⟩,
      List.forall_mem_cons.mpr ⟨hproper, hpropers⟩, List.forall_mem_cons.mpr ⟨hp, hps⟩, rfl⟩

theorem walkNary_layouts (kind : OperatorKind) (ts : List ExprTree) :
    Converter.walkNary kind (ts.map (ExprTree.layout 0)) =
      (ExprTree.node (.operator kind []) ts).layout 0 := by
  rw [Converter.walkNary, ExprTree.joinArgs_layouts]
  rfl

/-- An operator over laid-out trees. -/
theorem laidOut_operator (kind : OperatorKind) (ts : List ExprTree)
    (hwf : ∀ t ∈ ts, t.wellFormed = true) (hproper : ∀ t ∈ ts, t.proper = true)
    (htakes : kind.takes ts.length = true) (hq : q (.node (.operator kind []) ts)) :
    LaidOut q (Converter.walkNary kind (ts.map (ExprTree.layout 0))) := by
  refine ⟨.node (.operator kind []) ts, ?_, ?_, walkNary_layouts kind ts, hq⟩
  · rw [ExprTree.wellFormed, Bool.and_eq_true, ExprTree.wellFormeds_iff]
    exact ⟨rfl, hwf⟩
  · rw [ExprTree.proper, Bool.and_eq_true, ExprTree.propers_iff]
    exact ⟨htakes, hproper⟩

theorem LaidOut.walkNary {kind : OperatorKind} (h : ∀ x ∈ xs, LaidOut p x)
    (htakes : kind.takes xs.length = true)
    (hq : ∀ ts : List ExprTree, (∀ t ∈ ts, p t) → q (.node (.operator kind []) ts)) :
    LaidOut q (Converter.walkNary kind xs) := by
  obtain ⟨ts, hwf, hproper, hp, rfl⟩ := LaidOut.exists_trees h
  rw [List.length_map] at htakes
  exact laidOut_operator kind ts hwf hproper htakes (hq ts hp)

theorem LaidOut.walkNot (hx : LaidOut p x)
    (hq : ∀ t, p t → q (.node (.operator .not []) [t])) :
    LaidOut q (x ++ [.operator .not [x.length - 1]]) := by
  obtain ⟨t, hwf, hproper, rfl, ht⟩ := hx
  exact laidOut_operator .not [t] (by simp [hwf]) (by simp [hproper]) rfl (hq t ht)

theorem LaidOut.walkBinary {kind : OperatorKind} {r : ExprTree → Prop} (hx : LaidOut p x)
    (hy : LaidOut q y) (htakes : kind.takes 2 = true)
    (hr : ∀ a b, p a → q b → r (.node (.operator kind []) [a, b])) :
    LaidOut r (Converter.walkBinary kind x y) := by
  obtain ⟨a, hwf, hproper, rfl, ha⟩ := hx
  obtain ⟨b, hwf', hproper', rfl, hb⟩ := hy
  exact laidOut_operator kind [a, b] (by simp [hwf, hwf']) (by simp [hproper, hproper']) htakes
    (hr a b ha hb)

end

namespace FNode

variable {C : Converter} {domains : List FluentDomain} {e : FNode} {x : Expression}

theorem convertArgs_laidOut {p : ExprTree → Prop} {es : List FNode} {xs : List Expression}
    (h : ∀ e ∈ es, ∀ x, C.convert e = some x → LaidOut p x) (hxs : C.convertArgs es = some xs) :
    ∀ x ∈ xs, LaidOut p x := by
  induction es generalizing xs with
  | nil =>
    obtain rfl := Option.some.inj hxs
    simp
  | cons e es ih =>
    simp only [Converter.convertArgs, Option.bind_eq_bind, Option.bind_eq_some_iff] at hxs
    obtain ⟨x, hx, ys, hys, hxs⟩ := hxs
    obtain rfl := Option.some.inj hxs
    exact List.forall_mem_cons.mpr ⟨h e List.mem_cons_self x hx,
      ih (fun e' he' => h e' (List.mem_cons_of_mem _ he')) hys⟩

theorem convertArgs_pair {a b : FNode} {xs : List Expression}
    (h : C.convertArgs [a, b] = some xs) :
    ∃ y z, C.convert a = some y ∧ C.convert b = some z ∧ xs = [y, z] := by
  simp only [Converter.convertArgs, Option.bind_eq_bind, Option.bind_eq_some_iff] at h
  obtain ⟨y, hy, ys, ⟨z, hz, zs, hzs, hys⟩, h⟩ := h
  obtain rfl := Option.some.inj hzs
  obtain rfl := Option.some.inj hys
  exact ⟨y, z, hy, hz, (Option.some.inj h).symm⟩

theorem convert_fluent {f : UPFluent} {args : List FNode} {g : Fluent}
    (hg : C.fluentIds (node (.fluentExp f) args) = some g)
    (h : C.convert (node (.fluentExp f) args) = some x) : x = [.fluent g] := by
  rw [Converter.convert, Option.bind_eq_some_iff] at h
  obtain ⟨xs, -, h⟩ := h
  rw [Converter.walk, hg] at h
  exact (Option.some.inj h).symm

theorem Arithmetic.laidOut (he : e.Arithmetic C domains) :
    ∀ x, C.convert e = some x → LaidOut (ExprTree.Arithmetic domains) x := by
  induction he with
  | int z =>
    intro x h
    obtain rfl := Option.some.inj h
    exact laidOut_leaf (fun _ => rfl) rfl rfl (.number z)
  | real q =>
    intro x h
    obtain rfl := Option.some.inj h
    exact laidOut_leaf (fun _ => rfl) rfl rfl (.number q)
  | fluent hg hd hkind =>
    intro x h
    obtain rfl := convert_fluent hg h
    exact laidOut_leaf (fun _ => rfl) rfl rfl (.fluent hd hkind)
  | operator hkind hargs ih =>
    intro x h
    rw [Converter.convert, Option.bind_eq_some_iff] at h
    obtain ⟨xs, hxs, h⟩ := h
    have hlaid := convertArgs_laidOut ih hxs
    rcases hkind with rfl | rfl | rfl | rfl
    · simp only [Converter.walk, Option.ite_none_right_eq_some, Option.some.injEq] at h
      obtain ⟨-, rfl⟩ := h
      exact LaidOut.walkNary hlaid rfl fun ts hts => .operator (.inl rfl) hts
    · obtain ⟨y, z, rfl⟩ := C.walk_binary_args (by simp) h
      obtain rfl := Option.some.inj h
      exact LaidOut.walkNary hlaid rfl fun ts hts => .operator (.inr (.inl rfl)) hts
    · simp only [Converter.walk, Option.ite_none_right_eq_some, Option.some.injEq] at h
      obtain ⟨-, rfl⟩ := h
      exact LaidOut.walkNary hlaid rfl fun ts hts => .operator (.inr (.inr (.inl rfl))) hts
    · obtain ⟨y, z, rfl⟩ := C.walk_binary_args (by simp) h
      obtain rfl := Option.some.inj h
      exact LaidOut.walkNary hlaid rfl fun ts hts => .operator (.inr (.inr (.inr rfl))) hts

/-- The leaf of a fluent that holds objects. -/
def ObjectLeaf (domains : List FluentDomain) (t : ExprTree) : Prop :=
  ∃ (g : Fluent) (d : FluentDomain), t = .node (.fluent g) [] ∧ domains[g.idx]? = some d ∧ d.kind = .object

def ConstantLeaf (t : ExprTree) : Prop := ∃ o, t = .node (.constant (.object o)) []

theorem IsObjectFluent.laidOut (he : e.IsObjectFluent C domains) (h : C.convert e = some x) :
    LaidOut (ObjectLeaf domains) x := by
  obtain ⟨f, args, g, d, rfl, hg, hd, hkind⟩ := he
  obtain rfl := convert_fluent hg h
  exact laidOut_leaf (fun _ => rfl) rfl rfl ⟨g, d, rfl, hd, hkind⟩

theorem laidOut_object {o : UPObject} (h : C.convert (node (.objectExp o) []) = some x) :
    LaidOut ConstantLeaf x := by
  obtain ⟨p, -, rfl⟩ := Option.map_eq_some_iff.mp h
  exact laidOut_leaf (fun _ => rfl) rfl rfl ⟨p, rfl⟩

theorem laidOut_equalsObject {y : Expression} (hx : LaidOut (ObjectLeaf domains) x)
    (hy : LaidOut ConstantLeaf y) : LaidOut (ExprTree.Atom domains) (Converter.walkBinary .eq x y) := by
  refine hx.walkBinary hy rfl fun a b ha hb => ?_
  obtain ⟨g, d, rfl, hd, hkind⟩ := ha
  obtain ⟨o, rfl⟩ := hb
  exact .equalsObject hd hkind

theorem laidOut_equalFluents {y : Expression} (hx : LaidOut (ObjectLeaf domains) x)
    (hy : LaidOut (ObjectLeaf domains) y) :
    LaidOut (ExprTree.Atom domains) (Converter.walkBinary .eq x y) := by
  refine hx.walkBinary hy rfl fun a b ha hb => ?_
  obtain ⟨g, d, rfl, hd, hkind⟩ := ha
  obtain ⟨g', d', rfl, hd', hkind'⟩ := hb
  exact .equalFluents hd hkind hd' hkind'

theorem laidOut_compare {kind : OperatorKind} {y : Expression}
    (hkind : kind = .le ∨ kind = .lt ∨ kind = .eq) (htakes : kind.takes 2 = true)
    (hx : LaidOut (ExprTree.Arithmetic domains) x) (hy : LaidOut (ExprTree.Arithmetic domains) y) :
    LaidOut (ExprTree.Atom domains) (Converter.walkBinary kind x y) :=
  hx.walkBinary hy htakes fun _ _ ha hb => .compare hkind ha hb

theorem convert_pair {kind : NodeKind} {a b : FNode} (h : C.convert (node kind [a, b]) = some x) :
    ∃ y z, C.convert a = some y ∧ C.convert b = some z ∧ C.walk [a, b] kind [y, z] = some x := by
  rw [Converter.convert, Option.bind_eq_some_iff] at h
  obtain ⟨xs, hxs, h⟩ := h
  obtain ⟨y, z, hy, hz, rfl⟩ := convertArgs_pair hxs
  exact ⟨y, z, hy, hz, h⟩

/-- The fluent of an equality is laid out first. -/
theorem Atom.laidOut (he : e.Atom C domains) (h : C.convert e = some x) :
    LaidOut (ExprTree.Atom domains) x := by
  cases he with
  | fluent hg hd hkind =>
    obtain rfl := convert_fluent hg h
    exact laidOut_leaf (fun _ => rfl) rfl rfl (.fluent hd hkind)
  | compare hkind ha hb =>
    obtain ⟨y, z, hy, hz, h⟩ := convert_pair h
    have hy := ha.laidOut y hy
    have hz := hb.laidOut z hz
    rcases hkind with rfl | rfl | rfl
    · obtain rfl := Option.some.inj h
      exact laidOut_compare (.inl rfl) rfl hy hz
    · obtain rfl := Option.some.inj h
      exact laidOut_compare (.inr (.inl rfl)) rfl hy hz
    · obtain rfl := Option.some.inj h
      unfold Converter.walkEquals
      split_ifs
      · exact laidOut_compare (.inr (.inr rfl)) rfl hz hy
      · exact laidOut_compare (.inr (.inr rfl)) rfl hy hz
  | @equalsObject e o he =>
    obtain ⟨y, z, hy, hz, h⟩ := convert_pair h
    obtain rfl := Option.some.inj h
    have hfirst : C.walkEquals e (node (.objectExp o) []) y z = Converter.walkBinary .eq y z :=
      if_neg (by simp [Converter.isFluentExp])
    rw [hfirst]
    exact laidOut_equalsObject (he.laidOut hy) (laidOut_object hz)
  | @objectEquals e o he =>
    obtain ⟨y, z, hy, hz, h⟩ := convert_pair h
    obtain rfl := Option.some.inj h
    have hsecond : C.walkEquals (node (.objectExp o) []) e y z = Converter.walkBinary .eq z y := by
      obtain ⟨f, args, -, -, rfl, -⟩ := he
      exact if_pos rfl
    rw [hsecond]
    exact laidOut_equalsObject (he.laidOut hz) (laidOut_object hy)
  | equalFluents he he' =>
    obtain ⟨y, z, hy, hz, h⟩ := convert_pair h
    obtain rfl := Option.some.inj h
    unfold Converter.walkEquals
    split_ifs
    · exact laidOut_equalFluents (he'.laidOut hz) (he.laidOut hy)
    · exact laidOut_equalFluents (he.laidOut hy) (he'.laidOut hz)

end FNode

/-! ### Conditions -/

/-- What a heuristic asks of a condition's tree in every state. -/
def TypedTree [Callables] (domains : List FluentDomain) (t : ExprTree) : Prop :=
  t.Supported domains ∧ ∀ assignments, WithinDomains domains assignments →
    t.ComparesAlike .python (getValue assignments)

namespace FNode

variable [Callables] {C : Converter} {domains : List FluentDomain} {e : FNode} {x : Expression}

theorem typedTree_atom {t : ExprTree} (ht : t.Atom domains) : TypedTree domains t := by
  refine ⟨?_, fun assignments hin => ht.comparesAlike hin⟩
  obtain ⟨e, args⟩ := t
  refine .literal (.atom ht) fun operands => ?_
  cases ht with
  | compare hkind => rcases hkind with rfl | rfl | rfl <;> simp
  | _ => simp

theorem typedTree_not {t : ExprTree} (ht : t.Atom domains) :
    TypedTree domains (.node (.operator .not []) [t]) :=
  ⟨.literal (.not ht) (by simp), fun _ hin => ⟨by simp, ht.comparesAlike hin, trivial⟩⟩

theorem typedTree_connective {kind : OperatorKind} {ts : List ExprTree}
    (hkind : kind = .and ∨ kind = .or) (hts : ∀ t ∈ ts, TypedTree domains t) :
    TypedTree domains (.node (.operator kind []) ts) := by
  refine ⟨?_, fun assignments hin => ⟨?_, ?_⟩⟩
  · rcases hkind with rfl | rfl
    · exact .and fun t ht => (hts t ht).1
    · exact .or fun t ht => (hts t ht).1
  · rcases hkind with rfl | rfl <;> simp
  · exact ExprTree.allCompareAlike_iff.mpr fun t ht => (hts t ht).2 assignments hin

theorem typedTree_constant (b : Bool) : LaidOut (TypedTree domains) [.constant (.bool b)] := by
  refine laidOut_leaf (fun _ => rfl) rfl rfl ⟨?_, fun _ _ => ⟨by simp, trivial⟩⟩
  cases b with
  | true => exact .true
  | false => exact .literal .false (by simp)

theorem Literal.laidOut (he : e.Literal C domains) (h : C.convert e = some x) :
    LaidOut (TypedTree domains) x := by
  cases he with
  | false =>
    obtain rfl := Option.some.inj h
    exact typedTree_constant Bool.false
  | atom he => exact (he.laidOut h).mono fun t ht => typedTree_atom ht
  | not he =>
    rw [Converter.convert, Option.bind_eq_some_iff] at h
    obtain ⟨xs, hxs, h⟩ := h
    obtain ⟨y, rfl⟩ := C.walk_not_args h
    obtain rfl := Option.some.inj h
    have hlaid := convertArgs_laidOut (fun e' he' x hx => by
      rw [List.mem_singleton.mp he'] at hx
      exact he.laidOut hx) hxs
    exact (hlaid y List.mem_cons_self).walkNot fun t ht => typedTree_not ht

/-- A typed condition is converted to one that the heuristics take. -/
theorem Supported.laidOut (he : e.Supported C domains) :
    ∀ x, C.convert e = some x → LaidOut (TypedTree domains) x := by
  induction he with
  | true =>
    intro x h
    obtain rfl := Option.some.inj h
    exact typedTree_constant Bool.true
  | literal he => exact fun x h => he.laidOut h
  | and hargs ih =>
    intro x h
    rw [Converter.convert, Option.bind_eq_some_iff] at h
    obtain ⟨xs, hxs, h⟩ := h
    obtain rfl := Option.some.inj h
    have hlaid := convertArgs_laidOut ih hxs
    rcases xs with - | ⟨x, - | ⟨y, xs⟩⟩
    · exact typedTree_constant Bool.true
    · exact hlaid x List.mem_cons_self
    · exact LaidOut.walkNary hlaid rfl fun ts hts => typedTree_connective (.inl rfl) hts
  | or hargs ih =>
    intro x h
    rw [Converter.convert, Option.bind_eq_some_iff] at h
    obtain ⟨xs, hxs, h⟩ := h
    obtain rfl := Option.some.inj h
    have hlaid := convertArgs_laidOut ih hxs
    rcases xs with - | ⟨x, - | ⟨y, xs⟩⟩
    · exact typedTree_constant Bool.false
    · exact hlaid x List.mem_cons_self
    · exact LaidOut.walkNary hlaid rfl fun ts hts => typedTree_connective (.inr rfl) hts

end FNode

/-! ### The encoding that a heuristic is built from -/

/-- The buckets of an action of the problem. -/
def Encoder.bucketsOf (E : Encoder) : UPAction → Option (List (UPTiming × Contents))
  | .instantaneous u => some [(⟨.start, 0⟩, { conditions := u.preconditions, effects := u.effects })]
  | .durative u => u.orderedBuckets E.conj

theorem Encoder.bucket_of_event {E : Encoder} {u : UPAction} {a : Action}
    {le : List (Timing × Event)} (h : E.buildEvents u a = some le) {te : Timing × Event}
    (hte : te ∈ le) : ∃ bs, E.bucketsOf u = some bs ∧ ∃ b ∈ bs, ∃ k, E.convertBucket a k b = some te := by
  cases u with
  | instantaneous u =>
    simp only [buildEvents, Option.bind_eq_bind, Option.bind_eq_some_iff] at h
    obtain ⟨te', hte', h⟩ := h
    obtain rfl := Option.some.inj h
    obtain rfl := List.mem_singleton.mp hte
    exact ⟨_, rfl, _, List.mem_cons_self, 0, hte'⟩
  | durative u =>
    simp only [buildEvents, Option.bind_eq_bind, Option.bind_eq_some_iff] at h
    obtain ⟨bs, hbs, hle⟩ := h
    obtain ⟨k, hk⟩ := List.mem_iff_getElem?.mp hte
    obtain ⟨b, hb, hconv⟩ := (eventsFromBuckets_getElem hle).2 hk
    exact ⟨bs, hbs, b, List.mem_of_getElem? hb, k, hconv⟩

namespace ProblemEncoding

variable (P : ProblemEncoding) (domains : List FluentDomain)

/-- A bucket of some action or of the timed events. -/
def HasBucket (b : UPTiming × Contents) : Prop :=
  (∃ u ∈ P.encoder.actions, ∃ bs, P.encoder.bucketsOf u = some bs ∧ b ∈ bs) ∨
    b ∈ sortBuckets P.buckets

/-- The conditions are typed and free of interpreted functions, and what is assigned to a
fluent is of its domain. -/
structure Typed [Callables] : Prop where
  initial : P.initialState.length = domains.length ∧ WithinDomains domains P.initialState
  conditions : ∀ b, P.HasBucket b → ∀ e ∈ P.encoder.conj b.2.conditions :: b.2.endConditions,
    (P.encoder.normalizeExpression e).Supported P.encoder.converter domains
  goal : (P.encoder.normalizeExpression
    (P.encoder.conj (P.problem.goals ++ P.problem.finalGoals))).Supported P.encoder.converter domains
  effects : ∀ b, P.HasBucket b → ∀ g ∈ groupEffects b.2.effects, ∀ f,
    P.encoder.converter.fluentIds g.fluent = some f → ∀ e, g.value P.encoder.plus = some e →
      ∃ d, domains[f.idx]? = some d ∧ ∀ assignments, WithinDomains domains assignments → ∀ v,
        (P.encoder.normalizeExpression e).value (P.encoder.converter.interpretation assignments) =
          some v → d.Has v

/-- `Encoder.events`, in the order of the actions. -/
def eventsTable : List (Action × List (Timing × Event)) :=
  (List.range P.actionsDuration.length).filterMap fun i =>
    (P.events ⟨i⟩).map fun le => (⟨i⟩, le)

variable {P domains} {a : Action} {le : List (Timing × Event)} {te : Timing × Event}

theorem idx_lt_of_events (h : P.events a = some le) : a.idx < P.actionsDuration.length := by
  by_cases ht : P.timedAction = some a
  · have hdur := duration_timed ht
    by_contra hge
    rw [List.getElem?_eq_none (not_lt.mp hge)] at hdur
    cases hdur
  · rw [events, if_neg ht] at h
    obtain ⟨row, hrow, -⟩ := Option.map_eq_some_iff.mp h
    obtain ⟨u, hu, -⟩ := Option.bind_eq_some_iff.mp hrow
    have hlt := (Encoder.actionOf_eq_some hu).2.2
    rw [actionsDuration, List.length_append, List.length_map, List.length_range]
    omega

theorem mem_eventsTable : (a, le) ∈ P.eventsTable ↔ P.events a = some le := by
  simp only [eventsTable, List.mem_filterMap, List.mem_range, Option.map_eq_some_iff]
  constructor
  · intro h
    obtain ⟨i, -, le', hle, heq⟩ := h
    obtain ⟨rfl, rfl⟩ := Prod.mk.inj heq
    exact hle
  · intro h
    exact ⟨a.idx, idx_lt_of_events h, le, h, rfl⟩

theorem bucket_of_event (h : P.events a = some le) (hte : te ∈ le) :
    ∃ b, P.HasBucket b ∧ ∃ k, P.encoder.convertBucket a k b = some te := by
  by_cases ht : P.timedAction = some a
  · rw [events, if_pos ht] at h
    obtain ⟨k, hk⟩ := List.mem_iff_getElem?.mp hte
    obtain ⟨b, hb, hconv⟩ := (Encoder.eventsFromBuckets_getElem h).2 hk
    exact ⟨b, .inr (List.mem_of_getElem? hb), k, hconv⟩
  · obtain ⟨u, hu, -, henc⟩ := action_of_events ht h
    obtain ⟨bs, hbs, b, hb, k, hconv⟩ :=
      Encoder.bucket_of_event (Encoder.buildEvents_of_encodeAction henc) hte
    exact ⟨b, .inl ⟨u, hu, bs, hbs, hb⟩, k, hconv⟩

variable [Callables]

theorem exists_condition {E : Encoder} {e : FNode} {x : Expression}
    (he : (E.normalizeExpression e).Supported E.converter domains)
    (hx : E.convertExpression e = some x) : ∃ t : ExprTree, x = t.layout 0 ∧ t.Condition domains := by
  obtain ⟨t, hwf, hproper, rfl, hsupported, halike⟩ := he.laidOut x hx
  exact ⟨t, rfl, hwf, hproper, hsupported, halike⟩

theorem condition_of_bucket (hP : P.Typed domains) {b : UPTiming × Contents} (hb : P.HasBucket b)
    {k : ℕ} (h : P.encoder.convertBucket a k b = some te) {x : Expression}
    (hx : x ∈ te.2.conditions :: te.2.endConditions) :
    ∃ t : ExprTree, x = t.layout 0 ∧ t.Condition domains := by
  obtain ⟨hconditions, -, hends⟩ := Encoder.convertBucket_eq_some h
  rcases List.mem_cons.mp hx with rfl | hx
  · exact exists_condition (hP.conditions b hb _ List.mem_cons_self) hconditions
  · obtain ⟨heq, hsome⟩ := mapM_eq_some [] hends
    rw [heq] at hx
    obtain ⟨e, he, rfl⟩ := List.mem_map.mp hx
    obtain ⟨y, hy⟩ := Option.isSome_iff_exists.mp (hsome e he)
    rw [hy]
    exact exists_condition (hP.conditions b hb e (List.mem_cons_of_mem _ he)) hy

theorem effect_of_bucket (hP : P.Typed domains) {b : UPTiming × Contents} (hb : P.HasBucket b)
    {k : ℕ} (h : P.encoder.convertBucket a k b = some te) {eff : Effect} (heff : eff ∈ te.2.effects) :
    IsExpression eff.value ∧ ∃ d, domains[eff.fluent.idx]? = some d ∧ ∀ assignments,
      WithinDomains domains assignments → ∀ v, evaluate eff.value assignments = some v → d.Has v := by
  obtain ⟨es, heq, -, hes⟩ := P.encoder.convertGroups_spec _ (Encoder.convertBucket_effects h)
  rw [heq, List.nil_append] at heff
  obtain ⟨g, hg, hf, e, he, hx⟩ := hes eff heff
  obtain ⟨d, hd, hvalues⟩ := hP.effects b hb g hg _ hf e he
  refine ⟨P.encoder.converter.isExpression_convert _ _ hx, d, hd, fun assignments hin v hv => ?_⟩
  rw [P.encoder.converter.evaluate_convert assignments hx] at hv
  exact hvalues assignments hin v hv

/-- In a typed problem the heuristics are given what they ask of an encoding. -/
theorem heuristicEncoding (hP : P.Typed domains) :
    HeuristicEncoding P.searchSpace P.eventsTable domains where
  events_iff := mem_eventsTable
  initial := hP.initial
  conditions := by
    intro a k te h x hx
    obtain ⟨le, hle, hte⟩ := Option.bind_eq_some_iff.mp h
    obtain ⟨b, hb, k', hconv⟩ := bucket_of_event hle (List.mem_of_getElem? hte)
    exact condition_of_bucket hP hb hconv hx
  goal := exists_condition hP.goal P.converts
  effects := by
    intro a k te h eff heff
    obtain ⟨le, hle, hte⟩ := Option.bind_eq_some_iff.mp h
    obtain ⟨b, hb, k', hconv⟩ := bucket_of_event hle (List.mem_of_getElem? hte)
    exact effect_of_bucket hP hb hconv heff

end ProblemEncoding

/-! ### A typed problem -/

section Window

attribute [local instance] Callables.empty

def windowDomains : List FluentDomain := [⟨.bool, []⟩, ⟨.bool, []⟩]

theorem windowBuckets_contents : ∀ b ∈ sortBuckets windowBuckets,
    (b.2.conditions = [] ∨ b.2.conditions = [fluentF]) ∧ (∀ e ∈ b.2.endConditions, e = fluentF) ∧
      b.2.effects.isEmpty = true := by
  decide +kernel

theorem fluentF_supported : fluentF.Supported twoFluents windowDomains :=
  .literal (.atom (.fluent rfl rfl rfl))

/-- The conditions of the timed goal and of the action are typed. -/
theorem windowEncoding_typed : windowEncoding.Typed windowDomains where
  initial := by
    refine ⟨rfl, fun i d hd => ⟨.bool false, ?_⟩⟩
    rcases i with - | - | n
    · obtain rfl := Option.some.inj hd
      exact ⟨rfl, rfl⟩
    · obtain rfl := Option.some.inj hd
      exact ⟨rfl, rfl⟩
    · cases hd
  conditions := by
    intro b hb e he
    rcases hb with ⟨u, hu, bs, hbs, hb⟩ | hb
    · obtain rfl := List.mem_singleton.mp hu
      obtain rfl := Option.some.inj hbs
      obtain rfl := List.mem_singleton.mp hb
      obtain rfl := List.mem_singleton.mp he
      exact .true
    · obtain ⟨hcond, hend, -⟩ := windowBuckets_contents b hb
      rcases List.mem_cons.mp he with rfl | he
      · rcases hcond with h | h
        · rw [h]
          exact .true
        · rw [h]
          exact fluentF_supported
      · rw [hend e he]
        exact fluentF_supported
  goal := .true
  effects := by
    intro b hb g hg f hf e he
    rcases hb with ⟨u, hu, bs, hbs, hb⟩ | hb
    · obtain rfl := List.mem_singleton.mp hu
      obtain rfl := Option.some.inj hbs
      obtain rfl := List.mem_singleton.mp hb
      obtain rfl := List.mem_singleton.mp hg
      obtain rfl := Option.some.inj hf
      obtain rfl := Option.some.inj he
      refine ⟨⟨.bool, []⟩, rfl, fun _ _ v hv => ?_⟩
      obtain rfl := Option.some.inj hv
      rfl
    · have hempty := List.isEmpty_iff.mp (windowBuckets_contents b hb).2.2
      rw [hempty] at hg
      cases hg

/-- What the heuristics of the window problem are built from. -/
theorem windowEncoding_heuristics : HeuristicEncoding window windowEncoding.eventsTable windowDomains :=
  ProblemEncoding.heuristicEncoding windowEncoding_typed

end Window

end TamerLite
