import TamerLite.Conjunctions
import TamerLite.SemiNaive

/-! A round of the naive evaluation seen from outside: the types of the values, what
the enabled operators give, and nothing else. -/

namespace TamerLite

open Enumeration Exploration SearchSpace

/-! ### Types -/

theorem resultType_eq {kind : OperatorKind} {ts : List ValueType} {t : ValueType}
    (h : operatorType kind ts = some t) : t = resultType kind := by
  unfold operatorType at h
  split at h <;> first
    | (split_ifs at h; exact (Option.some.inj h).symm)
    | exact (Option.some.inj h).symm
    | contradiction

theorem exists_rootType {fluents : List ValueType} {exp : Expression} {t : ValueType}
    (h : typeOf fluents exp = some t) :
    ∃ e ∈ exp.getLast?, ∃ ts, nodeType fluents ts e = some t := by
  cases exp using List.reverseRecOn with
  | nil => simp [typeOf] at h
  | append_singleton exp e =>
    rw [typeOf, List.foldlM_append] at h
    obtain ⟨r, hr, hlast⟩ := Option.bind_eq_some_iff.mp h
    obtain ⟨ts, -, hts⟩ := Option.bind_eq_some_iff.mp hr
    rw [List.foldlM_cons] at hts
    obtain ⟨r', hr', heq⟩ := Option.bind_eq_some_iff.mp hts
    obtain ⟨u, hu, rfl⟩ := Option.map_eq_some_iff.mp hr'
    obtain rfl := Option.some.inj heq
    rw [List.getLast?_concat] at hlast
    obtain rfl := Option.some.inj hlast
    exact ⟨e, List.getLast?_concat, ts, hu⟩

section Typed

variable {core : Core} {fluents : List ValueType} {exp : Expression}
  {get : Fluent → Option ConstantNode} {t : ValueType} {v : ConstantNode}

section

variable [Callables]

/-- An expression of a type takes values of it. -/
theorem type_of_evalNodes
    (hget : ∀ f t w, fluents[f.idx]? = some t → get f = some w → w.type = t)
    (ht : typeOf fluents exp = some t)
    (h : (core.evalNodes get exp []).bind List.getLast? = some v) : v.type = t := by
  obtain ⟨e, he, ts, ht⟩ := exists_rootType ht
  obtain ⟨e', he', res, hv⟩ := exists_root h
  obtain rfl : e = e' := Option.some.inj (he.symm.trans he')
  cases e with
  | constant u =>
    have hvu : some u = some v := hv
    rw [← Option.some.inj hvu, ← Option.some.inj ht]
  | fluent f => exact hget f t v ht hv
  | operator kind operands =>
    obtain ⟨us, -, hus⟩ := Option.bind_eq_some_iff.mp ht
    rw [type_evalOperator hv, resultType_eq hus]
  | interpretedFunction fn rt operands =>
    simp only [Core.evalNode, evalNode, Option.bind_eq_bind, Option.bind_eq_some_iff] at hv
    obtain ⟨_, -, _, -, hv⟩ := hv
    obtain ⟨_, -, hrt⟩ := Option.bind_eq_some_iff.mp ht
    rw [type_coerce hv, ← Option.some.inj hrt]

/-- A conjunction takes Boolean values. -/
theorem Conjunction.type_eq
    (hget : ∀ f t w, fluents[f.idx]? = some t → get f = some w → w.type = t)
    (hc : Conjunction fluents exp)
    (h : (core.evalNodes get exp []).bind List.getLast? = some v) : v.type = .bool := by
  cases hc with
  | leaf _ ht => exact type_of_evalNodes hget ht h
  | and hxs =>
    obtain ⟨e, he, res, hv⟩ := exists_root h
    rw [Converter.walkNary, List.getLast?_concat] at he
    obtain rfl := Option.some.inj he
    exact type_evalOperator hv

/-- The value sets hold values of the fluents' types; the extra fluents are Boolean. -/
def SetsTyped (fluents : List ValueType) (assignments : ValueSets) : Prop :=
  ∀ f, ∀ v ∈ assignments f, v.type = (fluents[f.idx]?).getD .bool

end

variable {assignments assignments' : ValueSets}

/-- Among values of one type, an equal value is the same. -/
theorem InSets.mem (hs : SetsTyped fluents assignments) {f : Fluent}
    (hv : v.type = (fluents[f.idx]?).getD .bool) (h : InSets core assignments f v) :
    v ∈ assignments f := by
  obtain ⟨w, hw, hk⟩ := List.mem_map.mp h
  rw [← eq_of_key_eq ((hs f w hw).trans hv.symm) hk]
  exact hw

section

variable [Callables]

theorem CanBe.type_eq (hs : SetsTyped fluents assignments) (ht : typeOf fluents exp = some t)
    (h : CanBe core exp assignments v) : v.type = t := by
  obtain ⟨c, hc, he⟩ := h
  refine type_of_evalNodes (fun f t w hf hw => ?_) ht he
  have hw' := hs f w (lookup_zip_mem (mem_product.mp hc) hw)
  rwa [hf, Option.getD_some] at hw'

end

/-! ### What a round of the naive evaluation adds -/

variable {new new' : ValueSets}

theorem mem_of_addAll {s vs : List ConstantNode} (h : v ∈ addAll core.key s vs) :
    v ∈ s ∨ v ∈ vs := by
  induction vs generalizing s with
  | nil => exact .inl h
  | cons w vs ih =>
    rcases ih h with h | h
    · rw [add] at h
      split_ifs at h
      · exact .inl h
      · rcases List.mem_append.mp h with h | h
        · exact .inl h
        · exact .inr (List.mem_cons.mpr (.inl (List.mem_singleton.mp h)))
    · exact .inr (List.mem_cons_of_mem w h)

/-- The effects of the operators that are enabled. -/
def enabledEffects : List OperatorHmax → List Bool → List Effect
  | o :: operators, b :: bs => (if b then o.effects else []) ++ enabledEffects operators bs
  | _, _ => []

theorem mem_of_enabledEffects {operators : List OperatorHmax} {bs : List Bool} {eff : Effect}
    (h : eff ∈ enabledEffects operators bs) : ∃ o ∈ operators, eff ∈ o.effects := by
  induction operators generalizing bs with
  | nil => contradiction
  | cons o operators ih =>
    cases bs with
    | nil => contradiction
    | cons b bs =>
      rcases List.mem_append.mp h with h | h
      · split_ifs at h with hb
        · exact ⟨o, List.mem_cons_self, h⟩
        · contradiction
      · obtain ⟨o', ho', he⟩ := ih h
        exact ⟨o', List.mem_cons_of_mem o ho', he⟩

theorem mem_grow {order : SetOrder} {f : Fluent} (h : v ∈ grow core order assignments new f) :
    v ∈ assignments f ∨ v ∈ new f :=
  (mem_of_addAll h).imp id (order.perm (new f)).mem_iff.mp

variable [Callables]

/-- The new values are those of the effects: all of them, and no others. -/
structure Gives (core : Core) (assignments : ValueSets) (effects : List Effect)
    (new new' : ValueSets) : Prop where
  grown : Extends new new'
  all : ∀ eff ∈ effects, ∀ v, CanBe core eff.value assignments v → InSets core new' eff.fluent v
  only : ∀ f, ∀ v ∈ new' f, v ∈ new f ∨
    ∃ eff ∈ effects, eff.fluent = f ∧ CanBe core eff.value assignments v

theorem Gives.append {effects effects' : List Effect} {new'' : ValueSets}
    (h : Gives core assignments effects new new') (h' : Gives core assignments effects' new' new'') :
    Gives core assignments (effects ++ effects') new new'' := by
  refine ⟨fun f => (h.grown f).trans (h'.grown f), fun eff he v hv => ?_, fun f v hv => ?_⟩
  · rcases List.mem_append.mp he with he | he
    · exact (h.all eff he v hv).mono h'.grown
    · exact h'.all eff he v hv
  · rcases h'.only f v hv with hv | ⟨eff, he, hf⟩
    · exact (h.only f v hv).imp id fun ⟨eff, he, hf⟩ => ⟨eff, List.mem_append_left _ he, hf⟩
    · exact .inr ⟨eff, List.mem_append_right _ he, hf⟩

theorem gives_nil : Gives core assignments [] new new :=
  ⟨fun _ => List.prefix_rfl, by simp, fun _ _ h => .inl h⟩

theorem gives_update {eff : Effect} {vs : List ConstantNode}
    (hvs : ∀ v, v ∈ vs ↔ CanBe core eff.value assignments v) :
    Gives core assignments [eff] new
      (Function.update new eff.fluent (addAll core.key (new eff.fluent) vs)) := by
  refine ⟨extends_update new eff.fluent vs, fun e he v hv => ?_, fun f v hv => ?_⟩
  · obtain rfl := List.mem_singleton.mp he
    rw [InSets, Function.update_self, key_mem_addAll]
    exact .inr (List.mem_map_of_mem ((hvs v).mpr hv))
  · by_cases hf : f = eff.fluent
    · subst hf
      rw [Function.update_self] at hv
      exact (mem_of_addAll hv).imp id fun hv => ⟨eff, by simp, rfl, (hvs v).mp hv⟩
    · rw [Function.update_of_ne hf] at hv
      exact .inl hv

theorem collectAll_gives {effects : List Effect}
    (h : collectAll core assignments effects new = some new') :
    Gives core assignments effects new new' := by
  induction effects generalizing new with
  | nil => exact Option.some.inj h ▸ gives_nil
  | cons eff effects ih =>
    obtain ⟨vs, hvs, h⟩ := Option.bind_eq_some_iff.mp h
    exact (gives_update (valuesOf_eq_some hvs).2).append (ih h)

theorem naiveTurns_gives {operators : List OperatorHmax} {bs : List Bool}
    (h : naiveTurns core assignments operators new = some (bs, new')) :
    Gives core assignments (enabledEffects operators bs) new new' ∧
      ∀ o ∈ operators, AllCan core o.conditions assignments →
        ∀ eff ∈ o.effects, eff ∈ enabledEffects operators bs := by
  induction operators generalizing new bs with
  | nil =>
    obtain ⟨rfl, rfl⟩ := Prod.mk.inj (Option.some.inj h)
    exact ⟨gives_nil, by simp⟩
  | cons o operators ih =>
    obtain ⟨⟨b, new₁⟩, hstep, h⟩ := Option.bind_eq_some_iff.mp h
    obtain ⟨⟨bs, new₂⟩, hrest, h⟩ := Option.bind_eq_some_iff.mp h
    obtain ⟨rfl, rfl⟩ := Prod.mk.inj (Option.some.inj h)
    obtain ⟨e, he, hstep⟩ := Option.bind_eq_some_iff.mp hstep
    obtain ⟨new₃, hnew, hstep⟩ := Option.map_eq_some_iff.mp hstep
    obtain ⟨rfl, rfl⟩ := Prod.mk.inj hstep
    obtain ⟨-, hcan⟩ := allCanBeTrue_spec he
    obtain ⟨hgives, hall⟩ := ih hrest
    refine ⟨?_, fun o' ho' hcond eff heff => List.mem_append.mpr ?_⟩
    · cases e with
      | true => exact (collectAll_gives hnew).append hgives
      | false =>
        obtain rfl := Option.some.inj hnew
        exact hgives
    · rcases List.mem_cons.mp ho' with rfl | ho'
      · rw [if_pos (hcan.mpr hcond)]
        exact .inl heff
      · exact .inr (hall o' ho' hcond eff heff)

/-- Nothing raises where every expression is defined. -/
theorem exists_valuesOf (h : DefinedOn core exp assignments) :
    ∃ vs, valuesOf core assignments exp = some vs := exists_mapM h

theorem exists_allCanBeTrue {exps : List Expression}
    (h : ∀ exp ∈ exps, DefinedOn core exp assignments) :
    ∃ b, allCanBeTrue core assignments exps = some b := by
  obtain ⟨vss, hvss⟩ := exists_mapM fun exp he => exists_valuesOf (h exp he)
  exact ⟨_, by rw [allCanBeTrue, hvss]; rfl⟩

theorem exists_collectAll {effects : List Effect}
    (h : ∀ eff ∈ effects, DefinedOn core eff.value assignments) :
    ∃ new', collectAll core assignments effects new = some new' := by
  induction effects generalizing new with
  | nil => exact ⟨new, rfl⟩
  | cons eff effects ih =>
    obtain ⟨vs, hvs⟩ := exists_valuesOf (h eff List.mem_cons_self)
    obtain ⟨new', hnew⟩ := ih fun e he => h e (List.mem_cons_of_mem eff he)
    exact ⟨new', by rw [collectAll, hvs]; exact hnew⟩

theorem exists_naiveTurns {operators : List OperatorHmax}
    (hc : ∀ o ∈ operators, ∀ exp ∈ o.conditions, DefinedOn core exp assignments)
    (he : ∀ o ∈ operators, ∀ eff ∈ o.effects, DefinedOn core eff.value assignments) :
    ∃ r, naiveTurns core assignments operators new = some r := by
  induction operators generalizing new with
  | nil => exact ⟨_, rfl⟩
  | cons o operators ih =>
    obtain ⟨b, hb⟩ := exists_allCanBeTrue (hc o List.mem_cons_self)
    obtain ⟨r, hr⟩ : ∃ r, naiveOperatorTurn core assignments o new = some r := by
      cases b with
      | true =>
        obtain ⟨new', hnew⟩ : ∃ new', collectAll core assignments o.effects new = some new' :=
          exists_collectAll (he o List.mem_cons_self)
        exact ⟨(true, new'), by rw [naiveOperatorTurn, hb]; simp [hnew]⟩
      | false => exact ⟨(false, new), by rw [naiveOperatorTurn, hb]; rfl⟩
    obtain ⟨rs, hrs⟩ : ∃ rs, naiveTurns core assignments operators r.2 = some rs :=
      ih (fun o' ho' => hc o' (List.mem_cons_of_mem o ho'))
        fun o' ho' => he o' (List.mem_cons_of_mem o ho')
    exact ⟨(r.1 :: rs.1, rs.2), by rw [naiveTurns, hr]; simp [hrs]⟩

end Typed

/-! ### Rounds -/

namespace HMaxExplicit

/-- Everything the evaluation evaluates. -/
def expressions (hm : HMaxExplicit) : List Expression :=
  hm.goals ++ hm.operators.flatMap fun o => o.conditions ++ o.effects.map Effect.value

variable [Callables] {hm : HMaxExplicit} {core : Core} {order : SetOrder}

/-- What a round does to the value sets. -/
structure Round (hm : HMaxExplicit) (core : Core) (assignments assignments' : ValueSets) :
    Prop where
  grown : Extends assignments assignments'
  all : ∀ o ∈ hm.operators, AllCan core o.conditions assignments →
    ∀ eff ∈ o.effects, ∀ v, CanBe core eff.value assignments v → InSets core assignments' eff.fluent v
  only : ∀ f, ∀ v ∈ assignments' f, v ∈ assignments f ∨
    ∃ o ∈ hm.operators, ∃ eff ∈ o.effects, eff.fluent = f ∧ CanBe core eff.value assignments v

theorem round_grow {assignments new : ValueSets} {bs : List Bool}
    (h : naiveTurns core assignments hm.operators (fun _ => []) = some (bs, new)) :
    Round hm core assignments (grow core order assignments new) := by
  obtain ⟨hgives, hall⟩ := naiveTurns_gives h
  refine ⟨extends_grow order, fun o ho hcond eff he v hv => ?_, fun f v hv => ?_⟩
  · exact known_iff.mp (.inr (hgives.all eff (hall o ho hcond eff he) v hv))
  · refine (mem_grow hv).imp id fun hv => ?_
    rcases hgives.only f v hv with hv | ⟨eff, he, hf⟩
    · contradiction
    · obtain ⟨o, ho, he⟩ := mem_of_enabledEffects he
      exact ⟨o, ho, eff, he, hf⟩

/-- Without growth the round left every set as it was. -/
theorem eq_of_grown_nil {assignments new : ValueSets} {bs : List Bool}
    (h : naiveTurns core assignments hm.operators (fun _ => []) = some (bs, new))
    (hnil : hm.grown assignments (grow core order assignments new) = []) :
    grow core order assignments new = assignments := by
  funext f
  refine eq_of_not_grown (by rw [hnil]; exact List.not_mem_nil) (extends_grow order) fun heff => ?_
  have hnew : new f = [] := by
    refine List.eq_nil_iff_forall_not_mem.mpr fun v hv => ?_
    rcases (naiveTurns_gives h).1.only f v hv with hv | ⟨eff, he, hf, -⟩
    · contradiction
    · obtain ⟨o, ho, he⟩ := mem_of_enabledEffects he
      exact heff o ho eff he hf
  rw [grow, hnew, (order.perm []).eq_nil]
  rfl

/-- A turn of the naive loop that can evaluate everything. -/
theorem naiveTurn_spec (order : SetOrder) {n : NaiveLoop}
    (hdef : ∀ exp ∈ hm.expressions, DefinedOn core exp n.assignments) (hne : n.changes ≠ []) :
    (AllCan core hm.goals n.assignments ∧
      hm.naiveTurn core order n = .inl (some (some n.depth))) ∨
    (¬ AllCan core hm.goals n.assignments ∧ ∃ n', hm.naiveTurn core order n = .inr n' ∧
      n'.depth = n.depth + 1 ∧ Round hm core n.assignments n'.assignments ∧
      (n'.changes = [] → n'.assignments = n.assignments)) := by
  have hmem : ∀ o ∈ hm.operators, ∀ exp ∈ o.conditions ++ o.effects.map Effect.value,
      DefinedOn core exp n.assignments := fun o ho exp he =>
    hdef exp (List.mem_append_right _ (List.mem_flatMap.mpr ⟨o, ho, he⟩))
  obtain ⟨b, hb⟩ : ∃ b, allCanBeTrue core n.assignments hm.goals = some b :=
    exists_allCanBeTrue fun exp he => hdef exp (List.mem_append_left _ he)
  obtain ⟨-, hcan⟩ := allCanBeTrue_spec hb
  rw [naiveTurn, if_neg hne, hb]
  cases b with
  | true => exact .inl ⟨hcan.mp rfl, rfl⟩
  | false =>
    obtain ⟨⟨bs, new⟩, hr⟩ : ∃ r, naiveTurns core n.assignments hm.operators (fun _ => []) =
        some r := exists_naiveTurns
      (fun o ho exp he => hmem o ho exp (List.mem_append_left _ he))
      (fun o ho eff he => hmem o ho eff.value
        (List.mem_append_right _ (List.mem_map_of_mem he)))
    refine .inr ⟨fun hall => by simpa using hcan.mpr hall, ?_⟩
    rw [hr]
    exact ⟨_, rfl, rfl, round_grow hr, eq_of_grown_nil hr⟩

end HMaxExplicit

end TamerLite
