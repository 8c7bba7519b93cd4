import TamerLite.ConverterTrees
import TamerLite.Encoder
import TamerLite.Trace

/-! Effects of one instant: the encoder merges those on one fluent into one effect,
which gives the fluent what all of them together give it. -/

namespace TamerLite

open SearchSpace

/-! ### Grouping -/

/-- The values of the effects of one kind on a fluent. -/
def effectValues (effects : List UPEffect) (fluent : FNode) (kind : EffectKind) : List FNode :=
  (effects.filter fun e => e.fluent = fluent && e.kind = kind).map UPEffect.value

structure EffectGroup.Of (effects : List UPEffect) (g : EffectGroup) : Prop where
  increases : g.increases = effectValues effects g.fluent .increase
  decreases : g.decreases = effectValues effects g.fluent .decrease
  assignments : g.assignments = effectValues effects g.fluent .assign
  affected : ∃ e ∈ effects, e.fluent = g.fluent

section Grouping

variable {effects : List UPEffect} {e : UPEffect} {g : EffectGroup} {fluent : FNode}

@[simp] theorem EffectGroup.add_fluent (g : EffectGroup) (e : UPEffect) :
    (g.add e).fluent = g.fluent := by
  unfold EffectGroup.add
  cases e.kind <;> rfl

theorem effectValues_concat (kind : EffectKind) : effectValues (effects ++ [e]) fluent kind =
    effectValues effects fluent kind ++ if e.fluent = fluent ∧ e.kind = kind then [e.value] else [] := by
  rw [effectValues, List.filter_append, List.map_append]
  congr 1
  by_cases h : e.fluent = fluent ∧ e.kind = kind <;> simp [h]

theorem EffectGroup.Of.add (h : g.Of effects) (hf : g.fluent = e.fluent) :
    (g.add e).Of (effects ++ [e]) := by
  have hfl := hf.symm
  cases hk : e.kind with
  | assign =>
    refine ⟨?_, ?_, ?_, e, by simp, by simp [hf]⟩
    all_goals
      simp [EffectGroup.add, hk, effectValues_concat, hfl, h.increases, h.decreases, h.assignments]
  | increase =>
    refine ⟨?_, ?_, ?_, e, by simp, by simp [hf]⟩
    all_goals
      simp [EffectGroup.add, hk, effectValues_concat, hfl, h.increases, h.decreases, h.assignments]
  | decrease =>
    refine ⟨?_, ?_, ?_, e, by simp, by simp [hf]⟩
    all_goals
      simp [EffectGroup.add, hk, effectValues_concat, hfl, h.increases, h.decreases, h.assignments]

theorem EffectGroup.Of.keep (h : g.Of effects) (hf : g.fluent ≠ e.fluent) :
    g.Of (effects ++ [e]) := by
  have hfl : e.fluent ≠ g.fluent := fun heq => hf heq.symm
  obtain ⟨e', he', heq⟩ := h.affected
  refine ⟨?_, ?_, ?_, e', List.mem_append_left _ he', heq⟩
  · simp [effectValues_concat, hfl, h.increases]
  · simp [effectValues_concat, hfl, h.decreases]
  · simp [effectValues_concat, hfl, h.assignments]

theorem effectValues_of_notMem (h : ∀ e ∈ effects, e.fluent ≠ fluent) (kind : EffectKind) :
    effectValues effects fluent kind = [] := by
  rw [effectValues, List.filter_eq_nil_iff.mpr]
  · rfl
  · intro e he
    simp [h e he]

/-- There is one group for each fluent that has an effect, with all the effects on it. -/
theorem groupEffects_spec (effects : List UPEffect) :
    ((groupEffects effects).map EffectGroup.fluent).Nodup ∧
    (∀ g ∈ groupEffects effects, g.Of effects) ∧
    ∀ e ∈ effects, ∃ g ∈ groupEffects effects, g.fluent = e.fluent := by
  induction effects using List.reverseRecOn with
  | nil => exact ⟨List.nodup_nil, by simp [groupEffects], by simp⟩
  | append_singleton effects e ih =>
    obtain ⟨hnodup, hof, hall⟩ := ih
    have hstep : groupEffects (effects ++ [e]) =
        if (groupEffects effects).any (fun g => g.fluent = e.fluent) then
          (groupEffects effects).map fun g => if g.fluent = e.fluent then g.add e else g
        else groupEffects effects ++ [EffectGroup.add ⟨e.fluent, [], [], []⟩ e] := by
      rw [groupEffects, List.foldl_append]
      rfl
    rw [hstep]
    split_ifs with hany
    · obtain ⟨g₀, hg₀, hf₀⟩ := List.any_eq_true.mp hany
      refine ⟨?_, fun g hg => ?_, fun e' he' => ?_⟩
      · have hmap : ((groupEffects effects).map fun g => if g.fluent = e.fluent then g.add e else g).map
            EffectGroup.fluent = (groupEffects effects).map EffectGroup.fluent := by
          rw [List.map_map]
          refine List.map_congr_left fun g _ => ?_
          simp only [Function.comp_apply]
          split_ifs <;> simp
        rw [hmap]
        exact hnodup
      · obtain ⟨g', hg', rfl⟩ := List.mem_map.mp hg
        split_ifs with hf
        · exact (hof g' hg').add hf
        · exact (hof g' hg').keep hf
      · obtain ⟨g, hg, hgf⟩ : ∃ g ∈ groupEffects effects, g.fluent = e'.fluent := by
          rcases List.mem_append.mp he' with he' | he'
          · exact hall e' he'
          · exact ⟨g₀, hg₀, by rw [List.mem_singleton.mp he']; exact of_decide_eq_true hf₀⟩
        refine ⟨_, List.mem_map_of_mem hg, ?_⟩
        split_ifs <;> simp [hgf]
    · have hnone : ∀ g ∈ groupEffects effects, g.fluent ≠ e.fluent := by
        intro g hg hf
        exact hany (List.any_eq_true.mpr ⟨g, hg, decide_eq_true hf⟩)
      have hfresh : ∀ e' ∈ effects, e'.fluent ≠ e.fluent := by
        intro e' he' heq
        obtain ⟨g, hg, hgf⟩ := hall e' he'
        exact hnone g hg (hgf.trans heq)
      refine ⟨?_, fun g hg => ?_, fun e' he' => ?_⟩
      · rw [List.map_append, List.map_singleton, List.nodup_append]
        refine ⟨hnodup, by simp, fun x hx y hy => ?_⟩
        obtain ⟨g, hg, rfl⟩ := List.mem_map.mp hx
        rw [List.mem_singleton.mp hy, EffectGroup.add_fluent]
        exact hnone g hg
      · rcases List.mem_append.mp hg with hg | hg
        · exact (hof g hg).keep (hnone g hg)
        · obtain rfl := List.mem_singleton.mp hg
          cases hk : e.kind with
          | assign | increase | decrease =>
            refine ⟨?_, ?_, ?_, e, by simp, by simp⟩
            all_goals
              simp [EffectGroup.add, hk, effectValues_concat, effectValues_of_notMem hfresh]
      · rcases List.mem_append.mp he' with he' | he'
        · obtain ⟨g, hg, hgf⟩ := hall e' he'
          exact ⟨g, List.mem_append_left _ hg, hgf⟩
        · refine ⟨_, List.mem_append_right _ (List.mem_singleton.mpr rfl), ?_⟩
          rw [List.mem_singleton.mp he', EffectGroup.add_fluent]

end Grouping

/-! ### What simultaneous effects mean -/

/-- What the planning library takes the values of expressions to be, among them the sums it
builds. -/
structure Meaning (plus : List FNode → FNode) (m : FNode → Option ConstantNode) : Prop where
  boolConstant : ∀ b, m (.node (.boolConstant b) []) = some (.bool b)
  plus : ∀ {es : List FNode} {qs : List ℚ}, es ≠ [] → es.mapM m = some (qs.map .num) →
    m (plus es) = some (.num qs.sum)
  minus : ∀ {x y : FNode} {p q : ℚ}, m x = some (.num p) → m y = some (.num q) →
    m (.node .minus [x, y]) = some (.num (p - q))

section Values

variable (m : FNode → Option ConstantNode)

def isTrue (e : FNode) : Bool := (m e).any ConstantNode.truthy

/-- The numbers some expressions stand for. -/
def numbers (es : List FNode) : Option (List ℚ) := es.mapM fun e => (m e).bind ConstantNode.toNum

/-- The value all the effects of one instant give a fluent: a Boolean one is true if some
assignment is, another gets the assigned value, and without assignments the increases are
added and the decreases subtracted. -/
def simultaneous (effects : List UPEffect) (fluent : FNode) : Option ConstantNode :=
  match effectValues effects fluent .assign with
  | [] => do
    let old ← (m fluent).bind ConstantNode.toNum
    let up ← numbers m (effectValues effects fluent .increase)
    let down ← numbers m (effectValues effects fluent .decrease)
    return .num (old + up.sum - down.sum)
  | v :: vs =>
    if isBoolFluent fluent then some (.bool ((v :: vs).any (isTrue m))) else m v

/-- The effects on a fluent have values of its type. -/
structure EffectsDefined (effects : List UPEffect) (fluent : FNode) : Prop where
  assigned : ∀ v ∈ effectValues effects fluent .assign,
    ∃ w, m v = some w ∧ (isBoolFluent fluent = true → ∃ b, w = .bool b)
  increased : ∀ v ∈ effectValues effects fluent .increase, ∃ q, m v = some (.num q)
  decreased : ∀ v ∈ effectValues effects fluent .decrease, ∃ q, m v = some (.num q)
  old : effectValues effects fluent .assign = [] → ∃ q, m fluent = some (.num q)

variable {m} {plus : List FNode → FNode} {es : List FNode}

theorem exists_numberValues (h : ∀ e ∈ es, ∃ q, m e = some (.num q)) :
    ∃ qs, numbers m es = some qs ∧ es.mapM m = some (qs.map .num) := by
  induction es with
  | nil => exact ⟨[], rfl, rfl⟩
  | cons e es ih =>
    obtain ⟨q, hq⟩ := h e List.mem_cons_self
    obtain ⟨qs, hqs, hvs⟩ := ih fun e' he => h e' (List.mem_cons_of_mem e he)
    refine ⟨q :: qs, ?_, ?_⟩
    · rw [numbers] at hqs ⊢
      rw [List.mapM_cons, hq, hqs]
      rfl
    · rw [List.mapM_cons, hq, hvs]
      rfl

theorem values_eq_mapM [Callables] (i : Interpretation) (es : List FNode) :
    FNode.values i es = es.mapM (FNode.value i) := by
  induction es with
  | nil => rfl
  | cons e es ih =>
    rw [FNode.values, List.mapM_cons, ih]

theorem foldNum_plus (q : ℚ) (qs : List ℚ) :
    foldNum (· + ·) (.num q :: qs.map .num) = some (q + qs.sum) := by
  have hfold : ∀ (qs : List ℚ) (x : ℚ),
      (qs.map ConstantNode.num).foldlM (fun x w => w.toNum.map (x + ·)) x = some (x + qs.sum) := by
    intro qs
    induction qs with
    | nil => simp
    | cons r qs ih =>
      intro x
      rw [List.map_cons, List.foldlM_cons, List.sum_cons, ← add_assoc]
      exact ih (x + r)
  exact hfold qs q

theorem value_sum [Callables] (i : Interpretation) {qs : List ℚ} (hne : es ≠ [])
    (h : es.mapM (FNode.value i) = some (qs.map .num)) :
    (FNode.sum es).value i = some (.num qs.sum) := by
  match es with
  | [] => exact absurd rfl hne
  | [e] =>
    rw [List.mapM_cons, List.mapM_nil] at h
    show e.value i = some (.num qs.sum)
    cases hv : e.value i with
    | none =>
      rw [hv] at h
      cases h
    | some v =>
      match qs, h.symm.trans (by rw [hv]; rfl : _ = some [v]) with
      | [q], h => simpa using h.symm
  | e :: e' :: es =>
    have hsum : FNode.sum (e :: e' :: es) = .node .plus (e :: e' :: es) := rfl
    rw [hsum, FNode.value, values_eq_mapM, h]
    · cases qs with
      | nil =>
        simp only [List.mapM_cons, Option.bind_eq_bind, Option.bind_eq_some_iff] at h
        obtain ⟨v, -, vs, -, h⟩ := h
        cases h
      | cons q qs =>
        rw [List.sum_cons]
        exact congrArg (Option.map ConstantNode.num) (foldNum_plus q qs)
    · simp

/-- The values of ground expressions are such a meaning. -/
theorem meaning_value [Callables] (i : Interpretation) : Meaning FNode.sum (FNode.value i) where
  boolConstant _ := rfl
  plus := value_sum i
  minus {x y p q} hx hy := by
    rw [FNode.value, FNode.values, FNode.values, FNode.values, hx, hy]
    · rfl
    · simp

/-! ### Merged assignments -/

theorem mergeAssignments_le (value : FNode) (n : ℕ) (vs : List FNode)
    (h : ∀ v ∈ vs, boolConstantValue v ≠ some true) : n ≤ (mergeAssignments value n vs).2 := by
  induction vs generalizing value n with
  | nil => exact le_rfl
  | cons v vs ih =>
    have hvs := fun w hw => h w (List.mem_cons_of_mem v hw)
    rw [mergeAssignments]
    cases hv : boolConstantValue v with
    | none => exact (Nat.le_succ n).trans (ih v (n + 1) hvs)
    | some b =>
      cases b with
      | true => exact absurd hv (h v List.mem_cons_self)
      | false => exact ih value n hvs

theorem Meaning.isTrue_constant (hm : Meaning plus m) {v : FNode} {b : Bool}
    (h : boolConstantValue v = some b) :
    m v = some (.bool b) ∧ isTrue m v = b := by
  unfold boolConstantValue at h
  split at h
  · obtain rfl := Option.some.inj h
    refine ⟨hm.boolConstant _, ?_⟩
    rw [isTrue, hm.boolConstant]
    rfl
  · cases h

/-- A constant that is true decides the loop. -/
theorem Meaning.mergeAssignments_true (hm : Meaning plus m) (value : FNode) (n : ℕ)
    {vs : List FNode} {t : FNode} (ht : t ∈ vs)
    (hc : boolConstantValue t = some true) : isTrue m (mergeAssignments value n vs).1 = true := by
  induction vs generalizing value n with
  | nil => cases ht
  | cons v vs ih =>
    rw [mergeAssignments]
    cases hv : boolConstantValue v with
    | none =>
      rcases List.mem_cons.mp ht with rfl | ht
      · rw [hc] at hv
        cases hv
      · exact ih v (n + 1) ht
    | some b =>
      cases b with
      | true => exact (hm.isTrue_constant hv).2
      | false =>
        rcases List.mem_cons.mp ht with rfl | ht
        · rw [hc] at hv
          cases hv
        · exact ih value n ht

/-- Without such a constant at most one assignment is not constant, and it decides. -/
theorem Meaning.mergeAssignments_false (hm : Meaning plus m) (value : FNode) (n : ℕ) {vs : List FNode}
    (h : ∀ v ∈ vs, boolConstantValue v ≠ some true) (hle : (mergeAssignments value n vs).2 ≤ 1) :
    (n = 0 → (∀ v ∈ vs, boolConstantValue v = some false) ∧ (mergeAssignments value n vs).1 = value ∨
      (mergeAssignments value n vs).1 ∈ vs ∧
        isTrue m (mergeAssignments value n vs).1 = vs.any (isTrue m)) ∧
    (n = 1 → (mergeAssignments value n vs).1 = value ∧
      ∀ v ∈ vs, boolConstantValue v = some false) := by
  induction vs generalizing value n with
  | nil => exact ⟨fun _ => .inl ⟨by simp, rfl⟩, fun _ => ⟨rfl, by simp⟩⟩
  | cons v vs ih =>
    have hvs := fun w hw => h w (List.mem_cons_of_mem v hw)
    rw [mergeAssignments] at hle ⊢
    cases hv : boolConstantValue v with
    | none =>
      simp only [hv] at hle ⊢
      have hn := (mergeAssignments_le v (n + 1) vs hvs).trans hle
      obtain rfl : n = 0 := by omega
      obtain ⟨heq, hall⟩ := (ih v 1 hvs hle).2 rfl
      refine ⟨fun _ => .inr ?_, fun h => by cases h⟩
      have hrest : vs.any (isTrue m) = false := by
        rw [List.any_eq_false]
        intro w hw
        rw [(hm.isTrue_constant (hall w hw)).2]
        exact Bool.false_ne_true
      rw [Nat.zero_add, heq, List.any_cons, hrest, Bool.or_false]
      exact ⟨List.mem_cons_self, rfl⟩
    | some b =>
      cases b with
      | true => exact absurd hv (h v List.mem_cons_self)
      | false =>
        simp only [hv] at hle ⊢
        obtain ⟨hzero, hone⟩ := ih value n hvs hle
        refine ⟨fun hn => ?_, fun hn => ?_⟩
        · rcases hzero hn with ⟨hall, heq⟩ | ⟨hmem, ht⟩
          · refine .inl ⟨fun w hw => ?_, heq⟩
            rcases List.mem_cons.mp hw with rfl | hw
            · exact hv
            · exact hall w hw
          · refine .inr ⟨List.mem_cons_of_mem v hmem, ?_⟩
            rw [ht, List.any_cons, (hm.isTrue_constant hv).2, Bool.false_or]
        · obtain ⟨heq, hall⟩ := hone hn
          refine ⟨heq, fun w hw => ?_⟩
          rcases List.mem_cons.mp hw with rfl | hw
          · exact hv
          · exact hall w hw

theorem mergeAssignments_mem (value : FNode) (n : ℕ) (vs : List FNode) :
    (mergeAssignments value n vs).1 ∈ value :: vs := by
  induction vs generalizing value n with
  | nil => exact List.mem_cons_self
  | cons v vs ih =>
    rw [mergeAssignments]
    cases hv : boolConstantValue v with
    | none => exact List.mem_cons_of_mem value (ih v (n + 1))
    | some b =>
      cases b with
      | true => exact List.mem_cons_of_mem value List.mem_cons_self
      | false =>
        rcases List.mem_cons.mp (ih value n) with h | h
        · exact List.mem_cons.mpr (.inl h)
        · exact List.mem_cons_of_mem value (List.mem_cons_of_mem v h)

/-- The merged assignment is true when one of them is. -/
theorem Meaning.isTrue_mergeAssignments (hm : Meaning plus m) {v : FNode} {vs : List FNode}
    (hle : (mergeAssignments v 0 (v :: vs)).2 ≤ 1) :
    isTrue m (mergeAssignments v 0 (v :: vs)).1 = (v :: vs).any (isTrue m) := by
  by_cases hex : ∃ t ∈ v :: vs, boolConstantValue t = some true
  · obtain ⟨t, ht, hc⟩ := hex
    rw [hm.mergeAssignments_true v 0 ht hc, eq_comm, List.any_eq_true]
    exact ⟨t, ht, (hm.isTrue_constant hc).2⟩
  · push Not at hex
    rcases (hm.mergeAssignments_false v 0 hex hle).1 rfl with ⟨hall, heq⟩ | ⟨-, ht⟩
    · rw [heq, (hm.isTrue_constant (hall v List.mem_cons_self)).2, eq_comm, List.any_eq_false]
      intro w hw
      rw [(hm.isTrue_constant (hall w hw)).2]
      exact Bool.false_ne_true
    · exact ht

/-- The value of a group is what its effects together give the fluent. -/
theorem EffectGroup.value_spec {effects : List UPEffect} {g : EffectGroup} {e : FNode}
    (hm : Meaning plus m) (hg : g.Of effects) (hdef : EffectsDefined m effects g.fluent)
    (hv : g.value plus = some e) :
    ∃ w, m e = some w ∧ simultaneous m effects g.fluent = some w := by
  have hassigned := hdef.assigned
  rw [EffectGroup.value, hg.assignments] at hv
  rw [simultaneous]
  cases has : effectValues effects g.fluent .assign with
  | nil =>
    rw [has] at hv
    obtain ⟨old, hold⟩ := hdef.old has
    obtain ⟨up, hup, hupv⟩ := exists_numberValues hdef.increased
    obtain ⟨down, hdown, hdownv⟩ := exists_numberValues hdef.decreased
    refine ⟨.num (old + up.sum - down.sum), ?_, by simp [hold, hup, hdown, ConstantNode.toNum]⟩
    have hplus : m (plus (g.fluent :: g.increases)) = some (.num (old + up.sum)) := by
      have hvs : (g.fluent :: g.increases).mapM m = some ((old :: up).map .num) := by
        rw [List.mapM_cons, hold, hg.increases, hupv]
        rfl
      exact (hm.plus (by simp) hvs).trans (by rw [List.sum_cons])
    have hminus : g.decreases ≠ [] → m (plus g.decreases) = some (.num down.sum) := by
      intro hne
      rw [hg.decreases] at hne ⊢
      exact hm.plus hne hdownv
    by_cases hinc : g.increases = []
    · obtain rfl : up = [] := by
        rw [← hg.increases, hinc] at hup
        exact (Option.some.inj hup).symm
      have hdec : g.decreases ≠ [] := by
        intro hdec
        obtain ⟨e', he', hf⟩ := hg.affected
        have hmem : e'.value ∈ effectValues effects g.fluent e'.kind :=
          List.mem_map_of_mem (List.mem_filter.mpr ⟨he', by simp [hf]⟩)
        cases hk : e'.kind with
        | assign => simp [hk, has] at hmem
        | increase => simp [hk, ← hg.increases, hinc] at hmem
        | decrease => simp [hk, ← hg.decreases, hdec] at hmem
      simp only [hinc, List.isEmpty_nil, if_true, Option.some.injEq] at hv
      rw [← hv]
      simpa using hm.minus hold (hminus hdec)
    · by_cases hdec : g.decreases = []
      · obtain rfl : down = [] := by
          rw [← hg.decreases, hdec] at hdown
          exact (Option.some.inj hdown).symm
        simp only [List.isEmpty_iff, hinc, if_false, hdec, if_true, Option.some.injEq] at hv
        rw [← hv]
        simpa using hplus
      · simp only [List.isEmpty_iff, hinc, hdec, if_false, Option.some.injEq] at hv
        rw [← hv]
        exact hm.minus hplus (hminus hdec)
  | cons v vs =>
    rw [has] at hv hassigned
    obtain ⟨w, hw, hbool⟩ := hassigned v List.mem_cons_self
    have htruth : ∀ u ∈ v :: vs, isBoolFluent g.fluent = true →
        m u = some (.bool (isTrue m u)) := by
      intro u hu hb
      obtain ⟨x, hx, hxb⟩ := hassigned u hu
      obtain ⟨b, rfl⟩ := hxb hb
      rw [isTrue, hx]
      rfl
    simp only at hv
    split_ifs at hv with hops hone hnb hany hcount
    · obtain rfl := Option.some.inj hv
      obtain rfl := List.isEmpty_iff.mp hone
      by_cases hb : isBoolFluent g.fluent = true
      · exact ⟨_, htruth v List.mem_cons_self hb, by simp [hb]⟩
      · exact ⟨w, hw, by simp [hb, hw]⟩
    · obtain rfl := Option.some.inj hv
      have hb : isBoolFluent g.fluent = false := by simpa using hnb
      exact ⟨w, hw, by simp [hb, hw]⟩
    · obtain rfl := Option.some.inj hv
      have hb : isBoolFluent g.fluent = true := by simpa using hnb
      have hmem : (mergeAssignments v 0 (v :: vs)).1 ∈ v :: vs := by
        rcases List.mem_cons.mp (mergeAssignments_mem v 0 (v :: vs)) with h | h
        · rw [h]
          exact List.mem_cons_self
        · exact h
      refine ⟨_, htruth _ hmem hb, ?_⟩
      rw [hm.isTrue_mergeAssignments (by omega)]
      simp [hb]

end Values

/-! ### The converted effects -/

section Conversion

variable (E : Encoder)

/-- Each kept group becomes one effect, on its own fluent. -/
theorem Encoder.convertGroups_spec (groups : List EffectGroup) :
    ∀ {converted es : List Effect},
      groups.foldlM (fun converted g =>
        match E.converter.fluentIds g.fluent with
        | none => some converted
        | some f => do
          let value ← g.value E.plus
          let value ← E.convertExpression value
          return converted ++ [⟨f, value⟩]) converted = some es →
      ∃ ts, es = converted ++ ts ∧
        ts.map Effect.fluent = groups.filterMap (fun g => E.converter.fluentIds g.fluent) ∧
        ∀ e ∈ ts, ∃ g ∈ groups, E.converter.fluentIds g.fluent = some e.fluent ∧
          ∃ v, g.value E.plus = some v ∧ E.convertExpression v = some e.value := by
  induction groups with
  | nil =>
    intro converted es h
    obtain rfl := Option.some.inj h
    exact ⟨[], by simp, rfl, by simp⟩
  | cons g groups ih =>
    intro converted es h
    rw [List.foldlM_cons, Option.bind_eq_bind, Option.bind_eq_some_iff] at h
    obtain ⟨next, hnext, h⟩ := h
    obtain ⟨ts, rfl, hfluents, hts⟩ := ih h
    cases hf : E.converter.fluentIds g.fluent with
    | none =>
      rw [hf] at hnext
      obtain rfl := Option.some.inj hnext
      refine ⟨ts, rfl, by rw [List.filterMap_cons, hf, hfluents], fun e he => ?_⟩
      obtain ⟨g', hg', hspec⟩ := hts e he
      exact ⟨g', List.mem_cons_of_mem g hg', hspec⟩
    | some f =>
      simp only [hf, Option.bind_eq_bind, Option.bind_eq_some_iff] at hnext
      obtain ⟨v, hv, x, hx, hnext⟩ := hnext
      obtain rfl := Option.some.inj hnext
      refine ⟨⟨f, x⟩ :: ts, by simp, by rw [List.map_cons, List.filterMap_cons, hf, hfluents],
        fun e he => ?_⟩
      rcases List.mem_cons.mp he with rfl | he
      · exact ⟨g, List.mem_cons_self, hf, v, hv, hx⟩
      · obtain ⟨g', hg', hspec⟩ := hts e he
        exact ⟨g', List.mem_cons_of_mem g hg', hspec⟩

/-- Of effects on distinct fluents each gives its fluent its value. -/
theorem getValue_applyEffects [Callables] {effects : List Effect} {old new after : Assignments}
    (h : applyEffects effects old new = some after) (hnodup : (effects.map Effect.fluent).Nodup)
    (hlt : ∀ e ∈ effects, e.fluent.idx < new.length) :
    ∀ e ∈ effects, getValue after e.fluent = evaluate e.value old := by
  induction effects generalizing new with
  | nil => exact fun e he => absurd he List.not_mem_nil
  | cons eff effects ih =>
    obtain ⟨v, hv, h⟩ := applyEffects_cons.mp h
    rw [List.map_cons, List.nodup_cons] at hnodup
    intro e he
    rcases List.mem_cons.mp he with rfl | he
    · rw [applyEffects_frame h hnodup.1, hv, getValue,
        List.getElem?_set_self (hlt e List.mem_cons_self)]
    · refine ih h hnodup.2 (fun e' he' => ?_) e he
      rw [List.length_set]
      exact hlt e' (List.mem_cons_of_mem eff he')

namespace StateEncoding

variable (S : StateEncoding)

/-- Two expressions of one slot are the same. -/
theorem fluentIds_injective {e e' : FNode} {f : Fluent} (h : S.converter.fluentIds e = some f)
    (h' : S.converter.fluentIds e' = some f) : e = e' := by
  rw [S.fluentIds_iff] at h h'
  exact Option.some.inj (h.symm.trans h')

theorem filterMap_nodup {groups : List EffectGroup} (h : (groups.map EffectGroup.fluent).Nodup) :
    (groups.filterMap fun g => S.converter.fluentIds g.fluent).Nodup := by
  induction groups with
  | nil => exact List.nodup_nil
  | cons g groups ih =>
    rw [List.map_cons, List.nodup_cons] at h
    rw [List.filterMap_cons]
    cases hf : S.converter.fluentIds g.fluent with
    | none => exact ih h.2
    | some f =>
      refine List.nodup_cons.mpr ⟨fun hmem => ?_, ih h.2⟩
      obtain ⟨g', hg', hf'⟩ := List.mem_filterMap.mp hmem
      exact h.1 (List.mem_map.mpr ⟨g', hg', S.fluentIds_injective hf' hf⟩)

theorem idx_lt {e : FNode} {f : Fluent} (h : S.converter.fluentIds e = some f)
    (state : FNode → ConstantNode) : f.idx < (S.searchStateOf state).length := by
  have hlt := (List.getElem?_eq_some_iff.mp (S.fluentIds_iff.mp h)).1
  rw [searchStateOf, List.length_zipWith, S.length, min_self]
  exact hlt

/-- The converted effects of one instant are one for each kept fluent, and together give
every kept fluent what the effects give it at once. -/
theorem convertEffects_simultaneous [Callables] (hc : S.converter = E.converter)
    {meaning : (FNode → ConstantNode) → FNode → Option ConstantNode}
    (hmeaning : ∀ state, Meaning E.plus (meaning state))
    (hnormalize : ∀ state, S.AgreesOnStatic state → ∀ e v, meaning state e = some v →
      (E.normalizeExpression e).value (S.interpretation state) = some v)
    {effects : List UPEffect} {es : List Effect} (h : E.convertEffects effects = some es) :
    (es.map Effect.fluent).Nodup ∧
    ∀ state, S.AgreesOnStatic state →
      (∀ e ∈ effects, (S.converter.fluentIds e.fluent).isSome →
        EffectsDefined (meaning state) effects e.fluent) →
      ∃ after, applyEffects es (S.searchStateOf state) (S.searchStateOf state) = some after ∧
        ∀ e f, S.converter.fluentIds e = some f → getValue after f =
          if ∃ eff ∈ effects, eff.fluent = e then simultaneous (meaning state) effects e
          else some (state e) := by
  obtain ⟨hnodup, hof, hall⟩ := groupEffects_spec effects
  obtain ⟨ts, heq, hfluents, hts⟩ := E.convertGroups_spec (groupEffects effects) h
  rw [List.nil_append] at heq
  subst heq
  rw [← hc] at hfluents hts
  have hdistinct : (es.map Effect.fluent).Nodup := by
    rw [hfluents]
    exact S.filterMap_nodup hnodup
  refine ⟨hdistinct, fun state hstate hdef => ?_⟩
  have hvalue : ∀ eff ∈ es, ∃ g ∈ groupEffects effects,
      S.converter.fluentIds g.fluent = some eff.fluent ∧
      ∃ w, evaluate eff.value (S.searchStateOf state) = some w ∧
        simultaneous (meaning state) effects g.fluent = some w := by
    intro eff heff
    obtain ⟨g, hg, hf, v, hv, hx⟩ := hts eff heff
    obtain ⟨e, he, hef⟩ := (hof g hg).affected
    have hdefined := hdef e he (by rw [hef, hf]; rfl)
    rw [hef] at hdefined
    obtain ⟨w, hw, hsim⟩ := EffectGroup.value_spec (hmeaning state) (hof g hg) hdefined hv
    refine ⟨g, hg, hf, w, ?_, hsim⟩
    rw [Encoder.convertExpression, ← hc] at hx
    rw [S.evaluate_searchStateOf hstate hx]
    exact hnormalize state hstate v w hw
  have hdefined : ∀ eff ∈ es, (evaluate eff.value (S.searchStateOf state)).isSome := by
    intro eff heff
    obtain ⟨-, -, -, w, hw, -⟩ := hvalue eff heff
    rw [hw, Option.isSome_some]
  obtain ⟨after, hafter⟩ := exists_applyEffects (S.searchStateOf state) hdefined
  refine ⟨after, hafter, fun e f hf => ?_⟩
  split_ifs with haffected
  · obtain ⟨eff₀, heff₀, rfl⟩ := haffected
    obtain ⟨g, hg, hgf⟩ := hall eff₀ heff₀
    have hmem : f ∈ es.map Effect.fluent := by
      rw [hfluents]
      exact List.mem_filterMap.mpr ⟨g, hg, hgf ▸ hf⟩
    obtain ⟨eff, heff, rfl⟩ := List.mem_map.mp hmem
    obtain ⟨g', hg', hf', w, hw, hsim⟩ := hvalue eff heff
    rw [getValue_applyEffects hafter hdistinct (fun eff' heff' => by
      obtain ⟨g'', -, hf'', -⟩ := hvalue eff' heff'
      exact S.idx_lt hf'' state) eff heff, hw, ← hsim, S.fluentIds_injective hf' hf]
  · have hframe : f ∉ es.map Effect.fluent := by
      intro hmem
      rw [hfluents] at hmem
      obtain ⟨g, hg, hgf⟩ := List.mem_filterMap.mp hmem
      obtain ⟨eff, heff, heq⟩ := (hof g hg).affected
      exact haffected ⟨eff, heff, heq.trans (S.fluentIds_injective hgf hf)⟩
    rw [applyEffects_frame hafter hframe, S.getValue_searchStateOf hstate hf]

section Lamp

attribute [local instance] Callables.empty

def lampEffects : List UPEffect :=
  [⟨lampOn, .node (.boolConstant false) [], .assign⟩, ⟨lampOn, .node .not [lampOn], .assign⟩]

def lampEncoder : Encoder := ⟨[], FNode.conj, FNode.sum, id, lampEncoding.converter, List.nodup_nil⟩

theorem convertEffects_simultaneous_lamp :
    ∃ es, lampEncoder.convertEffects lampEffects = some es ∧ (es.map Effect.fluent).Nodup ∧
      ∃ after, applyEffects es [.bool false] [.bool false] = some after ∧
        getValue after ⟨0⟩ = some (.bool true) := by
  obtain ⟨es, hes⟩ : ∃ es, lampEncoder.convertEffects lampEffects = some es := ⟨_, rfl⟩
  obtain ⟨hnodup, happly⟩ := lampEncoding.convertEffects_simultaneous lampEncoder rfl
    (fun state => meaning_value (lampEncoding.interpretation state))
    (fun _ _ _ _ h => h) hes
  have hstatic : lampEncoding.AgreesOnStatic fun _ => .bool false := by
    intro e f _ hs
    obtain ⟨kind, args⟩ := e
    cases kind <;> simp [Converter.isStaticFluentExp, lampEncoding] at hs
  obtain ⟨after, hafter, hvalue⟩ := happly (fun _ => .bool false) hstatic (fun e he _ => by
    have hfluent : e.fluent = lampOn := by
      simp only [lampEffects, List.mem_cons, List.not_mem_nil, or_false] at he
      rcases he with rfl | rfl <;> rfl
    rw [hfluent]
    refine ⟨fun v hv => ?_, fun v hv => ?_, fun v hv => ?_, fun h => ?_⟩
    · change v ∈ [FNode.node (.boolConstant false) [], .node .not [lampOn]] at hv
      simp only [List.mem_cons, List.not_mem_nil, or_false] at hv
      rcases hv with rfl | rfl
      · exact ⟨.bool false, rfl, fun _ => ⟨false, rfl⟩⟩
      · exact ⟨.bool true, rfl, fun _ => ⟨true, rfl⟩⟩
    · exact absurd hv (List.not_mem_nil (a := v))
    · exact absurd hv (List.not_mem_nil (a := v))
    · cases h)
  refine ⟨es, hes, hnodup, after, hafter, ?_⟩
  rw [hvalue lampOn ⟨0⟩ rfl, if_pos ⟨⟨lampOn, .node .not [lampOn], .assign⟩, by decide, rfl⟩]
  rfl

end Lamp

end StateEncoding

end Conversion

end TamerLite
