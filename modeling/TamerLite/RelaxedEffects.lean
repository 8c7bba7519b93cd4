import TamerLite.RelaxedRepetitions

/-! What an event does to the weighted sum of a simple numeric condition: where it
neither assigns nor computes one of the fluents, the sum moves by the net effect of
its operator. -/

namespace TamerLite

open SearchSpace

/-! ### The fluents of a linear polynomial -/

namespace LinearPolynomial

/-- The fluents with a coefficient satisfy `F`. -/
def Over (F : Fluent → Prop) (p : LinearPolynomial) : Prop :=
  ∀ e ∈ p.entries, ∀ f, e.1 = some f → F f

variable {F : Fluent → Prop} {p q r : LinearPolynomial}

theorem over_constant (c : ℚ) : Over F (constant c) := by
  intro e he f hf
  obtain rfl := List.mem_singleton.mp he
  cases hf

theorem over_ofFluent {f : Fluent} (hf : F f) : Over F (ofFluent f) := by
  intro e he g hg
  obtain rfl := List.mem_singleton.mp he
  obtain rfl := Option.some.inj hg
  exact hf

theorem Over.filter (hp : Over F p) (k : Option Fluent → ℚ → Bool) : Over F (Dict.filter p k) :=
  fun e he => hp e (List.mem_of_mem_filter he)

theorem Over.mapValues (hp : Over F p) (g : ℚ → ℚ) : Over F (Dict.mapValues g p) := by
  intro e he f hf
  obtain ⟨e', he', rfl⟩ := List.mem_map.mp he
  exact hp e' he' f hf

theorem Over.modify (hp : Over F p) {k : Option Fluent} (hk : ∀ f, k = some f → F f) (g : ℚ → ℚ) :
    Over F (Dict.modify p k g 0) := by
  intro e he f hf
  have hmem : e.1 ∈ (Dict.modifyEntries k g 0 p.entries).map Prod.fst := List.mem_map_of_mem he
  have hkeys : some f ∈ p.entries.map Prod.fst → F f := by
    intro hmem
    obtain ⟨e', he', heq⟩ := List.mem_map.mp hmem
    exact hp e' he' f heq
  rw [Dict.keys_modifyEntries, hf] at hmem
  split_ifs at hmem
  · exact hkeys hmem
  · rcases List.mem_append.mp hmem with hmem | hmem
    · exact hkeys hmem
    · exact hk f (List.mem_singleton.mp hmem).symm

/-- Folding entries into a polynomial adds no other fluents. -/
theorem Over.foldl_modify (hp : Over F p) (hq : Over F q) (g : Option Fluent × ℚ → ℚ → ℚ) :
    Over F (q.entries.foldl (fun r e => Dict.modify r e.1 (g e) 0) p) := by
  have hlist : ∀ l : List (Option Fluent × ℚ), (∀ e ∈ l, e ∈ q.entries) → ∀ p, Over F p →
      Over F (l.foldl (fun r e => Dict.modify r e.1 (g e) 0) p) := by
    intro l
    induction l with
    | nil => exact fun _ p hp => hp
    | cons e l ih =>
      intro hl p hp
      exact ih (fun e' he' => hl e' (List.mem_cons_of_mem e he')) _
        (hp.modify (hq e (hl e List.mem_cons_self)) _)
  exact hlist q.entries (fun _ he => he) p hp

theorem Over.foldl_add {ps : List LinearPolynomial} (hp : Over F p) (hps : ∀ q ∈ ps, Over F q) :
    Over F (ps.foldl add p) := by
  induction ps generalizing p with
  | nil => exact hp
  | cons q ps ih =>
    exact ih (hp.foldl_modify (hps q List.mem_cons_self) fun e v => v + e.2) fun r hr =>
      hps r (List.mem_cons_of_mem q hr)

theorem over_product {ps : List LinearPolynomial} (hps : ∀ q ∈ ps, Over F q)
    (h : product ps = some p) : Over F p := by
  have hfactors : ∀ (ps : List LinearPolynomial) c o c' o', (∀ q ∈ ps, Over F q) →
      (∀ q, o = some q → Over F q) → factors c o ps = some (c', o') → ∀ q, o' = some q → Over F q := by
    intro ps
    induction ps with
    | nil =>
      intro c o c' o' _ ho h
      obtain ⟨-, rfl⟩ := Prod.mk.inj (Option.some.inj h)
      exact ho
    | cons q ps ih =>
      intro c o c' o' hps ho h
      have hps' : ∀ r ∈ ps, Over F r := fun r hr => hps r (List.mem_cons_of_mem q hr)
      unfold factors at h
      split at h
      · exact ih _ _ _ _ hps' ho h
      · cases h
      · exact ih _ _ _ _ hps' (fun r hr => Option.some.inj hr ▸ hps q List.mem_cons_self) h
  rw [product] at h
  split at h
  · cases h
  · exact Option.some.inj h ▸ over_constant _
  · rename_i c o hf
    have ho := hfactors ps 1 none c (some o) hps (fun q hq => by cases hq) hf o rfl
    split_ifs at h
    · exact Option.some.inj h ▸ over_constant _
    · exact Option.some.inj h ▸ ho.mapValues _

theorem over_operate {kind : OperatorKind} {ps : List LinearPolynomial} (hps : ∀ q ∈ ps, Over F q)
    (h : operate .python kind ps = some p) : Over F p := by
  unfold operate at h
  split at h
  · rename_i q r _
    refine Option.some.inj h ▸ Over.filter (Over.foldl_modify (hps r ?_) (hps q ?_) fun e v => v - e.2) _
    · exact List.mem_cons_of_mem q List.mem_cons_self
    · exact List.mem_cons_self
  · refine Option.some.inj h ▸ Over.filter (Over.foldl_add (fun e he => ?_) hps) _
    cases he
  · rename_i q r _
    rw [divide] at h
    split at h
    · cases h
    · split_ifs at h
      exact Option.some.inj h ▸ (hps r (List.mem_cons_of_mem q List.mem_cons_self)).mapValues _
  · exact over_product hps h
  · cases h

theorem over_foldlM {exp : Expression} (hexp : ∀ f, .fluent f ∈ exp → F f) :
    ∀ {res ps : List LinearPolynomial}, (∀ q ∈ res, Over F q) → exp.foldlM (step .python) res = some ps →
      ∀ q ∈ ps, Over F q := by
  induction exp with
  | nil =>
    intro res ps hres h
    exact Option.some.inj h ▸ hres
  | cons n exp ih =>
    intro res ps hres h
    rw [List.foldlM_cons] at h
    obtain ⟨res', hstep, h⟩ := Option.bind_eq_some_iff.mp h
    refine ih (fun f hf => hexp f (List.mem_cons_of_mem n hf)) ?_ h
    cases n with
    | constant v =>
      obtain ⟨c, -, rfl⟩ := Option.map_eq_some_iff.mp hstep
      exact List.forall_mem_cons.mpr ⟨over_constant c, hres⟩
    | fluent f =>
      obtain rfl := Option.some.inj hstep
      exact List.forall_mem_cons.mpr ⟨over_ofFluent (hexp f List.mem_cons_self), hres⟩
    | operator kind operands =>
      rw [step] at hstep
      split_ifs at hstep
      obtain ⟨p, hp, rfl⟩ := Option.map_eq_some_iff.mp hstep
      refine List.forall_mem_cons.mpr ⟨over_operate (fun q hq => hres q (List.mem_of_mem_take hq)) hp,
        fun q hq => hres q (List.mem_of_mem_drop hq)⟩
    | interpretedFunction fn rt operands => cases hstep

end LinearPolynomial

/-- A simple condition weighs fluents of its expression. -/
theorem mem_fluents_of_extract {e : Expression} {c : SimpleCondition}
    (h : extractFluentsWeights .python some e = some c) : ∀ f ∈ c.fluents, f ∈ getFluents e := by
  rw [extractFluentsWeights] at h
  split at h
  · rename_i kind operands hlast
    split_ifs at h
    obtain ⟨p, hp, hc⟩ := Option.bind_eq_some_iff.mp h
    obtain rfl := toFloats_eq hc fun w _ => rfl
    rw [toLinearPolynomial] at hp
    split at hp
    · rename_i q hq
      obtain rfl := Option.some.inj hp
      have hover : LinearPolynomial.Over (· ∈ getFluents e) q := by
        refine LinearPolynomial.over_foldlM (fun f hf => ?_) (by simp) hq q List.mem_cons_self
        rcases List.mem_append.mp hf with hf | hf
        · exact mem_getFluents.mpr (List.mem_of_mem_dropLast hf)
        · simp at hf
      intro f hf
      obtain ⟨e', he', heq⟩ := List.mem_filterMap.mp hf
      exact hover e' (List.mem_of_mem_filter he') f heq
    · cases hp
  · cases h

/-! ### Net effects -/

namespace Operator

variable {domains extended : List FluentDomain} {eff : Effect} {f : Fluent} {o : Operator}
  {c : SimpleCondition}

theorem numericEffect_eq_some {u : NumericEffect} (h : numericEffect extended eff = some (f, u)) :
    f = eff.fluent ∧ u = updateNumericEffects eff := by
  rw [numericEffect] at h
  split at h
  · exact ⟨(Prod.mk.inj (Option.some.inj h)).1.symm, (Prod.mk.inj (Option.some.inj h)).2.symm⟩
  · exact ⟨(Prod.mk.inj (Option.some.inj h)).1.symm, (Prod.mk.inj (Option.some.inj h)).2.symm⟩
  · cases h

theorem numericEffect_of_kind {d : FluentDomain} (hd : extended[eff.fluent.idx]? = some d)
    (hkind : d.kind = .int ∨ d.kind = .real) :
    numericEffect extended eff = some (eff.fluent, updateNumericEffects eff) := by
  obtain ⟨kind, objects⟩ := d
  rw [numericEffect, hd]
  rcases hkind with rfl | rfl <;> rfl

/-- The weighted sum moves by the net effect where every fluent moves by its increase. -/
theorem sum_eq_add_netEffect {get get' : Fluent → Option ConstantNode} (inadmissible : Bool)
    (hno : o.hasAssignOrComplexEffect c = false)
    (hworth : ∀ f ∈ c.fluents, LinearPolynomial.worth .python get' (some f) =
      LinearPolynomial.worth .python get (some f) + (o.constantIncrease f).getD 0) :
    c.sum .python get' = c.sum .python get + o.netEffect inadmissible c := by
  have hzip : ∀ (fs : List Fluent) (ws : List ℚ), (∀ f ∈ fs, f ∈ c.fluents) →
      (fs.zipWith (fun f w => w * LinearPolynomial.worth .python get' (some f)) ws).sum =
        (fs.zipWith (fun f w => w * LinearPolynomial.worth .python get (some f)) ws).sum +
          o.netEffect inadmissible ⟨fs, ws, c.isLt⟩ := by
    intro fs
    induction fs with
    | nil => intro ws _; simp [netEffect]
    | cons f fs ih =>
      intro ws hfs
      cases ws with
      | nil => simp [netEffect]
      | cons w ws =>
        have hf := hfs f List.mem_cons_self
        have hassign : o.assignsOrComplex f = false := by
          rw [hasAssignOrComplexEffect, List.any_eq_false] at hno
          simpa using hno f hf
        have hih := ih ws fun g hg => hfs g (List.mem_cons_of_mem f hg)
        simp only [netEffect, List.zipWith_cons_cons, List.sum_cons] at hih ⊢
        rw [hih, hworth f hf, hassign]
        cases o.constantIncrease f with
        | none =>
          simp only [Option.getD_none, Bool.and_false, Bool.false_eq_true, if_false]
          ring
        | some k =>
          simp only [Option.getD_some]
          ring
  rw [SimpleCondition.sum, SimpleCondition.sum, hzip c.fluents c.weights fun _ hf => hf]
  ring

section Firing

variable [Callables] {effects : List Effect} {as as' : Assignments}

/-- What an event does to a numeric fluent is what its operator says. -/
theorem worth_applyEffects (happ : applyEffects effects as as = some as')
    (hnum : o.numericEffects = effects.filterMap (numericEffect extended))
    (hnodup : (o.numericEffects.map Prod.fst).Nodup) (hexp : ∀ eff ∈ effects, IsExpression eff.value)
    {d : FluentDomain} (hd : extended[f.idx]? = some d) (hkind : d.kind = .int ∨ d.kind = .real)
    {q : ℚ} (hq : getValue as f = some (.num q)) {v : ConstantNode} (hv : getValue as' f = some v)
    (hno : o.assignsOrComplex f = false) :
    LinearPolynomial.worth .python (getValue as') (some f) =
      LinearPolynomial.worth .python (getValue as) (some f) + (o.constantIncrease f).getD 0 := by
  have hentry : ∀ eff ∈ effects, eff.fluent = f →
      o.numericEffects.lookup f = some (updateNumericEffects eff) := by
    rintro eff he rfl
    have hmem : (eff.fluent, updateNumericEffects eff) ∈ o.numericEffects := by
      rw [hnum]
      exact List.mem_filterMap.mpr ⟨eff, he, numericEffect_of_kind hd hkind⟩
    obtain ⟨u, hu⟩ : ∃ u, o.numericEffects.lookup eff.fluent = some u := by
      cases hl : o.numericEffects.lookup eff.fluent with
      | some u => exact ⟨u, rfl⟩
      | none =>
        have := List.lookup_eq_none_iff.mp hl _ hmem
        simp at this
    obtain ⟨l₁, l₂, hl, -⟩ := List.lookup_eq_some_iff.mp hu
    have hmem' : (eff.fluent, u) ∈ o.numericEffects := by
      rw [hl]
      exact List.mem_append_right _ List.mem_cons_self
    have heq := List.inj_on_of_nodup_map hnodup hmem hmem' rfl
    rw [hu, (Prod.mk.inj heq).2]
  rcases applyEffects_value happ hv with ⟨hnot, hsame⟩ | ⟨eff, he, hf, hval⟩
  · have hnone : o.constantIncrease f = none := by
      rw [constantIncrease]
      split
      · rename_i k hk
        obtain ⟨l₁, l₂, hl, -⟩ := List.lookup_eq_some_iff.mp hk
        have hmem : (f, NumericEffect.constantIncrease k) ∈ o.numericEffects := by
          rw [hl]
          exact List.mem_append_right _ List.mem_cons_self
        rw [hnum] at hmem
        obtain ⟨eff, he, heff⟩ := List.mem_filterMap.mp hmem
        exact absurd (List.mem_map.mpr ⟨eff, he, (numericEffect_eq_some heff).1.symm⟩) hnot
      · rfl
    rw [hnone, Option.getD_none, add_zero, LinearPolynomial.worth, LinearPolynomial.worth, hv, hsame]
  · have hlookup := hentry eff he hf
    rw [assignsOrComplex, hlookup] at hno
    cases hu : updateNumericEffects eff with
    | constantAssign c => simp [hu] at hno
    | complex x => simp [hu] at hno
    | constantIncrease k =>
      have hnumv := value_constantIncrease (hexp eff he) hu hval (hf ▸ hq) rfl
      rw [constantIncrease, hlookup, hu]
      simp only [LinearPolynomial.worth, hv, hq, Option.bind_some, Option.getD_some]
      rw [show Core.python.number v = some (q + k) from hnumv]
      rfl

end Firing

end Operator

end TamerLite
