import TamerLite.Novelty

/-! The evaluation that looks at changed leaves only classifies every leaf as
the one from scratch does: an unchanged leaf makes no progress, and what it
contributes is its parent's feature. -/

namespace TamerLite

open Records

abbrev Features := ℕ → Option (Option ℚ × Bool)

namespace Features

def Sat (F : Features) (id : ℕ) : Prop := ∃ d, F id = some (d, true)

def Unsat (F : Features) (id : ℕ) : Prop := ∃ d, F id = some (some d, false)

def Newly (P S : Features) (id : ℕ) : Prop := Sat S id ∧ ∃ d, P id = some (d, false)

def Improved (P S : Features) (id : ℕ) : Prop :=
  ∃ d e, P id = some (some e, false) ∧ S id = some (some d, false) ∧ e < d

end Features

open Features

/-- `c` classifies the leaves `vs` by their features in parent and state. -/
structure Visited (P S : Features) (vs : List ℕ) (c : Classification) : Prop where
  defined : ∀ id ∈ vs, (P id).isSome ∧ (S id).isSome
  newly : ∀ id, id ∈ c.newlySatisfied ↔ id ∈ vs ∧ Newly P S id
  current : ∀ id, id ∈ c.currentlySatisfied ↔ id ∈ vs ∧ Sat S id
  persisting : ∀ id, id ∈ c.persistingSatisfied ↔ id ∈ vs ∧ Sat S id ∧ Sat P id
  improved : ∀ id, id ∈ c.numericImproved ↔ id ∈ vs ∧ Improved P S id
  unsatisfied : ∀ id, id ∈ c.numericUnsatisfied ↔ id ∈ vs ∧ Unsat S id
  sdist : ∀ id ∈ vs, ∀ d b, S id = some (some d, b) → c.sdist id = some d
  fresh : ∀ id, id ∉ vs → c.sdist id = none

section Visits

variable {P S : Features} {vs ws l : List ℕ} {c c' : Classification} {id : ℕ} {Q : ℕ → Prop}

theorem visited_empty : Visited P S [] .empty := by
  refine ⟨?_, ?_, ?_, ?_, ?_, ?_, ?_, ?_⟩ <;> simp [Classification.empty]

theorem mem_visit (h : ∀ x, x ∈ l ↔ x ∈ vs ∧ Q x) (hq : Q id) (x : ℕ) :
    x ∈ l ++ [id] ↔ x ∈ id :: vs ∧ Q x := by
  rw [List.mem_append, h, List.mem_singleton, List.mem_cons]
  constructor
  · intro hx
    rcases hx with hx | rfl
    · exact ⟨.inr hx.1, hx.2⟩
    · exact ⟨.inl rfl, hq⟩
  · intro hx
    rcases hx.1 with rfl | hv
    · exact .inr rfl
    · exact .inl ⟨hv, hx.2⟩

theorem mem_skip (h : ∀ x, x ∈ l ↔ x ∈ vs ∧ Q x) (hq : ¬ Q id) (x : ℕ) :
    x ∈ l ↔ x ∈ id :: vs ∧ Q x := by
  rw [h, List.mem_cons]
  constructor
  · intro hx
    exact ⟨.inr hx.1, hx.2⟩
  · intro hx
    rcases hx.1 with rfl | hv
    · exact absurd hx.2 hq
    · exact ⟨hv, hx.2⟩

theorem Visited.defined_cons (h : Visited P S vs c) (hp : (P id).isSome) (hs : (S id).isSome) :
    ∀ x ∈ id :: vs, (P x).isSome ∧ (S x).isSome := by
  intro x hx
  rcases List.mem_cons.mp hx with rfl | hx
  · exact ⟨hp, hs⟩
  · exact h.defined x hx

theorem Visited.congr (h : Visited P S vs c) (hv : ∀ x, x ∈ vs ↔ x ∈ ws) : Visited P S ws c := by
  refine ⟨?_, ?_, ?_, ?_, ?_, ?_, ?_, ?_⟩ <;> simp only [← hv]
  · exact h.defined
  · exact h.newly
  · exact h.current
  · exact h.persisting
  · exact h.improved
  · exact h.unsatisfied
  · exact h.sdist
  · exact h.fresh

theorem Visited.addProp {pTrue sTrue : Bool} (h : Visited P S vs c)
    (hp : P id = some (none, pTrue)) (hs : S id = some (none, sTrue)) :
    Visited P S (id :: vs) (c.addProp id pTrue sTrue) := by
  have hdef := h.defined_cons (by simp [hp]) (by simp [hs] : (S id).isSome)
  have hu : ¬ Unsat S id := by simp [Unsat, hs]
  have hi : ¬ Improved P S id := by simp [Improved, hs]
  have hd : ∀ x ∈ id :: vs, ∀ d b, S x = some (some d, b) → c.sdist x = some d := by
    intro x hx d b hx'
    rcases List.mem_cons.mp hx with rfl | hx
    · simp [hs] at hx'
    · exact h.sdist x hx d b hx'
  have hf : ∀ x, x ∉ id :: vs → c.sdist x = none :=
    fun x hx => h.fresh x fun hm => hx (List.mem_cons_of_mem _ hm)
  cases sTrue with
  | false =>
    have hsat : ¬ Sat S id := by simp [Sat, hs]
    exact ⟨hdef, mem_skip h.newly fun hn => hsat hn.1, mem_skip h.current hsat,
      mem_skip h.persisting fun hn => hsat hn.1, mem_skip h.improved hi, mem_skip h.unsatisfied hu,
      hd, hf⟩
  | true =>
    have hsat : Sat S id := ⟨none, hs⟩
    cases pTrue with
    | false =>
      have hn : Newly P S id := ⟨hsat, none, hp⟩
      have hpers : ¬ (Sat S id ∧ Sat P id) := by simp [Sat, hp]
      exact ⟨hdef, mem_visit h.newly hn, mem_visit h.current hsat, mem_skip h.persisting hpers,
        mem_skip h.improved hi, mem_skip h.unsatisfied hu, hd, hf⟩
    | true =>
      have hn : ¬ Newly P S id := by simp [Newly, hp]
      exact ⟨hdef, mem_skip h.newly hn, mem_visit h.current hsat,
        mem_visit h.persisting ⟨hsat, none, hp⟩, mem_skip h.improved hi, mem_skip h.unsatisfied hu,
        hd, hf⟩

theorem Visited.addNum {pNum sNum : ℚ × Bool} (h : Visited P S vs c)
    (hp : P id = some (some pNum.1, pNum.2)) (hs : S id = some (some sNum.1, sNum.2))
    (hlt : pNum.2 = false → sNum.2 = true → pNum.1 < sNum.1) :
    Visited P S (id :: vs) (c.addNum id pNum sNum) := by
  obtain ⟨pdist, pSat⟩ := pNum
  obtain ⟨sdist, sSat⟩ := sNum
  simp only at hp hs hlt
  have hdef := h.defined_cons (by simp [hp]) (by simp [hs] : (S id).isSome)
  have hd : ∀ x ∈ id :: vs, ∀ d b, S x = some (some d, b) →
      Function.update c.sdist id (some sdist) x = some d := by
    intro x hx d b hx'
    by_cases hxid : x = id
    · subst hxid
      rw [hs] at hx'
      simp only [Option.some.injEq, Prod.mk.injEq] at hx'
      rw [Function.update_self, hx'.1]
    · rw [Function.update_of_ne hxid]
      exact h.sdist x ((List.mem_cons.mp hx).resolve_left hxid) d b hx'
  have hf : ∀ x, x ∉ id :: vs → Function.update c.sdist id (some sdist) x = none := by
    intro x hx
    rw [List.mem_cons, not_or] at hx
    rw [Function.update_of_ne hx.1]
    exact h.fresh x hx.2
  cases sSat with
  | true =>
    have hsat : Sat S id := ⟨_, hs⟩
    have hu : ¬ Unsat S id := by simp [Unsat, hs]
    have hi : ¬ Improved P S id := by simp [Improved, hs]
    cases pSat with
    | false =>
      have hn : Newly P S id := ⟨hsat, _, hp⟩
      have hpers : ¬ (Sat S id ∧ Sat P id) := by simp [Sat, hp]
      simp only [Classification.addNum, hlt rfl rfl, Bool.not_false, Bool.true_and, decide_true,
        if_true]
      exact ⟨hdef, mem_visit h.newly hn, mem_visit h.current hsat, mem_skip h.persisting hpers,
        mem_skip h.improved hi, mem_skip h.unsatisfied hu, hd, hf⟩
    | true =>
      have hn : ¬ Newly P S id := by simp [Newly, hp]
      simp only [Classification.addNum, Bool.not_true, Bool.false_and, Bool.true_and, if_true,
        Bool.false_eq_true, if_false]
      exact ⟨hdef, mem_skip h.newly hn, mem_visit h.current hsat,
        mem_visit h.persisting ⟨hsat, _, hp⟩, mem_skip h.improved hi, mem_skip h.unsatisfied hu,
        hd, hf⟩
  | false =>
    have hsat : ¬ Sat S id := by simp [Sat, hs]
    have hu : Unsat S id := ⟨_, hs⟩
    have hskip : ∀ l : List ℕ, (∀ x, x ∈ l ↔ x ∈ id :: vs ∧ Improved P S x) →
        Visited P S (id :: vs) { c with
          numericUnsatisfied := c.numericUnsatisfied ++ [id]
          numericImproved := l
          sdist := Function.update c.sdist id (some sdist) } := by
      intro l hl
      exact ⟨hdef, mem_skip h.newly fun hn => hsat hn.1, mem_skip h.current hsat,
        mem_skip h.persisting fun hn => hsat hn.1, hl, mem_visit h.unsatisfied hu, hd, hf⟩
    by_cases himp : pSat = false ∧ pdist < sdist
    · have hi : Improved P S id := ⟨_, _, himp.1 ▸ hp, hs, himp.2⟩
      simp only [Classification.addNum, himp.1, himp.2, Bool.not_false, Bool.true_and, decide_true,
        if_true, Bool.false_eq_true, if_false]
      exact hskip _ (mem_visit h.improved hi)
    · have hi : ¬ Improved P S id := by
        intro hi
        obtain ⟨d, e, he, hd, hlt⟩ := hi
        rw [hp] at he
        rw [hs] at hd
        simp only [Option.some.injEq, Prod.mk.injEq, and_true] at he hd
        exact himp ⟨he.2, he.1 ▸ hd ▸ hlt⟩
      have hcond : (!pSat && decide (pdist < sdist)) = false := by
        simpa [Decidable.imp_iff_not_or, not_and_or] using himp
      simp only [Classification.addNum, hcond, Bool.false_eq_true, if_false, Bool.and_false]
      exact hskip _ (mem_skip h.improved hi)

end Visits

section Features

section

variable [Callables]

/-- A leaf's distance, if it is numeric, and whether it is satisfied. -/
def Leaf.feature (a : Assignments) : Leaf → Option (Option ℚ × Bool)
  | .prop operand => (propTruth operand a).map (none, ·)
  | .num lhs rhs kind => (computeSdist lhs rhs kind a).map fun r => (some r.1, r.2)

def featuresOf (leaves : List Leaf) (a : Assignments) : Features :=
  fun id => (leaves[id]?).bind (Leaf.feature a)

end

variable {leaves : List Leaf} {parent state a b : Assignments} {id : ℕ} {leaf : Leaf}

section

variable [Callables]

theorem featuresOf_eq (h : leaves[id]? = some leaf) : featuresOf leaves a id = leaf.feature a := by
  rw [featuresOf, h, Option.bind_some]

theorem operandValue_eq (exp : Expression) (a : Assignments) :
    operandValue exp a = evaluate exp a := by
  unfold operandValue
  split
  · rename_i f
    cases hv : getValue a f <;> simp [evaluate, evalNodes, evalNode, hv]
  · simp [evaluate, evalNodes, evalNode]
  · rfl

theorem feature_congr (h : ∀ f ∈ leaf.fluents, getValue a f = getValue b f) :
    leaf.feature a = leaf.feature b := by
  cases leaf with
  | prop operand =>
    simp only [Leaf.feature, propTruth, operandValue_eq]
    rw [evaluate_congr h]
  | num lhs rhs kind =>
    have hl : evaluate lhs a = evaluate lhs b :=
      evaluate_congr fun f hf => h f (List.mem_append_left _ hf)
    have hr : evaluate rhs a = evaluate rhs b :=
      evaluate_congr fun f hf => h f (List.mem_append_right _ hf)
    simp only [Leaf.feature, computeSdist, operandValue_eq, hl, hr]

/-- A numeric leaf gets satisfied only by getting closer. -/
theorem computeSdist_lt {lhs rhs : Expression} {kind : OperatorKind} {p s : ℚ × Bool}
    (hp : computeSdist lhs rhs kind a = some p) (hs : computeSdist lhs rhs kind b = some s)
    (hpf : p.2 = false) (hst : s.2 = true) : p.1 < s.1 := by
  simp only [computeSdist, Option.bind_eq_bind, Option.bind_eq_some_iff] at hp hs
  obtain ⟨-, -, r, -, -, -, l, -, hp⟩ := hp
  obtain ⟨-, -, r', -, -, -, l', -, hs⟩ := hs
  split at hp
  · obtain rfl := Option.some.inj hp
    obtain rfl := Option.some.inj hs
    simp only [decide_eq_false_iff_not, decide_eq_true_eq] at hpf hst
    rw [hst]
    simp only [le_refl, if_true]
    split_ifs with hle
    · exact lt_of_le_of_ne hle hpf
    · linarith
  · obtain rfl := Option.some.inj hp
    obtain rfl := Option.some.inj hs
    simp only [decide_eq_false_iff_not, decide_eq_true_eq, not_le] at hpf hst
    exact hpf.trans_le hst
  · split at hs
    · contradiction
    · contradiction
    · obtain rfl := Option.some.inj hp
      obtain rfl := Option.some.inj hs
      simp only [decide_eq_false_iff_not, decide_eq_true_eq, not_lt] at hpf hst
      exact hpf.trans_lt hst

/-- Visiting leaves from scratch classifies them. -/
theorem Visited.addBoth {vs : List ℕ} {c c' : Classification}
    (h : Visited (featuresOf leaves parent) (featuresOf leaves state) vs c)
    (hl : leaves[id]? = some leaf) (hs : c.addBoth parent state (leaf, id) = some c') :
    Visited (featuresOf leaves parent) (featuresOf leaves state) (id :: vs) c' := by
  cases leaf with
  | prop operand =>
    simp only [Classification.addBoth, Option.bind_eq_bind, Option.bind_eq_some_iff, Option.pure_def,
      Option.some.injEq] at hs
    obtain ⟨pTrue, hp, sTrue, hs, rfl⟩ := hs
    refine h.addProp ?_ ?_
    · simp [featuresOf_eq hl, Leaf.feature, hp]
    · simp [featuresOf_eq hl, Leaf.feature, hs]
  | num lhs rhs kind =>
    simp only [Classification.addBoth, Option.bind_eq_bind, Option.bind_eq_some_iff, Option.pure_def,
      Option.some.injEq] at hs
    obtain ⟨pNum, hp, sNum, hs, rfl⟩ := hs
    refine h.addNum ?_ ?_ (computeSdist_lt hp hs)
    · simp [featuresOf_eq hl, Leaf.feature, hp]
    · simp [featuresOf_eq hl, Leaf.feature, hs]

theorem visited_foldlM {ls : List (Leaf × ℕ)} {vs : List ℕ} {c c' : Classification}
    (h : Visited (featuresOf leaves parent) (featuresOf leaves state) vs c)
    (hls : ∀ p ∈ ls, leaves[p.2]? = some p.1)
    (hs : ls.foldlM (Classification.addBoth parent state) c = some c') :
    Visited (featuresOf leaves parent) (featuresOf leaves state) (ls.map Prod.snd ++ vs) c' := by
  induction ls generalizing vs c with
  | nil =>
    obtain rfl := Option.some.inj hs
    exact h
  | cons p ls ih =>
    rw [List.foldlM_cons, Option.bind_eq_bind, Option.bind_eq_some_iff] at hs
    obtain ⟨d, hd, hs⟩ := hs
    obtain ⟨leaf, id⟩ := p
    have hv := ih (h.addBoth (hls _ List.mem_cons_self) hd)
      (fun p hp => hls p (List.mem_cons_of_mem _ hp)) hs
    refine hv.congr fun x => ?_
    simp only [List.map_cons, List.mem_append, List.mem_cons]
    tauto

theorem exists_foldlM {ls : List (Leaf × ℕ)} {c : Classification}
    (hls : ∀ p ∈ ls, leaves[p.2]? = some p.1 ∧ (featuresOf leaves parent p.2).isSome ∧
      (featuresOf leaves state p.2).isSome) :
    ∃ c', ls.foldlM (Classification.addBoth parent state) c = some c' := by
  induction ls generalizing c with
  | nil => exact ⟨c, rfl⟩
  | cons p ls ih =>
    obtain ⟨leaf, id⟩ := p
    obtain ⟨hl, hp, hs⟩ := hls _ List.mem_cons_self
    rw [featuresOf_eq hl] at hp hs
    have hadd : ∃ d, c.addBoth parent state (leaf, id) = some d := by
      cases leaf with
      | prop operand =>
        rw [Leaf.feature, Option.isSome_map] at hp hs
        obtain ⟨pTrue, hp⟩ := Option.isSome_iff_exists.mp hp
        obtain ⟨sTrue, hs⟩ := Option.isSome_iff_exists.mp hs
        exact ⟨_, by simp only [Classification.addBoth, hp, hs]; rfl⟩
      | num lhs rhs kind =>
        rw [Leaf.feature, Option.isSome_map] at hp hs
        obtain ⟨pNum, hp⟩ := Option.isSome_iff_exists.mp hp
        obtain ⟨sNum, hs⟩ := Option.isSome_iff_exists.mp hs
        exact ⟨_, by simp only [Classification.addBoth, hp, hs]; rfl⟩
    obtain ⟨d, hd⟩ := hadd
    rw [List.foldlM_cons, hd]
    exact ih fun p hp => hls p (List.mem_cons_of_mem _ hp)

end

/-! ### The parent's features -/

section

variable [Callables]

/-- The snapshot of the parent: every leaf has a feature there, and the numeric
ones are cached. -/
structure Snapshot (leaves : List Leaf) (parent : Assignments) (features : ParentFeatures)
    (snapshot : List ℕ × List ℕ) : Prop where
  defined : ∀ id < leaves.length, (featuresOf leaves parent id).isSome
  sat : ∀ id, id ∈ snapshot.1 ↔ Sat (featuresOf leaves parent) id
  unsat : ∀ id, id ∈ snapshot.2 ↔ Unsat (featuresOf leaves parent) id
  numeric : ∀ id d b, featuresOf leaves parent id = some (some d, b) →
    features.numeric id = some (d, b)

/-- What is cached are the parent's features. -/
structure Cached (leaves : List Leaf) (parent : Assignments) (features : ParentFeatures) : Prop where
  prop : ∀ id b, features.propTrue id = some b → featuresOf leaves parent id = some (none, b)
  num : ∀ id r, features.numeric id = some r →
    featuresOf leaves parent id = some (some r.1, r.2)
  snapshot : ∀ sn, features.snapshot = some sn → Snapshot leaves parent features sn

/-- Nothing numeric is forgotten. -/
def Grows (f g : ParentFeatures) : Prop :=
  g.snapshot = f.snapshot ∧ ∀ id r, f.numeric id = some r → g.numeric id = some r

end

variable {features : ParentFeatures} {operand lhs rhs : Expression} {kind : OperatorKind}

theorem Grows.refl (f : ParentFeatures) : Grows f f := ⟨rfl, fun _ _ h => h⟩

section

variable [Callables]

theorem Snapshot.grows {sn : List ℕ × List ℕ} {g : ParentFeatures}
    (h : Snapshot leaves parent features sn) (hg : Grows features g) :
    Snapshot leaves parent g sn :=
  ⟨h.defined, h.sat, h.unsat, fun id d b hf => hg.2 id _ (h.numeric id d b hf)⟩

theorem cached_empty : Cached leaves parent .empty :=
  ⟨fun id b h => by contradiction, fun id r h => by contradiction, fun sn h => by contradiction⟩

/-- A feature read through the cache is the feature from scratch. -/
theorem parentProp_spec (h : Cached leaves parent features)
    (hl : leaves[id]? = some (.prop operand)) : ∃ g, Cached leaves parent g ∧ Grows features g ∧
      features.parentProp id operand parent = (propTruth operand parent).map (·, g) := by
  cases hc : features.propTrue id with
  | some b =>
    refine ⟨features, h, .refl _, ?_⟩
    have hf := h.prop id b hc
    rw [featuresOf_eq hl, Leaf.feature, Option.map_eq_some_iff] at hf
    obtain ⟨b', hb', hf⟩ := hf
    rw [ParentFeatures.parentProp, hc, hb', (Prod.mk.inj hf).2]
    rfl
  | none =>
    cases ht : propTruth operand parent with
    | none => exact ⟨features, h, .refl _, by simp [ParentFeatures.parentProp, hc, ht]⟩
    | some b =>
      refine ⟨{ features with propTrue := Function.update features.propTrue id (some b) },
        ⟨fun x b' hx => ?_, h.num, fun sn hsn => ?_⟩, ⟨rfl, fun _ _ h => h⟩, ?_⟩
      · by_cases hxid : x = id
        · subst hxid
          simp only [Function.update_self, Option.some.injEq] at hx
          rw [featuresOf_eq hl, Leaf.feature, ht, hx, Option.map_some]
        · simp only [Function.update_of_ne hxid] at hx
          exact h.prop x b' hx
      · exact (h.snapshot sn hsn).grows ⟨rfl, fun _ _ h => h⟩
      · simp [ParentFeatures.parentProp, hc, ht]

theorem parentNum_spec (h : Cached leaves parent features)
    (hl : leaves[id]? = some (.num lhs rhs kind)) : ∃ g, Cached leaves parent g ∧
      Grows features g ∧ (∀ r, computeSdist lhs rhs kind parent = some r → g.numeric id = some r) ∧
      features.parentNum id lhs rhs kind parent =
        (computeSdist lhs rhs kind parent).map (·, g) := by
  cases hc : features.numeric id with
  | some r =>
    have hf := h.num id r hc
    rw [featuresOf_eq hl, Leaf.feature, Option.map_eq_some_iff] at hf
    obtain ⟨r', hr', hf⟩ := hf
    have hrr : r' = r := Prod.ext (Option.some.inj (Prod.mk.inj hf).1) (Prod.mk.inj hf).2
    rw [hrr] at hr'
    refine ⟨features, h, .refl _, fun r'' hr'' => ?_, ?_⟩
    · rw [hc, ← hr', hr'']
    · rw [ParentFeatures.parentNum, hc, hr']
      rfl
  | none =>
    cases ht : computeSdist lhs rhs kind parent with
    | none =>
      exact ⟨features, h, .refl _, fun r hr => by contradiction,
        by simp [ParentFeatures.parentNum, hc, ht]⟩
    | some r =>
      have hgrows : Grows features
          { features with numeric := Function.update features.numeric id (some r) } := by
        refine ⟨rfl, fun x r' hx => ?_⟩
        have hxid : x ≠ id := by
          rintro rfl
          rw [hc] at hx
          contradiction
        simp only [Function.update_of_ne hxid, hx]
      refine ⟨{ features with numeric := Function.update features.numeric id (some r) },
        ⟨h.prop, fun x r' hx => ?_, fun sn hsn => (h.snapshot sn hsn).grows hgrows⟩, hgrows,
        fun r' hr' => ?_, ?_⟩
      · by_cases hxid : x = id
        · subst hxid
          simp only [Function.update_self, Option.some.injEq] at hx
          rw [featuresOf_eq hl, Leaf.feature, ht, hx, Option.map_some]
        · simp only [Function.update_of_ne hxid] at hx
          exact h.num x r' hx
      · simp only [Function.update_self, hr']
      · simp [ParentFeatures.parentNum, hc, ht]

variable (state) in
/-- Visiting the changed leaves through the cache is visiting them from scratch. -/
theorem foldlM_addDirty (h : Cached leaves parent features) {dirty : List ℕ}
    (hd : ∀ id ∈ dirty, id < leaves.length) (c : Classification) :
    ∃ (ls : List (Leaf × ℕ)) (g : ParentFeatures), ls.map Prod.snd = dirty ∧
      (∀ p ∈ ls, leaves[p.2]? = some p.1) ∧
      Cached leaves parent g ∧ (dirty.foldlM (Classification.addDirty leaves parent state)
        (c, features) = (ls.foldlM (Classification.addBoth parent state) c).map (·, g)) := by
  induction dirty generalizing c features with
  | nil => exact ⟨[], features, rfl, by simp, h, rfl⟩
  | cons id dirty ih =>
    obtain ⟨leaf, hl⟩ : ∃ leaf, leaves[id]? = some leaf :=
      ⟨_, List.getElem?_eq_getElem (hd id List.mem_cons_self)⟩
    have hstep : ∃ g, Cached leaves parent g ∧
        Classification.addDirty leaves parent state (c, features) id =
          (c.addBoth parent state (leaf, id)).map (·, g) := by
      cases leaf with
      | prop operand =>
        obtain ⟨g, hg, -, hread⟩ := parentProp_spec h hl
        refine ⟨g, hg, ?_⟩
        simp only [Classification.addDirty, Classification.addBoth, hl, Option.bind_eq_bind,
          Option.bind_some, hread]
        cases propTruth operand parent with
        | none => rfl
        | some b => cases propTruth operand state <;> rfl
      | num lhs rhs kind =>
        obtain ⟨g, hg, -, -, hread⟩ := parentNum_spec h hl
        refine ⟨g, hg, ?_⟩
        simp only [Classification.addDirty, Classification.addBoth, hl, Option.bind_eq_bind,
          Option.bind_some, hread]
        cases computeSdist lhs rhs kind parent with
        | none => rfl
        | some r => cases computeSdist lhs rhs kind state <;> rfl
    obtain ⟨g, hg, hstep⟩ := hstep
    have hrest : ∀ x ∈ dirty, x < leaves.length := fun x hx => hd x (List.mem_cons_of_mem _ hx)
    have hmem : ∀ {ls : List (Leaf × ℕ)}, (∀ p ∈ ls, leaves[p.2]? = some p.1) →
        ∀ p ∈ (leaf, id) :: ls, leaves[p.2]? = some p.1 := by
      intro ls hls p hp
      rcases List.mem_cons.mp hp with rfl | hp
      · exact hl
      · exact hls p hp
    cases hadd : c.addBoth parent state (leaf, id) with
    | none =>
      obtain ⟨ls, -, hmap, hls, -⟩ := ih hg hrest c
      refine ⟨_ :: ls, g, congrArg _ hmap, hmem hls, hg, ?_⟩
      rw [List.foldlM_cons, List.foldlM_cons, hstep, hadd]
      rfl
    | some d =>
      obtain ⟨ls, g', hmap, hls, hg', heq⟩ := ih hg hrest d
      refine ⟨_ :: ls, g', congrArg _ hmap, hmem hls, hg', ?_⟩
      rw [List.foldlM_cons, List.foldlM_cons, hstep, hadd]
      exact heq

/-- The snapshot being built, once the leaves `vs` were looked at. -/
structure Snapping (leaves : List Leaf) (parent : Assignments) (vs : List ℕ)
    (acc : (List ℕ × List ℕ) × ParentFeatures) : Prop where
  cached : Cached leaves parent acc.2
  defined : ∀ id ∈ vs, (featuresOf leaves parent id).isSome
  sat : ∀ id, id ∈ acc.1.1 ↔ id ∈ vs ∧ Sat (featuresOf leaves parent) id
  unsat : ∀ id, id ∈ acc.1.2 ↔ id ∈ vs ∧ Unsat (featuresOf leaves parent) id
  numeric : ∀ id ∈ vs, ∀ d b, featuresOf leaves parent id = some (some d, b) →
    acc.2.numeric id = some (d, b)

end

variable {acc acc' : (List ℕ × List ℕ) × ParentFeatures} {vs : List ℕ}

theorem mem_zipIdx {p : Leaf × ℕ} : p ∈ leaves.zipIdx ↔ leaves[p.2]? = some p.1 :=
  List.mem_zipIdx_iff_getElem?

theorem mem_map_zipIdx {x : ℕ} : x ∈ leaves.zipIdx.map Prod.snd ↔ x < leaves.length := by
  simp

variable [Callables]

theorem Snapping.add (h : Snapping leaves parent vs acc) (hl : leaves[id]? = some leaf)
    (hs : ParentFeatures.addSnapshot parent acc (leaf, id) = some acc') :
    Snapping leaves parent (id :: vs) acc' := by
  have hdefined : (featuresOf leaves parent id).isSome → ∀ x ∈ id :: vs,
      (featuresOf leaves parent x).isSome := by
    intro hid x hx
    rcases List.mem_cons.mp hx with rfl | hx
    · exact hid
    · exact h.defined x hx
  cases leaf with
  | prop operand =>
    obtain ⟨g, hg, hgrows, hread⟩ := parentProp_spec h.cached hl
    simp only [ParentFeatures.addSnapshot, hread, Option.bind_eq_bind, Option.bind_eq_some_iff,
      Option.map_eq_some_iff, Option.pure_def, Option.some.injEq] at hs
    obtain ⟨-, ⟨b, hb, rfl⟩, rfl⟩ := hs
    have hf : featuresOf leaves parent id = some (none, b) := by
      rw [featuresOf_eq hl, Leaf.feature, hb, Option.map_some]
    have hu : ¬ Unsat (featuresOf leaves parent) id := by simp [Unsat, hf]
    have hnum : ∀ x ∈ id :: vs, ∀ d b, featuresOf leaves parent x = some (some d, b) →
        g.numeric x = some (d, b) := by
      intro x hx d b' hx'
      rcases List.mem_cons.mp hx with rfl | hx
      · simp [hf] at hx'
      · exact hgrows.2 x _ (h.numeric x hx d b' hx')
    cases b with
    | true =>
      exact ⟨hg, hdefined (by simp [hf]), mem_visit h.sat ⟨_, hf⟩, mem_skip h.unsat hu, hnum⟩
    | false =>
      have hn : ¬ Sat (featuresOf leaves parent) id := by simp [Sat, hf]
      exact ⟨hg, hdefined (by simp [hf]), mem_skip h.sat hn, mem_skip h.unsat hu, hnum⟩
  | num lhs rhs kind =>
    obtain ⟨g, hg, hgrows, hself, hread⟩ := parentNum_spec h.cached hl
    simp only [ParentFeatures.addSnapshot, hread, Option.bind_eq_bind, Option.bind_eq_some_iff,
      Option.map_eq_some_iff, Option.pure_def, Option.some.injEq] at hs
    obtain ⟨-, ⟨r, hr, rfl⟩, rfl⟩ := hs
    obtain ⟨d, b⟩ := r
    have hf : featuresOf leaves parent id = some (some d, b) := by
      rw [featuresOf_eq hl, Leaf.feature, hr, Option.map_some]
    have hnum : ∀ x ∈ id :: vs, ∀ d b, featuresOf leaves parent x = some (some d, b) →
        g.numeric x = some (d, b) := by
      intro x hx d' b' hx'
      by_cases hxid : x = id
      · subst hxid
        rw [hf] at hx'
        simp only [Option.some.injEq, Prod.mk.injEq] at hx'
        rw [hself _ hr, hx'.1, hx'.2]
      · exact hgrows.2 x _ (h.numeric x ((List.mem_cons.mp hx).resolve_left hxid) d' b' hx')
    cases b with
    | true =>
      have hu : ¬ Unsat (featuresOf leaves parent) id := by simp [Unsat, hf]
      exact ⟨hg, hdefined (by simp [hf]), mem_visit h.sat ⟨_, hf⟩, mem_skip h.unsat hu, hnum⟩
    | false =>
      have hn : ¬ Sat (featuresOf leaves parent) id := by simp [Sat, hf]
      exact ⟨hg, hdefined (by simp [hf]), mem_skip h.sat hn, mem_visit h.unsat ⟨_, hf⟩, hnum⟩

theorem snapping_foldlM {ls : List (Leaf × ℕ)} (h : Snapping leaves parent vs acc)
    (hls : ∀ p ∈ ls, leaves[p.2]? = some p.1)
    (hs : ls.foldlM (ParentFeatures.addSnapshot parent) acc = some acc') :
    ∃ ws, (∀ x, x ∈ ws ↔ x ∈ ls.map Prod.snd ∨ x ∈ vs) ∧ Snapping leaves parent ws acc' := by
  induction ls generalizing vs acc with
  | nil =>
    obtain rfl := Option.some.inj hs
    exact ⟨vs, by simp, h⟩
  | cons p ls ih =>
    rw [List.foldlM_cons, Option.bind_eq_bind, Option.bind_eq_some_iff] at hs
    obtain ⟨d, hd, hs⟩ := hs
    obtain ⟨leaf, id⟩ := p
    obtain ⟨ws, hws, hsnap⟩ := ih (h.add (hls _ List.mem_cons_self) hd)
      (fun p hp => hls p (List.mem_cons_of_mem _ hp)) hs
    refine ⟨ws, fun x => ?_, hsnap⟩
    simp only [hws, List.map_cons, List.mem_cons]
    tauto

theorem exists_addSnapshot {ls : List (Leaf × ℕ)} (h : Cached leaves parent acc.2)
    (hls : ∀ p ∈ ls, leaves[p.2]? = some p.1 ∧ (featuresOf leaves parent p.2).isSome) :
    ∃ acc', ls.foldlM (ParentFeatures.addSnapshot parent) acc = some acc' := by
  induction ls generalizing acc with
  | nil => exact ⟨acc, rfl⟩
  | cons p ls ih =>
    obtain ⟨leaf, id⟩ := p
    obtain ⟨hl, hp⟩ := hls _ List.mem_cons_self
    rw [featuresOf_eq hl] at hp
    have hadd : ∃ d, ParentFeatures.addSnapshot parent acc (leaf, id) = some d ∧
        Cached leaves parent d.2 := by
      cases leaf with
      | prop operand =>
        obtain ⟨g, hg, -, hread⟩ := parentProp_spec h hl
        rw [Leaf.feature, Option.isSome_map] at hp
        obtain ⟨b, hb⟩ := Option.isSome_iff_exists.mp hp
        exact ⟨_, by simp only [ParentFeatures.addSnapshot, hread, hb]; rfl, hg⟩
      | num lhs rhs kind =>
        obtain ⟨g, hg, -, -, hread⟩ := parentNum_spec h hl
        rw [Leaf.feature, Option.isSome_map] at hp
        obtain ⟨r, hr⟩ := Option.isSome_iff_exists.mp hp
        exact ⟨_, by simp only [ParentFeatures.addSnapshot, hread, hr]; rfl, hg⟩
    obtain ⟨d, hd, hc⟩ := hadd
    rw [List.foldlM_cons, hd]
    exact ih hc fun p hp => hls p (List.mem_cons_of_mem _ hp)

theorem featuresOf_isSome (h : (featuresOf leaves a id).isSome) : id < leaves.length := by
  by_contra hn
  rw [featuresOf, List.getElem?_eq_none (not_lt.mp hn)] at h
  contradiction

theorem ensureParentSnapshot_spec (h : Cached leaves parent features)
    {sn : List ℕ × List ℕ} {g : ParentFeatures}
    (hs : features.ensureParentSnapshot leaves parent = some (sn, g)) :
    Cached leaves parent g ∧ Snapshot leaves parent g sn := by
  unfold ParentFeatures.ensureParentSnapshot at hs
  split at hs
  · rename_i snapshot hsn
    obtain ⟨rfl, rfl⟩ := Prod.mk.inj (Option.some.inj hs)
    exact ⟨h, h.snapshot _ hsn⟩
  · simp only [Option.bind_eq_bind, Option.bind_eq_some_iff, Option.pure_def, Option.some.injEq,
      Prod.mk.injEq] at hs
    obtain ⟨acc, hacc, rfl, rfl⟩ := hs
    have hstart : Snapping leaves parent [] (([], []), features) :=
      ⟨h, by simp, by simp, by simp, by simp⟩
    obtain ⟨ws, hws, hsnap⟩ := snapping_foldlM hstart (fun p hp => mem_zipIdx.mp hp) hacc
    have hin : ∀ {x}, (featuresOf leaves parent x).isSome → x ∈ ws :=
      fun hx => (hws _).mpr (.inl (mem_map_zipIdx.mpr (featuresOf_isSome hx)))
    have hsn : Snapshot leaves parent { acc.2 with snapshot := some acc.1 } acc.1 := by
      refine ⟨fun id hid => hsnap.defined id ((hws id).mpr (.inl (mem_map_zipIdx.mpr hid))),
        fun id => ?_, fun id => ?_, fun id d b hf => hsnap.numeric id (hin (by simp [hf])) d b hf⟩
      · rw [hsnap.sat]
        refine and_iff_right_of_imp fun hsat => ?_
        obtain ⟨d, hd⟩ := hsat
        exact hin (by simp [hd])
      · rw [hsnap.unsat]
        refine and_iff_right_of_imp fun hunsat => ?_
        obtain ⟨d, hd⟩ := hunsat
        exact hin (by simp [hd])
    refine ⟨⟨hsnap.cached.prop, hsnap.cached.num, fun sn' hsn' => ?_⟩, hsn⟩
    obtain rfl := Option.some.inj hsn'
    exact hsn

theorem exists_ensureParentSnapshot (h : Cached leaves parent features)
    (hd : ∀ id < leaves.length, (featuresOf leaves parent id).isSome) :
    ∃ r, features.ensureParentSnapshot leaves parent = some r := by
  unfold ParentFeatures.ensureParentSnapshot
  split
  · exact ⟨_, rfl⟩
  · have hls : ∀ p ∈ leaves.zipIdx, leaves[p.2]? = some p.1 ∧
        (featuresOf leaves parent p.2).isSome :=
      fun p hp => ⟨mem_zipIdx.mp hp, hd _ (List.getElem?_eq_some_iff.mp (mem_zipIdx.mp hp)).1⟩
    have hc : Cached leaves parent ((([], []), features) : (List ℕ × List ℕ) × ParentFeatures).2 := h
    obtain ⟨acc, hacc⟩ := exists_addSnapshot hc hls
    rw [hacc]
    exact ⟨_, rfl⟩

end Features

end TamerLite
