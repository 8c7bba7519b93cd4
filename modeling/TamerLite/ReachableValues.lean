import TamerLite.Evaluators
import TamerLite.HMaxExplicit

/-! The values an expression can take on the reachable values of its fluents, the
naive evaluation that goes through all of them in every round, and what the
watermarks say has been seen of them. -/

namespace TamerLite

open Enumeration Exploration SearchSpace

/-! ### The naive evaluation -/

/-- Every combination of reachable values of the fluents of an expression. -/
def combinations (exp : Expression) (assignments : ValueSets) : List (List ConstantNode) :=
  product ((dedupFluents exp).map assignments)

structure NaiveLoop where
  assignments : ValueSets
  changes : List Fluent
  enabled : List Bool
  depth : ℕ

section Naive

variable [Callables] (core : Core) (assignments : ValueSets)

def valuesOf (exp : Expression) : Option (List ConstantNode) :=
  (combinations exp assignments).mapM (evaluateOn core exp)

def allCanBeTrue (exps : List Expression) : Option Bool := do
  return (← exps.mapM (valuesOf core assignments)).all fun vs => .bool true ∈ vs

def collectAll : List Effect → ValueSets → Option ValueSets
  | [], newAssignments => some newAssignments
  | eff :: effects, newAssignments => do
    let vs ← valuesOf core assignments eff.value
    collectAll effects
      (Function.update newAssignments eff.fluent (addAll core.key (newAssignments eff.fluent) vs))

/-- Whether an operator is enabled, and what its effects give when it is. -/
def naiveOperatorTurn (o : OperatorHmax) (newAssignments : ValueSets) : Option (Bool × ValueSets) := do
  let enabled ← allCanBeTrue core assignments o.conditions
  (if enabled then collectAll core assignments o.effects newAssignments
    else some newAssignments).map fun r => (enabled, r)

def naiveTurns : List OperatorHmax → ValueSets → Option (List Bool × ValueSets)
  | [], newAssignments => some ([], newAssignments)
  | o :: operators, newAssignments => do
    let r ← naiveOperatorTurn core assignments o newAssignments
    let rs ← naiveTurns operators r.2
    return (r.1 :: rs.1, rs.2)

end Naive

namespace HMaxExplicit

variable (hm : HMaxExplicit) (core : Core) (order : SetOrder)

def naiveStart (state : State) : NaiveLoop where
  assignments := hm.initialAssignments core state
  changes := (List.range hm.numFluents).map Fluent.mk
  enabled := hm.operators.map fun _ => false
  depth := 0

variable [Callables]

def naiveTurn (s : NaiveLoop) : Option (Option ℕ) ⊕ NaiveLoop :=
  if s.changes = [] then .inl (some none)
  else
    match allCanBeTrue core s.assignments hm.goals with
    | none => .inl none
    | some true => .inl (some (some s.depth))
    | some false =>
      match naiveTurns core s.assignments hm.operators fun _ => [] with
      | none => .inl none
      | some (enabled, newAssignments) =>
        let assignments := grow core order s.assignments newAssignments
        .inr ⟨assignments, hm.grown s.assignments assignments, enabled, s.depth + 1⟩

/-- `_eval_core` without watermarks and caches. -/
def naiveCore (state : State) (fuel : ℕ) : Option (Option ℕ) ⊕ NaiveLoop :=
  iterate (hm.naiveTurn core order) fuel (.inr (hm.naiveStart core state))

end HMaxExplicit

/-! ### The types of values -/

section Types

variable {core : Core} {v w : ConstantNode} {assignments : ValueSets}

/-- The type of what an operator gives. -/
def resultType : OperatorKind → ValueType
  | .plus | .minus | .times | .div => .number
  | _ => .bool

theorem type_arithmetic {kind : OperatorKind} {x y : ℚ} (h : Core.arithmetic kind x y = some v) :
    v.type = resultType kind := by
  cases kind <;> simp only [Core.arithmetic, Option.some.injEq, reduceCtorEq] at h
  case div =>
    split_ifs at h
    rw [← Option.some.inj h]
    rfl
  all_goals subst h; rfl

theorem type_evalOperator {kind : OperatorKind} {operands : List ℕ} {res : List ConstantNode}
    (h : core.evalOperator kind operands res = some v) : v.type = resultType kind := by
  cases core with
  | python =>
    cases kind <;> simp only [Core.evalOperator, evalOperator, Option.map_eq_some_iff,
      Option.bind_eq_bind, Option.bind_eq_some_iff, Option.pure_def, Option.some.injEq] at h
    case div =>
      obtain ⟨p, -, h⟩ := h
      split_ifs at h
      rw [← Option.some.inj h]
      rfl
    case eq =>
      obtain ⟨_, -, _, -, _, -, _, -, rfl⟩ := h
      rfl
    case not =>
      obtain ⟨_, -, _, -, rfl⟩ := h
      rfl
    all_goals obtain ⟨_, -, rfl⟩ := h; rfl
  | rust =>
    cases kind <;> simp only [Core.evalOperator, Core.evalOperatorRust, Option.map_eq_some_iff,
      Option.bind_eq_bind, Option.bind_eq_some_iff, Option.pure_def, Option.some.injEq] at h
    case and | or =>
      obtain ⟨_, -, rfl⟩ := h
      rfl
    case not =>
      obtain ⟨_, -, _, -, rfl⟩ := h
      rfl
    case eq =>
      obtain ⟨_, -, _, -, _, -, _, -, rfl⟩ := h
      rfl
    case plus | times =>
      cases operands with
      | nil => contradiction
      | cons i operands =>
        simp only [Option.bind_eq_some_iff, Option.some.injEq] at h
        obtain ⟨_, -, _, -, _, -, rfl⟩ := h
        rfl
    all_goals
      obtain ⟨_, -, _, -, _, -, _, -, _, -, _, -, h⟩ := h
      exact type_arithmetic h

theorem type_coerce {rt : IfReturnType} (h : w.coerce rt = some v) : v.type = rt.type := by
  cases rt <;> simp only [ConstantNode.coerce, Option.map_eq_some_iff, Option.some.injEq] at h
  case bool => subst h; rfl
  case int | real =>
    obtain ⟨_, -, rfl⟩ := h
    rfl
  case object =>
    cases w <;> simp only [Option.some.injEq, reduceCtorEq] at h
    subst h
    rfl

theorem eq_of_key_eq (htype : v.type = w.type) (h : core.key v = core.key w) : v = w := by
  cases v with
  | bool b =>
    cases w with
    | bool c => cases core <;> cases b <;> cases c <;> simp_all [Core.key]
    | num | object => contradiction
  | num q =>
    cases w with
    | num r => cases core <;> simpa [Core.key] using h
    | bool | object => contradiction
  | object o =>
    cases w with
    | object p => cases core <;> simpa [Core.key] using h
    | bool | num => contradiction

theorem lookup_zip_mem {fluents : List Fluent} {c : List ConstantNode} {f : Fluent}
    (hc : List.Forall₂ (· ∈ ·) c (fluents.map assignments)) (h : (fluents.zip c).lookup f = some v) :
    v ∈ assignments f := by
  induction fluents generalizing c with
  | nil => simp at h
  | cons g fluents ih =>
    cases hc with
    | cons ha hc =>
      rw [List.zip_cons_cons, List.lookup_cons] at h
      split at h
      · rename_i hfg
        rw [← Option.some.inj h, eq_of_beq hfg]
        exact ha
      · exact ih hc h

end Types

/-! ### The values an expression can take -/

section Values

variable (core : Core) {exp : Expression} {assignments assignments' : ValueSets}
  {v w : ConstantNode}

theorem mem_dedupFluents {f : Fluent} : f ∈ dedupFluents exp ↔ f ∈ getFluents exp := by
  simp [dedupFluents]

theorem combinations_mono (h : ∀ f ∈ getFluents exp, assignments f ⊆ assignments' f)
    {c : List ConstantNode} (hc : c ∈ combinations exp assignments) :
    c ∈ combinations exp assignments' := by
  refine mem_product_mono ?_ hc
  rw [List.forall₂_map_left_iff, List.forall₂_map_right_iff, List.forall₂_same]
  exact fun f hf => h f (mem_dedupFluents.mp hf)

section

variable [Callables]

def CanBe (exp : Expression) (assignments : ValueSets) (v : ConstantNode) : Prop :=
  ∃ c ∈ combinations exp assignments, evaluateOn core exp c = some v

/-- The expression can be evaluated on every combination. -/
def DefinedOn (exp : Expression) (assignments : ValueSets) : Prop :=
  ∀ c ∈ combinations exp assignments, ∃ v, evaluateOn core exp c = some v

def Distinct (assignments : ValueSets) : Prop :=
  ∀ f, ((assignments f).map core.key).Nodup

end

variable {core}

section

variable [Callables]

theorem CanBe.mono (h : ∀ f ∈ getFluents exp, assignments f ⊆ assignments' f)
    (hv : CanBe core exp assignments v) : CanBe core exp assignments' v := by
  obtain ⟨c, hc, he⟩ := hv
  exact ⟨c, combinations_mono h hc, he⟩

theorem DefinedOn.canBe (h : DefinedOn core exp assignments) {c : List ConstantNode}
    (hc : c ∈ combinations exp assignments) :
    ∃ v, evaluateOn core exp c = some v ∧ CanBe core exp assignments v := by
  obtain ⟨v, hv⟩ := h c hc
  exact ⟨v, hv, c, hc, hv⟩

theorem valuesOf_eq_some {vs : List ConstantNode} (h : valuesOf core assignments exp = some vs) :
    DefinedOn core exp assignments ∧ ∀ v, v ∈ vs ↔ CanBe core exp assignments v := by
  obtain ⟨hl, hr⟩ := mapM_eq_some h
  refine ⟨fun c hc => ?_, fun v => ⟨hr v, ?_⟩⟩
  · obtain ⟨v, -, hv⟩ := hl c hc
    exact ⟨v, hv⟩
  · rintro ⟨c, hc, he⟩
    obtain ⟨w, hw, hcw⟩ := hl c hc
    exact Option.some.inj (hcw.symm.trans he) ▸ hw

/-- The value of an expression is that of its root. -/
theorem exists_root {get : Fluent → Option ConstantNode}
    (h : (core.evalNodes get exp []).bind List.getLast? = some v) :
    ∃ e ∈ exp.getLast?, ∃ res, core.evalNode get res e = some v := by
  cases exp using List.reverseRecOn with
  | nil => simp [Core.evalNodes] at h
  | append_singleton exp e =>
    rw [Core.evalNodes, List.foldlM_append] at h
    obtain ⟨r, hr, hlast⟩ := Option.bind_eq_some_iff.mp h
    obtain ⟨res, -, hres⟩ := Option.bind_eq_some_iff.mp hr
    rw [List.foldlM_cons] at hres
    obtain ⟨r', hr', heq⟩ := Option.bind_eq_some_iff.mp hres
    obtain ⟨u, hu, rfl⟩ := Option.map_eq_some_iff.mp hr'
    obtain rfl := Option.some.inj heq
    rw [List.getLast?_concat] at hlast
    obtain rfl := Option.some.inj hlast
    exact ⟨e, List.getLast?_concat, res, hu⟩

/-- Values that count as equal and that one expression takes are the same. -/
theorem canBe_unambiguous (hd : Distinct core assignments) (hv : CanBe core exp assignments v)
    (hw : CanBe core exp assignments w) (hk : core.key v = core.key w) : v = w := by
  obtain ⟨c, hc, he⟩ := hv
  obtain ⟨d, hd', he'⟩ := hw
  obtain ⟨e, hlast, res, hv⟩ := exists_root he
  obtain ⟨e', hlast', res', hw⟩ := exists_root he'
  obtain rfl : e = e' := Option.some.inj (hlast.symm.trans hlast')
  cases e with
  | constant u =>
    have hvu : some u = some v := hv
    have hwu : some u = some w := hw
    exact Option.some.inj (hvu.symm.trans hwu)
  | operator kind operands =>
    exact eq_of_key_eq ((type_evalOperator hv).trans (type_evalOperator hw).symm) hk
  | interpretedFunction fn rt operands =>
    simp only [Core.evalNode, evalNode, Option.bind_eq_bind, Option.bind_eq_some_iff] at hv hw
    obtain ⟨_, -, _, -, hv⟩ := hv
    obtain ⟨_, -, _, -, hw⟩ := hw
    exact eq_of_key_eq ((type_coerce hv).trans (type_coerce hw).symm) hk
  | fluent f =>
    have hvf := lookup_zip_mem (mem_product.mp hc) hv
    have hwf := lookup_zip_mem (mem_product.mp hd') hw
    exact unambiguous_of_nodup (hd f) v hvf w hwf hk

end

/-! ### Watermarks -/

/-- The combinations the sizes say have been visited. -/
def visited (exp : Expression) (assignments : ValueSets) (sizes : List ℕ) :
    List (List ConstantNode) :=
  if dedupFluents exp = [] then if sizes = [1] then [[]] else []
  else if sizes.length = (dedupFluents exp).length then
    oldCombinations ((dedupFluents exp).map assignments) sizes
  else []

/-- No watermark is beyond its set. -/
def Fits (exp : Expression) (assignments : ValueSets) (sizes : List ℕ) : Prop :=
  sizes.length = (dedupFluents exp).length →
    List.Forall₂ (fun l n => n ≤ l.length) ((dedupFluents exp).map assignments) sizes

def Extends (assignments assignments' : ValueSets) : Prop := ∀ f, assignments f <+: assignments' f

theorem Extends.forall₂ (h : Extends assignments assignments') (fluents : List Fluent) :
    List.Forall₂ (· <+: ·) (fluents.map assignments) (fluents.map assignments') := by
  rw [List.forall₂_map_left_iff, List.forall₂_map_right_iff, List.forall₂_same]
  exact fun f _ => h f

theorem Fits.of_extends {sizes : List ℕ} (h : Fits exp assignments sizes)
    (hg : Extends assignments assignments') : Fits exp assignments' sizes := by
  intro hlen
  have hsizes := h hlen
  clear hlen h
  generalize dedupFluents exp = fluents at hsizes
  induction fluents generalizing sizes with
  | nil => exact hsizes
  | cons f fluents ih =>
    cases hsizes with
    | cons hn hs => exact .cons (hn.trans (hg f).length_le) (ih hs)

theorem visited_of_extends {sizes : List ℕ} (h : Fits exp assignments sizes)
    (hg : Extends assignments assignments') :
    visited exp assignments' sizes = visited exp assignments sizes := by
  rw [visited, visited]
  split_ifs with _ _ hlen
  · rfl
  · rfl
  · exact oldCombinations_of_prefix (h hlen) (hg.forall₂ _)
  · rfl

theorem visited_subset {sizes : List ℕ} : visited exp assignments sizes ⊆
    combinations exp assignments := by
  intro c hc
  rw [visited] at hc
  rw [combinations]
  split_ifs at hc with hn h1 hlen
  · rw [hn]
    exact hc
  · contradiction
  · exact mem_product_of_old (by rw [List.length_map, hlen]) hc
  · contradiction

theorem visited_nil : visited exp assignments [] = [] := by
  rw [visited]
  split_ifs with hn h1 hlen
  · contradiction
  · rfl
  · exact absurd (List.length_eq_zero_iff.mp hlen.symm) hn
  · rfl

theorem fits_nil : Fits exp assignments [] := by
  intro hlen
  rw [List.length_eq_zero_iff.mp hlen.symm]
  exact .nil

/-- What is left of a visit once every value is known. -/
def visitList {σ : Type} (visit : σ → ConstantNode → σ × Bool) : List ConstantNode → σ → σ × Bool
  | [], s => (s, true)
  | v :: vs, s =>
    match visit s v with
    | (s, true) => visitList visit vs s
    | (s, false) => (s, false)

theorem fits_length : Fits exp assignments
    (((dedupFluents exp).map assignments).map List.length) := by
  intro _
  generalize (dedupFluents exp).map assignments = values
  induction values with
  | nil => exact .nil
  | cons l values ih => exact .cons le_rfl ih

theorem visited_length (hne : dedupFluents exp ≠ []) :
    visited exp assignments (((dedupFluents exp).map assignments).map List.length) =
      combinations exp assignments := by
  rw [visited, if_neg hne, if_pos (by simp), oldCombinations_length, combinations]

/-- Sizes of another length stand for zeros. -/
theorem visited_replicate (hne : dedupFluents exp ≠ []) :
    visited exp assignments (List.replicate (dedupFluents exp).length 0) = [] := by
  rw [visited, if_neg hne, if_pos List.length_replicate]
  obtain ⟨f, fluents, hf⟩ := List.exists_cons_of_ne_nil hne
  rw [hf]
  rfl

section

variable [Callables]

theorem visitValues_eq {σ : Type} {visit : σ → ConstantNode → σ × Bool}
    {combos : List (List ConstantNode)} {vs : List ConstantNode}
    (h : combos.mapM (evaluateOn core exp) = some vs) (s : σ) :
    visitValues core exp visit combos s = some (visitList visit vs s) := by
  induction combos generalizing vs s with
  | nil =>
    obtain rfl : [] = vs := by simpa using h
    rfl
  | cons c combos ih =>
    simp only [List.mapM_cons, Option.bind_eq_bind, Option.bind_eq_some_iff, Option.pure_def,
      Option.some.injEq] at h
    obtain ⟨v, hv, vs, hvs, rfl⟩ := h
    rw [visitValues, hv, visitList]
    rcases hvis : visit s v with ⟨s', b⟩
    cases b with
    | true => simpa [hvis] using ih hvs s'
    | false => simp [hvis]

/-- What an enumeration visits: values the expression can take, and the value of
every combination that was not visited before. -/
structure Enumerates (core : Core) (exp : Expression) (assignments : ValueSets)
    (sizes : List ℕ) (vs : List ConstantNode) (sizes' : List ℕ) : Prop where
  canBe : ∀ v ∈ vs, CanBe core exp assignments v
  covers : ∀ c ∈ combinations exp assignments, ∀ v, evaluateOn core exp c = some v →
    c ∈ visited exp assignments sizes ∨ v ∈ vs
  visited : ∀ c ∈ combinations exp assignments, c ∈ visited exp assignments sizes'
  fits : Fits exp assignments sizes'

/-- One spec of the enumeration for every visitor. -/
theorem forEachNewValue_spec (sizes : List ℕ) (hdef : DefinedOn core exp assignments) :
    ∃ vs sizes', Enumerates core exp assignments sizes vs sizes' ∧
      ∀ {σ : Type} (visit : σ → ConstantNode → σ × Bool) (s : σ), ∃ sizes'',
        forEachNewValue core exp assignments sizes visit s =
          some ((visitList visit vs s).1, sizes'') ∧
        ((visitList visit vs s).2 = true → sizes'' = sizes') := by
  by_cases hne : dedupFluents exp = []
  · have hcombos : combinations exp assignments = [[]] := by rw [combinations, hne]; rfl
    have hfits : Fits exp assignments [1] := by simp [Fits, hne]
    have hvisited : ∀ c ∈ combinations exp assignments, c ∈ visited exp assignments [1] := by
      simp [hcombos, visited, hne]
    by_cases hone : sizes = [1]
    · subst hone
      refine ⟨[], [1], ⟨by simp, fun c hc v _ => .inl (hvisited c hc), hvisited, hfits⟩,
        fun visit s => ⟨[1], ?_, fun _ => rfl⟩⟩
      simp [forEachNewValue, hne, visitList]
    · obtain ⟨v, hv⟩ := hdef [] (by simp [hcombos])
      have hcan : CanBe core exp assignments v := ⟨[], by simp [hcombos], hv⟩
      refine ⟨[v], [1], ⟨by simpa using hcan, fun c hc w hw => .inr ?_, hvisited, hfits⟩,
        fun visit s => ⟨[1], ?_, fun _ => rfl⟩⟩
      · obtain rfl : c = [] := by simpa [hcombos] using hc
        exact List.mem_singleton.mpr (Option.some.inj (hw.symm.trans hv))
      · rw [forEachNewValue, if_pos hne, if_neg hone, hv]
        rcases hvis : visit s v with ⟨s', b⟩
        cases b <;> simp [visitList, hvis]
  · set fluents := dedupFluents exp with hfluents
    set values := fluents.map assignments with hvalues
    set sizes₀ := if sizes.length = fluents.length then sizes
      else List.replicate fluents.length 0 with hsizes₀
    have hold : visited exp assignments sizes₀ = visited exp assignments sizes := by
      rw [hsizes₀]
      split_ifs with hlen
      · rfl
      · rw [visited_replicate hne, visited, if_neg hne, if_neg hlen]
    have hall : visited exp assignments (values.map List.length) =
        combinations exp assignments := visited_length hne
    have hlen : values.length = sizes₀.length := by
      rw [hvalues, List.length_map, hsizes₀]
      split_ifs with h
      · exact h.symm
      · exact List.length_replicate.symm
    by_cases heq : sizes₀ = values.map List.length
    · refine ⟨[], sizes₀, ⟨by simp, fun c hc v _ => .inl ?_, fun c hc => ?_, ?_⟩,
        fun visit s => ⟨sizes₀, ?_, fun _ => rfl⟩⟩
      · rw [← hold, heq, hall]
        exact hc
      · rw [heq, hall]
        exact hc
      · rw [heq]
        exact fits_length
      · rw [forEachNewValue, if_neg hne, if_pos heq]
        rfl
    · obtain ⟨vs, hvs⟩ := exists_mapM (f := evaluateOn core exp) fun c hc =>
        hdef c (mem_product_of_new hlen hc)
      obtain ⟨hl, hr⟩ := mapM_eq_some hvs
      refine ⟨vs, values.map List.length, ⟨fun v hv => ?_, fun c hc v hv => ?_, ?_, fits_length⟩,
        fun visit s => ⟨if (visitList visit vs s).2 then values.map List.length else sizes₀,
          ?_, fun h => if_pos h⟩⟩
      · obtain ⟨c, hc, he⟩ := hr v hv
        exact ⟨c, mem_product_of_new hlen hc, he⟩
      · rcases mem_old_or_new hlen hc with ho | hn
        · refine .inl ?_
          rw [← hold, visited, if_neg hne, if_pos (by rw [← hlen, hvalues, List.length_map])]
          exact ho
        · obtain ⟨w, hw, hcw⟩ := hl c hn
          exact .inr (Option.some.inj (hcw.symm.trans hv) ▸ hw)
      · rw [hall]
        exact fun c hc => hc
      · rw [forEachNewValue, if_neg hne, if_neg heq, visitValues_eq hvs]
        rfl

end

/-! ### Conditions -/

theorem visitList_found (vs : List ConstantNode) :
    visitList (fun found v => if v = .bool true then (true, false) else (found, true)) vs false =
      (decide (.bool true ∈ vs), !decide (.bool true ∈ vs)) := by
  induction vs with
  | nil => rfl
  | cons v vs ih =>
    by_cases hv : v = .bool true
    · simp [visitList, hv]
    · simp [visitList, hv, ih, Ne.symm hv]

variable [Callables]

/-- What the cache and the watermarks say of the value sets. -/
structure Tracks (core : Core) (assignments : ValueSets) (t : Tracker) : Prop where
  cached : ∀ {exp}, t.cacheCanBeTrue exp = true → CanBe core exp assignments (.bool true)
  fits : ∀ exp, Fits exp assignments (t.oldSizes exp)
  never : ∀ {exp}, t.cacheCanBeTrue exp = false →
    ∀ c ∈ visited exp assignments (t.oldSizes exp), evaluateOn core exp c ≠ some (.bool true)

theorem tracks_empty : Tracks core assignments ⟨fun _ => false, fun _ => []⟩ :=
  ⟨fun h => by contradiction, fun _ => fits_nil, fun _ c hc => by simp [visited_nil] at hc⟩

theorem Tracks.of_extends {t : Tracker} (h : Tracks core assignments t)
    (hg : Extends assignments assignments') : Tracks core assignments' t := by
  refine ⟨fun hc => (h.cached hc).mono fun f _ => (hg f).subset, fun e => (h.fits e).of_extends hg,
    fun hc c hmem => ?_⟩
  rw [visited_of_extends (h.fits _) hg] at hmem
  exact h.never hc c hmem

theorem expCanBeTrue_spec {t : Tracker} (hdef : DefinedOn core exp assignments)
    (ht : Tracks core assignments t) : ∃ b t', expCanBeTrue core assignments t exp = some (b, t') ∧
      (b = true ↔ CanBe core exp assignments (.bool true)) ∧ Tracks core assignments t' := by
  by_cases hcache : t.cacheCanBeTrue exp = true
  · exact ⟨true, t, by rw [expCanBeTrue, if_pos hcache], by simpa using ht.cached hcache, ht⟩
  · have hfalse : t.cacheCanBeTrue exp = false := by simpa using hcache
    obtain ⟨vs, sizes', henum, hvisit⟩ :=
      forEachNewValue_spec (t.oldSizes exp) hdef
    obtain ⟨sizes'', heq, hsizes⟩ := hvisit
      (fun found v => if v = .bool true then (true, false) else (found, true)) false
    rw [visitList_found] at heq hsizes
    by_cases hfound : .bool true ∈ vs
    · have hcan := henum.canBe _ hfound
      refine ⟨true, { t with cacheCanBeTrue := Function.update t.cacheCanBeTrue exp true }, ?_,
        by simpa using hcan, fun {e} he => ?_, ht.fits, fun {e} he c hc => ?_⟩
      · simp [expCanBeTrue, hcache, heq, hfound]
      · by_cases hee : e = exp
        · exact hee ▸ hcan
        · exact ht.cached (by simpa [Function.update_of_ne hee] using he)
      · by_cases hee : e = exp
        · simp [hee] at he
        · exact ht.never (by simpa [Function.update_of_ne hee] using he) c hc
    · have hnever : ∀ c ∈ combinations exp assignments,
          evaluateOn core exp c ≠ some (.bool true) := by
        intro c hc he
        rcases henum.covers c hc _ he with hold | hnew
        · exact ht.never hfalse c hold he
        · exact hfound hnew
      obtain rfl : sizes'' = sizes' := hsizes (by simpa using hfound)
      refine ⟨false, { t with oldSizes := Function.update t.oldSizes exp sizes'' }, ?_, ?_,
        ht.cached, fun e => ?_, fun {e} he c hc => ?_⟩
      · simp [expCanBeTrue, hcache, heq, hfound]
      · simp only [Bool.false_eq_true, false_iff]
        rintro ⟨c, hc, he⟩
        exact hnever c hc he
      · by_cases hee : e = exp
        · subst hee
          simpa using henum.fits
        · simpa [Function.update_of_ne hee] using ht.fits e
      · by_cases hee : e = exp
        · subst hee
          exact hnever c (visited_subset hc)
        · exact ht.never he c (by simpa [Function.update_of_ne hee] using hc)

/-- Every expression can take the value `True`. -/
def AllCan (core : Core) (exps : List Expression) (assignments : ValueSets) : Prop :=
  ∀ exp ∈ exps, CanBe core exp assignments (.bool true)

theorem canBeTrue_spec {exps : List Expression} {t : Tracker}
    (hdef : ∀ exp ∈ exps, DefinedOn core exp assignments) (ht : Tracks core assignments t) :
    ∃ b t', canBeTrue core assignments exps t = some (b, t') ∧
      (b = true ↔ AllCan core exps assignments) ∧ Tracks core assignments t' := by
  induction exps generalizing t with
  | nil => exact ⟨true, t, rfl, by simp [AllCan], ht⟩
  | cons exp exps ih =>
    obtain ⟨b, t', heq, hb, ht'⟩ := expCanBeTrue_spec (hdef exp List.mem_cons_self) ht
    cases b with
    | false =>
      have hnot : ¬ CanBe core exp assignments (.bool true) := fun h => by simpa using hb.mpr h
      refine ⟨false, t', by simp [canBeTrue, heq], ?_, ht'⟩
      simp only [Bool.false_eq_true, false_iff]
      exact fun hall => hnot (hall exp List.mem_cons_self)
    | true =>
      obtain ⟨b, t'', heq', hb', ht''⟩ := ih (fun e he => hdef e (List.mem_cons_of_mem exp he)) ht'
      refine ⟨b, t'', by simp [canBeTrue, heq, heq'], ?_, ht''⟩
      rw [hb', AllCan, AllCan, List.forall_mem_cons]
      exact (and_iff_right (hb.mp rfl)).symm

theorem allCanBeTrue_spec {exps : List Expression} {b : Bool}
    (h : allCanBeTrue core assignments exps = some b) :
    (∀ exp ∈ exps, DefinedOn core exp assignments) ∧ (b = true ↔ AllCan core exps assignments) := by
  obtain ⟨vss, hvss, hb⟩ := Option.bind_eq_some_iff.mp h
  obtain rfl := Option.some.inj hb
  obtain ⟨hl, hr⟩ := mapM_eq_some hvss
  refine ⟨fun exp he => ?_, ?_⟩
  · obtain ⟨vs, -, hvs⟩ := hl exp he
    exact (valuesOf_eq_some hvs).1
  · rw [List.all_eq_true]
    constructor
    · intro hall exp he
      obtain ⟨vs, hmem, hvs⟩ := hl exp he
      exact ((valuesOf_eq_some hvs).2 _).mp (by simpa using hall vs hmem)
    · intro hall vs hmem
      obtain ⟨exp, he, hvs⟩ := hr vs hmem
      simpa using ((valuesOf_eq_some hvs).2 _).mpr (hall exp he)

end Values

end TamerLite
