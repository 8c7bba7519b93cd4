import TamerLite.Relevance

/-! Fluent compaction: the second encoding pass gives a slot only to the fluents that
some condition, goal, duration or kept effect reads, and numbers those anew. -/

namespace TamerLite

open Exploration SearchSpace Worklist

/-! ### Renumbered expressions -/

def renameNode (ρ : Fluent → Fluent) : ExpressionNode → ExpressionNode
  | .fluent f => .fluent (ρ f)
  | e => e

def renameFluents (ρ : Fluent → Fluent) (exp : Expression) : Expression := exp.map (renameNode ρ)

theorem getFluents_renameFluents (ρ : Fluent → Fluent) (exp : Expression) :
    getFluents (renameFluents ρ exp) = (getFluents exp).map ρ := by
  induction exp with
  | nil => rfl
  | cons e exp ih =>
    simp only [getFluents, renameFluents] at ih ⊢
    cases e <;> simp [renameNode, ih]

theorem renameNode_inj {ρ : Fluent → Fluent} {R : Set Fluent} (hρ : Set.InjOn ρ R) {e e' : ExpressionNode}
    (he : ∀ f, e = .fluent f → f ∈ R) (he' : ∀ f, e' = .fluent f → f ∈ R)
    (h : renameNode ρ e = renameNode ρ e') : e = e' := by
  cases e <;> cases e' <;> simp_all [renameNode]
  exact hρ he he' h

/-- Expressions over fluents that keep distinct numbers stay distinct. -/
theorem renameFluents_inj {ρ : Fluent → Fluent} {R : Set Fluent} (hρ : Set.InjOn ρ R) {x y : Expression}
    (hx : ∀ f ∈ getFluents x, f ∈ R) (hy : ∀ f ∈ getFluents y, f ∈ R)
    (h : renameFluents ρ x = renameFluents ρ y) : x = y := by
  induction x generalizing y with
  | nil =>
    have : y = [] := by simpa [renameFluents] using h.symm
    exact this.symm
  | cons e x ih =>
    cases y with
    | nil => cases h
    | cons e' y =>
      obtain ⟨hhead, htail⟩ := List.cons.inj h
      have hin : ∀ {l : Expression}, (∀ f ∈ getFluents l, f ∈ R) → ∀ d ∈ l, ∀ f, d = .fluent f → f ∈ R := by
        intro l hl d hd f hf
        apply hl
        exact mem_getFluents.mpr (hf ▸ hd)
      have hrest : ∀ {d : ExpressionNode} {l : Expression}, (∀ f ∈ getFluents (d :: l), f ∈ R) →
          ∀ f ∈ getFluents l, f ∈ R := by
        intro d l hl f hf
        apply hl
        exact mem_getFluents.mpr (List.mem_cons_of_mem d (mem_getFluents.mp hf))
      rw [renameNode_inj hρ (hin hx e List.mem_cons_self) (hin hy e' List.mem_cons_self) hhead,
        ih (hrest hx) (hrest hy) htail]

section Evaluation

variable [Callables]

theorem evalNodes_renameFluents {ρ : Fluent → Fluent} {get get' : Fluent → Option ConstantNode}
    (exp : Expression) (h : ∀ f ∈ getFluents exp, get' (ρ f) = get f) (res : List ConstantNode) :
    evalNodes get' (renameFluents ρ exp) res = evalNodes get exp res := by
  induction exp generalizing res with
  | nil => rfl
  | cons e exp ih =>
    have he : evalNode get' res (renameNode ρ e) = evalNode get res e := by
      cases e with
      | fluent f => exact h f (by simp [mem_getFluents])
      | _ => rfl
    have hs : ∀ f ∈ getFluents exp, get' (ρ f) = get f :=
      fun f hf => h f (mem_getFluents.mpr (by simp [mem_getFluents.mp hf]))
    simp only [evalNodes, renameFluents, List.map_cons, List.foldlM_cons, he]
    exact congrArg _ (funext fun res' => ih hs res')

theorem evaluate_renameFluents {ρ : Fluent → Fluent} {exp : Expression} {A B : Assignments}
    (h : ∀ f ∈ getFluents exp, getValue B (ρ f) = getValue A f) :
    evaluate (renameFluents ρ exp) B = evaluate exp A := by
  simp only [evaluate, evalNodes_renameFluents exp h]

theorem holds_renameFluents {ρ : Fluent → Fluent} {exp : Expression} {A B : Assignments}
    (h : ∀ f ∈ getFluents exp, getValue B (ρ f) = getValue A f) :
    holds (renameFluents ρ exp) B = holds exp A := by
  simp only [holds, evaluate_renameFluents h]

end Evaluation

/-! ### The fluents that matter -/

namespace SearchSpace

variable (ss : SearchSpace)

/-- An entry of `written_from`. -/
def writtenFrom (actions : List Action) (f : Fluent) : Finset Fluent :=
  (actions.flatMap fun a => ((ss.events a).getD []).flatMap fun te =>
    (te.2.effects.filter fun eff => eff.fluent = f).flatMap fun eff => getFluents eff.value).toFinset

def readFluents (actions : List Action) : Finset Fluent :=
  (getFluents ss.goal).toFinset ∪ actions.toFinset.biUnion ss.actionReadFluents

/-- `_compute_relevant_fluents`; `none` stands for a loop that was cut off. -/
def computeRelevantFluents (fluents : Iteration Fluent) (actions : List Action) (fuel : ℕ) :
    Option (Finset Fluent) :=
  match iterate (Walk.turn fun f => fluents.list (ss.writtenFrom actions f)) fuel
      (.inr (.start (fluents.list (ss.readFluents actions)).reverse)) with
  | .inl relevantFluents => some relevantFluents
  | .inr _ => none

/-- The fluents the search reads, and what effects on such fluents read. -/
inductive Matters (actions : List Action) : Fluent → Prop
  | read {f : Fluent} (hf : f ∈ ss.readFluents actions) : Matters actions f
  | written {f g : Fluent} (hf : Matters actions f) (hg : g ∈ ss.writtenFrom actions f) : Matters actions g

variable {ss} {actions : List Action}

theorem mem_writtenFrom {f g : Fluent} : g ∈ ss.writtenFrom actions f ↔ ∃ a ∈ actions, ∃ le,
    ss.events a = some le ∧ ∃ te ∈ le, ∃ eff ∈ te.2.effects, eff.fluent = f ∧ g ∈ getFluents eff.value := by
  simp only [writtenFrom, List.mem_toFinset, List.mem_flatMap, List.mem_filter, decide_eq_true_eq]
  constructor
  · intro h
    obtain ⟨a, ha, te, hte, eff, ⟨he, hf⟩, hg⟩ := h
    cases hle : ss.events a with
    | none =>
      rw [hle] at hte
      cases hte
    | some le =>
      rw [hle] at hte
      exact ⟨a, ha, le, hle, te, hte, eff, he, hf, hg⟩
  · intro h
    obtain ⟨a, ha, le, hle, te, hte, eff, he, hf, hg⟩ := h
    exact ⟨a, ha, te, by rwa [hle], eff, ⟨he, hf⟩, hg⟩

/-- The loop ends with the fluents that matter, in whatever order sets are walked. -/
theorem exists_relevantFluents (ss : SearchSpace) (actions : List Action) : ∃ R : Finset Fluent,
    (∀ f, f ∈ R ↔ ss.Matters actions f) ∧
      ∀ fluents, ∃ k, ∀ fuel ≥ k, ss.computeRelevantFluents fluents actions fuel = some R := by
  have hend : ∀ fluents : Iteration Fluent, ∃ k R, (∀ f, f ∈ R ↔ ss.Matters actions f) ∧
      ∀ fuel ≥ k, ss.computeRelevantFluents fluents actions fuel = some R := by
    intro fluents
    let U := ss.readFluents actions ∪ (actions.flatMap fun a => ((ss.events a).getD []).flatMap fun te =>
      te.2.effects.flatMap fun eff => getFluents eff.value).toFinset
    have hseeds : ∀ f ∈ (fluents.list (ss.readFluents actions)).reverse, f ∈ U := by
      intro f hf
      apply Finset.mem_union_left
      rwa [List.mem_reverse, fluents.mem_list] at hf
    have hnext : ∀ f ∈ U, ∀ g ∈ fluents.list (ss.writtenFrom actions f), g ∈ U := by
      intro f _ g hg
      apply Finset.mem_union_right
      obtain ⟨a, ha, le, hle, te, hte, eff, he, -, hg⟩ := mem_writtenFrom.mp (fluents.mem_list.mp hg)
      simp only [List.mem_toFinset, List.mem_flatMap]
      exact ⟨a, ha, te, by rwa [hle], eff, he, hg⟩
    obtain ⟨k, R, hk, hread, hclosed, hleast⟩ := exists_closure hseeds hnext
    refine ⟨k, R, fun f => ⟨fun hf => ?_, fun hf => ?_⟩, fun fuel hfuel => ?_⟩
    · apply hleast {f | ss.Matters actions f} _ _ f hf
      · intro g hg
        rw [List.mem_reverse, fluents.mem_list] at hg
        exact .read hg
      · intro g hg g' hg'
        exact .written hg (fluents.mem_list.mp hg')
    · induction hf with
      | read hf =>
        apply hread
        rwa [List.mem_reverse, fluents.mem_list]
      | written _ hg ih => exact hclosed _ ih _ (fluents.mem_list.mpr hg)
    · rw [computeRelevantFluents, iterate_of_le hk hfuel]
  obtain ⟨-, R, hR, -⟩ := hend ⟨Finset.toList, Finset.mem_toList⟩
  refine ⟨R, hR, fun fluents => ?_⟩
  obtain ⟨k, R', hR', hk⟩ := hend fluents
  have hsame : R' = R := Finset.ext fun f => (hR' f).trans (hR f).symm
  exact ⟨k, hsame ▸ hk⟩

end SearchSpace

/-! ### The second pass -/

/-- `_fluents` after the second pass, as numbered by the first. -/
def SearchSpace.keptFluents (ss : SearchSpace) (relevantFluents : Finset Fluent) : List Fluent :=
  ((List.range ss.initialState.length).map Fluent.mk).filter (· ∈ relevantFluents)

/-- The number a kept fluent gets. -/
def SearchSpace.compactFluent (ss : SearchSpace) (relevantFluents : Finset Fluent) (f : Fluent) : Fluent :=
  ⟨(ss.keptFluents relevantFluents).idxOf f⟩

/-- An event converted anew: an effect on a fluent without a slot is dropped. -/
def Event.compact (e : Event) (ρ : Fluent → Fluent) (relevantFluents : Finset Fluent) : Event :=
  { e with
    conditions := renameFluents ρ e.conditions
    startConditions := e.startConditions.map (renameFluents ρ)
    endConditions := e.endConditions.map (renameFluents ρ)
    effects := (e.effects.filter (·.fluent ∈ relevantFluents)).map fun eff =>
      ⟨ρ eff.fluent, renameFluents ρ eff.value⟩ }

def Duration.compact (d : Duration) (ρ : Fluent → Fluent) : Duration :=
  { d with lower := renameFluents ρ d.lower, upper := renameFluents ρ d.upper }

def compactEvents (ρ : Fluent → Fluent) (relevantFluents : Finset Fluent) (le : List (Timing × Event)) :
    List (Timing × Event) := le.map fun te => (te.1, te.2.compact ρ relevantFluents)

theorem opened_compactEvents {ρ : Fluent → Fluent} {R : Finset Fluent} (le : List (Timing × Event)) :
    opened (compactEvents ρ R le) = (opened le).map (renameFluents ρ) := by
  rw [opened, opened, compactEvents, List.flatMap_map, Multiset.map_coe, List.map_flatMap]
  rfl

theorem closed_compactEvents {ρ : Fluent → Fluent} {R : Finset Fluent} (le : List (Timing × Event)) :
    closed (compactEvents ρ R le) = (closed le).map (renameFluents ρ) := by
  rw [closed, closed, compactEvents, List.flatMap_map, Multiset.map_coe, List.map_flatMap]
  rfl

/-- A duration of the second pass; one of an action that is not considered is not converted again. -/
def compactDuration (ρ : Fluent → Fluent) (considered : List Action) (i : ℕ) (d : Option Duration) :
    Option Duration :=
  if ⟨i⟩ ∈ considered then d.map (·.compact ρ) else d

theorem compactDuration_join (ρ : Fluent → Fluent) (considered : List Action)
    (durations : List (Option Duration))
    (i : ℕ) : (durations.mapIdx (compactDuration ρ considered))[i]?.join =
      compactDuration ρ considered i durations[i]?.join := by
  rw [List.getElem?_mapIdx]
  cases durations[i]? with
  | none => simp [compactDuration]
  | some d => rfl

theorem compactDuration_constant {ρ : Fluent → Fluent} {considered : List Action} {i : ℕ} {q : ℚ} {l r : Bool}
    {d : Option Duration} (h : d = some ⟨[.constant (.num q)], [.constant (.num q)], l, r⟩) :
    compactDuration ρ considered i d = some ⟨[.constant (.num q)], [.constant (.num q)], l, r⟩ := by
  rw [h, compactDuration]
  split_ifs <;> rfl

/-- The search space that the second pass builds. -/
def SearchSpace.compact (ss : SearchSpace) (considered : List Action) (relevantFluents : Finset Fluent) :
    SearchSpace where
  actionsDuration := ss.actionsDuration.mapIdx
    (compactDuration (ss.compactFluent relevantFluents) considered)
  events := fun a => if a ∈ considered then
    (ss.events a).map (compactEvents (ss.compactFluent relevantFluents) relevantFluents) else none
  compressionSafeActions := ss.compressionSafeActions
  actionObjects := ss.actionObjects
  objToPrevActionsMap := ss.objToPrevActionsMap
  initialState := (ss.keptFluents relevantFluents).filterMap (getValue ss.initialState)
  goal := renameFluents (ss.compactFluent relevantFluents) ss.goal
  deadline := ss.deadline
  epsilon := ss.epsilon
  timedAction := ss.timedAction
  epsilon_nonneg := ss.epsilon_nonneg
  events_numbered := by
    intro a le' h
    rw [Option.ite_none_right_eq_some] at h
    obtain ⟨le, hle, rfl⟩ := Option.map_eq_some_iff.mp h.2
    obtain ⟨hne, hnum⟩ := ss.events_numbered hle
    refine ⟨fun he => hne (List.map_eq_nil_iff.mp he), fun {k te'} hk => ?_⟩
    rw [compactEvents, List.getElem?_map] at hk
    obtain ⟨te, hte, rfl⟩ := Option.map_eq_some_iff.mp hk
    have := hnum hte
    exact this
  events_instantaneous := by
    intro a le' h hd
    rw [Option.ite_none_right_eq_some] at h
    obtain ⟨le, hle, rfl⟩ := Option.map_eq_some_iff.mp h.2
    rw [compactDuration_join, compactDuration, if_pos h.1, Option.map_eq_none_iff] at hd
    rw [compactEvents, List.length_map]
    exact ss.events_instantaneous hle hd
  events_opening := by
    intro a le' h te' hte'
    rw [Option.ite_none_right_eq_some] at h
    obtain ⟨le, hle, rfl⟩ := Option.map_eq_some_iff.mp h.2
    rw [compactEvents, List.getElem?_map] at hte'
    obtain ⟨te, hte, rfl⟩ := Option.map_eq_some_iff.mp hte'
    rw [compactDuration_join]
    exact (ss.events_opening hle hte).imp_right fun ⟨q, l, r, hq, hd⟩ =>
      ⟨q, l, r, hq, compactDuration_constant hd⟩
  events_balanced := by
    intro a le' ht h
    rw [Option.ite_none_right_eq_some] at h
    obtain ⟨le, hle, rfl⟩ := Option.map_eq_some_iff.mp h.2
    rw [opened_compactEvents, closed_compactEvents, ss.events_balanced ht hle]
  timed_absolute := by
    intro a le' ht h te' hte'
    rw [Option.ite_none_right_eq_some] at h
    obtain ⟨le, hle, rfl⟩ := Option.map_eq_some_iff.mp h.2
    obtain ⟨te, hte, rfl⟩ := List.mem_map.mp hte'
    exact ss.timed_absolute ht hle te hte
  timed_duration := by
    intro a ht
    obtain ⟨q, hq, hd⟩ := ss.timed_duration ht
    rw [compactDuration_join]
    exact ⟨q, hq, compactDuration_constant hd⟩

section Second

variable {ss : SearchSpace} {considered : List Action} {R : Finset Fluent} {a : Action}

theorem events_compact (ha : a ∈ considered) : (ss.compact considered R).events a =
    (ss.events a).map (compactEvents (ss.compactFluent R) R) := if_pos ha

theorem duration_compact (ha : a ∈ considered) : (ss.compact considered R).duration a =
    (ss.duration a).map (·.compact (ss.compactFluent R)) := by
  rw [SearchSpace.duration, SearchSpace.compact, compactDuration_join, compactDuration, if_pos ha]
  rfl

theorem event_compact (ha : a ∈ considered) (k : ℕ) : (ss.compact considered R).event a k =
    (ss.event a k).map fun te => (te.1, te.2.compact (ss.compactFluent R) R) := by
  rw [SearchSpace.event, SearchSpace.event, events_compact ha]
  cases ss.events a with
  | none => rfl
  | some le => exact List.getElem?_map ..

theorem isTemporal_compact : (ss.compact considered R).isTemporal = ss.isTemporal := by
  rw [Bool.eq_iff_iff, isTemporal, isTemporal, List.any_eq_true, List.any_eq_true]
  have hsome : ∀ (i : ℕ) (d : Option Duration),
      (compactDuration (ss.compactFluent R) considered i d).isSome = d.isSome := by
    intro i d
    rw [compactDuration]
    split_ifs
    · rw [Option.isSome_map]
    · rfl
  constructor
  · intro hd
    obtain ⟨d, hd, hs⟩ := hd
    obtain ⟨i, hi, rfl⟩ := List.mem_mapIdx.mp hd
    exact ⟨_, List.getElem_mem hi, (hsome i _) ▸ hs⟩
  · intro hd
    obtain ⟨d, hd, hs⟩ := hd
    obtain ⟨i, hi, rfl⟩ := List.mem_iff_getElem.mp hd
    exact ⟨_, List.mem_mapIdx.mpr ⟨i, hi, rfl⟩, (hsome i _).trans hs⟩

end Second

end TamerLite
