import TamerLite.RelaxedReachability
import TamerLite.Slicing
import TamerLite.Symmetry
import TamerLite.Worklist

/-! Relevance analysis: the reachable actions that write what the goal depends on. A
plan without its irrelevant actions is a plan. -/

namespace TamerLite

open Exploration SearchSpace Worklist

/-- The order in which the elements of a set come up. -/
structure Iteration (α : Type*) where
  list : Finset α → List α
  mem_list : ∀ {s : Finset α} {x : α}, x ∈ list s ↔ x ∈ s

namespace SearchSpace

variable (ss : SearchSpace)

/-- `_action_read_fluents`. -/
def actionReadFluents (a : Action) : Finset Fluent :=
  (((ss.events a).getD []).flatMap fun te =>
    getFluents te.2.conditions ++ te.2.endConditions.flatMap getFluents).toFinset ∪
  match ss.duration a with
  | none => ∅
  | some d => (getFluents d.lower ++ getFluents d.upper).toFinset

def effectReadFluents (a : Action) : Finset Fluent :=
  (((ss.events a).getD []).flatMap fun te => te.2.effects.flatMap fun eff => getFluents eff.value).toFinset

def affectedFluents (a : Action) : Finset Fluent :=
  (((ss.events a).getD []).flatMap fun te => te.2.effects.map Effect.fluent).toFinset

/-- An entry of `action_to_dependency_fluents`. -/
def dependencyFluents (a : Action) : Finset Fluent := ss.actionReadFluents a ∪ ss.effectReadFluents a

end SearchSpace

/-- The variables of the backward walk; the top of the stack comes first. -/
structure Relevance extends Walk Fluent where
  relevantActions : Finset Action

namespace SearchSpace

variable (ss : SearchSpace)

def relevanceSeeds (fluents : Iteration Fluent) : List Fluent :=
  getFluents ss.goal ++
    match ss.timedAction with
    | none => []
    | some a => fluents.list (ss.actionReadFluents a)

/-- The reachable actions with an effect on a fluent. -/
def actionsAffecting (reachable : Finset Action) (f : Fluent) : Finset Action :=
  reachable.filter fun a => f ∈ ss.affectedFluents a

/-- An iteration of the walk; it answers with the relevant actions. -/
def relevanceTurn (reachable : Finset Action) (fluents : Iteration Fluent) (actions : Iteration Action)
    (r : Relevance) : Finset Action ⊕ Relevance :=
  match r.stack with
  | [] => .inl r.relevantActions
  | f :: stack =>
    if r.relevantActions.card < reachable.card then
      .inr ⟨Walk.visitAll ⟨stack, r.seen⟩ ((actions.list (ss.actionsAffecting reachable f)).flatMap fun a =>
          fluents.list (ss.dependencyFluents a)),
        r.relevantActions ∪ ss.actionsAffecting reachable f⟩
    else .inl r.relevantActions

/-- `_compute_relevant_actions`; the outer `none` stands for a loop that was cut off, the inner
one for an exception. -/
def computeRelevantActions [Callables] (h : DeleteRelaxationHeuristic) (queue : PriorityQueue costLt)
    (fluents : Iteration Fluent) (actions : Iteration Action) (allActions : List Action)
    (init : Option State) (fuel : ℕ) : Option (Option (List Action)) :=
  match init with
  | none => some (ss.timedAction.map fun a => [a])
  | some state =>
    match h.reachableActions queue state.assignments state.todo fuel with
    | none => none
    | some none => some none
    | some (some reachable) =>
      match iterate (ss.relevanceTurn reachable fluents actions) fuel
          (.inr ⟨.start (ss.relevanceSeeds fluents).reverse, ∅⟩) with
      | .inr _ => none
      | .inl relevant =>
        some (some (allActions.filter fun a => a ∈ relevant ∨ ss.timedAction = some a))

/-- What the goal, or an action that matters to it, depends on. -/
inductive RelevantFluent (reachable : Finset Action) : Fluent → Prop
  | goal {f : Fluent} (hf : f ∈ getFluents ss.goal) : RelevantFluent reachable f
  | timed {f : Fluent} {a : Action} (ha : ss.timedAction = some a) (hf : f ∈ ss.actionReadFluents a) :
    RelevantFluent reachable f
  | dependency {f g : Fluent} {a : Action} (hf : RelevantFluent reachable f) (ha : a ∈ reachable)
    (haff : f ∈ ss.affectedFluents a) (hg : g ∈ ss.dependencyFluents a) : RelevantFluent reachable g

variable {ss} {reachable : Finset Action} {fluents : Iteration Fluent} {actions : Iteration Action}

theorem mem_relevanceSeeds {f : Fluent} : f ∈ ss.relevanceSeeds fluents ↔
    f ∈ getFluents ss.goal ∨ ∃ a, ss.timedAction = some a ∧ f ∈ ss.actionReadFluents a := by
  rw [relevanceSeeds, List.mem_append]
  refine or_congr_right ?_
  cases ss.timedAction with
  | none => simp
  | some a => simp [fluents.mem_list]

theorem mem_actionsAffecting {f : Fluent} {a : Action} :
    a ∈ ss.actionsAffecting reachable f ↔ a ∈ reachable ∧ f ∈ ss.affectedFluents a :=
  Finset.mem_filter

/-- The fluents that dealing with one can stack. -/
def relevanceNext (ss : SearchSpace) (reachable : Finset Action) (fluents : Iteration Fluent)
    (actions : Iteration Action) (f : Fluent) : List Fluent :=
  (actions.list (ss.actionsAffecting reachable f)).flatMap fun a => fluents.list (ss.dependencyFluents a)

theorem mem_relevanceNext {f g : Fluent} : g ∈ relevanceNext ss reachable fluents actions f ↔
    ∃ a ∈ reachable, f ∈ ss.affectedFluents a ∧ g ∈ ss.dependencyFluents a := by
  rw [relevanceNext, List.mem_flatMap]
  simp only [actions.mem_list, fluents.mem_list, mem_actionsAffecting, and_assoc]

/-- What the walk keeps: it sees relevant fluents only, and the actions that write to those it has
dealt with are relevant. -/
structure Walked (ss : SearchSpace) (reachable : Finset Action) (fluents : Iteration Fluent)
    (actions : Iteration Action) (r : Relevance) : Prop where
  stacked : ∀ f ∈ r.stack, f ∈ r.seen
  seeds : ∀ f ∈ ss.relevanceSeeds fluents, f ∈ r.seen
  relevant : ∀ f ∈ r.seen, ss.RelevantFluent reachable f
  closed : r.Closed (relevanceNext ss reachable fluents actions)
  sound : ∀ a ∈ r.relevantActions, ∃ f ∈ r.seen, a ∈ ss.actionsAffecting reachable f
  complete : ∀ f ∈ r.seen, f ∉ r.stack → ∀ a ∈ ss.actionsAffecting reachable f, a ∈ r.relevantActions

theorem walked_start : Walked ss reachable fluents actions
    ⟨.start (ss.relevanceSeeds fluents).reverse, ∅⟩ := by
  have hseen : ∀ {f}, f ∈ (Walk.start (ss.relevanceSeeds fluents).reverse).seen ↔
      f ∈ ss.relevanceSeeds fluents := List.mem_toFinset.trans List.mem_reverse
  have hstack : ∀ {f}, f ∈ (Walk.start (ss.relevanceSeeds fluents).reverse).stack ↔
      f ∈ ss.relevanceSeeds fluents := List.mem_reverse
  refine ⟨fun f hf => hseen.mpr (hstack.mp hf), fun f hf => hseen.mpr hf, fun f hf => ?_, Walk.closed_start,
    fun a ha => absurd ha (Finset.notMem_empty a),
    fun f hf hnot => absurd (hstack.mpr (hseen.mp hf)) hnot⟩
  rcases mem_relevanceSeeds.mp (hseen.mp hf) with hf | ⟨a, ha, hf⟩
  · exact .goal hf
  · exact .timed ha hf

/-- Every fluent that the walk can see. -/
def relevanceFluents (ss : SearchSpace) (reachable : Finset Action) (fluents : Iteration Fluent) :
    Finset Fluent :=
  (ss.relevanceSeeds fluents).toFinset ∪ reachable.biUnion ss.dependencyFluents

theorem Walked.turn {r r' : Relevance} (h : Walked ss reachable fluents actions r)
    (hturn : ss.relevanceTurn reachable fluents actions r = .inr r') :
    Walked ss reachable fluents actions r' ∧
      r'.remaining (relevanceFluents ss reachable fluents) <
        r.remaining (relevanceFluents ss reachable fluents) := by
  rw [relevanceTurn] at hturn
  split at hturn
  · cases hturn
  rename_i f stack hstack
  split_ifs at hturn
  obtain rfl := Sum.inr.inj hturn
  have hf : f ∈ r.seen := h.stacked f (hstack ▸ List.mem_cons_self)
  have hU : ∀ g ∈ relevanceNext ss reachable fluents actions f,
      g ∈ relevanceFluents ss reachable fluents := by
    intro g hg
    obtain ⟨a, ha, -, hg⟩ := mem_relevanceNext.mp hg
    exact Finset.mem_union_right _ (Finset.mem_biUnion.mpr ⟨a, ha, hg⟩)
  obtain ⟨hseen, hstacked, -⟩ := @Walk.visitAll_spec _ _ ⟨stack, r.seen⟩ _ _ hU
  refine ⟨⟨fun g hg => ?_, fun g hg => ?_, fun g hg => ?_, h.closed.pop hstack, fun a ha => ?_,
    fun g hg hnot a ha => ?_⟩, Walk.remaining_pop hstack hU⟩
  · exact (hseen g).mpr (((hstacked g).mp hg).imp
      (fun hmem => h.stacked g (hstack ▸ List.mem_cons_of_mem f hmem)) And.left)
  · exact (hseen g).mpr (.inl (h.seeds g hg))
  · rcases (hseen g).mp hg with hg | hg
    · exact h.relevant g hg
    · obtain ⟨a, ha, haff, hg⟩ := mem_relevanceNext.mp hg
      exact .dependency (h.relevant f hf) ha haff hg
  · rcases Finset.mem_union.mp ha with ha | ha
    · obtain ⟨g, hg, haff⟩ := h.sound a ha
      exact ⟨g, (hseen g).mpr (.inl hg), haff⟩
    · exact ⟨f, (hseen f).mpr (.inl hf), ha⟩
  · -- a fluent that is not on the stack was dealt with before, or just now
    have hnot' : ¬ (g ∈ stack ∨ g ∈ relevanceNext ss reachable fluents actions f ∧ g ∉ r.seen) :=
      fun hmem => hnot ((hstacked g).mpr hmem)
    rw [not_or, not_and, not_not] at hnot'
    have hg' : g ∈ r.seen := ((hseen g).mp hg).elim id hnot'.2
    rcases eq_or_ne g f with rfl | hne
    · exact Finset.mem_union_right _ ha
    · refine Finset.mem_union_left _ (h.complete g hg' (fun hmem => ?_) a ha)
      rw [hstack] at hmem
      exact hnot'.1 ((List.mem_cons.mp hmem).resolve_left hne)

/-- The walk ends, and finds the reachable actions that write to a relevant fluent. -/
theorem exists_relevant (fluents : Iteration Fluent) (actions : Iteration Action) : ∃ n R,
    iterate (ss.relevanceTurn reachable fluents actions) n
      (.inr ⟨.start (ss.relevanceSeeds fluents).reverse, ∅⟩) = .inl R ∧
    ∀ a, a ∈ R ↔ a ∈ reachable ∧ ∃ f ∈ ss.affectedFluents a, ss.RelevantFluent reachable f := by
  have hstep : ∀ r r', Walked ss reachable fluents actions r →
      ss.relevanceTurn reachable fluents actions r = .inr r' → Walked ss reachable fluents actions r' ∧
        r'.remaining (relevanceFluents ss reachable fluents) <
          r.remaining (relevanceFluents ss reachable fluents) := fun r r' h hturn => h.turn hturn
  obtain ⟨n, R, r, hn, hr, hend⟩ := exists_answer hstep walked_start
  have hsound : ∀ a ∈ r.relevantActions,
      a ∈ reachable ∧ ∃ f ∈ ss.affectedFluents a, ss.RelevantFluent reachable f := by
    intro a ha
    obtain ⟨f, hf, haff⟩ := hr.sound a ha
    obtain ⟨ha, haff⟩ := mem_actionsAffecting.mp haff
    exact ⟨ha, f, haff, hr.relevant f hf⟩
  refine ⟨n, R, hn, fun a => ?_⟩
  rw [relevanceTurn] at hend
  split at hend
  · rename_i hnil
    obtain rfl := Sum.inl.inj hend
    refine ⟨hsound a, fun ⟨ha, f, haff, hrel⟩ => ?_⟩
    have hseen : ∀ g, ss.RelevantFluent reachable g → g ∈ r.seen := by
      intro g hg
      induction hg with
      | goal hg => exact hr.seeds _ (mem_relevanceSeeds.mpr (.inl hg))
      | timed hb hg => exact hr.seeds _ (mem_relevanceSeeds.mpr (.inr ⟨_, hb, hg⟩))
      | dependency _ hb haff hg ih =>
        exact hr.closed _ ih (hnil ▸ List.not_mem_nil) _ (mem_relevanceNext.mpr ⟨_, hb, haff, hg⟩)
    exact hr.complete f (hseen f hrel) (hnil ▸ List.not_mem_nil) a (mem_actionsAffecting.mpr ⟨ha, haff⟩)
  · -- all reachable actions are relevant already
    split_ifs at hend with hlt
    obtain rfl := Sum.inl.inj hend
    refine ⟨hsound a, fun ⟨ha, _⟩ => ?_⟩
    have hsub : r.relevantActions ⊆ reachable := fun b hb => (hsound b hb).1
    rwa [Finset.eq_of_subset_of_card_le hsub (not_lt.mp hlt)]

/-! ### Plans without their irrelevant actions -/

/-- What the encoder promises of the timed action: what it opens and never closes is a final goal, and
its effects have values in every state. -/
structure TimedDefined [Callables] (ss : SearchSpace) (domains : List FluentDomain) : Prop where
  startConditions : ∀ a le, ss.timedAction = some a → ss.events a = some le → ∀ te ∈ le,
    ∀ x ∈ te.2.startConditions, ∀ f ∈ getFluents x, f ∈ getFluents ss.goal ∨ f ∈ ss.actionReadFluents a
  effects : ∀ a le, ss.timedAction = some a → ss.events a = some le → ∀ te ∈ le, ∀ eff ∈ te.2.effects,
    ∀ assignments, DeleteRelaxationHeuristic.Reads domains assignments →
      ∃ v, evaluate eff.value assignments = some v

theorem mem_actionReadFluents {a : Action} {le : List (Timing × Event)} (hle : ss.events a = some le)
    {te : Timing × Event} (hte : te ∈ le) {x : Expression}
    (hx : x ∈ te.2.conditions :: te.2.endConditions) {f : Fluent} (hf : f ∈ getFluents x) :
    f ∈ ss.actionReadFluents a := by
  refine Finset.mem_union_left _ (List.mem_toFinset.mpr (List.mem_flatMap.mpr ⟨te, ?_, ?_⟩))
  · rwa [hle]
  · rcases List.mem_cons.mp hx with rfl | hx
    · exact List.mem_append_left _ hf
    · exact List.mem_append_right _ (List.mem_flatMap.mpr ⟨x, hx, hf⟩)

theorem mem_actionReadFluents_duration {a : Action} {d : Duration} (hd : ss.duration a = some d)
    {x : Expression} (hx : x ∈ [d.lower, d.upper]) {f : Fluent} (hf : f ∈ getFluents x) :
    f ∈ ss.actionReadFluents a := by
  refine Finset.mem_union_right _ ?_
  rw [hd]
  refine List.mem_toFinset.mpr (List.mem_append.mpr ?_)
  rcases List.mem_pair.mp hx with rfl | rfl
  · exact .inl hf
  · exact .inr hf

theorem mem_affectedFluents {a : Action} {le : List (Timing × Event)} (hle : ss.events a = some le)
    {te : Timing × Event} (hte : te ∈ le) {eff : Effect} (he : eff ∈ te.2.effects) :
    eff.fluent ∈ ss.affectedFluents a := by
  refine List.mem_toFinset.mpr (List.mem_flatMap.mpr ⟨te, ?_, List.mem_map_of_mem he⟩)
  rwa [hle]

theorem mem_effectReadFluents {a : Action} {le : List (Timing × Event)} (hle : ss.events a = some le)
    {te : Timing × Event} (hte : te ∈ le) {eff : Effect} (he : eff ∈ te.2.effects) {f : Fluent}
    (hf : f ∈ getFluents eff.value) : f ∈ ss.effectReadFluents a := by
  refine List.mem_toFinset.mpr (List.mem_flatMap.mpr ⟨te, ?_, List.mem_flatMap.mpr ⟨eff, he, hf⟩⟩)
  rwa [hle]

/-- An interval condition of an action is closed by the action too, unless it is the timed one. -/
theorem mem_endConditions {a : Action} {le : List (Timing × Event)} (hle : ss.events a = some le)
    (ht : ss.timedAction ≠ some a) {te : Timing × Event} (hte : te ∈ le) {x : Expression}
    (hx : x ∈ te.2.startConditions) : ∃ te' ∈ le, x ∈ te'.2.endConditions := by
  have hmem : x ∈ opened le := Multiset.mem_coe.mpr (List.mem_flatMap.mpr ⟨te, hte, hx⟩)
  rw [ss.events_balanced ht hle] at hmem
  exact List.mem_flatMap.mp (Multiset.mem_coe.mp hmem)

/-- The irrelevant ones among reachable actions can be left out. -/
theorem sliceable_relevant [Callables] {domains : List FluentDomain} {relevant : Finset Action}
    {as : List Action} (hnested : ∀ a le, ss.events a = some le → NestedEvents le)
    (htimed : TimedDefined ss domains) (hreach : ∀ a ∈ as, a ∈ reachable)
    (hrelevant : ∀ a, a ∈ relevant ↔
      a ∈ reachable ∧ ∃ f ∈ ss.affectedFluents a, ss.RelevantFluent reachable f) :
    Sliceable ss.withoutSymmetry {f | ss.RelevantFluent reachable f}
      (fun a => a ∈ relevant ∨ ss.timedAction = some a) (DeleteRelaxationHeuristic.Reads domains) as := by
  have hdepends : ∀ {a f}, a ∈ relevant → f ∈ ss.dependencyFluents a → ss.RelevantFluent reachable f := by
    intro a f ha hf
    obtain ⟨ha, g, haff, hg⟩ := (hrelevant a).mp ha
    exact .dependency hg ha haff hf
  have hreads : ∀ {a f}, a ∈ relevant ∨ ss.timedAction = some a → f ∈ ss.actionReadFluents a →
      ss.RelevantFluent reachable f := by
    rintro a f (ha | ha) hf
    · exact hdepends ha (Finset.mem_union_left _ hf)
    · exact .timed ha hf
  refine ⟨fun a ha => decide_eq_true (.inr ha), hnested, fun _ _ => rfl,
    fun a le hkeep hle te hte x hx f hf => ?_,
    fun a d hkeep hd x hx f hf => hreads (of_decide_eq_true hkeep) (mem_actionReadFluents_duration hd hx hf),
    fun a ha hkeep le hle te hte eff he => ?_, fun a ha hkeep le hle te hte eff he hf => ?_,
    fun f hf => .goal hf⟩
  · have hkeep := of_decide_eq_true hkeep
    rcases List.mem_cons.mp hx with rfl | hx
    · exact hreads hkeep (mem_actionReadFluents hle hte List.mem_cons_self hf)
    · by_cases ht : ss.timedAction = some a
      · rcases htimed.startConditions a le ht hle te hte x hx f hf with hf | hf
        · exact .goal hf
        · exact .timed ht hf
      · obtain ⟨te', hte', hx'⟩ := mem_endConditions hle ht hte hx
        exact hreads hkeep (mem_actionReadFluents hle hte' (List.mem_cons_of_mem _ hx') hf)
  · rcases of_decide_eq_true hkeep with hmem | ht
    · exact .inl fun f hf => hdepends hmem (Finset.mem_union_right _ (mem_effectReadFluents hle hte he hf))
    · -- an effect of the timed action
      by_cases hf : ss.RelevantFluent reachable eff.fluent
      · have hmem := (hrelevant a).mpr ⟨hreach a ha, eff.fluent, mem_affectedFluents hle hte he, hf⟩
        exact .inl fun f hf => hdepends hmem (Finset.mem_union_right _ (mem_effectReadFluents hle hte he hf))
      · exact .inr ⟨hf, fun assignments hr => htimed.effects a le ht hle te hte eff he assignments hr⟩
  · have hnot := of_decide_eq_false hkeep
    exact hnot (.inl ((hrelevant a).mpr ⟨hreach a ha, eff.fluent, mem_affectedFluents hle hte he, hf⟩))

section Plans

open DeleteRelaxationHeuristic

variable [Callables] {h : DeleteRelaxationHeuristic} {domains : List FluentDomain}
  {events : List (Action × List (Timing × Event))} {tn : DeltaSimpleTemporalNetwork} {n : ℕ} {s₀ : State}
  {as allActions : List Action}

/-- What the search accepts it accepts without the irrelevant actions, whatever the order of
equal costs and of the elements of a set. -/
theorem acceptedWithin_relevantActions (hx : tn.Exact)
    (hnew : new .hmax domains events ss.goal ss.timedAction false false = some h)
    (henc : HeuristicEncoding ss events domains) (hactions : ∀ a le, ss.events a = some le → a ∈ allActions)
    (hnested : ∀ a le, ss.events a = some le → NestedEvents le) (htimed : TimedDefined ss domains)
    (h₀ : ss.initial tn n = some s₀) (hvalues : h.HasValues s₀.assignments)
    (hacc : Accepted ss tn false as) :
    ∃ relevant, (∀ queue fluents actions, ∃ k, ∀ fuel ≥ k,
        ss.computeRelevantActions h queue fluents actions allActions (some s₀) fuel =
          some (some relevant)) ∧
      AcceptedWithin ss.withoutSymmetry tn false relevant (as.filter (· ∈ relevant)) := by
  have hb : Built .hmax domains events ss.withoutSymmetry.goal ss.withoutSymmetry.timedAction false false h :=
    new_spec hnew
  have henc' : HeuristicEncoding ss.withoutSymmetry events domains :=
    ⟨henc.events_iff, henc.initial, henc.conditions, henc.goal, henc.effects⟩
  have hwith : AcceptedWithin ss tn false as as := ⟨hacc, fun _ ha => ha⟩
  have hacc' : Accepted ss.withoutSymmetry tn false as := (acceptedWithin_withoutSymmetry hwith).1
  obtain ⟨c, ids, hc, href, -⟩ := refines_initial h₀
  have hv : (h.relaxedTask s₀.assignments s₀.todo).Valid := valid_relaxedTask hb henc' hvalues
  obtain ⟨reachable, hreachable, hmem⟩ := exists_reachableActions hv hvalues
  obtain ⟨-, relevant, -, hrelevant⟩ := @exists_relevant ss reachable ⟨Finset.toList, Finset.mem_toList⟩
    ⟨Finset.toList, Finset.mem_toList⟩
  have hreach : ∀ a ∈ as, a ∈ reachable := by
    obtain ⟨c₀, c', hc₀, hrun, hg, -⟩ := (accepted_iff hx).mp hacc'
    obtain rfl : c = c₀ := Option.some.inj (hc.symm.trans hc₀)
    have htask := relaxedTask_of_shows (h := h) href.shows
    have hlower := RelaxedTask.lowerBound_least hv
    rw [href.assignments] at hvalues
    generalize (RelaxedTask.system hv).least = y at hlower hmem
    rw [htask] at hlower hmem hv
    exact fun a ha => (hmem a).mpr (plan_reached hb henc' hc₀ hv hvalues hlower hrun hg a ha)
  have hkeep : ∀ a ∈ as, (a ∈ allActions.filter fun a => a ∈ relevant ∨ ss.timedAction = some a) ↔
      a ∈ relevant ∨ ss.timedAction = some a := by
    intro a ha
    obtain ⟨⟨o, ho, hoa⟩, -⟩ := (hmem a).mp (hreach a ha)
    obtain ⟨base, a', le, i, te, hlayout, -, hof⟩ := hb.operators.mp ho
    obtain rfl : a' = a := (action_of_ofEvent hof).symm.trans hoa
    have hlayout' : (base, a', le) ∈ layout domains.length events := hb.layout_eq ▸ hlayout
    have hall := hactions a' le (henc.events_iff.mp (mem_layout hlayout').2)
    rw [List.mem_filter, decide_eq_true_eq]
    exact and_iff_right hall
  refine ⟨allActions.filter fun a => a ∈ relevant ∨ ss.timedAction = some a, fun queue fluents actions => ?_,
    ?_, fun a ha => of_decide_eq_true (List.mem_filter.mp ha).2⟩
  · obtain ⟨k, hk⟩ := hreachable queue
    obtain ⟨k', relevant', hwalk, hrelevant'⟩ := @exists_relevant ss reachable fluents actions
    obtain rfl : relevant' = relevant := Finset.ext fun a => (hrelevant' a).trans (hrelevant a).symm
    refine ⟨max k k', fun fuel hfuel => ?_⟩
    rw [computeRelevantActions]
    simp only [hk fuel (le_of_max_le_left hfuel), iterate_of_le hwalk (le_of_max_le_right hfuel)]
  · have hsl := sliceable_relevant hnested htimed hreach hrelevant
    have hfilter := accepted_filter hx hsl (fun c hc => reads_of_reachable henc' hc) hacc'
    rwa [List.filter_congr fun a ha => decide_eq_decide.mpr (hkeep a ha)]

end Plans

end SearchSpace

section Savings

attribute [local instance] Callables.empty

theorem savings_nested (a : Action) (le : List (Timing × Event)) (hle : savingsSpace.events a = some le) :
    NestedEvents le := by
  have hends : ∀ te ∈ le, te.2.endConditions = [] := by
    intro te hte
    obtain ⟨k, hk⟩ := List.getElem?_of_mem hte
    exact (savings_event (Option.bind_eq_some_iff.mpr ⟨le, hle, hk⟩)).2.1
  intro k
  have hzero : closed (le.take (k + 1)) = 0 := by
    refine (Multiset.coe_eq_zero _).mpr (List.flatMap_eq_nil_iff.mpr fun te hte => ?_)
    exact hends te (List.mem_of_mem_take hte)
  rw [hzero]
  exact Multiset.zero_le _

theorem savings_accepted : Accepted savingsSpace .earliest false [⟨0⟩, ⟨0⟩, ⟨1⟩] := by
  have hrun : ((Config.initial savingsSpace).bind fun c => (c.run savingsSpace [⟨0⟩, ⟨0⟩, ⟨1⟩]).map fun c =>
      c.goalReached savingsSpace) = some true := by decide +kernel
  obtain ⟨c₀, h₀, hrun⟩ := Option.bind_eq_some_iff.mp hrun
  obtain ⟨c, hc, hg⟩ := Option.map_eq_some_iff.mp hrun
  exact (accepted_iff DeltaSimpleTemporalNetwork.earliest_exact).mpr ⟨c₀, c, h₀, hc, hg, fun htemp => by
    cases htemp⟩

theorem acceptedWithin_relevantActions_savings : ∃ relevant,
    (∀ queue fluents actions, ∃ k, ∀ fuel ≥ k, savingsSpace.computeRelevantActions savingsHmax queue fluents
      actions ((List.range 4).map Action.mk) (some savingsStart) fuel = some (some relevant)) ∧
    AcceptedWithin savingsSpace.withoutSymmetry .earliest false relevant
      ([⟨0⟩, ⟨0⟩, ⟨1⟩].filter (· ∈ relevant)) := by
  have h₀ : savingsSpace.initial .earliest 0 = some savingsStart := rfl
  refine SearchSpace.acceptedWithin_relevantActions DeltaSimpleTemporalNetwork.earliest_exact savingsHmax_eq
    savings_encoding (fun a le hle => ?_) savings_nested
    ⟨fun a le ht => (by cases ht), fun a le ht => (by cases ht)⟩
    h₀ savings_hasValues savings_accepted
  have hmem : (a, le) ∈ savingsEvents := savingsSpace_events.mpr hle
  obtain ⟨p, hp, heq⟩ := List.mem_map.mp hmem
  obtain ⟨rfl, -⟩ := Prod.mk.inj heq
  have hlt : p.2 < 4 := List.snd_lt_of_mem_zipIdx hp
  exact List.mem_map.mpr ⟨p.2, List.mem_range.mpr hlt, rfl⟩

end Savings

end TamerLite
