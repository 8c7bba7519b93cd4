import TamerLite.Dedup
import TamerLite.SearchTree

/-! What the searches over temporal problems rely on when they drop duplicate and
dominated states: whatever lies ahead of a dropped state lies as near ahead of one
that was recorded before it. -/

namespace TamerLite

open Difference SearchSpace

section

variable [Callables]

/-- A goal lies `k` relevant actions ahead of a node. -/
def Ahead (ss : SearchSpace) (tn : DeltaSimpleTemporalNetwork) (relevantActions : List Action) (k : ℕ)
    (n : TreeNode) : Prop :=
  ∃ as, as.length = k ∧ AcceptedWithin ss tn true relevantActions (n.2 ++ as)

/-- What dropping states rests on: no symmetry breaking, weak equality on classical
problems only, and, where makespans are compared, no tolerance in that test and no action
that opens with a negative least duration. -/
structure PruningSafe (ss : SearchSpace) (tn : DeltaSimpleTemporalNetwork)
    (relevantActions : List Action) (weakEquality : Bool) : Prop where
  exact : tn.Exact
  symmetry : ∀ done a, ss.symmetryAllowsOpening done a = true
  weak : weakEquality = true → ¬ ss.isTemporal = true
  tolerance : ss.deadline.isSome = true ∨ ss.timedAction.isSome = true → tn.tolerance = 0
  nonneg : ss.deadline.isSome = true ∨ ss.timedAction.isSome = true → ∀ as s d a,
    Leads ss tn relevantActions as s d → a ∈ relevantActions → OpensNonneg ss s a

end

variable {ss : SearchSpace} {tn : DeltaSimpleTemporalNetwork} {relevantActions as bs : List Action}
  {weakEquality : Bool} {s t : State} {d e k : ℕ} {n m : TreeNode} {c c₀ : Config}

/-! ### Dropped states -/

theorem rule_of_classical (ht : ¬ ss.isTemporal = true) :
    VisitedStates.rule ss weakEquality s = VisitedStates.rule ss false s := by
  simp [VisitedStates.rule, DedupPolicy.of, ht]

theorem VisitedStates.Discards.strong (h : VisitedStates.Discards ss tn weakEquality t s)
    (hweak : weakEquality = true → ¬ ss.isTemporal = true) : VisitedStates.Discards ss tn false t s := by
  cases weakEquality with
  | false => exact h
  | true =>
    obtain ⟨hrep, hrule⟩ := h
    rw [rule_of_classical (hweak rfl)] at hrule
    exact ⟨hrep, hrule⟩

/-- Makespans are compared only where a deadline or a timed action asks for it. -/
theorem deadline_or_timed_of_rule
    (h : VisitedStates.rule ss false s = some .dominance) :
    ss.deadline.isSome = true ∨ ss.timedAction.isSome = true := by
  by_contra hno
  rw [not_or, Bool.not_eq_true, Bool.not_eq_true, Option.isSome_eq_false_iff,
    Option.isSome_eq_false_iff, Option.isNone_iff_eq_none, Option.isNone_iff_eq_none] at hno
  simp only [VisitedStates.rule, DedupPolicy.of, DedupPolicy.rule, hno.1, hno.2, Option.isSome_none,
    Option.any_none, Bool.and_false, Bool.false_eq_true, if_false] at h
  split_ifs at h <;> simp_all

variable [Callables]

/-- No instance on the way to a state has a negative least duration. -/
theorem nonneg_of_leads (hx : tn.Exact) (hnonneg : ∀ as s d a,
      Leads ss tn relevantActions as s d → a ∈ relevantActions → OpensNonneg ss s a)
    (h : Leads ss tn relevantActions as s d) (hc₀ : Config.initial ss = some c₀)
    (hc : c₀.runWith ss true as = some c) : ∀ i ∈ c.instances, 0 ≤ i.lower := by
  obtain ⟨⟨n, s₀, m, h₀, hr, -⟩, hrel⟩ := h
  generalize hstart : initialCounter ss n = start at hr
  induction hr generalizing c with
  | refl =>
    obtain rfl := Option.some.inj hc
    exact nonneg_initial hc₀
  | @step t u _ c' d as a hr hd hs ih =>
    subst hstart
    have hrel' : ∀ x ∈ as, x ∈ relevantActions := fun x hx => hrel x (List.mem_append_left _ hx)
    obtain ⟨c₁, hc₁, hstep⟩ := Config.runWith_concat.mp hc
    obtain ⟨is, his, hnew⟩ := new_of_stepWith hstep
    intro i hi
    rw [his] at hi
    rcases List.mem_append.mp hi with hi | hi
    · exact ih hc₁ hrel' rfl i hi
    · obtain ⟨c₂, c₃, ids, hc₂, hc₃, href, -⟩ := config_of_run hx h₀ hr
      obtain rfl := Option.some.inj (hc₀.symm.trans hc₂)
      obtain rfl := Option.some.inj (hc₁.symm.trans hc₃)
      obtain ⟨-, -, -, hl, hb⟩ := hnew i hi
      have hleads : Leads ss tn relevantActions as t d := ⟨⟨n, s₀, c', h₀, hr, hd⟩, hrel'⟩
      refine hnonneg as t d a hleads (hrel a (by simp)) ?_ (i.lower, i.upper) ?_
      · rw [href.todo, hl, Option.map_none]
      · rw [href.assignments]
        exact hb

/-- What lies ahead of a dropped state lies as near ahead of the one that was recorded. -/
theorem ahead_of_discards (hp : PruningSafe ss tn relevantActions weakEquality)
    (hm : Leads ss tn relevantActions m.2 m.1 d) (hn : Leads ss tn relevantActions n.2 n.1 e)
    (hdis : VisitedStates.Discards ss tn weakEquality m.1 n.1) (h : Ahead ss tn relevantActions k n) :
    Ahead ss tn relevantActions k m := by
  have hx := hp.exact
  have hdis' := hdis.strong hp.weak
  obtain ⟨⟨x₁, s₁, m₁, h₁, hr₁, hm₁⟩, hrel₁⟩ := hm
  obtain ⟨c₀, c₁, ids₁, hc₀, hc₁, href₁, hsch₁⟩ := config_of_run hx h₁ hr₁
  have hreach₁ : Config.Reachable ss true c₁ := ⟨c₀, m.2, hc₀, hc₁⟩
  obtain ⟨⟨x₂, s₂, m₂, h₂, hr₂, hm₂⟩, -⟩ := id hn
  obtain ⟨c₀', c₂, ids₂, hc₀', hc₂, href₂, -⟩ := config_of_run hx h₂ hr₂
  obtain rfl := Option.some.inj (hc₀.symm.trans hc₀')
  have hreach₂ : Config.Reachable ss true c₂ := ⟨c₀, n.2, hc₀, hc₂⟩
  obtain ⟨as, hlen, ⟨hacc, hrel⟩⟩ := h
  obtain ⟨c₀', d₂, hc₀', hd₂, hg, hsch⟩ := (accepted_iff_runWith hx).mp hacc
  obtain rfl := Option.some.inj (hc₀.symm.trans hc₀')
  have hreach : Config.Reachable ss true d₂ := ⟨c₀, n.2 ++ as, hc₀, hd₂⟩
  rw [Config.runWith_append, hc₂, Option.bind_some] at hd₂
  have hsame := sameFuture_of_discards href₁ hreach₁.wellFormed href₂ hreach₂.wellFormed hdis' nofun
  obtain ⟨d₁, is, ps, hd₁, hmir⟩ := (hsame.mirrors hreach₁ hreach₂).runWith hp.symmetry hd₂
  have hsch' : Schedulable ss d₁ :=
    schedulable_of_discards hx hreach₁ href₁ hsch₁ hreach₂ href₂ hdis'
      (fun hrule => hdis'.aheadByEpsilon (hp.tolerance (deadline_or_timed_of_rule hrule)) hrule) nofun
      (fun hrule => nonneg_of_leads hx (hp.nonneg (deadline_or_timed_of_rule hrule)) hn hc₀ hc₂)
      hmir hd₂ hreach.progress hsch
  refine ⟨as, hlen, (accepted_iff_runWith hx).mpr ⟨c₀, d₁, hc₀, ?_, ?_, hsch'⟩, fun a ha => ?_⟩
  · rw [Config.runWith_append, hc₁, Option.bind_some, hd₁]
  · rw [hmir.goalReached_eq]
    exact hg
  · rcases List.mem_append.mp ha with ha | ha
    · exact hrel₁ a ha
    · exact hrel a (List.mem_append_right _ ha)

/-- Of the states handed to a store, it records those that make up for the others. -/
theorem exists_fresh (hp : PruningSafe ss tn relevantActions weakEquality) {handed new : List TreeNode}
    (hleads : ∀ n ∈ handed ++ new, Leads ss tn relevantActions n.2 n.1 d) : ∃ fresh : List TreeNode,
      fresh.map Prod.fst = (VisitedStates.ofStates ss tn weakEquality (handed.map Prod.fst)).fresh ss tn
        weakEquality (new.map Prod.fst) ∧
      (∀ n ∈ fresh, n ∈ new) ∧
      ∀ n ∈ new, ∀ k, Ahead ss tn relevantActions k n →
        ∃ m, (m ∈ handed ∨ m ∈ fresh) ∧ Ahead ss tn relevantActions k m := by
  induction new generalizing handed with
  | nil => exact ⟨[], rfl, by simp, by simp⟩
  | cons n new ih =>
    obtain ⟨fresh, hmap, hsub, hall⟩ := @ih (handed ++ [n]) (by simpa using hleads)
    have hstore : VisitedStates.ofStates ss tn weakEquality ((handed ++ [n]).map Prod.fst) =
        (VisitedStates.ofStates ss tn weakEquality (handed.map Prod.fst)).insert ss tn weakEquality n.1 := by
      rw [List.map_append, VisitedStates.ofStates, List.foldl_append]
      rfl
    rw [hstore] at hmap
    rw [List.map_cons, VisitedStates.fresh]
    by_cases hr : VisitedStates.isRedundant ss tn weakEquality
        (VisitedStates.ofStates ss tn weakEquality (handed.map Prod.fst)) n.1 = true
    · rw [if_pos hr]
      obtain ⟨t, ht, hdis⟩ := (VisitedStates.records_ofStates _).discards hr
      obtain ⟨m, hm, rfl⟩ := List.mem_map.mp ht
      have hmake : ∀ k, Ahead ss tn relevantActions k n → Ahead ss tn relevantActions k m := fun k hk =>
        ahead_of_discards hp (hleads m (List.mem_append_left _ hm)) (hleads n (by simp)) hdis hk
      refine ⟨fresh, hmap, fun x hx => List.mem_cons_of_mem _ (hsub x hx), fun x hx k hk => ?_⟩
      rcases List.mem_cons.mp hx with rfl | hx
      · exact ⟨m, .inl hm, hmake k hk⟩
      · obtain ⟨o, ho, hok⟩ := hall x hx k hk
        rcases ho with ho | ho
        · rcases List.mem_append.mp ho with ho | ho
          · exact ⟨o, .inl ho, hok⟩
          · obtain rfl := List.mem_singleton.mp ho
            exact ⟨m, .inl hm, hmake k hok⟩
        · exact ⟨o, .inr ho, hok⟩
    · rw [if_neg hr]
      refine ⟨n :: fresh, by rw [List.map_cons, hmap], fun x hx => ?_, fun x hx k hk => ?_⟩
      · rcases List.mem_cons.mp hx with rfl | hx
        · exact List.mem_cons_self
        · exact List.mem_cons_of_mem _ (hsub x hx)
      · rcases List.mem_cons.mp hx with rfl | hx
        · exact ⟨x, .inr List.mem_cons_self, hk⟩
        · obtain ⟨o, ho, hok⟩ := hall x hx k hk
          rcases ho with ho | ho
          · rcases List.mem_append.mp ho with ho | ho
            · exact ⟨o, .inl ho, hok⟩
            · exact ⟨o, .inr (List.mem_singleton.mp ho ▸ List.mem_cons_self), hok⟩
          · exact ⟨o, .inr (List.mem_cons_of_mem _ ho), hok⟩

/-- A heuristic that sees goals evaluates the nodes one lies ahead of. -/
theorem SeesGoals.isSome {V : Type} {heuristic : State → Option V} (hx : tn.Exact)
    (hh : SeesGoals ss tn relevantActions heuristic) (hn : Leads ss tn relevantActions n.2 n.1 d)
    (h : Ahead ss tn relevantActions k n) : (heuristic n.1).isSome = true := by
  obtain ⟨⟨x, s₀, m, h₀, hr, -⟩, hrel⟩ := hn
  obtain ⟨c₀, c, ids, hc₀, hc, href, hsch⟩ := config_of_run hx h₀ hr
  obtain ⟨as, -, hacc, hrel'⟩ := h
  obtain ⟨c₀', c', hc₀', hc', hg, hsch'⟩ := (accepted_iff_runWith hx).mp hacc
  obtain rfl := Option.some.inj (hc₀.symm.trans hc₀')
  rw [Config.runWith_append, hc, Option.bind_some] at hc'
  have hwf := (Config.wellFormed_initial hc₀).runWith hc
  obtain ⟨t, e, hrun, hgoal⟩ := (href.acceptedFrom_iff hx hwf hsch).mpr ⟨c', hc', hg, hsch'⟩
  exact hh n.1 m ⟨x, s₀, m, n.2, h₀, hr, le_rfl, hrel⟩
    ⟨as, t, e, fun a ha => hrel' a (List.mem_append_right _ ha), hrun, hgoal⟩

end TamerLite
