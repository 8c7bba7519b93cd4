import TamerLite.SharedCounter

/-! The tree of the steps a search takes: which states the steps lead to, and
what a search over it may answer. -/

namespace TamerLite

open SearchSpace

variable [Callables] {ss : SearchSpace} {tn : DeltaSimpleTemporalNetwork}
  {relevantActions actions as bs : List Action} {s t : State} {a : Action} {d e : ℕ}

theorem counterAfter_of_successor (h : ss.getSuccessorState tn d s a = some t) :
    ss.advance d s a ≤ counterAfter ss d s a := by
  rw [counterAfter]
  by_cases hreach : ss.reachesOpening s a = true
  · rw [if_pos hreach]
  · rw [if_neg hreach]
    obtain ⟨u, hu⟩ : ∃ u, ss.getSuccessorStateWithCompression tn d s a false = some u := by
      rcases getSuccessorStateWithCompression_eq_some.mp h with ⟨-, h⟩ | ⟨-, le, u, next, -, hu, -⟩
      · exact ⟨t, h⟩
      · exact ⟨u, hu⟩
    rcases getSuccessorState_eq_some.mp hu with ⟨le, k, id, te, -, hl, -⟩ |
      ⟨le, te, hle, hl, htimed, hsym, hte, hc, hi, -⟩
    · simp [advance, hl]
    · have hev : ss.event a 0 = some te := by
        rw [SearchSpace.event, hle]
        exact hte
      exact absurd (by simp [reachesOpening, hl, htimed, hsym, hev, hc, hi]) hreach

/-- The relevant actions `as`, taken step by step, lead to `s`, with the id counter
no further than `d`. -/
def Leads (ss : SearchSpace) (tn : DeltaSimpleTemporalNetwork) (relevantActions as : List Action)
    (s : State) (d : ℕ) : Prop :=
  (∃ n s₀ m, ss.initial tn n = some s₀ ∧ Run ss tn true s₀ (initialCounter ss n) as s m ∧ m ≤ d) ∧
    ∀ a ∈ as, a ∈ relevantActions

namespace Leads

theorem initial (h : ss.initial tn d = some s) :
    Leads ss tn relevantActions [] s (initialCounter ss d) :=
  ⟨⟨d, s, _, h, .refl _ _, le_rfl⟩, by simp⟩

theorem mono (h : Leads ss tn relevantActions as s d) (hd : d ≤ e) :
    Leads ss tn relevantActions as s e := by
  obtain ⟨⟨n, s₀, m, h₀, hr, hm⟩, hrel⟩ := h
  exact ⟨⟨n, s₀, m, h₀, hr, hm.trans hd⟩, hrel⟩

theorem step (h : Leads ss tn relevantActions as s d) (ha : a ∈ relevantActions)
    (hs : ss.getSuccessorState tn d s a = some t) :
    Leads ss tn relevantActions (as ++ [a]) t (counterAfter ss d s a) := by
  obtain ⟨⟨n, s₀, m, h₀, hr, hm⟩, hrel⟩ := h
  refine ⟨⟨n, s₀, _, h₀, hr.step hm hs, counterAfter_of_successor hs⟩, fun x hx => ?_⟩
  rcases List.mem_append.mp hx with hx | hx
  · exact hrel x hx
  · exact List.mem_singleton.mp hx ▸ ha

theorem goalReached_iff (hx : tn.Exact) (h : Leads ss tn relevantActions as s d) :
    ss.goalReached s = true ↔ AcceptedWithin ss tn true relevantActions as := by
  obtain ⟨⟨n, s₀, m, h₀, hr, -⟩, hrel⟩ := h
  constructor
  · exact fun hg => ⟨⟨n, s₀, s, m, h₀, hr, hg⟩, hrel⟩
  · intro hacc
    obtain ⟨c₀, c, ids, hc₀, hc, href, -⟩ := config_of_run hx h₀ hr
    obtain ⟨c₁, c', hc₁, hc', hg, -⟩ := (accepted_iff_runWith hx).mp hacc.1
    obtain rfl := Option.some.inj (hc₀.symm.trans hc₁)
    obtain rfl := Option.some.inj (hc.symm.trans hc')
    rw [href.goalReached_eq]
    exact hg

/-- A step towards a goal is a successor, wherever the id counter is. -/
theorem exists_successor (hx : tn.Exact) (h : Leads ss tn relevantActions as s d)
    (hacc : AcceptedWithin ss tn true relevantActions bs) (hpre : as ++ [a] <+: bs) :
    ∃ t, ss.getSuccessorState tn d s a = some t := by
  obtain ⟨⟨n, s₀, m, h₀, hr, hm⟩, -⟩ := h
  obtain ⟨c₀, c, ids, hc₀, hc, href, -⟩ := config_of_run hx h₀ hr
  obtain ⟨c₁, c', hc₁, hc', -, hsch⟩ := (accepted_iff_runWith hx).mp hacc.1
  obtain rfl := Option.some.inj (hc₀.symm.trans hc₁)
  obtain ⟨tail, rfl⟩ := hpre
  rw [Config.runWith_append, Option.bind_eq_some_iff] at hc'
  obtain ⟨c₂, hc₂, htail⟩ := hc'
  obtain ⟨c₃, hc₃, hstep⟩ := Config.runWith_concat.mp hc₂
  obtain rfl := Option.some.inj (hc.symm.trans hc₃)
  have hwf := (Config.wellFormed_initial hc₀).runWith hc
  have hsch₂ := hsch.of_runWith (hwf.stepWith hstep) htail
  obtain ⟨t, -, ht, -⟩ := href.stepWith hx hwf hm hstep hsch₂
  exact ⟨t, ht⟩

end Leads

theorem reachableWithin_iff : ReachableWithin ss tn true relevantActions s d ↔
    ∃ as, Leads ss tn relevantActions as s d := by
  constructor
  · rintro ⟨n, s₀, m, as, h₀, hr, hm, hrel⟩
    exact ⟨as, ⟨n, s₀, m, h₀, hr, hm⟩, hrel⟩
  · rintro ⟨as, ⟨n, s₀, m, h₀, hr, hm⟩, hrel⟩
    exact ⟨n, s₀, m, as, h₀, hr, hm, hrel⟩

theorem ReachableWithin.mono (h : ReachableWithin ss tn true relevantActions s d) (hd : d ≤ e) :
    ReachableWithin ss tn true relevantActions s e := by
  obtain ⟨n, s₀, m, as, h₀, hr, hm, hrel⟩ := h
  exact ⟨n, s₀, m, as, h₀, hr, hm.trans hd, hrel⟩

/-- What a search may answer. -/
def RightAnswer (ss : SearchSpace) (tn : DeltaSimpleTemporalNetwork) (relevantActions : List Action)
    (maxExpandedStates : Option ℕ) : SearchOutcome → Prop
  | .path p => ∃ as s d, Leads ss tn relevantActions as s d ∧ ss.goalReached s = true ∧
      p = extractPath s
  | .noPath => ∀ as, ¬ AcceptedWithin ss tn true relevantActions as
  | .expansionLimitReached => maxExpandedStates ≠ none
  | .raised => False

theorem not_accepted_of_initial (hx : tn.Exact) (h : ss.initial tn d = none) :
    ¬ AcceptedWithin ss tn true relevantActions as := by
  intro hacc
  obtain ⟨c₀, c, hc₀, hc, -, hsch⟩ := (accepted_iff_runWith hx).mp hacc.1
  obtain ⟨s₀, s, m, ids, h₀, -⟩ := exists_run hx hc₀ hc hsch d
  rw [h] at h₀
  contradiction

/-- A state and the steps that lead to it. -/
abbrev TreeNode : Type := State × List Action

/-- The successors with the steps that lead to them. -/
theorem exists_treeNodes (hx : tn.Exact) (h : Leads ss tn relevantActions as s d)
    (hrel : ∀ a ∈ actions, a ∈ relevantActions) : ∃ nodes : List TreeNode,
      nodes.map Prod.fst = (ss.getSuccessorStates tn d s actions).1 ∧
      nodes.length ≤ actions.length ∧ d ≤ (ss.getSuccessorStates tn d s actions).2 ∧
      (∀ n ∈ nodes, Leads ss tn relevantActions n.2 n.1 (ss.getSuccessorStates tn d s actions).2 ∧
        n.2.length = as.length + 1) ∧
      ∀ bs, AcceptedWithin ss tn true relevantActions bs → ∀ a ∈ actions, as ++ [a] <+: bs →
        as ++ [a] ∈ nodes.map Prod.snd := by
  induction actions generalizing d with
  | nil => exact ⟨[], rfl, le_rfl, le_rfl, by simp, by simp⟩
  | cons a actions ih =>
    have hle : d ≤ counterAfter ss d s a := le_counterAfter
    obtain ⟨nodes, hmap, hlen, hd, hnodes, hall⟩ := ih (h.mono hle)
      fun x hx => hrel x (List.mem_cons_of_mem _ hx)
    have hrest : ss.getSuccessorStates tn d s (a :: actions) =
        ((ss.getSuccessorState tn d s a).toList ++
          (ss.getSuccessorStates tn (counterAfter ss d s a) s actions).1,
          (ss.getSuccessorStates tn (counterAfter ss d s a) s actions).2) := rfl
    rw [hrest]
    cases hs : ss.getSuccessorState tn d s a with
    | none =>
      refine ⟨nodes, hmap, hlen.trans (Nat.le_succ _), hle.trans hd, hnodes, fun bs hacc x hmem hpre => ?_⟩
      rcases List.mem_cons.mp hmem with rfl | hmem
      · obtain ⟨t, ht⟩ := h.exists_successor hx hacc hpre
        rw [hs] at ht
        contradiction
      · exact hall bs hacc x hmem hpre
    | some t =>
      refine ⟨(t, as ++ [a]) :: nodes, ?_, ?_, hle.trans hd, fun n hn => ?_, fun bs hacc x hmem hpre => ?_⟩
      · rw [List.map_cons, hmap]
        rfl
      · simpa using hlen
      · rcases List.mem_cons.mp hn with rfl | hn
        · exact ⟨(h.step (hrel a List.mem_cons_self) hs).mono hd, by simp⟩
        · exact hnodes n hn
      · rcases List.mem_cons.mp hmem with rfl | hmem
        · exact List.mem_cons_self
        · exact List.mem_cons_of_mem _ (hall bs hacc x hmem hpre)

/-- Wherever the steps lead, its successors are led to by one step more. -/
theorem ReachableWithin.successors (h : ReachableWithin ss tn true relevantActions s d)
    (hrel : ∀ a ∈ actions, a ∈ relevantActions) : d ≤ (ss.getSuccessorStates tn d s actions).2 ∧
      ∀ t ∈ (ss.getSuccessorStates tn d s actions).1,
        ReachableWithin ss tn true relevantActions t (ss.getSuccessorStates tn d s actions).2 := by
  obtain ⟨as, hleads⟩ := reachableWithin_iff.mp h
  induction actions generalizing d with
  | nil => exact ⟨le_rfl, fun t ht => absurd ht List.not_mem_nil⟩
  | cons a actions ih =>
    have hle : d ≤ counterAfter ss d s a := le_counterAfter
    have hnext := hleads.mono hle
    obtain ⟨hd, hall⟩ := ih (reachableWithin_iff.mpr ⟨as, hnext⟩)
      (fun x hx => hrel x (List.mem_cons_of_mem _ hx)) hnext
    have hrest : ss.getSuccessorStates tn d s (a :: actions) =
        ((ss.getSuccessorState tn d s a).toList ++
          (ss.getSuccessorStates tn (counterAfter ss d s a) s actions).1,
          (ss.getSuccessorStates tn (counterAfter ss d s a) s actions).2) := rfl
    rw [hrest]
    refine ⟨hle.trans hd, fun t ht => ?_⟩
    rcases List.mem_append.mp ht with ht | ht
    · have hs : ss.getSuccessorState tn d s a = some t := Option.mem_toList.mp ht
      have hstep := (hleads.step (hrel a List.mem_cons_self) hs).mono hd
      exact reachableWithin_iff.mpr ⟨as ++ [a], hstep⟩
    · exact hall t ht

theorem ReachableWithin.relevantSuccessors (h : ReachableWithin ss tn true relevantActions s d) :
    d ≤ (ss.getSuccessorStates tn d s relevantActions).2 ∧
      ∀ t ∈ (ss.getSuccessorStates tn d s relevantActions).1,
        ReachableWithin ss tn true relevantActions t (ss.getSuccessorStates tn d s relevantActions).2 :=
  h.successors fun _ ha => ha

end TamerLite
