import TamerLite.MemoryBoundedAnswers

/-! What a memory-bounded search loses: it does as the unbounded search until an item is
evicted or the filter and the table of visited states part. -/

namespace TamerLite

open SearchSpace

section Agreement

section Exact

variable {ss : SearchSpace} {weakEquality : Bool} {s : State} {states : List State}

theorem BloomFilter.contains_exact {f : List (List Char)} {key : List Char} :
    BloomFilter.exact.contains f key = true ↔ key ∈ f := decide_eq_true_iff

/-- An exact filter holds the keys of the states it was given, and no others. -/
theorem BloomDedup.exists_of_exact {key : List Char} (h : (BloomDedup.ofStates .exact ss weakEquality
    states).any (BloomFilter.exact.contains · key) = true) :
    ∃ t ∈ states, VisitedStates.rule ss weakEquality t = some .equal ∧ bloomKey t = key := by
  induction states using List.reverseRecOn with
  | nil =>
    rw [BloomDedup.ofStates, List.foldl_nil, BloomDedup.start] at h
    by_cases hpolicy : DedupPolicy.of ss weakEquality = .dominance
    · rw [if_pos hpolicy] at h
      contradiction
    · rw [if_neg hpolicy, Option.any_some, BloomFilter.exact] at h
      simp at h
  | append_singleton states s ih =>
    have hlater : (∃ t ∈ states, VisitedStates.rule ss weakEquality t = some .equal ∧ bloomKey t = key) →
        ∃ t ∈ states ++ [s], VisitedStates.rule ss weakEquality t = some .equal ∧ bloomKey t = key := by
      intro hex
      obtain ⟨t, ht, hr, hk⟩ := hex
      exact ⟨t, List.mem_append_left _ ht, hr, hk⟩
    have hlast : BloomDedup.ofStates .exact ss weakEquality (states ++ [s]) =
        (BloomDedup.insert .exact ss weakEquality
          (BloomDedup.ofStates .exact ss weakEquality states) s).2 := by
      rw [BloomDedup.ofStates, List.foldl_append]
      rfl
    rw [hlast] at h
    cases hf : BloomDedup.ofStates .exact ss weakEquality states with
    | none =>
      rw [hf] at h
      contradiction
    | some f =>
      rw [hf] at h ih
      rw [BloomDedup.insert] at h
      by_cases hrule : VisitedStates.rule ss weakEquality s ≠ some .equal
      · rw [if_pos hrule] at h
        exact hlater (ih h)
      rw [if_neg hrule] at h
      by_cases hmem : BloomFilter.exact.contains f (bloomKey s) = true
      · rw [if_pos hmem] at h
        exact hlater (ih h)
      rw [if_neg hmem] at h
      have hkey := BloomFilter.contains_exact.mp h
      rcases List.mem_cons.mp hkey with hkey | hkey
      · exact ⟨s, by simp, not_not.mp hrule, hkey.symm⟩
      · exact hlater (ih (BloomFilter.contains_exact.mpr hkey))

theorem BloomDedup.not_falsePositive_exact (states : List State) (s : State) :
    ¬ BloomDedup.FalsePositive .exact ss weakEquality states s := by
  intro h
  obtain ⟨t, ht, hr, hk⟩ := BloomDedup.exists_of_exact h.1
  exact h.2 t ht hr hk

end Exact

namespace BoundedSearch

variable {V : Type} {ps : PrioritySearch V} {core : Core} {counter n : ℕ} {given : List State}
  {l l' : PriorityLoop ps.st} {item : ps.st.Item} {rest : List ps.st.Item}

theorem length_fresh_le {ss : SearchSpace} {tn : DeltaSimpleTemporalNetwork} {weakEquality : Bool}
    (v : VisitedStates) (states : List State) :
    (v.fresh ss tn weakEquality states).length ≤ states.length := by
  induction states generalizing v with
  | nil => exact le_rfl
  | cons s states ih =>
    rw [VisitedStates.fresh, List.length_cons]
    by_cases hr : VisitedStates.isRedundant ss tn weakEquality v s = true
    · rw [if_pos hr]
      exact (ih _).trans (Nat.le_succ _)
    · rw [if_neg hr, List.length_cons]
      exact Nat.succ_le_succ (ih _)

/-- The filter and the table part on a state that the filter takes for another, or that
the table drops for its makespan. -/
def Parts (ps : PrioritySearch V) (B : BloomFilter) (given : List State) (s : State) : Prop :=
  VisitedStates.rule ps.ss ps.weakEquality s = some .equal ∧
      BloomDedup.FalsePositive B ps.ss ps.weakEquality given s ∨
    VisitedStates.rule ps.ss ps.weakEquality s = some .dominance ∧
      VisitedStates.isRedundant ps.ss ps.tn ps.weakEquality
        (.ofStates ps.ss ps.tn ps.weakEquality given) s = true

theorem insert_alike {B : BloomFilter} {fluents : List ValueType} {s : State}
    (hgiven : ∀ t ∈ given, t.OfProblem ps.ss fluents) (hs : s.OfProblem ps.ss fluents)
    (hparts : ¬ Parts ps B given s) :
    (BloomDedup.insert B ps.ss ps.weakEquality (BloomDedup.ofStates B ps.ss ps.weakEquality given) s).1 =
      !VisitedStates.isRedundant ps.ss ps.tn ps.weakEquality
        (.ofStates ps.ss ps.tn ps.weakEquality given) s := by
  by_cases hrule : VisitedStates.rule ps.ss ps.weakEquality s = some .equal
  · have hpolicy : DedupPolicy.of ps.ss ps.weakEquality ≠ .dominance := by
      intro hd
      rw [VisitedStates.rule, hd, DedupPolicy.rule] at hrule
      split_ifs at hrule <;> simp_all
    obtain ⟨f, hf, hcontains⟩ := BloomDedup.contains_of_mem B given hpolicy
    rw [hf, BloomDedup.insert, if_neg (not_not_intro hrule)]
    by_cases hmem : B.contains f (bloomKey s) = true
    · rw [if_pos hmem]
      have hnot : ¬ BloomDedup.FalsePositive B ps.ss ps.weakEquality given s := by
        intro hfalse
        exact hparts (.inl ⟨hrule, hfalse⟩)
      have hred : VisitedStates.isRedundant ps.ss ps.tn ps.weakEquality
          (.ofStates ps.ss ps.tn ps.weakEquality given) s = true := by
        rw [BloomDedup.isRedundant_iff hgiven hs hrule]
        by_contra hex
        push Not at hex
        apply hnot
        rw [BloomDedup.FalsePositive, hf, Option.any_some]
        exact ⟨hmem, hex⟩
      rw [hred]
      rfl
    · rw [if_neg hmem]
      have hred : ¬ VisitedStates.isRedundant ps.ss ps.tn ps.weakEquality
          (.ofStates ps.ss ps.tn ps.weakEquality given) s = true := by
        rw [BloomDedup.isRedundant_iff hgiven hs hrule]
        intro hex
        obtain ⟨t, ht, hr, hk⟩ := hex
        exact hmem (hk ▸ hcontains t ht hr)
      rw [eq_false_of_ne_true hred]
      rfl
  · have hnew : ∀ filter, (BloomDedup.insert B ps.ss ps.weakEquality filter s).1 = true := by
      intro filter
      cases filter with
      | none => rfl
      | some f => rw [BloomDedup.insert, if_pos hrule]
    rw [hnew]
    cases hr : VisitedStates.rule ps.ss ps.weakEquality s with
    | none => rw [VisitedStates.isRedundant, hr]; rfl
    | some rule =>
      cases rule with
      | equal => exact absurd hr hrule
      | dominance =>
        have hred : ¬ VisitedStates.isRedundant ps.ss ps.tn ps.weakEquality
            (.ofStates ps.ss ps.tn ps.weakEquality given) s = true := fun hred => hparts (.inr ⟨hr, hred⟩)
        rw [eq_false_of_ne_true hred]
        rfl

variable [Callables]

/-- What is handed to the table is reached, and what is open was handed to it. -/
theorem Handed.reached (h : Handed ps core counter n given l) :
    (∀ s ∈ given, ReachableWithin ps.ss ps.tn true ps.relevantActions s l.counter) ∧
      ∀ i ∈ l.openItems, ps.st.stateOf i ∈ given := by
  induction h with
  | @start init l h₀ hl =>
    rw [PrioritySearch.start, h₀] at hl
    dsimp only at hl
    by_cases hg : ps.isEarlyGoal init = true
    · rw [if_pos hg] at hl
      contradiction
    rw [if_neg hg] at hl
    cases hv : ps.heuristic init with
    | none =>
      rw [hv] at hl
      contradiction
    | some v =>
      rw [hv] at hl
      obtain rfl := Sum.inr.inj hl
      constructor
      · intro s hs
        rw [List.mem_singleton.mp hs]
        exact reachableWithin_iff.mpr ⟨[], .initial h₀⟩
      · intro i hi
        rw [List.mem_singleton.mp hi, ps.st.stateOf_root]
        exact List.mem_cons_self
  | @step n given l l' item rest h hp hs ih =>
    obtain ⟨hgiven, hopen⟩ := ih
    have hperm := ps.queue.pop_perm hp
    have hitem := hgiven _ (hopen item (hperm.mem_iff.mpr List.mem_cons_self))
    obtain ⟨hle, hsucc⟩ := hitem.relevantSuccessors
    obtain ⟨-, hcounter, ⟨items, hitems, hmap⟩, -⟩ := PrioritySearch.expanded_of_step hp hs
    rw [hcounter]
    constructor
    · intro s hs
      rcases List.mem_append.mp hs with hs | hs
      · exact (hgiven s hs).mono hle
      · exact hsucc s hs
    · intro i hi
      rw [hitems] at hi
      rcases List.mem_append.mp hi with hi | hi
      · have hmem := List.mem_map_of_mem (f := ps.st.stateOf) hi
        rw [hmap, List.mem_reverse] at hmem
        exact List.mem_append_right _ (VisitedStates.mem_of_fresh (List.mem_filter.mp hmem).1)
      · exact List.mem_append_left _ (hopen i (hperm.mem_iff.mpr (List.mem_cons_of_mem _ hi)))

theorem length_getSuccessorStates_le {ss : SearchSpace} {tn : DeltaSimpleTemporalNetwork} {d : ℕ} {s : State}
    (actions : List Action) : (ss.getSuccessorStates tn d s actions).1.length ≤ actions.length := by
  induction actions generalizing d with
  | nil => exact le_rfl
  | cons a actions ih =>
    rw [getSuccessorStates, List.length_append, List.length_cons]
    have hone : (ss.getSuccessorState tn d s a).toList.length ≤ 1 := by
      cases ss.getSuccessorState tn d s a <;> simp
    have hrest := @ih (if ss.reachesOpening s a then ss.advance d s a else d)
    omega

/-- Each iteration opens at most a state for each relevant action. -/
theorem Handed.length_le (h : Handed ps core counter n given l) :
    l.openItems.length ≤ 1 + n * ps.relevantActions.length := by
  induction h with
  | @start init l h₀ hl =>
    rw [PrioritySearch.start, h₀] at hl
    dsimp only at hl
    by_cases hg : ps.isEarlyGoal init = true
    · rw [if_pos hg] at hl
      contradiction
    rw [if_neg hg] at hl
    cases hv : ps.heuristic init with
    | none =>
      rw [hv] at hl
      contradiction
    | some v =>
      rw [hv] at hl
      obtain rfl := Sum.inr.inj hl
      exact Nat.le_add_right 1 _
  | @step n given l l' item rest h hp hs ih =>
    have hlen := (ps.queue.pop_perm hp).length_eq
    obtain ⟨-, -, ⟨items, hitems, hmap⟩, -⟩ := PrioritySearch.expanded_of_step hp hs
    have hopened : items.length ≤ ps.relevantActions.length := by
      rw [← List.length_map (f := ps.st.stateOf), hmap, List.length_reverse]
      apply (List.length_filter_le _ _).trans
      apply (length_fresh_le _ _).trans
      exact length_getSuccessorStates_le _
    rw [hitems, List.length_append, Nat.add_one_mul]
    rw [List.length_cons] at hlen
    dsimp only
    omega

/-- In its first `n` iterations the unbounded search never opens more items than the
bound, nor is it handed a state on which the filter and the table part. -/
def NothingLost (ps : PrioritySearch V) (B : BloomFilter) (bound : ℕ) (core : Core) (counter n : ℕ) : Prop :=
  ∀ m ≤ n, ∀ given l, Handed ps core counter m given l → l.openItems.length ≤ bound ∧
    ∀ item rest, ps.queue.pop l.openItems = some (item, rest) → ∀ pre s post,
      (ps.ss.getSuccessorStates ps.tn l.counter (ps.st.stateOf item) ps.relevantActions).1 =
        pre ++ s :: post → ¬ Parts ps B (given ++ pre) s

/-- The successors of a typed space that are handed over are states of its problem. -/
theorem ofProblem_of_reachable {fluents : List ValueType} {d : ℕ} {s : State}
    (hss : ps.ss.WellTyped fluents) (h : ReachableWithin ps.ss ps.tn true ps.relevantActions s d) :
    s.OfProblem ps.ss fluents := by
  obtain ⟨n, s₀, m, as, h₀, hr, -, -⟩ := h
  exact ofProblem_of_run hss h₀ hr

theorem alike_of_handed {B : BloomFilter} {fluents : List ValueType} {pre post : List State} {s : State}
    (hss : ps.ss.WellTyped fluents) (h : Handed ps core counter n given l)
    (hp : ps.queue.pop l.openItems = some (item, rest))
    (hsplit : (ps.ss.getSuccessorStates ps.tn l.counter (ps.st.stateOf item) ps.relevantActions).1 =
      pre ++ s :: post) (hparts : ¬ Parts ps B (given ++ pre) s) :
    (BloomDedup.insert B ps.ss ps.weakEquality
        (BloomDedup.ofStates B ps.ss ps.weakEquality (given ++ pre)) s).1 =
      !VisitedStates.isRedundant ps.ss ps.tn ps.weakEquality
        (.ofStates ps.ss ps.tn ps.weakEquality (given ++ pre)) s := by
  have hmem := (ps.queue.pop_perm hp).mem_iff.mpr (List.mem_cons_self (a := item))
  have hitem := h.reached.1 _ (h.reached.2 item hmem)
  have hsucc := hitem.relevantSuccessors.2
  rw [hsplit] at hsucc
  have hs : s.OfProblem ps.ss fluents := by
    apply ofProblem_of_reachable hss (hsucc s _)
    simp
  have hpre : ∀ t ∈ given ++ pre, t.OfProblem ps.ss fluents := by
    intro t ht
    rcases List.mem_append.mp ht with ht | ht
    · exact ofProblem_of_reachable hss (h.reached.1 t ht)
    · exact ofProblem_of_reachable hss (hsucc t (List.mem_append_left _ ht))
  exact insert_alike hpre hs hparts

theorem undisturbed_of_nothingLost {B : BloomFilter} {bound : ℕ} {fluents : List ValueType}
    (heap : MinMaxHeap ps.st.lt) (hbound : 0 < bound) (hss : ps.ss.WellTyped fluents)
    (h : NothingLost ps B bound core counter n) :
    (ps.memoryBounded B heap bound hbound).Undisturbed core counter n := by
  intro m hm given l hgiven
  obtain ⟨hlen, hparts⟩ := h m hm given l hgiven
  refine ⟨hlen, fun item rest hp pre s post hsplit => ?_⟩
  exact alike_of_handed hss hgiven hp hsplit (hparts item rest hp pre s post hsplit)

/-- As long as nothing is lost, a memory-bounded search answers when the unbounded one
does and what it does, and holds the same open items until then. -/
theorem memoryBounded_follows (ps : PrioritySearch V) (nb : ps.st.Numbered) (B : BloomFilter)
    (heap : MinMaxHeap ps.st.lt) (bound : ℕ) (hbound : 0 < bound) (fluents : List ValueType)
    (hss : ps.ss.WellTyped fluents) (core : Core) (counter n : ℕ)
    (hlost : NothingLost ps B bound core counter n) : ∀ m ≤ n,
      (∃ r, (ps.memoryBounded B heap bound hbound).run core counter m = .inl r ∧
        ps.run core counter m = .inl r) ∨
      ∃ l l', (ps.memoryBounded B heap bound hbound).run core counter m = .inr l ∧
        ps.run core counter m = .inr l' ∧ l.openItems.Perm l'.openItems ∧
        l.expandedStates = l'.expandedStates ∧ l.generatedStates = l'.generatedStates := by
  intro m hm
  have hund := undisturbed_of_nothingLost heap hbound hss hlost
  rcases run_alike nb hund hm with hend | ⟨given, l, l', hl, hl', -, halike⟩
  · exact .inl hend
  · exact .inr ⟨l, l', hl, hl', halike.openItems, halike.expandedStates, halike.generatedStates⟩

/-- A filter without false positives loses nothing where no state is compared by
makespan and the bound leaves room for every successor. -/
theorem nothingLost_of_exact {bound : ℕ} (hrule : ∀ s,
      VisitedStates.rule ps.ss ps.weakEquality s ≠ some .dominance)
    (hroom : n * ps.relevantActions.length < bound) : NothingLost ps .exact bound core counter n := by
  intro m hm given l hgiven
  constructor
  · have hle := hgiven.length_le
    have hmul := Nat.mul_le_mul_right ps.relevantActions.length hm
    omega
  · intro item rest hp pre s post hsplit hparts
    rcases hparts with ⟨-, hfalse⟩ | ⟨hdom, -⟩
    · exact BloomDedup.not_falsePositive_exact _ s hfalse
    · exact hrule s hdom

end BoundedSearch

/-- No two items with different numbers are tied. -/
theorem PrioritizedItem.lt_or_lt (i j : PrioritizedItem) (h : i.idx ≠ j.idx) :
    i.lt j = true ∨ j.lt i = true := by
  simp only [lt, Bool.or_eq_true, Bool.and_eq_true, decide_eq_true_eq]
  rcases lt_trichotomy i.heuristic j.heuristic with hlt | heq | hgt
  · exact .inl (.inl hlt)
  · rw [heq]
    simp only [lt_irrefl, true_and, false_or]
    rcases lt_trichotomy i.state.todo.entries.length j.state.todo.entries.length with hlt | hlen | hgt
    · exact .inl (.inl hlt)
    · rcases Nat.lt_or_gt_of_ne h with hlt | hgt
      · exact .inl (.inr ⟨hlen, hlt⟩)
      · exact .inr (.inr ⟨hlen.symm, hgt⟩)
    · exact .inr (.inl hgt)
  · exact .inr (.inl hgt)

variable [Callables]

/-- The items of `wastar_search` are told apart by their numbers. -/
def wastar_numbered (weight : ℚ) : (wastar weight).Numbered where
  idx := PrioritizedItem.idx
  idx_root := fun _ _ _ => rfl
  idx_child := fun _ _ _ _ _ => rfl
  total := PrioritizedItem.lt_or_lt

end Agreement

section Switch

attribute [local instance] Callables.empty

theorem switch_wellTyped : switch.WellTyped [.bool] where
  initial := rfl
  effects := by
    intro a k te hte eff heff
    match a, k with
    | ⟨0⟩, 0 =>
      obtain rfl := Option.some.inj hte
      obtain rfl := List.mem_singleton.mp heff
      exact ⟨.bool, rfl, rfl⟩
    | ⟨0⟩, k + 1 =>
      have hnone : switch.event ⟨0⟩ (k + 1) = none := rfl
      rw [hnone] at hte
      contradiction
    | ⟨n + 1⟩, k => exact absurd hte (by simp [switch, SearchSpace.event, SearchSpace.ofTable])

theorem memoryBounded_follows_switch : ∃ p,
    ((switchSearch .free).memoryBounded .exact PrioritizedItem.heap 3 (by decide)).run .python 0 2 =
      .inl (.path p) ∧
      (switchSearch .free).run .python 0 2 = .inl (.path p) := by
  have hlost : BoundedSearch.NothingLost (switchSearch .free) .exact 3 .python 0 2 := by
    apply BoundedSearch.nothingLost_of_exact
    · intro s hrule
      rw [bloomRule_of_classical (by decide)] at hrule
      contradiction
    · decide
  have hrun : (switchSearch .free).run .python 0 2 = .inl (.path [⟨0⟩]) := rfl
  rcases BoundedSearch.memoryBounded_follows (switchSearch .free) (wastar_numbered _) .exact
    PrioritizedItem.heap 3 (by decide) [.bool] switch_wellTyped .python 0 2 hlost 2 le_rfl
    with ⟨r, hr, hr'⟩ | ⟨l, l', -, hl', -⟩
  · obtain rfl := Sum.inl.inj (hrun.symm.trans hr')
    exact ⟨_, hr, hr'⟩
  · rw [hrun] at hl'
    contradiction

end Switch

end TamerLite
