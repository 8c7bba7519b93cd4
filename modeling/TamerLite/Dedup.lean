import TamerLite.Dominance

/-! Visited-state dedup: which states are compared, and why a discarded one
leads nowhere the recorded one does not. -/

namespace TamerLite

open Difference SearchSpace Schedule

inductive DedupRule
  | equal
  | dominance
deriving DecidableEq, Repr

inductive DedupPolicy
  | all
  | todoEmpty
  | dominance
deriving DecidableEq, Repr

def DedupPolicy.of (ss : SearchSpace) (weakEquality : Bool) : DedupPolicy :=
  if !ss.isTemporal || weakEquality then .all
  else if ss.deadline.isSome then .dominance
  else .todoEmpty

/-- How a state is deduped, or `none` if it is not. -/
def DedupPolicy.rule (policy : DedupPolicy) (state : State) (timedAction : Option Action) :
    Option DedupRule :=
  if policy = .all then some .equal
  else if state.todo.entries.isEmpty then
    if policy = .dominance then some .dominance else some .equal
  else if state.todo.entries.length = 1 &&
      timedAction.any (fun a => (state.todo.lookup a).isSome) then some .dominance
  else none

/-- `WeakEqState.__eq__`. -/
def State.weakEq (s t : State) : Bool :=
  s.todo.entries.length = t.todo.entries.length && s.assignments = t.assignments &&
    s.todo.entries.all fun p => (t.todo.lookup p.1).any fun q => q.1 = p.2.1

/-- `State.__eq__`. -/
def State.eq (s t : State) : Bool := s.temporalNetwork.isNone && s.assignments = t.assignments

def sameRepresentation (ss : SearchSpace) (s t : State) : Bool :=
  if ss.isTemporal then s.weakEq t else s.eq t

def makespanDominates (recorded new epsilon tolerance : ℚ) : Bool :=
  recorded + epsilon ≤ new + tolerance

/-- The states compared by equality, and those compared by makespan with the
smallest one recorded for each key, latest first. -/
structure VisitedStates where
  seen : List State
  makespans : List (State × ℚ)

namespace VisitedStates

variable (ss : SearchSpace) (tn : DeltaSimpleTemporalNetwork) (weakEquality : Bool)

def rule (state : State) : Option DedupRule :=
  (DedupPolicy.of ss weakEquality).rule state ss.timedAction

def recorded (v : VisitedStates) (state : State) : Option (State × ℚ) :=
  v.makespans.find? fun p => sameRepresentation ss p.1 state

def isRedundant (v : VisitedStates) (state : State) : Bool :=
  match rule ss weakEquality state with
  | none => false
  | some .equal => v.seen.any (sameRepresentation ss · state)
  | some .dominance => (v.recorded ss state).any fun p =>
      makespanDominates p.2 (makespan tn state) ss.epsilon tn.tolerance

/-- `insert`, without its answer. -/
def insert (v : VisitedStates) (state : State) : VisitedStates :=
  match rule ss weakEquality state with
  | none => v
  | some .equal =>
    if v.seen.any (sameRepresentation ss · state) then v else { v with seen := state :: v.seen }
  | some .dominance =>
    let new := makespan tn state
    if (v.recorded ss state).any fun p =>
        makespanDominates p.2 new ss.epsilon tn.tolerance || p.2 ≤ new + tn.tolerance then v
    else { v with makespans := (state, new) :: v.makespans }

/-- The store after the states of a search, in the order they are inserted. -/
def ofStates (states : List State) : VisitedStates :=
  states.foldl (insert ss tn weakEquality) ⟨[], []⟩

/-- `state` is redundant because of the recorded `t`. -/
def Discards (t state : State) : Prop :=
  sameRepresentation ss t state = true ∧
    match rule ss weakEquality state with
    | none => False
    | some .equal => True
    | some .dominance =>
      makespanDominates (makespan tn t) (makespan tn state) ss.epsilon tn.tolerance = true

/-- Where makespans are compared, the test passes without its tolerance. -/
def AheadByEpsilon (t state : State) : Prop :=
  rule ss weakEquality state = some .dominance →
    makespanDominates (makespan tn t) (makespan tn state) ss.epsilon 0 = true

/-- The store holds inserted states, with their own makespans. -/
structure Records (states : List State) (v : VisitedStates) : Prop where
  seen : ∀ t ∈ v.seen, t ∈ states
  makespans : ∀ p ∈ v.makespans, p.1 ∈ states ∧ p.2 = makespan tn p.1

variable {ss tn weakEquality} {states : List State} {v : VisitedStates} {s : State}

theorem Records.insert (h : Records tn states v) :
    Records tn (states ++ [s]) (v.insert ss tn weakEquality s) := by
  have hkeep : Records tn (states ++ [s]) v :=
    ⟨fun t ht => List.mem_append_left _ (h.seen t ht),
      fun p hp => ⟨List.mem_append_left _ (h.makespans p hp).1, (h.makespans p hp).2⟩⟩
  unfold VisitedStates.insert
  split
  · exact hkeep
  · split_ifs
    · exact hkeep
    · refine ⟨fun t ht => ?_, hkeep.makespans⟩
      rcases List.mem_cons.mp ht with rfl | ht
      · simp
      · exact hkeep.seen t ht
  · simp only
    split_ifs
    · exact hkeep
    · refine ⟨hkeep.seen, fun p hp => ?_⟩
      rcases List.mem_cons.mp hp with rfl | hp
      · simp
      · exact hkeep.makespans p hp

theorem records_ofStates (states : List State) :
    Records tn states (ofStates ss tn weakEquality states) := by
  induction states using List.reverseRecOn with
  | nil => exact ⟨fun t ht => absurd ht List.not_mem_nil, fun p hp => absurd hp List.not_mem_nil⟩
  | append_singleton states s ih =>
    rw [ofStates, List.foldl_append]
    exact ih.insert

theorem Records.discards (h : Records tn states v) (hr : v.isRedundant ss tn weakEquality s = true) :
    ∃ t ∈ states, Discards ss tn weakEquality t s := by
  unfold isRedundant at hr
  unfold Discards
  split at hr
  · contradiction
  · obtain ⟨t, ht, he⟩ := List.any_eq_true.mp hr
    exact ⟨t, h.seen t ht, he, trivial⟩
  · obtain ⟨p, hp, hd⟩ := (Option.any_eq_true _ _).mp hr
    have hm := h.makespans p (List.mem_of_find?_eq_some hp)
    have he : sameRepresentation ss p.1 s = true :=
      List.find?_some (p := fun p : State × ℚ => sameRepresentation ss p.1 s) hp
    exact ⟨p.1, hm.1, he, hm.2 ▸ hd⟩

theorem Discards.aheadByEpsilon {t : State} (h : Discards ss tn weakEquality t s) (htol : tn.tolerance = 0) :
    AheadByEpsilon ss tn weakEquality t s := by
  intro hr
  have hrule := h.2
  rw [hr, htol] at hrule
  exact hrule

end VisitedStates

section Soundness

section

variable [Callables]

/-- A state the search generates, through steps that all meet `P`. -/
inductive Reached (ss : SearchSpace) (tn : DeltaSimpleTemporalNetwork) (compression : Bool)
    (P : State → Action → Prop) : State → ℕ → Prop
  | initial {s : State} {n : ℕ} : ss.initial tn n = some s →
      Reached ss tn compression P s (initialCounter ss n)
  | step {s t : State} {n d : ℕ} {a : Action} : Reached ss tn compression P s n → n ≤ d →
      ss.getSuccessorStateWithCompression tn d s a compression = some t → P s a →
      Reached ss tn compression P t (ss.advance d s a)

/-- If `a` opens in `s`, its least duration there is not negative. -/
def OpensNonneg (ss : SearchSpace) (s : State) (a : Action) : Prop :=
  s.todo.lookup a = none →
    ∀ b, ss.durationBounds a s.assignments = some b → 0 ≤ b.1

end

variable {ss : SearchSpace} {tn : DeltaSimpleTemporalNetwork} {b : Bool}
  {P : State → Action → Prop} {s : State} {n : ℕ}

section

variable [Callables]

theorem Reached.mono {Q : State → Action → Prop} (h : Reached ss tn b P s n)
    (hPQ : ∀ s a, P s a → Q s a) : Reached ss tn b Q s n := by
  induction h with
  | initial h₀ => exact .initial h₀
  | step _ hd hs hP ih => exact ih.step hd hs (hPQ _ _ hP)

theorem Reached.of_run {s₀ : State} {n₀ : ℕ} {as : List Action} (h : Reached ss tn b P s₀ n₀)
    (hP : ∀ s a, P s a) (hr : Run ss tn b s₀ n₀ as s n) : Reached ss tn b P s n := by
  induction hr with
  | refl => exact h
  | step _ hd hs ih => exact (ih h).step hd hs (hP _ _)

theorem Reached.of_config {c₀ c : Config} {as : List Action} (hx : tn.Exact)
    (hP : ∀ s a, P s a) (h₀ : Config.initial ss = some c₀) (hr : c₀.runWith ss b as = some c)
    (hsch : Schedulable ss c) : ∃ s n ids, Reached ss tn b P s n ∧ Refines ss s n c ids := by
  obtain ⟨s₀, s, n, ids, hs₀, hrun, href⟩ := exists_run hx h₀ hr hsch 0
  exact ⟨s, n, ids, Reached.of_run (.initial hs₀) hP hrun, href⟩

theorem nonneg_initial {c : Config} (h : Config.initial ss = some c) :
    ∀ i ∈ c.instances, 0 ≤ i.lower := by
  intro i hi
  rcases instances_initial h with ⟨-, hn⟩ | ⟨a, b, ht, hb, hn⟩
  · rw [hn] at hi
    exact absurd hi List.not_mem_nil
  · rw [hn, List.mem_singleton] at hi
    obtain ⟨q, hq, hall⟩ := durationBounds_timed ht
    obtain rfl := Option.some.inj (hb.symm.trans (hall _))
    rw [hi]
    exact hq

/-- A reached state stands for a reachable configuration that has a schedule,
and whose durations are not negative when none was on the way. -/
theorem Reached.refines (hx : tn.Exact) (h : Reached ss tn b P s n) :
    ∃ c ids, Config.Reachable ss b c ∧ Refines ss s n c ids ∧ Schedulable ss c ∧
      ((∀ s a, P s a → OpensNonneg ss s a) → ∀ i ∈ c.instances, 0 ≤ i.lower) := by
  induction h with
  | initial h₀ =>
    obtain ⟨c, ids, hc, href, hk⟩ := refines_initial h₀
    refine ⟨c, ids, ⟨c, [], hc, rfl⟩, href, ?_, fun _ => nonneg_initial hc⟩
    rcases hk with rfl | hk
    · exact schedulable_empty
    · exact href.schedulable (Config.wellFormed_initial hc) hx hk
  | @step s t n d a _ hd hs hP ih =>
    obtain ⟨c, ids, hc, href, -, hlower⟩ := ih
    obtain ⟨c', ids', hstep, href', hk⟩ := href.succWith hc.wellFormed hd hs
    have hc' : Config.Reachable ss b c' := by
      obtain ⟨c₀, as, h₀, hr⟩ := hc
      exact ⟨c₀, as ++ [a], h₀, Config.runWith_concat.mpr ⟨c, hr, hstep⟩⟩
    refine ⟨c', ids', hc', href', href'.schedulable hc'.wellFormed hx hk, fun hall i hi => ?_⟩
    obtain ⟨is, his, hnew⟩ := new_of_stepWith hstep
    rw [his] at hi
    rcases List.mem_append.mp hi with hi | hi
    · exact hlower hall i hi
    · obtain ⟨-, -, -, hl, hb⟩ := hnew i hi
      rw [← href.assignments] at hb
      refine hall s a hP ?_ _ hb
      rw [href.todo, hl, Option.map_none]

end

/-! ### Comparable states -/

namespace VisitedStates

variable {weakEquality : Bool} {t : State}

theorem rule_equal (ht : ss.isTemporal = true) (hr : rule ss weakEquality s = some .equal) :
    weakEquality = true ∨ ss.deadline = none ∧ s.todo.entries.isEmpty = true := by
  unfold rule DedupPolicy.rule DedupPolicy.of at hr
  cases weakEquality with
  | true => exact .inl rfl
  | false =>
    refine .inr ?_
    rw [ht] at hr
    cases hd : ss.deadline with
    | some d =>
      simp only [Bool.not_true, Bool.or_self, Bool.false_eq_true, if_false, hd, Option.isSome_some,
        if_true, reduceCtorEq] at hr
      split_ifs at hr <;> simp at hr
    | none =>
      simp only [Bool.not_true, Bool.or_self, Bool.false_eq_true, if_false, hd, Option.isSome_none,
        reduceCtorEq] at hr
      split_ifs at hr with he
      · exact ⟨rfl, he⟩
      · simp at hr

theorem rule_dominance (hr : rule ss weakEquality s = some .dominance) {a : Action} {p : ℕ × ℕ}
    (hl : s.todo.lookup a = some p) : ss.timedAction = some a := by
  by_cases he : s.todo.entries.isEmpty = true
  · rw [isEmpty_entries_iff.mp he a] at hl
    contradiction
  · unfold rule DedupPolicy.rule at hr
    rw [if_neg he] at hr
    split_ifs at hr with _ h
    · contradiction
    simp only [Bool.and_eq_true, decide_eq_true_eq, Option.any_eq_true] at h
    obtain ⟨hlen, e, hte, hle⟩ := h
    obtain ⟨q, hq⟩ := Option.isSome_iff_exists.mp hle
    obtain ⟨x, hx⟩ := List.length_eq_one_iff.mp hlen
    have ha := AList.mem_lookup_iff.mp hl
    have he' := AList.mem_lookup_iff.mp hq
    rw [hx, List.mem_singleton] at ha he'
    have hae : e = a := congrArg Sigma.fst (he'.trans ha.symm)
    rw [← hae]
    exact hte

theorem weakEq_spec (h : t.weakEq s = true) : t.assignments = s.assignments ∧
    ∀ a, (t.todo.lookup a).map Prod.fst = (s.todo.lookup a).map Prod.fst := by
  simp only [State.weakEq, Bool.and_eq_true, decide_eq_true_eq, List.all_eq_true,
    Option.any_eq_true] at h
  obtain ⟨⟨hlen, has⟩, hall⟩ := h
  have hsub : t.todo.entries.keys ⊆ s.todo.entries.keys := by
    intro a ha
    obtain ⟨p, hp⟩ := List.mem_keys.mp ha
    obtain ⟨q, hq, -⟩ := hall ⟨a, p⟩ hp
    exact List.mem_keys.mpr ⟨q, AList.mem_lookup_iff.mp hq⟩
  -- with equally many keys the inclusion is an equality
  have hperm : t.todo.entries.keys.Perm s.todo.entries.keys := by
    have hn : t.todo.entries.keys.Nodup := t.todo.nodupKeys
    apply (hn.subperm hsub).perm_of_length_le
    simp only [List.keys, List.length_map]
    omega
  refine ⟨has, fun a => ?_⟩
  cases hl : t.todo.lookup a with
  | some p =>
    obtain ⟨q, hq, hqp⟩ := hall ⟨a, p⟩ (AList.mem_lookup_iff.mp hl)
    rw [hq, Option.map_some, Option.map_some, hqp]
  | none =>
    have hn : a ∉ s.todo.entries.keys := fun ha => AList.lookup_eq_none.mp hl (hperm.mem_iff.mpr ha)
    have hls : s.todo.lookup a = none := AList.lookup_eq_none.mpr hn
    rw [hls]

end VisitedStates

/-- Under a deadline two states without open actions are compared by makespan. -/
theorem discards_of_idle {t : State} {m : ℕ} {c₁ c₂ : Config} {ids₁ ids₂ : List ℕ}
    (ht : ss.isTemporal = true) (hdl : ss.deadline.isSome = true) (h₁ : Refines ss t m c₁ ids₁)
    (h₂ : Refines ss s n c₂ ids₂) (hidle₁ : c₁.todo = ∅) (hidle₂ : c₂.todo = ∅)
    (has : c₁.assignments = c₂.assignments)
    (hle : makespan tn t + ss.epsilon ≤ makespan tn s + tn.tolerance) :
    VisitedStates.Discards ss tn false t s := by
  have hempty : ∀ {u k c ids}, Refines ss u k c ids → c.todo = ∅ → u.todo.entries = [] := by
    intro u k c ids hu hc
    apply List.isEmpty_iff.mp
    apply isEmpty_entries_iff.mpr
    intro a
    rw [hu.todo, hc, AList.lookup_empty, Option.map_none]
  have hrule : VisitedStates.rule ss false s = some .dominance := by
    simp [VisitedStates.rule, DedupPolicy.of, DedupPolicy.rule, hempty h₂ hidle₂, ht, hdl]
  have has' : t.assignments = s.assignments := by rw [h₁.assignments, h₂.assignments, has]
  constructor
  · rw [sameRepresentation, if_pos ht, State.weakEq, hempty h₁ hidle₁, hempty h₂ hidle₂, has']
    simp
  · rw [hrule]
    exact decide_eq_true hle

variable [Callables]

theorem idle_of_not_temporal {c : Config} (hwf : c.WellFormed ss) (ht : ¬ ss.isTemporal = true)
    (a : Action) : c.todo.lookup a = none := by
  cases hl : c.todo.lookup a with
  | none => rfl
  | some p =>
    obtain ⟨-, -, hk, hs⟩ := hwf.todo hl
    obtain ⟨te, hte⟩ := Option.isSome_iff_exists.mp hs
    obtain ⟨le, hle, hget⟩ := Option.bind_eq_some_iff.mp hte
    have hlen := length_eq_one_of_not_temporal ht hle
    have hlt := (List.getElem?_eq_some_iff.mp hget).1
    omega

theorem sameFuture_of_discards {weakEquality : Bool} {t : State} {m : ℕ} {c₁ c₂ : Config}
    {ids₁ ids₂ : List ℕ} (h₁ : Refines ss t m c₁ ids₁) (hwf₁ : c₁.WellFormed ss)
    (h₂ : Refines ss s n c₂ ids₂) (hwf₂ : c₂.WellFormed ss)
    (hd : VisitedStates.Discards ss tn weakEquality t s)
    (hweak : weakEquality = true → ss.deadline = none ∧ s.todo.entries.isEmpty = true) :
    SameFuture ss c₁ c₂ := by
  obtain ⟨hrep, hrule⟩ := hd
  by_cases ht : ss.isTemporal = true
  · rw [sameRepresentation, if_pos ht] at hrep
    obtain ⟨has, htodo⟩ := VisitedStates.weakEq_spec hrep
    refine ⟨by rw [← h₁.assignments, ← h₂.assignments, has], fun a => ?_, fun {a p} hl => ?_⟩
    · have ha := htodo a
      rw [h₁.todo, h₂.todo, Option.map_map, Option.map_map] at ha
      exact ha
    · have hls : s.todo.lookup a = some (p.1, ids₂.getD p.2 0 + 1 + p.1) := by
        rw [h₂.todo, hl, Option.map_some]
      cases hr : VisitedStates.rule ss weakEquality s with
      | none =>
        rw [hr] at hrule
        contradiction
      | some r =>
        cases r with
        | equal =>
          have hempty : s.todo.entries.isEmpty = true :=
            (VisitedStates.rule_equal ht hr).elim (fun h => (hweak h).2) And.right
          rw [isEmpty_entries_iff.mp hempty a] at hls
          contradiction
        | dominance => exact VisitedStates.rule_dominance hr hls
  · rw [sameRepresentation, if_neg ht, State.eq, Bool.and_eq_true, decide_eq_true_eq] at hrep
    refine ⟨by rw [← h₁.assignments, ← h₂.assignments, hrep.2], fun a => ?_, fun {a p} hl => ?_⟩
    · rw [idle_of_not_temporal hwf₁ ht, idle_of_not_temporal hwf₂ ht]
    · rw [idle_of_not_temporal hwf₂ ht] at hl
      contradiction

/-- The recorded state's past leaves room for a schedule of what continues the
discarded one. -/
theorem schedulable_of_discards {weakEquality : Bool} {t : State} {m : ℕ} {c₁ c₂ d₁ d₂ : Config}
    {ids₁ ids₂ : List ℕ} {is : List Instance} {ps : List (ℕ × ℕ)} {as : List Action} {b' : Bool}
    (hx : tn.Exact) (hc₁ : Config.Reachable ss b c₁) (h₁ : Refines ss t m c₁ ids₁)
    (hsch₁ : Schedulable ss c₁) (hc₂ : Config.Reachable ss b c₂) (h₂ : Refines ss s n c₂ ids₂)
    (hd : VisitedStates.Discards ss tn weakEquality t s)
    (hahead : VisitedStates.AheadByEpsilon ss tn weakEquality t s)
    (hweak : weakEquality = true → ss.deadline = none ∧ s.todo.entries.isEmpty = true)
    (hlower : VisitedStates.rule ss weakEquality s = some .dominance →
      ∀ i ∈ c₂.instances, 0 ≤ i.lower)
    (hmir : Mirrors ss c₁ c₂ d₁ d₂ is ps) (hr₂ : c₂.runWith ss b' as = some d₂)
    (hp₂ : Config.Progress ss d₂) (hsch₂ : Schedulable ss d₂) : Schedulable ss d₁ := by
  intro ht
  have h0 := sharesTimed_of_reachable hc₁ hc₂
  have hwf₁ := hc₁.wellFormed
  have hwf₂ := hc₂.wellFormed
  have hwf := hwf₂.runWith hr₂
  obtain ⟨σ₂, hv₂, hm₂⟩ := hsch₂ ht
  cases hr : VisitedStates.rule ss weakEquality s with
  | none =>
    have hrule := hd.2
    rw [hr] at hrule
    contradiction
  | some r =>
    cases r with
    | equal =>
      obtain ⟨hdl, hempty⟩ : ss.deadline = none ∧ s.todo.entries.isEmpty = true :=
        (VisitedStates.rule_equal ht hr).elim hweak id
      have hidle : ∀ a, c₂.todo.lookup a = none := by
        intro a
        have ha := isEmpty_entries_iff.mp hempty a
        rw [h₂.todo] at ha
        exact Option.map_eq_none_iff.mp ha
      have hnew : ∀ i ∈ is, i.pinned = false := by
        obtain ⟨is', his', hnew⟩ := new_of_runWith hr₂
        obtain rfl := List.append_cancel_left (hmir.instances₂.symm.trans his')
        exact fun i hi => (hnew i hi).1
      obtain ⟨σ₁, hv₁, -⟩ := hsch₁ ht
      obtain ⟨σ, hv⟩ := hmir.exists_valid_of_idle h0 hwf₁ hwf₂ hc₂.progress hwf hp₂ hidle hnew hv₁ hv₂
      refine ⟨σ, hv, fun d hd' => ?_⟩
      rw [hdl] at hd'
      contradiction
    | dominance =>
      have hdom := hahead hr
      simp only [makespanDominates, add_zero, decide_eq_true_eq] at hdom
      obtain ⟨-, σ₁, hv₁, hm₁, hpast⟩ := h₁.exists_valid_makespan hx hwf₁ ht hsch₁
      refine ⟨_, hmir.valid_glue h0 hwf₁ hwf hv₁ hv₂ fun p hp q hq => ?_,
        hmir.meetsDeadline_glue hm₁ hm₂⟩
      have hle := hmir.makespan_le hx h₂ hwf₂ hc₂.progress hwf hp₂ ht (hlower hr)
        (valid_of_runWith hwf₂ hr₂ hv₂) hv₂ hm₂ hq
      have hp' := hpast p hp
      linarith

end Soundness

section Race

attribute [local instance] Callables.empty

/-- Two ways to make the first fluent true, at once lasting `d` or at the end
of an action lasting 4, and one action that needs it, to be done by 5. -/
def race (d : ℚ) : SearchSpace :=
  .ofTable [(some ⟨[.constant (.num d)], [.constant (.num d)], false, false⟩,
      [(⟨true, 0⟩, ⟨⟨0⟩, 0, [.constant (.bool true)], [], [], [⟨⟨0⟩, [.constant (.bool true)]⟩]⟩)]),
    (some ⟨[.constant (.num 4)], [.constant (.num 4)], false, false⟩,
      [(⟨true, 0⟩, ⟨⟨1⟩, 0, [.constant (.bool true)], [], [], []⟩),
        (⟨false, 0⟩, ⟨⟨1⟩, 1, [.constant (.bool true)], [], [], [⟨⟨0⟩, [.constant (.bool true)]⟩]⟩)]),
    (some ⟨[.constant (.num 1)], [.constant (.num 1)], false, false⟩,
      [(⟨true, 0⟩, ⟨⟨2⟩, 0, [.fluent ⟨0⟩], [], [], [⟨⟨1⟩, [.constant (.bool true)]⟩]⟩)])]
    [.bool false, .bool false] [.fluent ⟨1⟩] (some 5)

def raceStart : Config := ⟨[.bool false, .bool false], ∅, 0, [], []⟩

def raceSlow : Config := ⟨[.bool true, .bool false], ∅, 0, [⟨⟨1⟩, 4, 4, false⟩], [(0, 0), (0, 1)]⟩

def raceFirst (d : ℚ) : Config := ⟨[.bool true, .bool false], ∅, 0, [⟨⟨0⟩, d, d, false⟩], [(0, 0)]⟩

theorem race_slow (d : ℚ) : raceStart.runWith (race d) false [⟨1⟩, ⟨1⟩] = some raceSlow := rfl

theorem race_first (d : ℚ) : raceStart.runWith (race d) false [⟨0⟩] = some (raceFirst d) := rfl

theorem raceSlow_schedulable {d : ℚ} (hd : d = 1 ∨ d = -5) :
    Valid (race d) raceSlow (fun _ => (0, 4)) ∧ MeetsDeadline (race d) raceSlow fun _ => (0, 4) := by
  rcases hd with rfl | rfl <;> decide +kernel

theorem race_opensNonneg (s : State) (a : Action) : OpensNonneg (race 1) s a := by
  intro _ b hb
  obtain ⟨i⟩ := a
  match i with
  | 0 | 2 =>
    obtain rfl := Option.some.inj hb
    show (0 : ℚ) ≤ 1
    norm_num
  | 1 =>
    obtain rfl := Option.some.inj hb
    show (0 : ℚ) ≤ 4
    norm_num
  | n + 3 =>
    have hb' : (race 1).durationBounds ⟨n + 3⟩ s.assignments = some (0, 0) := by
      simp [race, durationBounds, SearchSpace.duration, SearchSpace.ofTable]
    obtain rfl := Option.some.inj (hb.symm.trans hb')
    exact le_rfl

def raceLast (d : ℚ) : Config :=
  ⟨[.bool true, .bool true], ∅, 0, [⟨⟨0⟩, d, d, false⟩, ⟨⟨2⟩, 1, 1, false⟩], [(0, 0), (1, 0)]⟩

def raceLate : Config :=
  ⟨[.bool true, .bool true], ∅, 0, [⟨⟨1⟩, 4, 4, false⟩, ⟨⟨2⟩, 1, 1, false⟩], [(0, 0), (0, 1), (1, 0)]⟩

/-- The short action on its own, and with the last one after it. -/
theorem raceFirst_schedulable : Schedulable (race (-5)) (raceFirst (-5)) ∧
    Schedulable (race (-5)) (raceLast (-5)) := by
  have hv : (Valid (race (-5)) (raceFirst (-5)) (fun _ => (0, -5)) ∧
      MeetsDeadline (race (-5)) (raceFirst (-5)) fun _ => (0, -5)) ∧
      Valid (race (-5)) (raceLast (-5)) (fun j => if j = 0 then (0, -5) else (1 / 100, 101 / 100)) ∧
      MeetsDeadline (race (-5)) (raceLast (-5)) fun j =>
        if j = 0 then (0, -5) else (1 / 100, 101 / 100) := by
    decide +kernel
  exact ⟨fun _ => ⟨_, hv.1⟩, fun _ => ⟨_, hv.2⟩⟩

theorem raceLate_not_schedulable : ¬ Schedulable (race (-5)) raceLate := by
  intro h
  obtain ⟨σ, hv, hm⟩ := h rfl
  have hslow := hv.bounds 0 _ rfl
  have hlast := hv.bounds 1 _ rfl
  have hstart := hv.origin 0 _ rfl
  have hend := hm 5 rfl 1 (by decide)
  have hgap : (σ 0).2 + 0 + 1 / 100 ≤ (σ 1).1 + 0 := by
    have hord := hv.ordered
    simp only [raceLate, List.pairwise_cons] at hord
    exact (hord.2.1 (1, 0) (by simp)).2 (by decide)
  have he : (race (-5)).epsilon = 1 / 100 := rfl
  simp only [he, Bool.false_eq_true, if_false] at *
  linarith

theorem race_makespan_slow {t : State} {m : ℕ} {ids : List ℕ}
    (h : Refines (race (-5)) t m raceSlow ids) :
    makespan .earliest t ≤ 4 := by
  have hc : Config.Reachable (race (-5)) false raceSlow := ⟨raceStart, _, rfl, race_slow (-5)⟩
  have hs := raceSlow_schedulable (d := -5) (.inr rfl)
  have hle := h.makespan_le DeltaSimpleTemporalNetwork.earliest_exact hc.wellFormed hc.progress rfl
    (by simp [raceSlow]) hs.1 hs.2 (p := (0, 1)) rfl
  have ht : time (race (-5)) raceSlow (fun _ => (0, 4)) (0, 1) = 4 + 0 := rfl
  rw [ht, add_zero] at hle
  exact hle

/-- The end of the short action is a node too, and no node is before 0. -/
theorem race_makespan_first {s : State} {n : ℕ} {ids : List ℕ}
    (h : Refines (race (-5)) s n (raceFirst (-5)) ids) (hsch : Schedulable (race (-5)) (raceFirst (-5))) :
    5 ≤ makespan .earliest s := by
  have hc : Config.Reachable (race (-5)) false (raceFirst (-5)) :=
    ⟨raceStart, _, rfl, race_first (-5)⟩
  have hx := DeltaSimpleTemporalNetwork.earliest_exact
  obtain ⟨hpath, hn, -, log, hlog, hsol⟩ := h.timed rfl
  obtain ⟨τ, hτ⟩ := (exists_placed_iff hc.wellFormed hn h.length).mpr (hsch rfl)
  have hcons : Consistent log := ⟨τ, (hsol τ).mpr hτ⟩
  have hplaced := (hsol _).mp (hx.solves log hcons)
  have hstop := hx.nonneg log (anchor (raceFirst (-5)) ids false 0) hcons
  have hb := (hplaced.valid.bounds 0 _ rfl).2
  have hr := hplaced.rigid 0 (by decide) (k := 0) rfl
  have hms : makespan .earliest s =
      -DeltaSimpleTemporalNetwork.earliest.distances log (point (raceFirst (-5)) ids (0, 0)) := by
    have hlast : s.path.getLast? = some (key (raceFirst (-5)) ids (0, 0)) := by
      rw [hpath]
      rfl
    simp only [makespan, hlast, hlog]
    rfl
  rw [hms, hr]
  simp only [scheduleOf] at hb
  linarith

/-- The exact network, in a core whose comparisons have a tolerance. -/
noncomputable def tolerantNetwork (tolerance : ℚ) : DeltaSimpleTemporalNetwork :=
  { DeltaSimpleTemporalNetwork.earliest with tolerance := tolerance }

theorem tolerantNetwork_exact (tolerance : ℚ) : (tolerantNetwork tolerance).Exact :=
  ⟨DeltaSimpleTemporalNetwork.earliest_exact.check_iff, DeltaSimpleTemporalNetwork.earliest_exact.solves,
    DeltaSimpleTemporalNetwork.earliest_exact.nonneg, DeltaSimpleTemporalNetwork.earliest_exact.least⟩

/-- Two actions that make the first fluent true, one as it starts and one as it
ends, and the second is over five millionths less than `epsilon` before the first.
A third one needs the fluent, for which there is just time after the first. -/
def photoFinish : SearchSpace :=
  .ofTable [(some ⟨[.constant (.num (201999 / 200000))], [.constant (.num (201999 / 200000))], false, false⟩,
      [(⟨true, 0⟩, ⟨⟨0⟩, 0, [.constant (.bool true)], [], [], [⟨⟨0⟩, [.constant (.bool true)]⟩]⟩),
        (⟨false, 0⟩, ⟨⟨0⟩, 1, [.constant (.bool true)], [], [], []⟩)]),
    (some ⟨[.constant (.num 1)], [.constant (.num 1)], false, false⟩,
      [(⟨true, 0⟩, ⟨⟨1⟩, 0, [.constant (.bool true)], [], [], []⟩),
        (⟨false, 0⟩, ⟨⟨1⟩, 1, [.constant (.bool true)], [], [], [⟨⟨0⟩, [.constant (.bool true)]⟩]⟩)]),
    (none, [(⟨true, 0⟩, ⟨⟨2⟩, 0, [.fluent ⟨0⟩], [], [], [⟨⟨1⟩, [.constant (.bool true)]⟩]⟩)])]
    [.bool false, .bool false] [.fluent ⟨1⟩] (some (203999 / 200000))

def photoFirst : Config :=
  ⟨[.bool true, .bool false], ∅, 0, [⟨⟨0⟩, 201999 / 200000, 201999 / 200000, false⟩], [(0, 0), (0, 1)]⟩

def photoSecond : Config :=
  ⟨[.bool true, .bool false], ∅, 0, [⟨⟨1⟩, 1, 1, false⟩], [(0, 0), (0, 1)]⟩

def photoFirstDone : Config :=
  ⟨[.bool true, .bool true], ∅, 0, [⟨⟨0⟩, 201999 / 200000, 201999 / 200000, false⟩,
    ⟨⟨2⟩, 0, 0, false⟩], [(0, 0), (0, 1), (1, 0)]⟩

def photoSecondDone : Config :=
  ⟨[.bool true, .bool true], ∅, 0, [⟨⟨1⟩, 1, 1, false⟩, ⟨⟨2⟩, 0, 0, false⟩],
    [(0, 0), (0, 1), (1, 0)]⟩

theorem photo_first : raceStart.runWith photoFinish false [⟨0⟩, ⟨0⟩] = some photoFirst := rfl

theorem photo_second : raceStart.runWith photoFinish false [⟨1⟩, ⟨1⟩] = some photoSecond := rfl

theorem photo_opensNonneg (s : State) (a : Action) : OpensNonneg photoFinish s a := by
  intro _ b hb
  obtain ⟨i⟩ := a
  match i with
  | 0 =>
    obtain rfl := Option.some.inj hb
    show (0 : ℚ) ≤ 201999 / 200000
    norm_num
  | 1 =>
    obtain rfl := Option.some.inj hb
    show (0 : ℚ) ≤ 1
    norm_num
  | 2 =>
    obtain rfl := Option.some.inj hb
    exact le_rfl
  | n + 3 =>
    have hb' : photoFinish.durationBounds ⟨n + 3⟩ s.assignments = some (0, 0) := by
      simp [photoFinish, durationBounds, SearchSpace.duration, SearchSpace.ofTable]
    obtain rfl := Option.some.inj (hb.symm.trans hb')
    exact le_rfl

theorem photo_schedulable : Schedulable photoFinish photoFirst ∧ Schedulable photoFinish photoFirstDone ∧
    Valid photoFinish photoSecond (fun _ => (0, 1)) ∧
    MeetsDeadline photoFinish photoSecond fun _ => (0, 1) := by
  have hv : (Valid photoFinish photoFirst (fun _ => (0, 201999 / 200000)) ∧
      MeetsDeadline photoFinish photoFirst fun _ => (0, 201999 / 200000)) ∧
      (Valid photoFinish photoFirstDone
        (fun j => if j = 0 then (0, 201999 / 200000) else (201999 / 200000, 201999 / 200000)) ∧
      MeetsDeadline photoFinish photoFirstDone fun j =>
        if j = 0 then (0, 201999 / 200000) else (201999 / 200000, 201999 / 200000)) ∧
      Valid photoFinish photoSecond (fun _ => (0, 1)) ∧
      MeetsDeadline photoFinish photoSecond fun _ => (0, 1) := by
    decide +kernel
  exact ⟨fun _ => ⟨_, hv.1⟩, fun _ => ⟨_, hv.2.1⟩, hv.2.2⟩

theorem photoSecondDone_not_schedulable : ¬ Schedulable photoFinish photoSecondDone := by
  intro h
  obtain ⟨σ, hv, hm⟩ := h rfl
  have hfirst := hv.bounds 0 _ rfl
  have hlast := hv.bounds 1 _ rfl
  have hstart := hv.origin 0 _ rfl
  have hend := hm _ rfl 1 (by decide)
  have hgap : (σ 0).2 + 0 + 1 / 100 ≤ (σ 1).1 + 0 := by
    have hord := hv.ordered
    simp only [photoSecondDone, List.pairwise_cons] at hord
    exact (hord.2.1 (1, 0) (by simp)).2 (by decide)
  have he : photoFinish.epsilon = 1 / 100 := rfl
  simp only [he, Bool.false_eq_true, if_false] at *
  linarith

/-- The tolerance discards a state that is less than `epsilon` behind, and what it
is accepted for is lost, although no duration is negative. -/
theorem dedup_not_sound_tolerance : ∃ s n t m,
    Reached photoFinish (tolerantNetwork (Core.tolerance .rust (1 / 100))) false
      (OpensNonneg photoFinish) s n ∧
    Reached photoFinish (tolerantNetwork (Core.tolerance .rust (1 / 100))) false
      (OpensNonneg photoFinish) t m ∧
    VisitedStates.Discards photoFinish (tolerantNetwork (Core.tolerance .rust (1 / 100))) false t s ∧
    ∃ as, AcceptedFrom photoFinish (tolerantNetwork (Core.tolerance .rust (1 / 100))) false s n as ∧
      ¬ AcceptedFrom photoFinish (tolerantNetwork (Core.tolerance .rust (1 / 100))) false t m as := by
  have hx := tolerantNetwork_exact (Core.tolerance .rust (1 / 100))
  obtain ⟨hfirst, hdone, hvalid, hmeets⟩ := photo_schedulable
  have hsecond : Schedulable photoFinish photoSecond := fun _ => ⟨_, hvalid, hmeets⟩
  obtain ⟨s, n, ids₂, hs, h₂⟩ := Reached.of_config hx photo_opensNonneg rfl photo_first hfirst
  obtain ⟨t, m, ids₁, ht, h₁⟩ := Reached.of_config hx photo_opensNonneg rfl photo_second hsecond
  have hreach₁ : Config.Reachable photoFinish false photoSecond := ⟨raceStart, _, rfl, photo_second⟩
  have hreach₂ : Config.Reachable photoFinish false photoFirst := ⟨raceStart, _, rfl, photo_first⟩
  have hwf₁ := hreach₁.wellFormed
  have hwf₂ := hreach₂.wellFormed
  refine ⟨s, n, t, m, hs, ht, ?_, [⟨2⟩], ?_, fun ha => ?_⟩
  · apply discards_of_idle rfl rfl h₁ h₂ rfl rfl rfl
    have hle := h₁.makespan_le hx hwf₁ hreach₁.progress rfl (by simp [photoSecond]) hvalid hmeets
      (p := (0, 1)) rfl
    obtain ⟨-, σ, hv, -, hpast⟩ := h₂.exists_valid_makespan hx hwf₂ rfl hfirst
    have hlate := hpast (0, 1) (by decide)
    have htime : time photoFinish photoSecond (fun _ => (0, 1)) (0, 1) = 1 + 0 := rfl
    have hend : time photoFinish photoFirst σ (0, 1) = (σ 0).2 + 0 := rfl
    have hbounds := hv.bounds 0 _ rfl
    have hstart := hv.origin 0 _ rfl
    have he : photoFinish.epsilon = 1 / 100 := rfl
    have htol : (tolerantNetwork (Core.tolerance .rust (1 / 100))).tolerance = 1 / 100 / 1000 := rfl
    rw [he, htol]
    simp only [Bool.false_eq_true, if_false] at hstart
    linarith
  · exact (h₂.acceptedFrom_iff hx hwf₂ hfirst).mpr
      ⟨photoFirstDone, rfl, by decide, hdone⟩
  · obtain ⟨d, hd, -, hsch⟩ := (h₁.acceptedFrom_iff hx hwf₁ hsecond).mp ha
    have hend : photoSecond.runWith photoFinish false [⟨2⟩] = some photoSecondDone := rfl
    obtain rfl := Option.some.inj (hd.symm.trans hend)
    exact photoSecondDone_not_schedulable hsch

end Race

end TamerLite
