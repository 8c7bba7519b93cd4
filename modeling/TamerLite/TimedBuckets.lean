import TamerLite.Intervals
import TamerLite.TimedEvents

/-! What the buckets of the timed effects and the timed goals ask for, goal by
goal, and that each goal is opened before it is closed. -/

namespace TamerLite

/-! ### Timed goals -/

namespace TimedProblem

variable {conj : List FNode → FNode} {P : TimedProblem} {l : List (ℚ × UPTiming × Contents)} {ε : ℚ}
  {b : Buckets}

/-- The entries of the timed effects and the timed goals. -/
def timedEvents (conj : List FNode → FNode) (P : TimedProblem) : List (UPTiming × Contents) :=
  (P.timedEffects.map fun p => (p.1, { effects := p.2 })) ++
    P.timedGoals.flatMap fun p => (timedGoalEvents conj p).getD []

/-- An entry, keyed by its instant. -/
def keyedEntry (p : UPTiming × Contents) : ℚ × UPTiming × Contents :=
  (p.1.delay, ⟨.globalStart, p.1.delay⟩, p.2)

theorem mapM_timedEntry {es : List (UPTiming × Contents)} (h : es.mapM timedEntry = some l) :
    l = es.map keyedEntry ∧ ∀ p ∈ es, p.1.isFromStart = true ∧ 0 ≤ p.1.delay := by
  induction es generalizing l with
  | nil => exact ⟨(Option.some.inj h).symm, by simp⟩
  | cons p es ih =>
    simp only [List.mapM_cons, Option.bind_eq_bind, Option.bind_eq_some_iff] at h
    obtain ⟨y, hy, ys, hys, h⟩ := h
    obtain rfl := Option.some.inj h
    obtain ⟨rfl, hes⟩ := ih hys
    unfold timedEntry at hy
    split_ifs at hy with hp
    obtain rfl := Option.some.inj hy
    simp only [Bool.and_eq_true, decide_eq_true_eq] at hp
    exact ⟨rfl, List.forall_mem_cons.mpr ⟨hp, hes⟩⟩

theorem entries_eq_some (h : P.entries conj = some l) : l = (P.timedEvents conj).map keyedEntry ∧
    (∀ p ∈ P.timedEvents conj, p.1.isFromStart = true ∧ 0 ≤ p.1.delay) ∧
    ∀ p ∈ P.timedGoals, (timedGoalEvents conj p).isSome := by
  simp only [entries, Option.bind_eq_bind, Option.bind_eq_some_iff] at h
  obtain ⟨effects, he, goals, hg, goals', hg', h⟩ := h
  obtain rfl := Option.some.inj h
  have he' : (P.timedEffects.map fun p => (p.1, { effects := p.2 })).mapM timedEntry =
      some effects := by rwa [List.mapM_map]
  obtain ⟨rfl, heff⟩ := mapM_timedEntry he'
  obtain ⟨rfl, hgoal⟩ := mapM_timedEntry hg'
  obtain ⟨rfl, hsome⟩ := mapM_eq_some [] hg
  rw [← List.flatMap_def] at hgoal
  refine ⟨by rw [timedEvents, List.map_append, List.flatMap_def], fun p hp => ?_, hsome⟩
  rcases List.mem_append.mp hp with hp | hp
  · exact heff p hp
  · exact hgoal p hp

theorem gathered_keyedEntry {g : Contents → List FNode} (f : ℚ → Bool)
    (es : List (UPTiming × Contents)) :
    Buckets.gathered f g (es.map keyedEntry) = collected (fun t => f t.delay) g es := by
  rw [Buckets.gathered, collected, List.map_map]
  rfl

/-- The buckets hold the entries and a place for the start. -/
theorem groupTimedEvents_eq_some (h : P.groupTimedEvents conj ε = some b) : ∃ l, P.entries conj = some l ∧
    (l = [] ∧ b = ∅ ∨ l ≠ [] ∧
      b = (l ++ [((0 : ℚ), (⟨.globalStart, 0⟩ : UPTiming), ({} : Contents))]).foldl addToBucket ∅) := by
  simp only [groupTimedEvents, Option.bind_eq_bind, Option.bind_eq_some_iff] at h
  obtain ⟨l, hl, h⟩ := h
  refine ⟨l, hl, ?_⟩
  split_ifs at h with he hs
  · exact .inl ⟨List.isEmpty_iff.mp he, (Option.some.inj h).symm⟩
  · refine .inr ⟨fun hn => he (List.isEmpty_iff.mpr hn), ?_⟩
    rw [List.foldl_append]
    exact (Option.some.inj h).symm

/-- What the buckets with a delay in `f` collect, goal by goal. -/
theorem gather_buckets (h : P.groupTimedEvents conj ε = some b) {g : Contents → List FNode}
    (hg : ∀ x y, g (x.append y) = g x ++ g y) (he : ∀ e, g { effects := e } = []) (f : ℚ → Bool) :
    Buckets.gather f g b = (P.timedGoals.map fun p =>
      collected (fun t => f t.delay) g ((timedGoalEvents conj p).getD [])).sum := by
  obtain ⟨l, hl, hb⟩ := groupTimedEvents_eq_some h
  have hsum : Buckets.gathered f g l = (P.timedGoals.map fun p =>
      collected (fun t => f t.delay) g ((timedGoalEvents conj p).getD [])).sum := by
    obtain ⟨rfl, -⟩ := entries_eq_some hl
    rw [← collected_flatMap, ← zero_add (collected _ g _),
      ← collected_effects (l := P.timedEffects) he, ← collected_append]
    exact gathered_keyedEntry f _
  rw [← hsum]
  rcases hb with ⟨rfl, rfl⟩ | ⟨-, rfl⟩
  · rfl
  · rw [Buckets.gather_foldl hg]
    have hz : Buckets.gather f g (∅ : Buckets) = 0 := rfl
    have h0 : g {} = [] := he []
    simp [hz, Buckets.gathered, h0]

end TimedProblem

namespace TimeInterval

/-- A timed goal over `i` is opened, as it is no point; it is closed again
unless it lasts until the end of the plan. -/
def opens (i : TimeInterval) : Bool := !(i.upper.isFromStart && i.lower.delay = i.upper.delay)

def closes (i : TimeInterval) : Bool := i.upper.isFromStart && i.lower.delay ≠ i.upper.delay

end TimeInterval

section

variable {conj : List FNode → FNode} {p : TimeInterval × List FNode} {f : UPTiming → Bool}

/-- An accepted timed goal starts at an instant, and ends at a later one if it
is closed. -/
theorem timedGoalEvents_isSome (h : (timedGoalEvents conj p).isSome) :
    p.1.lower.isFromStart = true ∧ (p.1.closes = true → p.1.lower.delay < p.1.upper.delay) := by
  unfold timedGoalEvents at h
  cases hl : p.1.lower.isFromStart with
  | false => simp [hl] at h
  | true =>
    refine ⟨rfl, fun hc => ?_⟩
    simp only [TimeInterval.closes, Bool.and_eq_true, decide_eq_true_eq] at hc
    by_contra hlt
    have hgt : p.1.upper.delay < p.1.lower.delay := lt_of_le_of_ne (not_lt.mp hlt) (Ne.symm hc.2)
    simp [hl, hc.1, TimeInterval.isEmpty, hgt] at h

theorem collected_timedStarts (h : (timedGoalEvents conj p).isSome) (f : UPTiming → Bool) :
    collected f Contents.startConditions ((timedGoalEvents conj p).getD []) =
      if p.1.opens && f p.1.lower then {conj p.2} else 0 := by
  cases hl : p.1.lower.isFromStart with
  | false => simp [timedGoalEvents, hl] at h
  | true =>
    cases hu : p.1.upper.isFromStart with
    | false =>
      cases ho : p.1.isLeftOpen <;>
        simp [timedGoalEvents, hl, hu, ho, collected, TimeInterval.opens]
    | true =>
      cases he : p.1.isEmpty with
      | true => simp [timedGoalEvents, hl, hu, he] at h
      | false =>
        by_cases hd : p.1.lower.delay = p.1.upper.delay
        · simp [timedGoalEvents, hl, hu, he, hd, collected, TimeInterval.opens]
        · cases ho : p.1.isLeftOpen <;> cases hr : p.1.isRightOpen <;>
            simp [timedGoalEvents, hl, hu, he, hd, ho, hr, collected, TimeInterval.opens]

theorem collected_timedEnds (h : (timedGoalEvents conj p).isSome) (f : UPTiming → Bool) :
    collected f Contents.endConditions ((timedGoalEvents conj p).getD []) =
      if p.1.closes && f p.1.upper then {conj p.2} else 0 := by
  cases hl : p.1.lower.isFromStart with
  | false => simp [timedGoalEvents, hl] at h
  | true =>
    cases hu : p.1.upper.isFromStart with
    | false =>
      cases ho : p.1.isLeftOpen <;>
        simp [timedGoalEvents, hl, hu, ho, collected, TimeInterval.closes]
    | true =>
      cases he : p.1.isEmpty with
      | true => simp [timedGoalEvents, hl, hu, he] at h
      | false =>
        by_cases hd : p.1.lower.delay = p.1.upper.delay
        · simp [timedGoalEvents, hl, hu, he, hd, collected, TimeInterval.closes]
        · cases ho : p.1.isLeftOpen <;> cases hr : p.1.isRightOpen <;>
            simp [timedGoalEvents, hl, hu, he, hd, ho, hr, collected, TimeInterval.closes]

end

/-- A timed goal is opened before it is closed, as its interval is not empty. -/
theorem TimedProblem.nestedBuckets {P : TimedProblem} {ε : ℚ} {b : Buckets}
    (h : P.groupTimedEvents conj ε = some b) : NestedBuckets (sortBuckets b) := by
  obtain ⟨l, hl, -⟩ := groupTimedEvents_eq_some h
  obtain ⟨-, -, hsome⟩ := entries_eq_some hl
  refine nestedBuckets_sortBuckets fun d => ?_
  rw [gather_buckets h (fun _ _ => rfl) (fun _ => rfl),
    gather_buckets h (fun _ _ => rfl) (fun _ => rfl)]
  refine List.sum_le_sum fun p hp => ?_
  rw [collected_timedEnds (hsome p hp), collected_timedStarts (hsome p hp)]
  by_cases hu : (p.1.closes && decide (p.1.upper.delay ≤ d)) = true
  · rw [if_pos hu]
    simp only [Bool.and_eq_true, decide_eq_true_eq] at hu
    have hlt := (timedGoalEvents_isSome (hsome p hp)).2 hu.1
    rw [if_pos (by simp [TimeInterval.opens, hlt.ne, hlt.trans_le hu.2])]
  · rw [if_neg hu]
    exact Multiset.zero_le _

/-! ### What a timed goal asks for, and when -/

/-- The instants at which a timed goal asks for its goals. -/
def TimeInterval.checkedAt (i : TimeInterval) (d : ℚ) : Prop :=
  i.isLeftOpen = false ∧ i.lower.delay = d ∨
    i.closes = true ∧ i.isRightOpen = false ∧ i.upper.delay = d

theorem exists_timedConditions {p : TimeInterval × List FNode} {d : ℚ} {e : FNode}
    (h : (timedGoalEvents conj p).isSome) :
    (∃ q ∈ (timedGoalEvents conj p).getD [], q.1.delay = d ∧ e ∈ q.2.conditions) ↔
      p.1.checkedAt d ∧ e ∈ p.2 := by
  cases hl : p.1.lower.isFromStart with
  | false => simp [timedGoalEvents, hl] at h
  | true =>
    cases hu : p.1.upper.isFromStart with
    | false =>
      cases ho : p.1.isLeftOpen <;>
        simp [timedGoalEvents, hl, hu, ho, TimeInterval.checkedAt, TimeInterval.closes]
    | true =>
      cases he : p.1.isEmpty with
      | true => simp [timedGoalEvents, hl, hu, he] at h
      | false =>
        by_cases hd : p.1.lower.delay = p.1.upper.delay
        · have ho : p.1.isLeftOpen = false := by
            simp only [TimeInterval.isEmpty, hl, hu, hd] at he
            simp at he
            exact he.1
          simp [timedGoalEvents, hl, hu, he, hd, ho, TimeInterval.checkedAt, TimeInterval.closes]
        · cases ho : p.1.isLeftOpen <;> cases hr : p.1.isRightOpen <;>
            simp [timedGoalEvents, hl, hu, he, hd, ho, hr, TimeInterval.checkedAt,
              TimeInterval.closes, or_and_right, exists_or]

theorem exists_timedBound {p : TimeInterval × List FNode} (h : (timedGoalEvents conj p).isSome) :
    (∃ q ∈ (timedGoalEvents conj p).getD [], q.1 = p.1.lower) ∧
      (p.1.closes = true → ∃ q ∈ (timedGoalEvents conj p).getD [], q.1 = p.1.upper) := by
  cases hl : p.1.lower.isFromStart with
  | false => simp [timedGoalEvents, hl] at h
  | true =>
    cases hu : p.1.upper.isFromStart with
    | false => simp [timedGoalEvents, hl, hu, TimeInterval.closes, or_and_right, exists_or]
    | true =>
      cases he : p.1.isEmpty with
      | true => simp [timedGoalEvents, hl, hu, he] at h
      | false =>
        by_cases hd : p.1.lower.delay = p.1.upper.delay
        · simp [timedGoalEvents, hl, hu, he, hd, TimeInterval.closes]
        · simp [timedGoalEvents, hl, hu, he, hd, TimeInterval.closes, or_and_right, exists_or]

namespace TimedProblem

variable {conj : List FNode → FNode} {P : TimedProblem} {ε : ℚ} {b : Buckets} {d : ℚ}

/-- The buckets come from the entries and a place for the start, if there are any entries. -/
theorem buckets_cases (h : P.groupTimedEvents conj ε = some b) :
    (∀ p ∈ P.timedGoals, (timedGoalEvents conj p).isSome) ∧
    (P.timedEvents conj = [] ∧ b = ∅ ∨ P.timedEvents conj ≠ [] ∧
      b = ((P.timedEvents conj ++ [((⟨.globalStart, 0⟩ : UPTiming), ({} : Contents))]).map
        keyedEntry).foldl addToBucket ∅) := by
  obtain ⟨l, hl, hb⟩ := groupTimedEvents_eq_some h
  obtain ⟨rfl, -, hsome⟩ := entries_eq_some hl
  refine ⟨hsome, ?_⟩
  rcases hb with ⟨hnil, hb⟩ | ⟨hne, rfl⟩
  · exact .inl ⟨List.map_eq_nil_iff.mp hnil, hb⟩
  · exact .inr ⟨fun hn => hne (by rw [hn, List.map_nil]), by rw [List.map_append]; rfl⟩

theorem has_conditions (h : P.groupTimedEvents conj ε = some b) {e : FNode} :
    b.Has Contents.conditions d e ↔ ∃ p ∈ P.timedGoals, p.1.checkedAt d ∧ e ∈ p.2 := by
  obtain ⟨hsome, hb⟩ := buckets_cases h
  have hevents : (∃ q ∈ P.timedEvents conj, q.1.delay = d ∧ e ∈ q.2.conditions) ↔
      ∃ p ∈ P.timedGoals, p.1.checkedAt d ∧ e ∈ p.2 := by
    simp only [timedEvents, List.mem_append, or_and_right, exists_or, List.mem_map,
      List.mem_flatMap]
    constructor
    · intro h
      rcases h with ⟨_, ⟨p, -, rfl⟩, -, he⟩ | ⟨q, ⟨p, hp, hq⟩, hd, he⟩
      · simp at he
      · exact ⟨p, hp, (exists_timedConditions (hsome p hp)).mp ⟨q, hq, hd, he⟩⟩
    · intro h
      obtain ⟨p, hp, hc⟩ := h
      obtain ⟨q, hq, hd, he⟩ := (exists_timedConditions (hsome p hp)).mpr hc
      exact .inr ⟨q, ⟨p, hp, hq⟩, hd, he⟩
  rw [← hevents]
  rcases hb with ⟨hnil, rfl⟩ | ⟨-, rfl⟩
  · simp [hnil, Buckets.not_has_empty]
  · rw [Buckets.has_foldl mem_conditions_append]
    simp [Buckets.not_has_empty, keyedEntry]

theorem timing_eq (h : P.groupTimedEvents conj ε = some b) {v : UPTiming × Contents}
    (hv : b.lookup d = some v) : v.1 = ⟨.globalStart, d⟩ := by
  rcases (buckets_cases h).2 with ⟨-, rfl⟩ | ⟨-, rfl⟩
  · rw [AList.lookup_empty] at hv
    contradiction
  · refine Buckets.timing_foldl (P := fun d t => t = ⟨.globalStart, d⟩) (fun p hp => ?_) (fun d v hv => ?_) hv
    · obtain ⟨q, -, rfl⟩ := List.mem_map.mp hp
      rfl
    · rw [AList.lookup_empty] at hv
      contradiction

theorem mem_buckets (h : P.groupTimedEvents conj ε = some b) {q : UPTiming × Contents}
    (hq : q ∈ P.timedEvents conj) : q.1.delay ∈ b := by
  rcases (buckets_cases h).2 with ⟨hnil, -⟩ | ⟨-, rfl⟩
  · rw [hnil] at hq
    contradiction
  · refine (Buckets.mem_foldl _).mpr (.inr ⟨keyedEntry q, ?_, rfl⟩)
    exact List.mem_map_of_mem (List.mem_append_left _ hq)

/-- The bounds of an accepted timed goal have their buckets. -/
theorem bounds_mem (h : P.groupTimedEvents conj ε = some b) {p : TimeInterval × List FNode}
    (hp : p ∈ P.timedGoals) :
    p.1.lower.delay ∈ b ∧ (p.1.closes = true → p.1.upper.delay ∈ b) := by
  obtain ⟨⟨q, hq, hl⟩, hu⟩ := exists_timedBound ((buckets_cases h).1 p hp)
  have hmem : ∀ {q}, q ∈ (timedGoalEvents conj p).getD [] → q.1.delay ∈ b := fun hq =>
    mem_buckets h (List.mem_append_right _ (List.mem_flatMap.mpr ⟨p, hp, hq⟩))
  refine ⟨hl ▸ hmem hq, fun hc => ?_⟩
  obtain ⟨q', hq', hu'⟩ := hu hc
  exact hu' ▸ hmem hq'

end TimedProblem

end TamerLite
