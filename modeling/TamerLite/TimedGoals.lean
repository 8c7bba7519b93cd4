import TamerLite.ConditionCheck
import TamerLite.EncodedSpace
import TamerLite.TimedRuns

/-! Timed goals are checked on exactly their intervals: a path that is accepted
without them is accepted with them if each holds from its lower bound on, up to
its upper bound. -/

namespace TamerLite

open SearchSpace

/-! ### What is open after the first events -/

theorem mem_sum_map {α β : Type*} {l : List α} {F : α → Multiset β} {x : β} :
    x ∈ (l.map F).sum ↔ ∃ y ∈ l, x ∈ F y := by
  induction l with
  | nil => simp
  | cons y l ih => simp [ih]

/-- The instant `d` is among the first `n`. -/
def Buckets.among (b : Buckets) (n : ℕ) (d : ℚ) : Bool := (b.sorted.take n).any (·.1 = d)

section

variable {P : TimedProblem} {ε : ℚ} {b : Buckets} {E : Encoder} {a : Action}
  {le : List (Timing × Event)} {n : ℕ} {d : ℚ} {p : TimeInterval × List FNode}

theorem among_iff : b.among n d = true ↔ ∃ k < n, ∃ q, b.sorted[k]? = some q ∧ q.1 = d := by
  rw [Buckets.among, List.any_eq_true]
  constructor
  · intro h
    obtain ⟨q, hq, hd⟩ := h
    obtain ⟨k, hk⟩ := List.mem_iff_getElem?.mp hq
    rw [List.getElem?_take] at hk
    split_ifs at hk with hkn
    exact ⟨k, hkn, q, hk, by simpa using hd⟩
  · intro h
    obtain ⟨k, hkn, q, hk, hd⟩ := h
    refine ⟨q, List.mem_iff_getElem?.mpr ⟨k, ?_⟩, by simpa using hd⟩
    rw [List.getElem?_take, if_pos hkn, hk]

theorem sorted_index {k i : ℕ} {p q : Sigma fun _ : ℚ => UPTiming × Contents}
    (hk : b.sorted[k]? = some q) (hi : b.sorted[i]? = some p) (h : q.1 = p.1) : k = i := by
  have h₁ := Buckets.sorted_lt_iff hk hi
  have h₂ := Buckets.sorted_lt_iff hi hk
  rw [h] at h₁ h₂
  simp only [lt_irrefl, false_iff] at h₁ h₂
  omega

theorem exists_sorted (h : d ∈ b) : ∃ (k : ℕ) (v : _), b.sorted[k]? = some ⟨d, v⟩ := by
  obtain ⟨v, hv⟩ := Option.isSome_iff_exists.mp (AList.lookup_isSome.mpr h)
  obtain ⟨k, hk⟩ := List.mem_iff_getElem?.mp ((Buckets.mem_sorted (p := ⟨d, v⟩)).mpr hv)
  exact ⟨k, v, hk⟩

/-- An instant that has passed leaves the earlier ones behind. -/
theorem among_of_lt {d' : ℚ} (hd : d ∈ b) (hlt : d < d') (h : b.among n d' = true) :
    b.among n d = true := by
  obtain ⟨i, v, hi⟩ := exists_sorted hd
  obtain ⟨k, hkn, q, hk, rfl⟩ := among_iff.mp h
  have hik := (Buckets.sorted_lt_iff hk hi).mp hlt
  exact among_iff.mpr ⟨i, by omega, _, hi, rfl⟩

theorem contentsOf_among (g : Contents → List FNode) (b : Buckets) (n : ℕ) :
    contentsOf g ((sortBuckets b).take n) = Buckets.gather (b.among n) g b := by
  rw [contentsOf_take]
  refine Buckets.sum_take_sorted fun i p hi => ?_
  rw [among_iff]
  constructor
  · intro h
    obtain ⟨k, hkn, q, hk, heq⟩ := h
    rwa [← sorted_index hk hi heq]
  · exact fun h => ⟨i, h, p, hi, rfl⟩

theorem map_sum_map {l : List (TimeInterval × List FNode)}
    (F : TimeInterval × List FNode → Multiset FNode) :
    (l.map F).sum.map E.converted = (l.map fun p => (F p).map E.converted).sum := by
  induction l with
  | nil => rfl
  | cons p l ih => simp [ih]

/-- After the first events, a timed goal is open from its lower bound until its
upper one. -/
theorem openAt_timed (h : P.groupTimedEvents E.conj ε = some b)
    (he : E.eventsFromBuckets a (sortBuckets b) = some le) (n : ℕ) :
    openAt le n = (P.timedGoals.map fun p =>
      if p.1.opens && b.among n p.1.lower.delay && !(p.1.closes && b.among n p.1.upper.delay) then
        {E.converted (E.conj p.2)} else 0).sum := by
  have hsome := (TimedProblem.buckets_cases h).1
  have hnest := (E.nestedEvents he (TimedProblem.nestedBuckets h)).openAt_add_closed n
  rw [E.opened_take he, E.closed_take he, contentsOf_among, contentsOf_among,
    TimedProblem.gather_buckets h (fun _ _ => rfl) (fun _ => rfl),
    TimedProblem.gather_buckets h (fun _ _ => rfl) (fun _ => rfl), map_sum_map, map_sum_map] at hnest
  refine add_right_cancel (hnest.trans ?_)
  rw [← List.sum_map_add]
  refine congrArg List.sum (List.map_congr_left fun p hp => ?_)
  have hbounds := (TimedProblem.bounds_mem h hp).1
  have hlt := (timedGoalEvents_isSome (hsome p hp)).2
  rw [collected_timedStarts (hsome p hp), collected_timedEnds (hsome p hp)]
  by_cases hu : (p.1.closes && b.among n p.1.upper.delay) = true
  · have hcu := Bool.and_eq_true_iff.mp hu
    have hl := among_of_lt hbounds (hlt hcu.1) hcu.2
    have ho : p.1.opens = true := by simp [TimeInterval.opens, (hlt hcu.1).ne]
    simp [ho, hl, hcu.1, hcu.2]
  · rw [Bool.not_eq_true] at hu
    simp only [hu, Bool.not_false, Bool.and_true, Bool.false_eq_true, if_false]
    split_ifs <;> simp

end

/-! ### Positions of the timed events -/

/-- The event at position `j` of `l` is the timed action's, at the instant `t`. -/
def AtInstant (ss : SearchSpace) (l : List (Action × ℕ)) (t : ℚ) (j : ℕ) : Prop :=
  ∃ q te, l[j]? = some q ∧ ss.timedAction = some q.1 ∧ ss.event q.1 q.2 = some te ∧ te.1.delay = t

section

variable {ss : SearchSpace} {P : TimedProblem} {ε : ℚ} {b : Buckets} {E : Encoder} {a : Action}
  {le : List (Timing × Event)} {l : List (Action × ℕ)} {n j k : ℕ} {d : ℚ}

/-- The timed events of `l` are the first `n`, in order. -/
def InOrder (a : Action) (l : List (Action × ℕ)) (n : ℕ) : Prop :=
  l.filter (·.1 = a) = (List.range n).map fun k => (a, k)

theorem InOrder.take (h : InOrder a l n) (j : ℕ) :
    InOrder a (l.take j) ((l.take j).countP (·.1 = a)) := by
  have hsplit := h
  rw [InOrder, ← List.take_append_drop j l, List.filter_append] at hsplit
  have hprefix := congrArg (List.take ((l.take j).filter (·.1 = a)).length) hsplit
  rw [List.take_left, ← List.map_take, List.take_range] at hprefix
  rw [InOrder, List.countP_eq_length_filter, hprefix]
  simp

theorem InOrder.count_of_get (h : InOrder a l n) (hj : l[j]? = some (a, k)) :
    (l.take j).countP (·.1 = a) = k := by
  have hnext := h.take (j + 1)
  have hcount := h.take j
  rw [InOrder, List.take_add_one, hj, Option.toList_some, List.filter_append, hcount,
    List.countP_append] at hnext
  simp only [decide_true, List.filter_cons_of_pos, List.filter_nil, List.countP_cons_of_pos,
    List.countP_nil, zero_add, List.range_succ, List.map_append, List.map_singleton] at hnext
  have hlast := List.append_cancel_left hnext
  simpa using hlast.symm

theorem exists_position (h : InOrder a l n) (hk : k < n) : ∃ j : ℕ, l[j]? = some (a, k) := by
  have hmem : (a, k) ∈ l.filter (·.1 = a) := by
    rw [h]
    exact List.mem_map_of_mem (List.mem_range.mpr hk)
  exact List.mem_iff_getElem?.mp (List.mem_filter.mp hmem).1

theorem event_delay (h : P.groupTimedEvents E.conj ε = some b)
    (he : E.eventsFromBuckets a (sortBuckets b) = some le) {te : Timing × Event}
    (hte : le[k]? = some te) : ∃ v, b.sorted[k]? = some ⟨te.1.delay, v⟩ ∧
      E.convertBucket a k v = some te := by
  obtain ⟨v, hv, hconv⟩ := (Encoder.eventsFromBuckets_getElem he).2 hte
  obtain ⟨d, hd⟩ := Buckets.sortBuckets_eq_some.mp hv
  have htiming := TimedProblem.timing_eq h (Buckets.mem_sorted.mp (List.mem_of_getElem? hd))
  obtain rfl : te.1.delay = d := by
    simp only [Encoder.convertBucket, Option.bind_eq_bind, Option.bind_eq_some_iff] at hconv
    obtain ⟨_, -, _, -, _, -, _, -, hconv⟩ := hconv
    obtain rfl := Option.some.inj hconv
    dsimp only at htiming
    rw [Encoder.convertTiming, htiming]
  exact ⟨v, hd, hconv⟩

theorem atInstant_iff (ht : ss.timedAction = some a) (hle : ss.events a = some le) :
    AtInstant ss l d j ↔ ∃ k te, l[j]? = some (a, k) ∧ le[k]? = some te ∧ te.1.delay = d := by
  constructor
  · intro h
    obtain ⟨⟨a', k⟩, te, hj, ha, hte, hd⟩ := h
    obtain rfl := Option.some.inj (ht.symm.trans ha)
    exact ⟨k, te, hj, (Config.event_eq hle).symm.trans hte, hd⟩
  · intro h
    obtain ⟨k, te, hj, hte, hd⟩ := h
    exact ⟨(a, k), te, hj, ht, (Config.event_eq hle).trans hte, hd⟩

/-- The instants that have passed are those of the timed events so far. -/
theorem among_count_iff (h : P.groupTimedEvents E.conj ε = some b)
    (he : E.eventsFromBuckets a (sortBuckets b) = some le) (ht : ss.timedAction = some a)
    (hle : ss.events a = some le) (hord : InOrder a l le.length) :
    b.among ((l.take j).countP (·.1 = a)) d = true ↔ ∃ i < j, AtInstant ss l d i := by
  rw [among_iff]
  constructor
  · intro hk
    obtain ⟨k, hkn, q, hq, rfl⟩ := hk
    obtain ⟨i, hi⟩ := exists_position (hord.take j) hkn
    rw [List.getElem?_take] at hi
    split_ifs at hi with hij
    have hlen : k < le.length := by
      have hs := (List.getElem?_eq_some_iff.mp hq).1
      have := (Encoder.eventsFromBuckets_getElem he).1
      have : (sortBuckets b).length = b.sorted.length := List.length_map _
      omega
    have hte := List.getElem?_eq_getElem hlen
    obtain ⟨v, hv, -⟩ := event_delay h he hte
    obtain rfl := Option.some.inj (hv.symm.trans hq)
    exact ⟨i, hij, (atInstant_iff ht hle).mpr ⟨k, _, hi, hte, rfl⟩⟩
  · intro hi
    obtain ⟨i, hij, hi⟩ := hi
    obtain ⟨k, te, hl, hte, rfl⟩ := (atInstant_iff ht hle).mp hi
    obtain ⟨v, hv, -⟩ := event_delay h he hte
    refine ⟨k, ?_, _, hv, rfl⟩
    have hcount := hord.count_of_get hl
    have hmono : (l.take (i + 1)).countP (·.1 = a) ≤ (l.take j).countP (·.1 = a) :=
      (List.take_sublist_take_left (by omega)).countP_le
    rw [List.take_add_one, hl, Option.toList_some, List.countP_append, hcount] at hmono
    simp only [decide_true, List.countP_cons_of_pos, List.countP_nil, zero_add] at hmono
    omega

/-- Two events at one instant are at one position. -/
theorem AtInstant.unique (h : P.groupTimedEvents E.conj ε = some b)
    (he : E.eventsFromBuckets a (sortBuckets b) = some le) (ht : ss.timedAction = some a)
    (hle : ss.events a = some le) (hord : InOrder a l le.length) {i : ℕ}
    (hi : AtInstant ss l d i) (hj : AtInstant ss l d j) : i = j := by
  have hlt : ∀ {i j}, AtInstant ss l d i → AtInstant ss l d j → ¬ i < j := by
    intro i j hi hj hij
    obtain ⟨k, te, hl, hte, rfl⟩ := (atInstant_iff ht hle).mp hj
    obtain ⟨v, hv, -⟩ := event_delay h he hte
    have hamong := (among_count_iff h he ht hle hord).mpr ⟨i, hij, hi⟩
    rw [hord.count_of_get hl] at hamong
    obtain ⟨k', hk', q, hq, hqd⟩ := among_iff.mp hamong
    have := sorted_index hq hv hqd
    omega
  have h₁ := hlt hi hj
  have h₂ := hlt hj hi
  omega

end

/-! ### The goals along the path -/

section

variable {E : Encoder} {P : TimedProblem} {ss : SearchSpace} {ε : ℚ} {b : Buckets}
  {a : Action} {le : List (Timing × Event)} {l : List (Action × ℕ)} {s : Assignments}

/-- The conjunction of a goal that is opened has been converted. -/
theorem isSome_of_opens (h : P.groupTimedEvents E.conj ε = some b)
    (he : E.eventsFromBuckets a (sortBuckets b) = some le) {p : TimeInterval × List FNode}
    (hp : p ∈ P.timedGoals) (ho : p.1.opens = true) :
    E.convertExpression (E.conj p.2) = some (E.converted (E.conj p.2)) := by
  have hmem : E.conj p.2 ∈ contentsOf Contents.startConditions (sortBuckets b) := by
    rw [contentsOf_sortBuckets, TimedProblem.gather_buckets h (fun _ _ => rfl) (fun _ => rfl),
      mem_sum_map]
    refine ⟨p, hp, ?_⟩
    rw [collected_timedStarts ((TimedProblem.buckets_cases h).1 p hp)]
    simp [ho]
  obtain ⟨v, hv, hg⟩ := mem_sum_map.mp hmem
  obtain ⟨k, hk⟩ := List.mem_iff_getElem?.mp hv
  obtain ⟨hlen, hget⟩ := Encoder.eventsFromBuckets_getElem he
  have hlt := (List.getElem?_eq_some_iff.mp hk).1
  obtain ⟨w, hw, hconv⟩ := hget (List.getElem?_eq_getElem (show k < le.length by omega))
  obtain rfl := Option.some.inj (hk.symm.trans hw)
  obtain ⟨x, -, hx⟩ := (Enumeration.mapM_eq_some (Encoder.convertBucket_eq_some hconv).2.1).1 _ hg
  rw [Encoder.converted, hx, Option.getD_some]

/-- The bounds of a timed goal have fired by the end. -/
theorem exists_atInstant (h : P.groupTimedEvents E.conj ε = some b)
    (he : E.eventsFromBuckets a (sortBuckets b) = some le) (ht : ss.timedAction = some a)
    (hle : ss.events a = some le) (hord : InOrder a l le.length) {d : ℚ} (hd : d ∈ b) :
    ∃ j < l.length, AtInstant ss l d j := by
  obtain ⟨k, v, hk⟩ := exists_sorted hd
  have hlen : k < le.length := by
    have hs := (List.getElem?_eq_some_iff.mp hk).1
    have := (Encoder.eventsFromBuckets_getElem he).1
    have : (sortBuckets b).length = b.sorted.length := List.length_map _
    omega
  have hte := List.getElem?_eq_getElem hlen
  obtain ⟨w, hw, -⟩ := event_delay h he hte
  obtain ⟨j, hj⟩ := exists_position hord hlen
  refine ⟨j, (List.getElem?_eq_some_iff.mp hj).1, (atInstant_iff ht hle).mpr ⟨k, _, hj, hte, ?_⟩⟩
  exact congrArg Sigma.fst (Option.some.inj (hw.symm.trans hk))

variable [Callables]

/-- The normal form of `g` is true in `s`. -/
def Encoder.Holds (E : Encoder) (g : FNode) (s : Assignments) : Prop :=
  (E.normalizeExpression g).truth (E.converter.interpretation s) = true

theorem Encoder.holds_conj (hnorm : E.KeepsConjunctions) (gs : List FNode) :
    E.Holds (E.conj gs) s ↔ ∀ g ∈ gs, E.Holds g s := by
  have hall : ∀ gs, E.Holds (E.conj gs) s ↔
      ∀ c ∈ FNode.extractAndArguments gs, E.Holds c s := fun gs => by
    rw [Encoder.Holds, hnorm.truth_conj, List.all_eq_true]
    rfl
  have hone : ∀ g, E.Holds g s ↔ ∀ c ∈ FNode.extractAndArguments [g], E.Holds c s := fun g => by
    rw [← hall, hnorm.conj_singleton]
  rw [hall]
  constructor
  · intro h g hg
    refine (hone g).mpr fun c hc => h c ?_
    obtain ⟨e, he, hce⟩ := FNode.mem_extractAndArguments.mp hc
    rw [List.mem_singleton.mp he] at hce
    exact FNode.mem_extractAndArguments.mpr ⟨g, hg, hce⟩
  · intro h c hc
    obtain ⟨e, he, hc⟩ := FNode.mem_extractAndArguments.mp hc
    exact (hone e).mp (h e he) c (FNode.mem_extractAndArguments.mpr ⟨e, by simp, hc⟩)

theorem Encoder.holds_converted (hnorm : E.KeepsConjunctions) {gs : List FNode} {x : Expression}
    (h : E.convertExpression (E.conj gs) = some x) :
    holds x s = true ↔ ∀ g ∈ gs, E.Holds g s := by
  rw [convertExpression_truth h, ← E.holds_conj hnorm]
  rfl

/-- Event `k` checks the goals that ask for it at its instant. -/
theorem conditions_iff (hnorm : E.KeepsConjunctions) (h : P.groupTimedEvents E.conj ε = some b)
    (he : E.eventsFromBuckets a (sortBuckets b) = some le) {k : ℕ} {te : Timing × Event}
    (hte : le[k]? = some te) : holds te.2.conditions s = true ↔
      ∀ p ∈ P.timedGoals, p.1.checkedAt te.1.delay → ∀ g ∈ p.2, E.Holds g s := by
  obtain ⟨v, hv, hconv⟩ := event_delay h he hte
  rw [E.holds_converted hnorm (Encoder.convertBucket_eq_some hconv).1]
  have hlook := Buckets.mem_sorted.mp (List.mem_of_getElem? hv)
  have hmem : ∀ g, g ∈ v.2.conditions ↔ ∃ p ∈ P.timedGoals, p.1.checkedAt te.1.delay ∧ g ∈ p.2 := by
    intro g
    rw [← TimedProblem.has_conditions h]
    constructor
    · exact fun hg => ⟨v, hlook, hg⟩
    · intro hg
      obtain ⟨w, hw, hg⟩ := hg
      obtain rfl := Option.some.inj (hlook.symm.trans hw)
      exact hg
  simp only [hmem]
  constructor
  · exact fun hall p hp hc g hg => hall g ⟨p, hp, hc, hg⟩
  · intro hall g hg
    obtain ⟨p, hp, hc, hg⟩ := hg
    exact hall p hp hc g hg

/-- What is open after the first `i` events are the goals between their bounds. -/
theorem openTimed_iff (hnorm : E.KeepsConjunctions) (h : P.groupTimedEvents E.conj ε = some b)
    (he : E.eventsFromBuckets a (sortBuckets b) = some le) (ht : ss.timedAction = some a)
    (hle : ss.events a = some le) (hord : InOrder a l le.length) (i : ℕ) :
    (∀ x ∈ openTimed ss (l.take i), holds x s = true) ↔ ∀ p ∈ P.timedGoals, p.1.opens = true →
      (∃ j < i, AtInstant ss l p.1.lower.delay j) →
      (p.1.closes = true → ∀ j, AtInstant ss l p.1.upper.delay j → i ≤ j) →
      ∀ g ∈ p.2, E.Holds g s := by
  have hamong : ∀ d, b.among ((l.take i).countP (·.1 = a)) d = true ↔ ∃ j < i, AtInstant ss l d j :=
    fun d => among_count_iff h he ht hle hord
  rw [openTimed_eq ht hle, openAt_timed h he]
  simp only [mem_sum_map]
  have hbetween : ∀ p : TimeInterval × List FNode, (p.1.opens &&
      b.among ((l.take i).countP (·.1 = a)) p.1.lower.delay &&
      !(p.1.closes && b.among ((l.take i).countP (·.1 = a)) p.1.upper.delay)) = true ↔
      p.1.opens = true ∧ (∃ j < i, AtInstant ss l p.1.lower.delay j) ∧
        (p.1.closes = true → ∀ j, AtInstant ss l p.1.upper.delay j → i ≤ j) := by
    intro p
    rw [Bool.and_eq_true, Bool.and_eq_true, Bool.not_eq_true', ← Bool.not_eq_true,
      Bool.and_eq_true, hamong, hamong, and_assoc]
    refine and_congr_right fun _ => and_congr_right fun _ => ?_
    constructor
    · intro hn hc j hj
      by_contra hlt
      exact hn ⟨hc, j, by omega, hj⟩
    · intro hc hn
      obtain ⟨hcl, j, hlt, hj⟩ := hn
      have := hc hcl j hj
      omega
  constructor
  · intro hall p hp ho hlow hup
    refine (E.holds_converted hnorm (isSome_of_opens h he hp ho)).mp (hall _ ⟨p, hp, ?_⟩)
    rw [if_pos ((hbetween p).mpr ⟨ho, hlow, hup⟩)]
    exact Multiset.mem_singleton_self _
  · intro hall x hx
    obtain ⟨p, hp, hx⟩ := hx
    split_ifs at hx with hb
    · obtain ⟨ho, hlow, hup⟩ := (hbetween p).mp hb
      rw [Multiset.mem_singleton.mp hx]
      exact (E.holds_converted hnorm (isSome_of_opens h he hp ho)).mpr (hall p hp ho hlow hup)
    · simp at hx

/-- In the state after the first `i` events of `l`, all of `gs` hold. -/
def HoldAt (E : Encoder) (ss : SearchSpace) (l : List (Action × ℕ)) (gs : List FNode) (i : ℕ) :
    Prop := ∃ s, execute ss (l.take i) = some s ∧ ∀ g ∈ gs, E.Holds g s

/-- A timed goal holds before its lower bound's effects, unless it is left-open,
and from after them up to the state before its upper bound's effects, or up to
the end. The states are those the path `l` goes through in `ss'`. -/
def TimedGoalHolds (E : Encoder) (ss ss' : SearchSpace) (l : List (Action × ℕ))
    (p : TimeInterval × List FNode) : Prop :=
  ∃ j, AtInstant ss l p.1.lower.delay j ∧ (p.1.isLeftOpen = false → HoldAt E ss' l p.2 j) ∧
    ∀ i, j < i → i ≤ l.length →
      (p.1.upper.isFromStart = true → ∀ u, AtInstant ss l p.1.upper.delay u → i ≤ u) →
      HoldAt E ss' l p.2 i

theorem execute_take (h : execute ss l = some s) (i : ℕ) : ∃ t, execute ss (l.take i) = some t := by
  rw [execute, ← List.take_append_drop i l, List.foldlM_append, Option.bind_eq_bind,
    Option.bind_eq_some_iff] at h
  obtain ⟨t, ht, -⟩ := h
  exact ⟨t, ht⟩

variable {ss' : SearchSpace} {t : Assignments}

/-- The checks of the timed action and the final goals are its timed goals. -/
theorem passesAll_iff (hnorm : E.KeepsConjunctions) (h : P.groupTimedEvents E.conj ε = some b)
    (he : E.eventsFromBuckets a (sortBuckets b) = some le) (ht : ss.timedAction = some a)
    (hle : ss.events a = some le) (hord : InOrder a l le.length) (hl : execute ss' l = some t) :
    (PassesAll ss ss' l ∧ ∀ g ∈ P.finalGoals, E.Holds g t) ↔
      ∀ p ∈ P.timedGoals, TimedGoalHolds E ss ss' l p := by
  have hsome := (TimedProblem.buckets_cases h).1
  have hlast : execute ss' (l.take l.length) = some t := by rw [List.take_length, hl]
  constructor
  · intro hpass p hp
    obtain ⟨hpass, -⟩ := hpass
    obtain ⟨j, hjl, hj⟩ := exists_atInstant h he ht hle hord (TimedProblem.bounds_mem h hp).1
    refine ⟨j, hj, fun hopen => ?_, fun i hji hil hup => ?_⟩
    · obtain ⟨k, te, hget, hte, hd⟩ := (atInstant_iff ht hle).mp hj
      obtain ⟨s, hs⟩ := execute_take hl j
      obtain ⟨s', hs'⟩ := execute_take hl (j + 1)
      refine ⟨s, hs, ?_⟩
      have hc := (hpass j (a, k) s s' hget hs hs').1 ht te ((Config.event_eq hle).trans hte)
      exact (conditions_iff hnorm h he hte).mp hc p hp (.inl ⟨hopen, hd.symm⟩)
    · -- the check after the event before position `i`
      obtain ⟨i, rfl⟩ : ∃ i', i = i' + 1 := ⟨i - 1, by omega⟩
      obtain ⟨s, hs⟩ := execute_take hl i
      obtain ⟨s', hs'⟩ := execute_take hl (i + 1)
      obtain ⟨q, hq⟩ : ∃ q, l[i]? = some q := ⟨_, List.getElem?_eq_getElem (by omega)⟩
      have hopen := (hpass i q s s' hq hs hs').2
      have htake : l.take i ++ [q] = l.take (i + 1) := by
        rw [List.take_add_one, hq, Option.toList_some]
      rw [htake] at hopen
      refine ⟨s', hs', (openTimed_iff hnorm h he ht hle hord (i + 1)).mp hopen p hp ?_
        ⟨j, hji, hj⟩ fun hc => hup (by simp [TimeInterval.closes] at hc; exact hc.1)⟩
      -- at a point the upper bound would come before `i`
      by_contra hpoint
      simp only [TimeInterval.opens, Bool.not_eq_true', Bool.not_eq_false, Bool.and_eq_true,
        decide_eq_true_eq] at hpoint
      have := hup hpoint.1 j (hpoint.2 ▸ hj)
      omega
  · intro hgoals
    have hhold : ∀ {p} {i : ℕ}, HoldAt E ss' l p i → ∀ {s}, execute ss' (l.take i) = some s →
        ∀ g ∈ p, E.Holds g s := by
      intro p i hh s hs
      obtain ⟨s', hs', hh⟩ := hh
      obtain rfl := Option.some.inj (hs.symm.trans hs')
      exact hh
    refine ⟨fun j q s s' hq hs hs' => ⟨fun htq te hte => ?_, ?_⟩, fun g hg => ?_⟩
    · obtain ⟨a', k⟩ := q
      obtain rfl := Option.some.inj (ht.symm.trans htq)
      have hlek := (Config.event_eq hle).symm.trans hte
      have hat : AtInstant ss l te.1.delay j := (atInstant_iff ht hle).mpr ⟨k, te, hq, hlek, rfl⟩
      refine (conditions_iff hnorm h he hlek).mpr fun p hp hc => ?_
      obtain ⟨j₀, hj₀, hlow, hmid⟩ := hgoals p hp
      rcases hc with ⟨hopen, hd⟩ | ⟨hcl, -, hd⟩
      · rw [hd] at hj₀
        obtain rfl := hj₀.unique h he ht hle hord hat
        exact hhold (hlow hopen) hs
      · -- the upper bound: its event is the one at `j`, after the lower bound's
        have hlt := (timedGoalEvents_isSome (hsome p hp)).2 hcl
        have hamong : b.among ((l.take j).countP (·.1 = a)) p.1.lower.delay = true := by
          obtain ⟨v, hv, -⟩ := event_delay h he hlek
          obtain ⟨k₀, v₀, hk₀⟩ := exists_sorted (TimedProblem.bounds_mem h hp).1
          rw [hord.count_of_get hq]
          rw [hd] at hlt
          exact among_iff.mpr ⟨k₀, (Buckets.sorted_lt_iff hv hk₀).mp hlt, _, hk₀, rfl⟩
        obtain ⟨i, hij, hi⟩ := (among_count_iff h he ht hle hord).mp hamong
        obtain rfl := hj₀.unique h he ht hle hord hi
        have hjl := (List.getElem?_eq_some_iff.mp hq).1
        refine hhold (hmid j hij hjl.le fun _ u hu => ?_) hs
        rw [hd] at hu
        exact (hat.unique h he ht hle hord hu).le
    · have htake : l.take j ++ [q] = l.take (j + 1) := by
        rw [List.take_add_one, hq, Option.toList_some]
      rw [htake]
      refine (openTimed_iff hnorm h he ht hle hord (j + 1)).mpr fun p hp ho hlow hup => ?_
      obtain ⟨j₀, hj₀, -, hmid⟩ := hgoals p hp
      obtain ⟨i, hij, hi⟩ := hlow
      obtain rfl := hj₀.unique h he ht hle hord hi
      have hjl := (List.getElem?_eq_some_iff.mp hq).1
      refine hhold (hmid (j + 1) hij hjl fun hs u hu => hup ?_ u hu) hs'
      simp only [TimeInterval.opens, Bool.not_eq_true', Bool.and_eq_false_iff,
        decide_eq_false_iff_not] at ho
      simp only [TimeInterval.closes, hs, Bool.true_and, decide_eq_true_eq]
      rcases ho with ho | ho
      · rw [hs] at ho
        contradiction
      · exact ho
    · obtain ⟨p, hp, hg⟩ := List.mem_flatMap.mp hg
      split_ifs at hg with hu
      · simp at hg
      · obtain ⟨j₀, hj₀, -, hmid⟩ := hgoals p hp
        obtain ⟨k, te, hget, -, -⟩ := (atInstant_iff ht hle).mp hj₀
        have hjl := (List.getElem?_eq_some_iff.mp hget).1
        exact hhold (hmid l.length hjl le_rfl fun hs => absurd hs hu) hlast g hg

end

/-! ### Acceptance -/

section

variable {ss : SearchSpace} {tn : DeltaSimpleTemporalNetwork} {E : Encoder}
  {P : TimedProblem} {goal : Expression} {c₀ c : Config} {as : List Action} {b : Bool}

theorem withoutTimedGoals_eq (ht : ss.timedAction = none) :
    ss.withoutTimedGoals ss.goal = ss := by
  cases ss
  simp only at ht
  subst ht
  rfl

/-- Without a timed action there are no timed goals. -/
theorem timedGoals_eq_nil (h : P.groupTimedEvents E.conj ss.epsilon = some ∅) : P.timedGoals = [] := by
  obtain ⟨hsome, hb⟩ := TimedProblem.buckets_cases h
  refine List.eq_nil_iff_forall_not_mem.mpr fun p hp => ?_
  exact AList.notMem_empty _ (TimedProblem.bounds_mem h hp).1

variable [Callables]

theorem runWith_of_uncompressed (h : ss.compressionSafeActions = none) :
    Config.runWith ss b = Config.run ss := by
  have hstep : Config.stepWith ss b = Config.step ss := by
    funext c a
    have hc : Config.compresses ss b c a = false := by
      simp [Config.compresses, SearchSpace.isCompressionSafe, h]
    simp only [Config.stepWith, hc]
    cases c.step ss a <;> rfl
  funext c as
  rw [Config.runWith, hstep, Config.run]

/-- A path that passes every other check is accepted if and only if each timed
goal holds on its interval. -/
theorem timed_goals_exact (hx : tn.Exact) (hnorm : E.KeepsConjunctions)
    (hT : E.EncodesTimed P ss) (hgoal : E.convertExpression (E.conj P.goals) = some goal)
    (h₀ : Config.initial (ss.withoutTimedGoals goal) = some c₀)
    (hrun : c₀.runWith (ss.withoutTimedGoals goal) b as = some c)
    (hg : c.goalReached (ss.withoutTimedGoals goal) = true) (hsch : Schedulable ss c) :
    Accepted ss tn b as ↔ ∀ p ∈ P.timedGoals,
      TimedGoalHolds E ss (ss.withoutTimedGoals goal) (c.fired.map c.label) p := by
  obtain ⟨buckets, hbuckets, ⟨rfl, ht⟩ | ⟨-, a, le, ht, hle, he⟩⟩ := hT.timed
  · have hnil := timedGoals_eq_nil hbuckets
    have hfinal : P.finalGoals = [] := by rw [TimedProblem.finalGoals, hnil, List.flatMap_nil]
    have hgoal' := hT.goal
    rw [hfinal, List.append_nil, hgoal] at hgoal'
    obtain rfl := Option.some.inj hgoal'
    rw [withoutTimedGoals_eq ht] at h₀ hrun hg
    simp only [hnil, List.not_mem_nil, false_implies, implies_true, iff_true]
    exact (accepted_iff_runWith hx).mpr ⟨c₀, c, h₀, hrun, hg, hsch⟩
  · have hsafe : ss.compressionSafeActions = none := by
      rcases hT.safe with h | h
      · rw [ht] at h
        contradiction
      · exact h
    have hsafe' : (ss.withoutTimedGoals goal).compressionSafeActions = none := hsafe
    rw [runWith_of_uncompressed hsafe'] at hrun
    have hn : ∀ a le, ss.timedAction = some a → ss.events a = some le → NestedEvents le := by
      intro a' le' ht' hle'
      obtain rfl := Option.some.inj (ht.symm.trans ht')
      obtain rfl := Option.some.inj (hle.symm.trans hle')
      exact E.nestedEvents he (TimedProblem.nestedBuckets hbuckets)
    obtain ⟨htodo, hgoals⟩ := Bool.and_eq_true_iff.mp hg
    have hexec := (trace_run h₀ hrun).execute_eq
    have hord : InOrder a (c.fired.map c.label) le.length := by
      have hev : (ss.withoutTimedGoals goal).events a = some (le.map withoutChecks) := by
        rw [withoutTimedGoals_timed ht, hle, Option.map_some]
      have := TimedInOrder.run h₀ hrun a _ ht hev
      rw [isEmpty_entries_iff.mp htodo a] at this
      simpa [InOrder] using this
    have hreached : ∀ m, (c.beside m).goalReached ss = true ↔
        ∀ g ∈ P.finalGoals, E.Holds g c.assignments := by
      intro m
      have hall := E.holds_converted (s := c.assignments) hnorm hT.goal
      have hplain := (E.holds_converted hnorm hgoal).mp hgoals
      have hsplit : (c.beside m).goalReached ss = true ↔ holds ss.goal c.assignments = true := by
        show (c.todo.entries.isEmpty && holds ss.goal c.assignments) = true ↔ _
        rw [htodo, Bool.true_and]
      rw [hsplit, hall]
      constructor
      · exact fun h g hg => h g (List.mem_append_right _ hg)
      · intro h g hg
        rcases List.mem_append.mp hg with hg | hg
        · exact hplain g hg
        · exact h g hg
    rw [← passesAll_iff hnorm hbuckets he ht hle hord hexec, accepted_iff_runWith hx,
      runWith_of_uncompressed hsafe]
    constructor
    · intro h
      obtain ⟨c₁, c', h₁, hr, hg', -⟩ := h
      obtain ⟨rfl, hall⟩ := (run_iff_passes hn h₀ hrun).mp ⟨c₁, h₁, hr⟩
      exact ⟨hall, (hreached _).mp hg'⟩
    · intro h
      obtain ⟨c₁, h₁, hr⟩ := (run_iff_passes hn h₀ hrun).mpr ⟨rfl, h.1⟩
      refine ⟨c₁, _, h₁, hr, (hreached _).mpr h.2, fun hit => ?_⟩
      obtain ⟨σ, hσ, hd⟩ := hsch hit
      exact ⟨σ, ⟨hσ.bounds, hσ.origin, hσ.ordered, hσ.pending⟩, hd⟩

end

/-! ### A goal over a window -/

section

attribute [local instance] Callables.empty

/-- Sets `f`. -/
def raising : InstantaneousAction := ⟨"raise", [], [⟨fluentF, boolNode true, .assign⟩]⟩

def windowEncoder : Encoder where
  actions := [.instantaneous raising]
  conj := FNode.conj
  plus := FNode.sum
  normalizeExpression e := e
  converter := twoFluents
  names_nodup := by decide

theorem windowEncoder_keepsConjunctions : windowEncoder.KeepsConjunctions :=
  ⟨fun _ => rfl, fun _ _ => FNode.truth_conj _ _⟩

/-- `f` has to hold from time 1 to time 3. -/
def windowProblem : TimedProblem where
  timedEffects := []
  timedGoals := [(⟨⟨.globalStart, 1⟩, ⟨.globalStart, 3⟩, false, false⟩, [fluentF])]
  goals := []

def windowBuckets : Buckets :=
  [(1, ⟨.globalStart, 1⟩, { conditions := [fluentF], startConditions := [fluentF] }),
    (3, ⟨.globalStart, 3⟩, { conditions := [fluentF], endConditions := [fluentF] }),
    (0, ⟨.globalStart, 0⟩, {})].foldl addToBucket ∅

theorem windowBuckets_separated :
    separated (1 / 100) (windowBuckets.sorted.map Sigma.fst) = true := by
  decide +kernel

theorem windowProblem_groups :
    windowProblem.groupTimedEvents windowEncoder.conj (1 / 100) = some windowBuckets := by
  have hgoal : timedGoalEvents windowEncoder.conj
      (⟨⟨.globalStart, 1⟩, ⟨.globalStart, 3⟩, false, false⟩, [fluentF]) = some [
      (⟨.globalStart, 1⟩, { conditions := [fluentF] }),
      (⟨.globalStart, 1⟩, { startConditions := [fluentF] }),
      (⟨.globalStart, 3⟩, { conditions := [fluentF] }),
      (⟨.globalStart, 3⟩, { endConditions := [fluentF] })] := by
    rw [timedGoalEvents]
    simp [UPTiming.isFromStart, TimeInterval.isEmpty, windowEncoder, FNode.conj]
  have hentries : windowProblem.entries windowEncoder.conj = some [
      (1, ⟨.globalStart, 1⟩, { conditions := [fluentF] }),
      (1, ⟨.globalStart, 1⟩, { startConditions := [fluentF] }),
      (3, ⟨.globalStart, 3⟩, { conditions := [fluentF] }),
      (3, ⟨.globalStart, 3⟩, { endConditions := [fluentF] })] := by
    simp [TimedProblem.entries, windowProblem, hgoal, timedEntry, UPTiming.isFromStart]
  rw [TimedProblem.groupTimedEvents, hentries]
  exact if_pos windowBuckets_separated

def windowEncoding : ProblemEncoding where
  encoder := windowEncoder
  problem := windowProblem
  initialState := [.bool false, .bool false]
  actionObjects := none
  objToPrevActionsMap := none
  compression := true
  deadline := some 5
  epsilon := 1 / 100
  buckets := windowBuckets
  goal := [.constant (.bool true)]
  keepsConstants := fun _ _ h => h
  epsilon_nonneg := epsilon_default_nonneg
  groups := windowProblem_groups
  converts := rfl

theorem windowEncoding_timed :
    windowEncoder.EncodesTimed windowProblem windowEncoding.searchSpace :=
  windowEncoding.encodesTimed_searchSpace fun a ha => by
    obtain rfl := Option.some.inj ha
    rfl

def window : SearchSpace := windowEncoding.searchSpace

/-- The path raises `f` before the window begins. -/
def windowSchedule : Schedule := fun j => if j = 0 then (0, 3) else (1 / 2, 1 / 2)

def windowUnchecked : SearchSpace := window.withoutTimedGoals [.constant (.bool true)]

theorem windowUnchecked_run : ∃ c₀ c, Config.initial windowUnchecked = some c₀ ∧
    c₀.runWith windowUnchecked true [⟨0⟩, ⟨1⟩, ⟨1⟩] = some c ∧
    c.goalReached windowUnchecked = true ∧ Schedulable window c ∧
    c.fired.map c.label = [(⟨1⟩, 0), (⟨0⟩, 0), (⟨1⟩, 1), (⟨1⟩, 2)] := by
  have hsome : ((Config.initial windowUnchecked).bind fun c =>
      c.runWith windowUnchecked true [⟨0⟩, ⟨1⟩, ⟨1⟩]).isSome = true := by decide +kernel
  have hall : ∀ c ∈ (Config.initial windowUnchecked).bind fun c =>
      c.runWith windowUnchecked true [⟨0⟩, ⟨1⟩, ⟨1⟩], c.goalReached windowUnchecked = true ∧
        (Schedule.Valid window c windowSchedule ∧ Schedule.MeetsDeadline window c windowSchedule) ∧
        c.fired.map c.label = [(⟨1⟩, 0), (⟨0⟩, 0), (⟨1⟩, 1), (⟨1⟩, 2)] := by decide +kernel
  obtain ⟨c, hc⟩ := Option.isSome_iff_exists.mp hsome
  obtain ⟨hgoal, hvalid, hfired⟩ := hall c hc
  obtain ⟨c₀, h₀, hrun⟩ := Option.bind_eq_some_iff.mp hc
  exact ⟨c₀, c, h₀, hrun, hgoal, fun _ => ⟨windowSchedule, hvalid⟩, hfired⟩

theorem timed_goals_exact_window : Accepted window .earliest true [⟨0⟩, ⟨1⟩, ⟨1⟩] ↔
    ∀ p ∈ windowProblem.timedGoals, TimedGoalHolds windowEncoder window windowUnchecked
      [(⟨1⟩, 0), (⟨0⟩, 0), (⟨1⟩, 1), (⟨1⟩, 2)] p := by
  obtain ⟨c₀, c, h₀, hrun, hgoal, hsch, hfired⟩ := windowUnchecked_run
  rw [← hfired]
  exact timed_goals_exact DeltaSimpleTemporalNetwork.earliest_exact
    windowEncoder_keepsConjunctions windowEncoding_timed rfl h₀ hrun hgoal hsch

end

end TamerLite
