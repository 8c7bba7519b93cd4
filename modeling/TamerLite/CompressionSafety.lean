import TamerLite.Buckets
import TamerLite.Enumeration
import TamerLite.Expansion
import TamerLite.PlanValidity

/-! Compression-safe actions of the encoder: what their later events check is
kept open from their first event, unless an interval runs backwards. -/

namespace TamerLite

/-- The interval starts at the action's start, is the action's end, or leaves
out its own first point. -/
def TimeInterval.Forward (i : TimeInterval) : Prop :=
  i.lower.isFromStart = true ∨ i.lower = i.upper ∧ i.lower.kind = .stop ∨ i.isLeftOpen = true

instance (i : TimeInterval) : Decidable i.Forward := by unfold TimeInterval.Forward; infer_instance

/-- Everything a bucket asks for. -/
def Contents.asks (x : Contents) : List FNode := x.conditions ++ x.startConditions ++ x.endConditions

theorem mem_conditions_append (x y : Contents) (c : FNode) :
    c ∈ (x.append y).conditions ↔ c ∈ x.conditions ∨ c ∈ y.conditions := List.mem_append

theorem mem_startConditions_append (x y : Contents) (c : FNode) :
    c ∈ (x.append y).startConditions ↔ c ∈ x.startConditions ∨ c ∈ y.startConditions :=
  List.mem_append

theorem mem_asks_append (x y : Contents) (c : FNode) :
    c ∈ (x.append y).asks ↔ c ∈ x.asks ∨ c ∈ y.asks := by
  simp only [Contents.asks, Contents.append, List.mem_append]
  tauto

namespace Buckets

variable {S T : Buckets} {v₀ : UPTiming × Contents}

/-- After the bucket at the start come the later ones from the start, then those from the end. -/
theorem layout {b : UPTiming × Contents} {k : ℕ} (hz : S.sorted[0]? = some ⟨0, v₀⟩)
    (h0 : 0 < k) (hk : (sortBuckets S ++ sortBuckets T)[k]? = some b) :
    (∃ d, 0 < d ∧ S.sorted[k]? = some ⟨d, b⟩) ∨
      S.sorted.length ≤ k ∧ ∃ d, T.sorted[k - S.sorted.length]? = some ⟨d, b⟩ := by
  have hlen : (sortBuckets S).length = S.sorted.length := List.length_map _
  rcases Nat.lt_or_ge k S.sorted.length with hlt | hge
  · rw [List.getElem?_append_left (by omega)] at hk
    obtain ⟨d, hd⟩ := sortBuckets_eq_some.mp hk
    exact .inl ⟨d, sorted_lt h0 hz hd, hd⟩
  · rw [List.getElem?_append_right (by omega), hlen] at hk
    obtain ⟨d, hd⟩ := sortBuckets_eq_some.mp hk
    exact .inr ⟨hge, d, hd⟩

theorem Has.of_sorted {g : Contents → List FNode} {c : FNode} {d : ℚ} {b : UPTiming × Contents}
    {k : ℕ} (h : S.sorted[k]? = some ⟨d, b⟩) (hc : c ∈ g b.2) : S.Has g d c :=
  ⟨b, mem_sorted.mp (List.mem_of_getElem? h), hc⟩

theorem Has.asks_of_conditions {d : ℚ} {c : FNode} (h : S.Has Contents.conditions d c) :
    S.Has Contents.asks d c := by
  obtain ⟨v, hv, hc⟩ := h
  exact ⟨v, hv, by simp [Contents.asks, hc]⟩

end Buckets

namespace DurativeAction

variable {conj : List FNode → FNode} {a : DurativeAction} {d : ℚ} {c e : FNode}

theorem mem_conditionEvents {q : TimeInterval × List FNode} {p : UPTiming × Contents}
    (hp : p ∈ conditionEvents conj q) : p.1 = q.1.lower ∨ p.1 = q.1.upper := by
  unfold conditionEvents at hp
  split_ifs at hp <;> simp at hp <;> aesop

theorem mem_conditions_conditionEvents {q : TimeInterval × List FNode} {p : UPTiming × Contents}
    (hp : p ∈ conditionEvents conj q) (he : e ∈ p.2.conditions) : q.1.isEmpty = false ∧ e ∈ q.2 ∧
      (p.1 = q.1.lower ∧ (q.1.lower = q.1.upper ∨ q.1.isLeftOpen = false) ∨
        p.1 = q.1.upper ∧ q.1.lower ≠ q.1.upper) := by
  unfold conditionEvents at hp
  split_ifs at hp with h₁ h₂ h₃ h₄ h₄ <;> simp at hp <;> aesop

/-- Without intermediate conditions, conditions are asked for at the start and
at the end only. -/
theorem delay_eq_zero (hint : a.hasIntermediateConditions = false) {p : UPTiming × Contents}
    (hp : p ∈ a.actionEvents conj) (hc : c ∈ p.2.asks) : p.1.delay = 0 := by
  rcases List.mem_append.mp hp with hp | hp
  · obtain ⟨q, hq, hp⟩ := List.mem_flatMap.mp hp
    have hdelay : q.1.lower.delay = 0 ∧ q.1.upper.delay = 0 := by
      have := List.any_eq_false.mp hint q hq
      simpa using this
    rcases mem_conditionEvents hp with h | h
    · rw [h, hdelay.1]
    · rw [h, hdelay.2]
  · obtain ⟨q, -, rfl⟩ := List.mem_map.mp hp
    simp [Contents.asks] at hc

theorem fromStart_asks (hint : a.hasIntermediateConditions = false)
    (h : (a.fromStart conj).Has Contents.asks d c) : d = 0 := by
  obtain ⟨p, hp, -, rfl, hc⟩ := (has_fromStart mem_asks_append).mp h
  exact delay_eq_zero hint hp hc

theorem fromEnd_asks (hint : a.hasIntermediateConditions = false)
    (h : (a.fromEnd conj).Has Contents.asks d c) : d = 0 := by
  obtain ⟨p, hp, -, rfl, hc⟩ := (has_fromEnd mem_asks_append).mp h
  exact delay_eq_zero hint hp hc

/-- A condition from the start to the end is opened at the start. -/
theorem has_opening (hint : a.hasIntermediateConditions = false) {q : TimeInterval × List FNode}
    (hq : q ∈ a.conditions) (hl : q.1.lower.isFromStart = true) (hu : q.1.upper.isFromStart = false) :
    (a.fromStart conj).Has Contents.startConditions 0 (conj q.2) := by
  have hne : q.1.lower ≠ q.1.upper := fun h => by rw [h, hu] at hl; contradiction
  have hempty : q.1.isEmpty = false := by simp [TimeInterval.isEmpty, hl, hu]
  have hp : ((q.1.lower, { startConditions := [conj q.2] }) : UPTiming × Contents) ∈
      a.actionEvents conj := by
    refine List.mem_append_left _ (List.mem_flatMap.mpr ⟨q, hq, ?_⟩)
    simp [conditionEvents, hempty, hne]
  refine (has_fromStart mem_startConditions_append).mpr ⟨_, hp, hl, ?_, by simp⟩
  exact delay_eq_zero (c := conj q.2) hint hp (by simp [Contents.asks])

theorem exists_of_mem_overallConditions (hint : a.hasIntermediateConditions = false)
    (h : c ∈ a.overallConditions) : ∃ l, (a.fromStart conj).Has Contents.startConditions 0 (conj l) ∧
      c ∈ FNode.extractAndArguments l := by
  obtain ⟨q, hq, h⟩ := List.mem_flatMap.mp h
  split_ifs at h with hover
  · simp only [isOverall, Bool.and_eq_true, decide_eq_true_eq] at hover
    obtain ⟨⟨⟨⟨-, hl⟩, hu⟩, -⟩, -⟩ := hover
    exact ⟨q.2, has_opening hint hq (by simp [UPTiming.isFromStart, hl])
      (by simp [UPTiming.isFromStart, hu]), h⟩
  · contradiction

/-- What is checked at the end is among what is open from the start. -/
theorem exists_opening (hint : a.hasIntermediateConditions = false)
    (hend : a.endConditionsContainedInOverallConditions = true)
    (hfw : ∀ p ∈ a.conditions, p.1.Forward) (h : (a.fromEnd conj).Has Contents.conditions d e)
    (hc : c ∈ e.andArguments) : ∃ l, (a.fromStart conj).Has Contents.startConditions 0 (conj l) ∧
      c ∈ FNode.extractAndArguments l := by
  obtain ⟨p, hp, hstop, -, he⟩ := (has_fromEnd mem_conditions_append).mp h
  rcases List.mem_append.mp hp with hp | hp
  · obtain ⟨q, hq, hp⟩ := List.mem_flatMap.mp hp
    obtain ⟨hne, heq, hpos⟩ := mem_conditions_conditionEvents hp he
    have hdelay : q.1.lower.delay = 0 ∧ q.1.upper.delay = 0 := by
      simpa using List.any_eq_false.mp hint q hq
    have hopen : q.1.lower.isFromStart = q.1.upper.isFromStart → q.1.isLeftOpen = false := by
      intro h
      simp only [TimeInterval.isEmpty, h, hdelay.1, hdelay.2] at hne
      simp at hne
      exact hne.1
    have hce : c ∈ FNode.extractAndArguments q.2 := FNode.mem_extractAndArguments.mpr ⟨e, heq, hc⟩
    rcases hpos with ⟨hp, hcase⟩ | ⟨hp, hlu⟩
    · -- the interval's own first point is at the end
      rw [hp] at hstop
      rcases hfw q hq with hl | ⟨heq, hk⟩ | hl
      · rw [hl] at hstop
        contradiction
      · have hce : c ∈ a.endConditions := by
          refine List.mem_flatMap.mpr ⟨q, hq, ?_⟩
          rw [if_pos (by simp only [hk, hdelay.1, heq.symm]; rfl)]
          exact hce
        have hover := List.all_eq_true.mp hend c hce
        exact exists_of_mem_overallConditions hint (by simpa using hover)
      · rcases hcase with hlu | hclosed
        · rw [hopen (congrArg _ hlu)] at hl
          contradiction
        · rw [hclosed] at hl
          contradiction
    · rw [hp] at hstop
      cases hl : q.1.lower.isFromStart with
      | true => exact ⟨q.2, has_opening hint hq hl hstop, hce⟩
      | false =>
        rcases hfw q hq with h | ⟨h, -⟩ | h
        · rw [hl] at h
          contradiction
        · exact absurd h hlu
        · rw [hopen (hl.trans hstop.symm)] at h
          contradiction
  · obtain ⟨q, -, rfl⟩ := List.mem_map.mp hp
    simp at he

theorem not_mem_asks_empty (c : FNode) : c ∉ ({} : Contents).asks := by simp [Contents.asks]

/-- The first bucket has all that the start opens. -/
theorem first_bucket {bs : List (UPTiming × Contents)} (h : a.orderedBuckets conj = some bs) :
    ∃ b₀, bs[0]? = some b₀ ∧ ∀ c, (a.fromStart conj).Has Contents.startConditions 0 c →
      c ∈ b₀.2.startConditions := by
  obtain ⟨start, stop, hcase, hnn, rfl⟩ := orderedBuckets_cases h
  obtain ⟨v, hv⟩ := Buckets.sorted_withStart hnn
  have hfirst := Buckets.sortBuckets_eq_some.mpr ⟨0, hv⟩
  refine ⟨v, ?_, fun c hc => ?_⟩
  · rw [List.getElem?_append_left (List.getElem?_eq_some_iff.mp hfirst).1, hfirst]
  · have hstart : start.Has Contents.startConditions 0 c := by
      rcases hcase with ⟨-, rfl, -⟩ | ⟨q, -, rfl, -⟩
      · exact hc
      · exact (has_folded mem_startConditions_append _).mpr (.inl hc)
    obtain ⟨w, hw, hcw⟩ := (Buckets.has_withStart fun c => List.not_mem_nil).mpr hstart
    obtain rfl := Option.some.inj ((Buckets.mem_sorted.mp (List.mem_of_getElem? hv)).symm.trans hw)
    exact hcw

/-- Only one later bucket, the action's end, asks for something. -/
theorem asking_bucket {bs : List (UPTiming × Contents)}
    (hint : a.hasIntermediateConditions = false) (h : a.orderedBuckets conj = some bs) :
    ∃ (U : Buckets) (n : ℕ) (d : ℚ), ∀ {i : ℕ} {b : UPTiming × Contents}, 0 < i →
      bs[i]? = some b → ∀ c ∈ b.2.asks, n ≤ i ∧ U.sorted[i - n]? = some ⟨d, b⟩ ∧
        (c ∈ b.2.conditions → ∃ d', (a.fromEnd conj).Has Contents.conditions d' c) := by
  obtain ⟨start, stop, hcase, hnn, rfl⟩ := orderedBuckets_cases h
  obtain ⟨v, hv⟩ := Buckets.sorted_withStart hnn
  rcases hcase with ⟨-, rfl, rfl⟩ | ⟨q, -, hstart, rfl⟩
  · refine ⟨a.fromEnd conj, (a.fromStart conj).withStart.sorted.length, 0, fun {i b} hi hb c hc => ?_⟩
    rcases Buckets.layout hv hi hb with ⟨d, hd, hS⟩ | ⟨hn, d, hT⟩
    · have hc := (Buckets.has_withStart not_mem_asks_empty).mp (Buckets.Has.of_sorted hS hc)
      exact absurd (fromStart_asks hint hc) hd.ne'
    · obtain rfl := fromEnd_asks hint (Buckets.Has.of_sorted hT hc)
      exact ⟨hn, hT, fun hc => ⟨0, Buckets.Has.of_sorted hT hc⟩⟩
  · refine ⟨start.withStart, 0, q, fun {i b} hi hb c hc => ?_⟩
    rcases Buckets.layout hv hi hb with ⟨d, hd, hS⟩ | ⟨hn, d, hT⟩
    · have hS' := (Buckets.has_withStart not_mem_asks_empty).mp (Buckets.Has.of_sorted hS hc)
      rw [hstart] at hS'
      rcases (has_folded mem_asks_append _).mp hS' with h | h
      · exact absurd (fromStart_asks hint h) hd.ne'
      · obtain rfl : d = q := by linarith [fromEnd_asks hint h]
        refine ⟨Nat.zero_le _, hS, fun hc => ?_⟩
        have hS := (Buckets.has_withStart fun c => List.not_mem_nil).mp
          (Buckets.Has.of_sorted (g := Contents.conditions) hS hc)
        rw [hstart] at hS
        rcases (has_folded mem_conditions_append _).mp hS with h | h
        · exact absurd (fromStart_asks hint h.asks_of_conditions) hd.ne'
        · exact ⟨_, h⟩
    · simp [Buckets.sorted] at hT

/-- What a later bucket checks is open from the first one, and nothing is
closed in between. -/
theorem orderedBuckets_covered {bs : List (UPTiming × Contents)} {b : UPTiming × Contents} {k : ℕ}
    (hint : a.hasIntermediateConditions = false)
    (hend : a.endConditionsContainedInOverallConditions = true)
    (hfw : ∀ p ∈ a.conditions, p.1.Forward) (h : a.orderedBuckets conj = some bs) (h0 : 0 < k)
    (hk : bs[k]? = some b) (he : e ∈ b.2.conditions) :
    (∀ {i : ℕ} {b' : UPTiming × Contents}, 0 < i → i < k → bs[i]? = some b' →
      b'.2.endConditions = []) ∧
    ∃ b₀, bs[0]? = some b₀ ∧ ∀ c ∈ e.andArguments,
      ∃ l, conj l ∈ b₀.2.startConditions ∧ c ∈ FNode.extractAndArguments l := by
  obtain ⟨b₀, hb₀, hopen⟩ := first_bucket h
  obtain ⟨U, n, d, hask⟩ := asking_bucket hint h
  obtain ⟨hn, hU, hstop⟩ := hask h0 hk e (by simp [Contents.asks, he])
  obtain ⟨d', hd'⟩ := hstop he
  refine ⟨fun {i b'} hi hik hb' => List.eq_nil_iff_forall_not_mem.mpr fun x hx => ?_, b₀, hb₀,
    fun c hc => ?_⟩
  · obtain ⟨hn', hU', -⟩ := hask hi hb' x (by simp [Contents.asks, hx])
    exact absurd (Buckets.sorted_lt (by omega) hU' hU) (lt_irrefl d)
  · obtain ⟨l, hl, hcl⟩ := exists_opening hint hend hfw hd' hc
    exact ⟨l, hopen _ hl, hcl⟩

end DurativeAction

/-! ### Events -/

theorem mem_openAt {le : List (Timing × Event)} {te₀ : Timing × Event} {k : ℕ} {x : Expression}
    (h₀ : le[0]? = some te₀) (hx : x ∈ te₀.2.startConditions) (hk : 0 < k)
    (hend : ∀ {i : ℕ} {te : Timing × Event}, 0 < i → i < k → le[i]? = some te →
      te.2.endConditions = []) : x ∈ openAt le k := by
  induction k with
  | zero => omega
  | succ k ih =>
    by_cases hk0 : k = 0
    · subst hk0
      rw [openAt_succ h₀]
      exact Multiset.mem_add.mpr (.inr hx)
    · have hx' := ih (by omega) fun hi hik hte => hend hi (by omega) hte
      cases hte : le[k]? with
      | none =>
        rw [openAt, hte]
        exact hx'
      | some te =>
        rw [openAt_succ hte, hend (by omega) (by omega) hte]
        exact Multiset.mem_add.mpr (.inl (by simpa using hx'))

namespace Encoder

variable {E : Encoder} {a : Action} {le : List (Timing × Event)}

theorem eventsFromBuckets_getElem {bs : List (UPTiming × Contents)}
    (h : E.eventsFromBuckets a bs = some le) : le.length = bs.length ∧
      ∀ {k : ℕ} {te : Timing × Event}, le[k]? = some te →
        ∃ b, bs[k]? = some b ∧ E.convertBucket a k b = some te := by
  induction bs using List.reverseRecOn generalizing le with
  | nil =>
    obtain rfl := Option.some.inj h
    simp
  | append_singleton bs b ih =>
    simp only [eventsFromBuckets, List.foldlM_append, List.foldlM_cons, List.foldlM_nil,
      Option.bind_eq_bind, Option.bind_eq_some_iff] at h
    obtain ⟨le', hle', e, ⟨te', hte', he⟩, h⟩ := h
    obtain rfl := Option.some.inj he
    obtain rfl := Option.some.inj h
    obtain ⟨hlen, hget⟩ := ih hle'
    refine ⟨by simp [hlen], fun {k te} hk => ?_⟩
    rcases Nat.lt_or_ge k le'.length with hlt | hge
    · rw [List.getElem?_append_left hlt] at hk
      obtain ⟨b', hb', hc⟩ := hget hk
      exact ⟨b', by rwa [List.getElem?_append_left (by omega)], hc⟩
    · rw [List.getElem?_append_right hge] at hk
      obtain ⟨hk0, rfl⟩ := List.getElem?_eq_some_iff.mp hk
      obtain rfl : k = le'.length := by simp at hk0; omega
      exact ⟨b, by simp [hlen], by simpa using hte'⟩

theorem convertBucket_eq_some {pos : ℕ} {b : UPTiming × Contents} {te : Timing × Event}
    (h : E.convertBucket a pos b = some te) :
    E.convertExpression (E.conj b.2.conditions) = some te.2.conditions ∧
      b.2.startConditions.mapM E.convertExpression = some te.2.startConditions ∧
      b.2.endConditions.mapM E.convertExpression = some te.2.endConditions := by
  simp only [convertBucket, Option.bind_eq_bind, Option.bind_eq_some_iff] at h
  obtain ⟨c, hc, sc, hsc, ec, hec, ef, -, h⟩ := h
  obtain rfl := Option.some.inj h
  exact ⟨hc, hsc, hec⟩

variable {ss : SearchSpace}

/-- A compression-safe action is a durative one the encoder finds safe. -/
theorem exists_durative (henc : E.Encodes ss) (hsafe : ss.isCompressionSafe a = true)
    (hle : ss.events a = some le) : ∃ u, .durative u ∈ E.actions ∧ E.actionByName u.name = a ∧
      E.isSafe u = true ∧ E.buildEvents (.durative u) a = some le := by
  rcases henc.safe with h | ⟨htimed, h⟩
  · simp [SearchSpace.isCompressionSafe, h] at hsafe
  · obtain ⟨u', hu', ha, hb⟩ := henc.events hle (by simp [htimed])
    have hmem : u'.name ∈ E.actionNames :=
      (List.mem_insertionSort _).mpr (List.mem_map_of_mem hu')
    have hname : E.actionNames[a.idx]? = some u'.name := by
      rw [← ha, actionByName]
      exact List.getElem?_idxOf hmem
    simp only [SearchSpace.isCompressionSafe, h, List.getD_eq_getElem?_getD,
      computeCompressionSafeActions, List.getElem?_map, hname, Option.map_some,
      Option.getD_some, List.any_eq_true] at hsafe
    obtain ⟨v, hv, hsafe⟩ := hsafe
    cases v with
    | instantaneous v => simp at hsafe
    | durative v =>
      simp only [Bool.and_eq_true, decide_eq_true_eq] at hsafe
      obtain rfl := List.inj_on_of_nodup_map E.names_nodup hv hu' hsafe.1
      exact ⟨v, hv, ha, hsafe.2, hb⟩

variable [Callables]

/-- The conjunction of one expression is that expression, and a conjunction is normalized to
what is true where its conjuncts, normalized, are. -/
structure KeepsConjunctions (E : Encoder) : Prop where
  conj_singleton : ∀ e, E.conj [e] = e
  truth_conj : ∀ (assignments : Assignments) (l : List FNode),
    (E.normalizeExpression (E.conj l)).truth (E.converter.interpretation assignments) =
      (FNode.extractAndArguments l).all fun c =>
        (E.normalizeExpression c).truth (E.converter.interpretation assignments)

/-- No interval condition of `a` runs backwards. -/
def Forward (E : Encoder) (a : Action) : Prop := ∀ u, .durative u ∈ E.actions →
  E.actionByName u.name = a → ∀ p ∈ u.conditions, p.1.Forward

theorem convertExpression_truth {e : FNode} {x : Expression} (h : E.convertExpression e = some x)
    (assignments : Assignments) : holds x assignments =
      (E.normalizeExpression e).truth (E.converter.interpretation assignments) :=
  E.converter.holds_convert assignments h

/-- The later events of a compression-safe action check only what its first
event keeps open. -/
theorem covered (henc : E.Encodes ss) (hnorm : E.KeepsConjunctions)
    (hsafe : ss.isCompressionSafe a = true) (hfw : E.Forward a) : ss.Covered a := by
  intro le hle k te hte hk assignments hopen
  obtain ⟨u, hu, ha, hus, hb⟩ := exists_durative henc hsafe hle
  simp only [isSafe, Bool.and_eq_true, Bool.not_eq_true'] at hus
  obtain ⟨⟨hint, hend⟩, -⟩ := hus
  simp only [buildEvents, Option.bind_eq_bind, Option.bind_eq_some_iff] at hb
  obtain ⟨bs, hbs, hb⟩ := hb
  obtain ⟨hlen, hget⟩ := eventsFromBuckets_getElem hb
  obtain ⟨b, hbk, hconv⟩ := hget hte
  rw [convertExpression_truth (convertBucket_eq_some hconv).1, hnorm.truth_conj, List.all_eq_true]
  intro c hc
  obtain ⟨e, he, hce⟩ := FNode.mem_extractAndArguments.mp hc
  obtain ⟨hclosed, b₀, hb₀, hcov⟩ :=
    DurativeAction.orderedBuckets_covered hint hend (hfw u hu ha) hbs (by omega) hbk he
  obtain ⟨l, hl, hcl⟩ := hcov c hce
  -- the conjunction the first event opened is still open
  have hk0 : 0 < le.length := by
    have := (List.getElem?_eq_some_iff.mp hte).1
    omega
  obtain ⟨te₀, hte₀⟩ : ∃ te₀, le[0]? = some te₀ := ⟨_, List.getElem?_eq_getElem hk0⟩
  obtain ⟨b₀', hb₀', hconv₀⟩ := hget hte₀
  obtain rfl := Option.some.inj (hb₀.symm.trans hb₀')
  obtain ⟨x, hx, hlx⟩ := (Enumeration.mapM_eq_some (convertBucket_eq_some hconv₀).2.1).1 _ hl
  have hxk : x ∈ openAt le k := by
    refine mem_openAt hte₀ hx (by omega) fun {i te'} hi hik hte' => ?_
    obtain ⟨b', hb', hconv'⟩ := hget hte'
    have hends := (convertBucket_eq_some hconv').2.2
    rw [hclosed hi hik hb'] at hends
    exact (Option.some.inj hends).symm
  have hholds := hopen x hxk
  rw [convertExpression_truth hlx, hnorm.truth_conj, List.all_eq_true] at hholds
  exact hholds c hcl

end Encoder

section

open SearchSpace

variable [Callables] {ss : SearchSpace} {tn : DeltaSimpleTemporalNetwork} {E : Encoder}

/-- In every state reached, a compressed step is the sequence of its events;
so the path of a compressed run can be replayed. -/
theorem compression_expands (hx : tn.Exact) (henc : E.Encodes ss) (hnorm : E.KeepsConjunctions)
    {b : Bool} {n m : ℕ} {s₀ s : State} {as : List Action} (h₀ : ss.initial tn n = some s₀)
    (hr : Run ss tn b s₀ (initialCounter ss n) as s m) :
    (∀ a d, m ≤ d → ss.isCompressionSafe a = true → E.Forward a →
      ((ss.getSuccessorStateWithCompression tn d s a true).isSome ↔
        (ss.stepwise tn d s a).isSome) ∧
      ∀ s' t, ss.getSuccessorStateWithCompression tn d s a true = some s' →
        ss.stepwise tn d s a = some t → SameState s' t) ∧
    ((∀ a ∈ as, ss.isCompressionSafe a = true → E.Forward a) →
      ∀ counter, (ss.buildPlan tn counter (s.path.map Prod.fst)).isSome) := by
  obtain ⟨c₀, c, ids, hc₀, hc, href, hsch⟩ := config_of_run hx h₀ hr
  have hwf₀ := Config.wellFormed_initial hc₀
  have hwf := hwf₀.runWith hc
  refine ⟨fun a d hd hsafe hfw =>
    href.compressed_iff_stepwise hx hwf hd (E.covered henc hnorm hsafe hfw) hsafe,
    fun hfw counter => ?_⟩
  by_cases ht : ss.isTemporal = true
  · obtain ⟨as', hrun⟩ := Config.exists_run_of_runWith hwf₀
      (fun a ha hsafe => E.covered henc hnorm hsafe (hfw a ha hsafe)) hc
    obtain ⟨p, ids', -, -, plan, hplan, -⟩ := exists_buildPlan hx ht hc₀ hrun hsch counter
    rw [href.path, hplan]
    rfl
  · rw [SearchSpace.buildPlan, if_neg ht]
    rfl

end

/-! ### An interval that runs backwards -/

section

open SearchSpace

attribute [local instance] Callables.empty

def fluentF : FNode := .node (.fluentExp ⟨"f", true⟩) []

def fluentG : FNode := .node (.fluentExp ⟨"g", true⟩) []

def boolNode (b : Bool) : FNode := .node (.boolConstant b) []

def atStart : UPTiming := ⟨.start, 0⟩

def atEnd : UPTiming := ⟨.stop, 0⟩

def lasting (q : ℚ) : DurationInterval :=
  ⟨.node (.realConstant q) [], .node (.realConstant q) [], false, false⟩

/-- Needs `f` throughout and sets it at the end. -/
def keeping : DurativeAction where
  name := "keep"
  duration := lasting 2
  conditions := [(⟨atStart, atEnd, false, false⟩, [fluentF])]
  effects := [(atEnd, [⟨fluentF, boolNode true, .assign⟩])]

/-- Needs `f` throughout and copies `g` to itself at the end. -/
def copying : DurativeAction where
  name := "copy"
  duration := lasting 2
  conditions := [(⟨atStart, atEnd, false, false⟩, [fluentF])]
  effects := [(atEnd, [⟨fluentG, fluentG, .assign⟩])]

/-- Needs `f` from its end back to its start, and is without it in between. -/
def turning : DurativeAction where
  name := "turn"
  duration := lasting 1
  conditions := [(⟨atEnd, atStart, false, false⟩, [fluentF])]
  effects := [(atStart, [⟨fluentF, boolNode false, .assign⟩]),
    (atEnd, [⟨fluentF, boolNode true, .assign⟩])]

def twoFluents : Converter where
  fluentIds e := if e = fluentF then some ⟨0⟩ else if e = fluentG then some ⟨1⟩ else none
  objectIds _ := none
  staticFluents := []

def keepEncoder : Encoder where
  actions := [.durative keeping]
  conj := FNode.conj
  plus := FNode.sum
  normalizeExpression e := e
  converter := twoFluents
  names_nodup := by decide

def turnEncoder : Encoder where
  actions := [.durative copying, .durative turning]
  conj := FNode.conj
  plus := FNode.sum
  normalizeExpression e := e
  converter := twoFluents
  names_nodup := by decide

def lastingBounds (q : ℚ) : Duration := ⟨[.constant (.num q)], [.constant (.num q)], false, false⟩

def keepSpace : SearchSpace :=
  .ofTable [(some (lastingBounds 2), (keepEncoder.buildEvents (.durative keeping) ⟨0⟩).getD [])]
    [.bool true, .bool false] [.fluent ⟨0⟩] none ⟨1 / 100, epsilon_default_nonneg⟩
    (some keepEncoder.computeCompressionSafeActions)

def turnSpace : SearchSpace :=
  .ofTable [(some (lastingBounds 2), (turnEncoder.buildEvents (.durative copying) ⟨0⟩).getD []),
      (some (lastingBounds 1), (turnEncoder.buildEvents (.durative turning) ⟨1⟩).getD [])]
    [.bool true, .bool false] [.fluent ⟨0⟩] none ⟨1 / 100, epsilon_default_nonneg⟩
    (some turnEncoder.computeCompressionSafeActions)

theorem keepEncoder_keepsConjunctions : keepEncoder.KeepsConjunctions :=
  ⟨fun _ => rfl, fun _ _ => FNode.truth_conj _ _⟩

theorem keepEncoder_encodes : keepEncoder.Encodes keepSpace := by
  have h0 : keepSpace.events ⟨0⟩ = keepEncoder.buildEvents (.durative keeping) ⟨0⟩ := by
    decide +kernel
  refine ⟨fun {a le} hle _ => ?_, .inr ⟨rfl, rfl⟩⟩
  obtain ⟨i⟩ := a
  match i with
  | 0 => exact ⟨.durative keeping, by simp [keepEncoder], by decide, h0 ▸ hle⟩
  | n + 1 => simp [keepSpace, SearchSpace.ofTable] at hle

theorem turnEncoder_encodes : turnEncoder.Encodes turnSpace := by
  have h0 : turnSpace.events ⟨0⟩ = turnEncoder.buildEvents (.durative copying) ⟨0⟩ := by
    decide +kernel
  have h1 : turnSpace.events ⟨1⟩ = turnEncoder.buildEvents (.durative turning) ⟨1⟩ := by
    decide +kernel
  refine ⟨fun {a le} hle _ => ?_, .inr ⟨rfl, rfl⟩⟩
  obtain ⟨i⟩ := a
  match i with
  | 0 => exact ⟨.durative copying, by simp [turnEncoder], by decide, h0 ▸ hle⟩
  | 1 => exact ⟨.durative turning, by simp [turnEncoder], by decide, h1 ▸ hle⟩
  | n + 2 => simp [turnSpace, SearchSpace.ofTable] at hle

def keepStart : Config := ⟨[.bool true, .bool false], ∅, 0, [], []⟩

def keepDone : Config := ⟨[.bool true, .bool false], ∅, 0, [⟨⟨0⟩, 2, 2, false⟩], [(0, 0), (0, 1)]⟩

theorem keep_run : keepStart.runWith keepSpace true [⟨0⟩] = some keepDone := rfl

theorem keepEncoder_forward : keepEncoder.Forward ⟨0⟩ := by
  intro u hu _ p hp
  obtain rfl : u = keeping := by simpa [keepEncoder] using hu
  obtain rfl := List.mem_singleton.mp hp
  decide

theorem compression_expands_keep : ∃ s₀ s m, keepSpace.initial .earliest 0 = some s₀ ∧
    Run keepSpace .earliest true s₀ (initialCounter keepSpace 0) [⟨0⟩] s m ∧
    ((keepSpace.getSuccessorStateWithCompression .earliest m s ⟨0⟩ true).isSome ↔
      (keepSpace.stepwise .earliest m s ⟨0⟩).isSome) ∧
    (keepSpace.buildPlan .earliest 0 (s.path.map Prod.fst)).isSome := by
  have hx := DeltaSimpleTemporalNetwork.earliest_exact
  have hsch : Schedulable keepSpace keepDone := fun _ => ⟨fun _ => (0, 2), by decide +kernel⟩
  obtain ⟨s₀, s, m, ids, h₀, hrun, -⟩ := exists_run hx rfl keep_run hsch 0
  obtain ⟨hstep, hplan⟩ :=
    compression_expands hx keepEncoder_encodes keepEncoder_keepsConjunctions h₀ hrun
  refine ⟨s₀, s, m, h₀, hrun, (hstep ⟨0⟩ m le_rfl (by decide) keepEncoder_forward).1,
    hplan (fun a ha _ => ?_) 0⟩
  rw [List.mem_singleton.mp ha]
  exact keepEncoder_forward

def turnStart : Config := ⟨[.bool true, .bool false], ∅, 0, [], []⟩

/-- The second action is about to be opened while the first one runs. -/
def turnRunning : Config :=
  ⟨[.bool true, .bool false], AList.singleton ⟨0⟩ (1, 0), {[.fluent ⟨0⟩]}, [⟨⟨0⟩, 2, 2, false⟩],
    [(0, 0)]⟩

def turnDone : Config :=
  ⟨[.bool true, .bool false], AList.singleton ⟨0⟩ (1, 0), {[.fluent ⟨0⟩]},
    [⟨⟨0⟩, 2, 2, false⟩, ⟨⟨1⟩, 1, 1, false⟩], [(0, 0), (1, 0), (1, 1)]⟩

theorem turn_running : turnStart.runWith turnSpace true [⟨0⟩] = some turnRunning := rfl

theorem turn_done : turnRunning.stepWith turnSpace true ⟨1⟩ = some turnDone := rfl

theorem turn_stepwise : turnRunning.run turnSpace [⟨1⟩, ⟨1⟩] = none := rfl

def turnSchedule : Schedule := fun j => if j = 0 then (0, 2) else (1 / 2, 3 / 2)

theorem compression_not_expands : turnEncoder.Encodes turnSpace ∧
    turnEncoder.KeepsConjunctions ∧ ¬ ∀ n s₀ as s m, turnSpace.initial .earliest n = some s₀ →
      Run turnSpace .earliest true s₀ (initialCounter turnSpace n) as s m →
      ∀ a d, m ≤ d → turnSpace.isCompressionSafe a = true →
        ((turnSpace.getSuccessorStateWithCompression .earliest d s a true).isSome ↔
          (turnSpace.stepwise .earliest d s a).isSome) := by
  refine ⟨turnEncoder_encodes, ⟨fun _ => rfl, fun _ _ => FNode.truth_conj _ _⟩, fun h => ?_⟩
  have hx := DeltaSimpleTemporalNetwork.earliest_exact
  have hsch : Schedulable turnSpace turnDone := fun _ => ⟨turnSchedule, by decide +kernel⟩
  have hwf₀ : turnStart.WellFormed turnSpace := Config.wellFormed_initial rfl
  have hwf := hwf₀.runWith turn_running
  obtain ⟨s₀, s, m, ids, h₀, hrun, href⟩ :=
    exists_run hx rfl turn_running (hsch.of_stepWith hwf turn_done) 0
  obtain ⟨s', -, hs', -⟩ := href.stepWith hx hwf le_rfl turn_done hsch
  have hsome := (h 0 s₀ _ s m h₀ hrun ⟨1⟩ m le_rfl (by decide)).mp (by rw [hs']; rfl)
  obtain ⟨t, ht⟩ := Option.isSome_iff_exists.mp hsome
  obtain ⟨le, hle⟩ : ∃ le, turnSpace.events ⟨1⟩ = some le := ⟨_, rfl⟩
  have hlen : le.length = 2 := by
    rw [← Option.some.inj hle]
    rfl
  have hnone : s.todo.lookup ⟨1⟩ = none := by
    rw [href.todo]
    rfl
  simp only [SearchSpace.stepwise, hle, hnone, Option.bind_eq_bind, Option.bind_some,
    Option.isNone_none, if_true] at ht
  obtain ⟨_, _, _, c', _, -, -, -, hr, -⟩ := href.fireEvents_opening (b := true) hwf le_rfl rfl hle ht
  rw [hlen] at hr
  have hr' := turn_stepwise.symm.trans hr
  contradiction

end

end TamerLite
