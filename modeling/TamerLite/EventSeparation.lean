import TamerLite.CompressionSafety

/-! The check that the events of a durative action can be kept apart: what it
compares, when it is exact, and what no path can do with an action it reports. -/

namespace TamerLite

open Difference SearchSpace

/-- Each item with the next one. -/
def pairwise {α : Type*} (l : List α) : List (α × α) := l.zip l.tail

theorem mem_pairwise {α : Type*} {l : List α} {p : α × α} :
    p ∈ pairwise l ↔ ∃ k : ℕ, l[k]? = some p.1 ∧ l[k + 1]? = some p.2 := by
  simp only [pairwise, List.mem_iff_getElem?, List.getElem?_zip_eq_some, List.getElem?_tail]

/-- Why the events of an action cannot be placed. -/
inductive SeparationProblem
  | closer (t₁ t₂ : Timing)
  | needsDuration (t₁ t₂ : Timing) (needed : ℚ)
deriving DecidableEq

/-- The longest duration a constant bound allows, one that is open moved inwards. -/
def DurationInterval.maxDuration (d : DurationInterval) (ε upper : ℚ) : ℚ :=
  if d.isRightOpen then upper - ε else upper

namespace Encoder

variable (E : Encoder)

/-- The entry of a durative action in `_actions_duration`. -/
def convertDuration (d : DurationInterval) : Option Duration := do
  let lower ← E.convertExpression d.lower
  let upper ← E.convertExpression d.upper
  return ⟨lower, upper, d.isLeftOpen, d.isRightOpen⟩

/-- What is wrong with two consecutive events. -/
def pairProblem (ε : ℚ) (u : DurativeAction) (t₁ t₂ : Timing) : Option SeparationProblem :=
  if t₁.start = t₂.start then
    if t₂.delay - t₁.delay < ε then some (.closer t₁ t₂) else none
  else
    (DurativeAction.constantValue (E.normalizeExpression u.duration.upper)).bind fun upper =>
      let needed := t₁.delay - t₂.delay + ε
      if u.duration.maxDuration ε upper < needed then some (.needsDuration t₁ t₂ needed) else none

/-- `_event_separation_problem`. -/
def eventSeparationProblem (ε : ℚ) (u : DurativeAction) (events : List (Timing × Event)) :
    Option SeparationProblem :=
  (pairwise events).findSome? fun p => E.pairProblem ε u p.1.1 p.2.1

end Encoder

/-- When an event fires in an action that starts at `0` and lasts `d`. -/
def Timing.at (t : Timing) (d : ℚ) : ℚ := if t.start then t.delay else d + t.delay

/-- With duration `d` the events follow each other by at least `ε`. -/
def Separated (ε d : ℚ) (events : List (Timing × Event)) : Prop :=
  ∀ p ∈ pairwise events, p.1.1.at d + ε ≤ p.2.1.at d

/-- From the start's side to the end's. -/
def Crosses (p : (Timing × Event) × (Timing × Event)) : Prop := p.1.1.start = true ∧ p.2.1.start = false

/-- From the end's side back to the start's. -/
def Returns (p : (Timing × Event) × (Timing × Event)) : Prop := p.1.1.start = false ∧ p.2.1.start = true

variable (ε m : ℚ) (events : List (Timing × Event))

/-- Neighbours from the same side are far enough from each other. -/
def SidesApart : Prop :=
  ∀ p ∈ pairwise events, p.1.1.start = p.2.1.start → p.1.1.delay + ε ≤ p.2.1.delay

/-- Each crossing fits the longest duration. -/
def CrossingsFit : Prop :=
  ∀ p ∈ pairwise events, Crosses p → p.1.1.delay - p.2.1.delay + ε ≤ m

/-- With duration `d` what comes from the start in a return is `gap` later. -/
def ReturnsWide (gap d : ℚ) (events : List (Timing × Event)) : Prop :=
  ∀ p ∈ pairwise events, Returns p → p.1.1.at d + gap ≤ p.2.1.at d

/-- Between a crossing and a return, what comes from the end has room. -/
def ReturnsHaveRoom : Prop :=
  ∀ p ∈ pairwise events, Crosses p → ∀ r ∈ pairwise events, Returns r →
    r.1.1.delay - p.2.1.delay + 2 * ε ≤ r.2.1.delay - p.1.1.delay

/-- Where the check is right for the upper bound `q` and the longest duration `m`: the
returns have room, once the sides are apart and the crossings fit. In an action of less
than `ε` the returns can also be too narrow, which has to be where they have no room. -/
def CheckExact (q : ℚ) : Prop :=
  SidesApart ε events → CrossingsFit ε m events →
    if ε ≤ q + m then ReturnsHaveRoom ε events
    else (ReturnsHaveRoom ε events ↔ ReturnsWide (ε - q - m) q events)

instance : DecidablePred Crosses := fun _ => inferInstanceAs (Decidable (_ ∧ _))

instance : DecidablePred Returns := fun _ => inferInstanceAs (Decidable (_ ∧ _))

instance : Decidable (SidesApart ε events) := inferInstanceAs (Decidable (∀ p ∈ _, _))

instance : Decidable (CrossingsFit ε m events) := inferInstanceAs (Decidable (∀ p ∈ _, _))

instance : Decidable (ReturnsHaveRoom ε events) :=
  inferInstanceAs (Decidable (∀ p ∈ _, _ → ∀ r ∈ _, _))

variable {ε m events} {d : ℚ}

theorem separated_iff : Separated ε d events ↔ SidesApart ε events ∧
    CrossingsFit ε d events ∧ ReturnsWide ε d events := by
  rw [Separated, SidesApart, CrossingsFit, ReturnsWide, ← forall₂_and, ← forall₂_and]
  refine forall₂_congr fun p _ => ?_
  unfold Crosses Returns Timing.at
  cases h₁ : p.1.1.start <;> cases h₂ : p.2.1.start <;> simp <;> constructor <;> intro h <;> linarith

theorem returnsWide_iff {gap : ℚ} : ReturnsWide gap d events ↔
    ∀ p ∈ pairwise events, Returns p → d ≤ p.2.1.delay - p.1.1.delay - gap := by
  refine forall₃_congr fun p _ hr => ?_
  rw [Timing.at, Timing.at, hr.1, hr.2, if_neg Bool.false_ne_true, if_pos rfl]
  constructor <;> intro h <;> linarith

/-- Some duration up to `m` separates the events where neighbours from the same
side are apart, crossings fit, and returns have room. -/
theorem exists_separated_iff : (∃ d ≤ m, Separated ε d events) ↔
    SidesApart ε events ∧ CrossingsFit ε m events ∧ ReturnsHaveRoom ε events := by
  have hfin : ((fun p : (Timing × Event) × (Timing × Event) => p.2.1.delay - p.1.1.delay - ε) ''
      {p | p ∈ pairwise events ∧ Returns p}).Finite :=
    ((List.finite_toSet _).subset fun p hp => hp.1).image _
  have hbounds := exists_le_iff ((fun p : (Timing × Event) × (Timing × Event) =>
    p.1.1.delay - p.2.1.delay + ε) '' {p | p ∈ pairwise events ∧ Crosses p}) hfin m
  simp only [Set.forall_mem_image, Set.mem_ofPred_eq, and_imp] at hbounds
  calc (∃ d ≤ m, Separated ε d events)
      ↔ SidesApart ε events ∧ ∃ d ≤ m,
        (∀ p, p ∈ pairwise events → Crosses p → p.1.1.delay - p.2.1.delay + ε ≤ d) ∧
        ∀ p, p ∈ pairwise events → Returns p → d ≤ p.2.1.delay - p.1.1.delay - ε := by
        simp only [separated_iff, returnsWide_iff, CrossingsFit]
        constructor
        · rintro ⟨d, hd, hsides, hrest⟩
          exact ⟨hsides, d, hd, hrest⟩
        · rintro ⟨hsides, d, hd, hrest⟩
          exact ⟨d, hd, hsides, hrest⟩
    _ ↔ SidesApart ε events ∧ CrossingsFit ε m events ∧ ReturnsHaveRoom ε events := by
        rw [hbounds]
        refine and_congr_right fun _ => and_congr_right fun _ => ?_
        refine forall₃_congr fun p _ _ => forall₃_congr fun r _ _ => ?_
        constructor <;> intro h <;> linarith

namespace Encoder

variable {E : Encoder} {u : DurativeAction} {q : ℚ}

/-- A return is compared as if it were a crossing. -/
theorem eventSeparationProblem_eq_none
    (hup : DurativeAction.constantValue (E.normalizeExpression u.duration.upper) = some q) :
    E.eventSeparationProblem ε u events = none ↔ SidesApart ε events ∧
      CrossingsFit ε (u.duration.maxDuration ε q) events ∧
      ReturnsWide (ε - q - u.duration.maxDuration ε q) q events := by
  rw [eventSeparationProblem, List.findSome?_eq_none_iff, SidesApart, CrossingsFit, ReturnsWide,
    ← forall₂_and, ← forall₂_and]
  refine forall₂_congr fun p _ => ?_
  rw [pairProblem, hup]
  unfold Crosses Returns Timing.at
  cases h₁ : p.1.1.start <;> cases h₂ : p.2.1.start <;>
    simp <;> constructor <;> intro h <;> linarith

/-- Where returns are never narrow in an action of `ε` or more, the check is right
exactly under `CheckExact`. -/
theorem eventSeparationProblem_exact_iff
    (hup : DurativeAction.constantValue (E.normalizeExpression u.duration.upper) = some q)
    (hwide : ε ≤ q + u.duration.maxDuration ε q →
      ReturnsWide (ε - q - u.duration.maxDuration ε q) q events) :
    (E.eventSeparationProblem ε u events = none ↔
      ∃ d ≤ u.duration.maxDuration ε q, Separated ε d events) ↔
    CheckExact ε (u.duration.maxDuration ε q) events q := by
  rw [eventSeparationProblem_eq_none hup, exists_separated_iff, CheckExact]
  by_cases hlong : ε ≤ q + u.duration.maxDuration ε q
  · have hw := hwide hlong
    simp only [if_pos hlong, iff_true_intro hw, and_true]
    constructor
    · intro h hsides hfit
      exact (h.mp ⟨hsides, hfit⟩).2.2
    · intro h
      exact ⟨fun hc => ⟨hc.1, hc.2, h hc.1 hc.2⟩, fun hc => ⟨hc.1, hc.2.1⟩⟩
  · rw [if_neg hlong]
    constructor
    · intro h hsides hfit
      simpa [hsides, hfit, iff_comm] using h
    · intro h
      exact and_congr_right fun hsides => and_congr_right fun hfit => (h hsides hfit).symm

end Encoder

namespace DurativeAction

variable {conj : List FNode → FNode} {a : DurativeAction} {d : ℚ} {v : UPTiming × Contents}

theorem fromStart_timing (h : (a.fromStart conj).withStart.lookup d = some v) :
    v.1.isFromStart = true ∧ v.1.delay = d := by
  have hfrom : ∀ d v, (a.fromStart conj).lookup d = some v →
      v.1.isFromStart = true ∧ v.1.delay = d := by
    intro d v hv
    refine Buckets.timing_foldl (P := fun d t => t.isFromStart = true ∧ t.delay = d)
      (fun p hp => ?_) (by simp) hv
    obtain ⟨q, hq, rfl⟩ := List.mem_map.mp hp
    exact ⟨(List.mem_filter.mp hq).2, rfl⟩
  rw [Buckets.withStart] at h
  split_ifs at h
  · exact hfrom d v h
  · by_cases hd : d = 0
    · subst hd
      rw [AList.lookup_insert] at h
      obtain rfl := Option.some.inj h
      exact ⟨rfl, rfl⟩
    · exact hfrom d v (by rwa [AList.lookup_insert_ne hd] at h)

theorem fromEnd_timing (h : (a.fromEnd conj).lookup d = some v) :
    v.1.isFromStart = false ∧ v.1.delay = d := by
  refine Buckets.timing_foldl (P := fun d t => t.isFromStart = false ∧ t.delay = d) (fun p hp => ?_)
    (by simp) h
  obtain ⟨q, hq, rfl⟩ := List.mem_map.mp hp
  exact ⟨by simpa using (List.mem_filter.mp hq).2, rfl⟩

/-- Where the end's side was folded, its entries are keyed by where the duration puts
them. -/
theorem key_folded {q d : ℚ} {v : UPTiming × Contents}
    (h : (Buckets.withStart
      ((foldedEnd q (a.fromEnd conj)).foldl addToBucket (a.fromStart conj))).lookup d = some v) :
    d = if v.1.isFromStart then v.1.delay else q + v.1.delay := by
  have hkey : ∀ d v, ((foldedEnd q (a.fromEnd conj)).foldl addToBucket (a.fromStart conj)).lookup d = some v →
      d = if v.1.isFromStart then v.1.delay else q + v.1.delay := by
    intro d v hv
    refine Buckets.timing_foldl (P := fun d t => d = if t.isFromStart then t.delay else q + t.delay)
      (fun p hp => ?_) (fun d v hv => ?_) hv
    · obtain ⟨x, hx, rfl⟩ := List.mem_map.mp hp
      have hx := AList.mem_lookup_iff.mpr hx
      obtain ⟨hfrom, hdelay⟩ := fromEnd_timing hx
      simp [hfrom, hdelay]
    · refine Buckets.timing_foldl (P := fun d t => d = if t.isFromStart then t.delay else q + t.delay)
        (fun p hp => ?_) (by simp) hv
      obtain ⟨x, hx, rfl⟩ := List.mem_map.mp hp
      simp [(List.mem_filter.mp hx).2]
  rw [Buckets.withStart] at h
  split_ifs at h
  · exact hkey d v h
  · by_cases hd : d = 0
    · subst hd
      rw [AList.lookup_insert] at h
      obtain rfl := Option.some.inj h
      rfl
    · exact hkey d v (by rwa [AList.lookup_insert_ne hd] at h)

/-- Only where the end's side was folded does it come before the start's, and
then the duration is the constant it was folded by, and puts it there. -/
theorem foldedBy_of_returns {bs : List (UPTiming × Contents)} {k : ℕ} {x y : UPTiming × Contents}
    (h : a.orderedBuckets conj = some bs) (hx : bs[k]? = some x) (hy : bs[k + 1]? = some y)
    (hxe : x.1.isFromStart = false) (hys : y.1.isFromStart = true) :
    ∃ q, a.constantDuration = some q ∧ 0 ≤ q ∧ q + x.1.delay < y.1.delay := by
  obtain ⟨start, stop, hcase, hnn, rfl⟩ := orderedBuckets_cases h
  rcases hcase with ⟨-, rfl, rfl⟩ | ⟨q, hq, hstart, rfl⟩
  · exfalso
    rcases Nat.lt_or_ge k (sortBuckets (a.fromStart conj).withStart).length with hlt | hge
    · rw [List.getElem?_append_left hlt] at hx
      obtain ⟨d, hd⟩ := Buckets.sortBuckets_eq_some.mp hx
      have := (fromStart_timing (Buckets.mem_sorted.mp (List.mem_of_getElem? hd))).1
      rw [hxe] at this
      contradiction
    · rw [List.getElem?_append_right (by omega)] at hy
      obtain ⟨d, hd⟩ := Buckets.sortBuckets_eq_some.mp hy
      have := (fromEnd_timing (Buckets.mem_sorted.mp (List.mem_of_getElem? hd))).1
      rw [hys] at this
      contradiction
  · have horder : q + x.1.delay < y.1.delay := by
      have hnil : sortBuckets (∅ : Buckets) = [] := rfl
      rw [hnil, List.append_nil] at hx hy
      obtain ⟨dx, hdx⟩ := Buckets.sortBuckets_eq_some.mp hx
      obtain ⟨dy, hdy⟩ := Buckets.sortBuckets_eq_some.mp hy
      have hlt := Buckets.sorted_lt (Nat.lt_succ_self k) hdx hdy
      rw [hstart] at hdx hdy
      have hkx := key_folded (Buckets.mem_sorted.mp (List.mem_of_getElem? hdx))
      have hky := key_folded (Buckets.mem_sorted.mp (List.mem_of_getElem? hdy))
      simp only [hxe, hys, Bool.false_eq_true, if_false, if_true] at hkx hky hlt
      linarith
    rw [foldedBy] at hq
    split_ifs at hq with hice
    refine ⟨q, hq, ?_, horder⟩
    rw [Bool.and_eq_true, hasIceFromEnd, List.any_eq_true] at hice
    obtain ⟨-, p, hp, hneg⟩ := hice
    simp only [Bool.and_eq_true, Bool.not_eq_true', decide_eq_true_eq] at hneg
    have hend : p.1.delay ∈ a.fromEnd conj := by
      refine (Buckets.mem_foldl _).mpr (.inr ⟨(p.1.delay, p), ?_, rfl⟩)
      exact List.mem_map_of_mem (List.mem_filter.mpr ⟨hp, by simp [hneg.1]⟩)
    obtain ⟨w, hw⟩ := Option.isSome_iff_exists.mp (AList.lookup_isSome.mpr hend)
    have hfold : q + p.1.delay ∈ start := by
      rw [hstart]
      refine (Buckets.mem_foldl _).mpr (.inr ⟨(q + p.1.delay, w), ?_, rfl⟩)
      exact List.mem_map.mpr ⟨⟨p.1.delay, w⟩, AList.mem_lookup_iff.mp hw, rfl⟩
    obtain ⟨w', hw'⟩ := Option.isSome_iff_exists.mp (AList.lookup_isSome.mpr hfold)
    have := hnn _ _ hw'
    linarith [hneg.2]

end DurativeAction

namespace Encoder

variable {E : Encoder} {u : DurativeAction} {a : Action} {le : List (Timing × Event)}

theorem timing_of_buildEvents (h : E.buildEvents (.durative u) a = some le) :
    ∃ bs, u.orderedBuckets E.conj = some bs ∧ ∀ {k : ℕ} {te : Timing × Event}, le[k]? = some te →
      ∃ b, bs[k]? = some b ∧ te.1 = convertTiming b.1 := by
  simp only [buildEvents, Option.bind_eq_bind, Option.bind_eq_some_iff] at h
  obtain ⟨bs, hbs, hle⟩ := h
  refine ⟨bs, hbs, fun hk => ?_⟩
  obtain ⟨b, hb, hconv⟩ := (eventsFromBuckets_getElem hle).2 hk
  simp only [convertBucket, Option.bind_eq_bind, Option.bind_eq_some_iff] at hconv
  obtain ⟨c, -, sc, -, ec, -, ef, -, h⟩ := hconv
  obtain rfl := Option.some.inj h
  exact ⟨b, hb, rfl⟩

theorem constantDuration_of_returns (h : E.buildEvents (.durative u) a = some le)
    {p : (Timing × Event) × (Timing × Event)} (hp : p ∈ pairwise le) (hr : Returns p) :
    ∃ q, u.constantDuration = some q ∧ 0 ≤ q ∧ q + p.1.1.delay < p.2.1.delay := by
  obtain ⟨bs, hbs, hget⟩ := timing_of_buildEvents h
  obtain ⟨k, hx, hy⟩ := mem_pairwise.mp hp
  obtain ⟨x, hx', hxt⟩ := hget hx
  obtain ⟨y, hy', hyt⟩ := hget hy
  obtain ⟨hre, hrs⟩ := hr
  rw [hxt] at hre
  rw [hyt] at hrs
  obtain ⟨q, hq, hnonneg, hlt⟩ := DurativeAction.foldedBy_of_returns hbs hx' hy' hre hrs
  rw [hxt, hyt]
  exact ⟨q, hq, hnonneg, hlt⟩

end Encoder

section Fired

variable {ss : SearchSpace} {tn : DeltaSimpleTemporalNetwork} {c : Config} {σ : Schedule}
  {a : Action} {le : List (Timing × Event)} {j k k' : ℕ}

theorem time_eq (hle : ss.events a = some le) (hj : c.actionOf j = a) {te : Timing × Event}
    (hk : le[k]? = some te) :
    Schedule.time ss c σ (j, k) = (σ j).1 + te.1.at ((σ j).2 - (σ j).1) := by
  simp only [Schedule.time, hj, SearchSpace.event, hle, Option.bind_some, hk, Timing.at]
  split_ifs <;> ring

variable [Callables]

/-- The events of an instance follow each other by `epsilon`. -/
theorem time_fired (hp : Config.Progress ss c) (hv : Schedule.Valid ss c σ) (h : (j, k) ∈ c.fired)
    (h' : (j, k') ∈ c.fired) (hk : k < k') :
    Schedule.time ss c σ (j, k) + ss.epsilon ≤ Schedule.time ss c σ (j, k') := by
  obtain ⟨i, hi, hik⟩ := List.mem_iff_getElem.mp h
  obtain ⟨i', hi', hik'⟩ := List.mem_iff_getElem.mp h'
  have hlt : i < i' := by
    rcases lt_trichotomy i i' with hlt | rfl | hgt
    · exact hlt
    · rw [hik] at hik'
      exact absurd (Prod.mk.inj hik').2 hk.ne
    · have := List.pairwise_iff_getElem.mp hp.increasing i' i hi' hi hgt
      rw [hik, hik'] at this
      exact absurd (this rfl) (by simp only; omega)
  have hfollows := List.pairwise_iff_getElem.mp hv.ordered i i' hi hi' hlt
  rw [hik, hik'] at hfollows
  exact hfollows.2 (Schedule.mutex_same rfl)

/-- An instance all of whose events have fired separates them by its duration. -/
theorem separated_of_fired (hp : Config.Progress ss c) (hv : Schedule.Valid ss c σ)
    (hle : ss.events a = some le) (hj : c.actionOf j = a) (hall : ∀ k < le.length, (j, k) ∈ c.fired) :
    Separated ss.epsilon ((σ j).2 - (σ j).1) le := by
  intro p hpair
  obtain ⟨k, hx, hy⟩ := mem_pairwise.mp hpair
  have hlen := (List.getElem?_eq_some_iff.mp hy).1
  have htime := time_fired hp hv (hall k (by omega)) (hall (k + 1) hlen) (Nat.lt_succ_self k)
  rw [time_eq hle hj hx, time_eq hle hj hy] at htime
  linarith

/-- All events of `a` were fired on the path of `s`. -/
def AllFired (s : State) (a : Action) (le : List (Timing × Event)) : Prop :=
  ∀ k < le.length, ∃ id, (a, k, id) ∈ s.path

/-- What a path with all the events of an action says about some duration. -/
theorem exists_duration_of_allFired (hx : tn.Exact) (ht : ss.isTemporal = true) {b : Bool} {n m : ℕ}
    {s₀ s : State} {as : List Action} (h₀ : ss.initial tn n = some s₀)
    (hr : Run ss tn b s₀ (initialCounter ss n) as s m) (hle : ss.events a = some le)
    (hne : le ≠ []) (hall : AllFired s a le) : ∃ d assignments bounds,
      ss.durationBounds a assignments = some bounds ∧ bounds.1 ≤ d ∧ d ≤ bounds.2 ∧
        Separated ss.epsilon d le := by
  obtain ⟨c₀, c, ids, hc₀, hc, href, hsch⟩ := config_of_run hx h₀ hr
  obtain ⟨σ, hv, -⟩ := hsch ht
  have hp : Config.Progress ss c := Config.Reachable.progress ⟨c₀, as, hc₀, hc⟩
  have hwf : c.WellFormed ss := (Config.wellFormed_initial hc₀).runWith hc
  have hpos := List.length_pos_iff.mpr hne
  obtain ⟨id, hid⟩ := hall (le.length - 1) (by omega)
  rw [(href.timed ht).path] at hid
  obtain ⟨⟨j, k⟩, hfired, hkey⟩ := List.mem_map.mp hid
  obtain ⟨hact, hk, -⟩ : c.actionOf j = a ∧ k = le.length - 1 ∧ _ = id := by simpa [key] using hkey
  have hall' : ∀ i < le.length, (j, i) ∈ c.fired := by
    intro i hi
    rcases Nat.lt_or_ge i k with hik | hki
    · exact fired_of_lt hp hwf hfired hik
    · obtain rfl : i = k := by omega
      exact hfired
  have hj := (hwf.fired _ hfired).1
  have hi := List.getElem?_eq_getElem hj
  obtain ⟨assignments, hb⟩ := hp.bounds _ (List.getElem_mem hj)
  rw [← Config.actionOf_eq hi, hact] at hb
  obtain ⟨hlo, hup⟩ := hv.bounds j _ hi
  exact ⟨_, assignments, _, hb, hlo, hup, separated_of_fired hp hv hle hact hall'⟩

end Fired

namespace Encoder

variable {E : Encoder} {ss : SearchSpace} {u : DurativeAction} {a : Action}
  {le : List (Timing × Event)} {q : ℚ}

theorem convertExpression_constant {e : FNode}
    (h : DurativeAction.constantValue (E.normalizeExpression e) = some q) :
    E.convertExpression e = some [.constant (.num q)] := by
  rw [convertExpression]
  generalize E.normalizeExpression e = e' at h
  unfold DurativeAction.constantValue at h
  split at h
  · obtain rfl := Option.some.inj h
    rfl
  · obtain rfl := Option.some.inj h
    rfl
  · contradiction

/-- Normalizing keeps a constant as it is. -/
def KeepsConstants (E : Encoder) : Prop := ∀ e q, DurativeAction.constantValue e = some q →
  DurativeAction.constantValue (E.normalizeExpression e) = some q

theorem upper_of_constantDuration {D : ℚ} (hkeeps : E.KeepsConstants)
    (hup : DurativeAction.constantValue (E.normalizeExpression u.duration.upper) = some q)
    (hD : u.constantDuration = some D) :
    DurativeAction.constantValue u.duration.lower = some D ∧ D = q := by
  simp only [DurativeAction.constantDuration, Option.bind_eq_bind, Option.bind_eq_some_iff] at hD
  obtain ⟨lower, hlower, upper, hupper, hD⟩ := hD
  split_ifs at hD with heq
  obtain rfl := Option.some.inj hD
  refine ⟨hlower, heq.trans (Option.some.inj ((hkeeps _ _ hupper).symm.trans hup))⟩

/-- In an action of `ε` or more, returns are as wide as the check asks. -/
theorem returnsWide_of_long {ε m : ℚ} (hkeeps : E.KeepsConstants)
    (hbuild : E.buildEvents (.durative u) a = some le)
    (hup : DurativeAction.constantValue (E.normalizeExpression u.duration.upper) = some q)
    (hlong : ε ≤ q + m) : ReturnsWide (ε - q - m) q le := by
  rw [returnsWide_iff]
  intro r hr hret
  obtain ⟨D, hD, -, hlt⟩ := constantDuration_of_returns hbuild hr hret
  obtain ⟨-, rfl⟩ := upper_of_constantDuration hkeeps hup hD
  linarith

/-- No duration within constant bounds separates the events of an action that is reported. -/
theorem not_separated {d ε : ℚ} (hkeeps : E.KeepsConstants)
    (hbuild : E.buildEvents (.durative u) a = some le)
    (hup : DurativeAction.constantValue (E.normalizeExpression u.duration.upper) = some q)
    (hreport : E.eventSeparationProblem ε u le ≠ none) (hm : d ≤ u.duration.maxDuration ε q)
    (hlo : ∀ p, u.constantDuration = some p → p ≤ d) : ¬ Separated ε d le := by
  intro hsep
  obtain ⟨hsides, hcross, hreturn⟩ := separated_iff.mp hsep
  refine hreport ((eventSeparationProblem_eq_none hup).mpr ⟨hsides, fun r hr hc =>
    (hcross r hr hc).trans hm, returnsWide_iff.mpr fun r hr hret => ?_⟩)
  obtain ⟨D, hD, hnonneg, -⟩ := constantDuration_of_returns hbuild hr hret
  have := returnsWide_iff.mp hreturn r hr hret
  have := hlo D hD
  obtain ⟨-, rfl⟩ := upper_of_constantDuration hkeeps hup hD
  linarith

variable [Callables]

theorem le_maxDuration {D : Duration} (hconv : E.convertDuration u.duration = some D)
    (hdur : ss.duration a = some D)
    (hup : DurativeAction.constantValue (E.normalizeExpression u.duration.upper) = some q)
    {assignments : Assignments} {bounds : ℚ × ℚ} (hb : ss.durationBounds a assignments = some bounds) :
    bounds.2 = u.duration.maxDuration ss.epsilon q ∧
      ∀ p, DurativeAction.constantValue (E.normalizeExpression u.duration.lower) = some p → p ≤ bounds.1 := by
  have heval : ∀ r : ℚ, evaluateBound [.constant (.num r)] assignments = some r := fun r => rfl
  simp only [durationBounds, hdur, Option.bind_eq_bind, Option.bind_eq_some_iff] at hb
  obtain ⟨lower, hlower, upper, hupper, hb⟩ := hb
  obtain rfl := Option.some.inj hb
  simp only [convertDuration, convertExpression_constant hup, Option.bind_eq_bind,
    Option.bind_eq_some_iff] at hconv
  obtain ⟨lo, hlo, up, hup', hconv⟩ := hconv
  obtain rfl := Option.some.inj hup'
  obtain rfl := Option.some.inj hconv
  obtain rfl := Option.some.inj ((heval q).symm.trans hupper)
  refine ⟨rfl, fun p hp => ?_⟩
  obtain rfl := Option.some.inj ((convertExpression_constant hp).symm.trans hlo)
  obtain rfl := Option.some.inj ((heval p).symm.trans hlower)
  dsimp only
  split_ifs
  · linarith [ss.epsilon_nonneg]
  · exact le_rfl

/-- For a constant upper bound the check is right exactly under `CheckExact`, and
in any case nobody fires all the events of an action it reports. -/
theorem separation_check {D : Duration} (hkeeps : E.KeepsConstants)
    (hbuild : E.buildEvents (.durative u) a = some le)
    (hup : DurativeAction.constantValue (E.normalizeExpression u.duration.upper) = some q)
    (hle : ss.events a = some le) (hconv : E.convertDuration u.duration = some D)
    (hdur : ss.duration a = some D) :
    ((E.eventSeparationProblem ss.epsilon u le = none ↔
        ∃ d ≤ u.duration.maxDuration ss.epsilon q, Separated ss.epsilon d le) ↔
      CheckExact ss.epsilon (u.duration.maxDuration ss.epsilon q) le q) ∧
    (E.eventSeparationProblem ss.epsilon u le ≠ none →
      ∀ (tn : DeltaSimpleTemporalNetwork), tn.Exact → ∀ (b : Bool) (n m : ℕ) (s₀ s : State)
        (as : List Action), ss.initial tn n = some s₀ →
        Run ss tn b s₀ (initialCounter ss n) as s m → ¬ AllFired s a le) := by
  refine ⟨eventSeparationProblem_exact_iff hup (returnsWide_of_long hkeeps hbuild hup), ?_⟩
  intro hreport tn hx b n m s₀ s as h₀ hr hall
  have ht : ss.isTemporal = true := by
    rw [SearchSpace.duration, Option.join_eq_some_iff] at hdur
    exact List.any_eq_true.mpr ⟨some D, List.mem_of_getElem? hdur, rfl⟩
  have hne : le ≠ [] := by
    rintro rfl
    exact hreport rfl
  obtain ⟨d, assignments, bounds, hb, hlo, hhi, hsep⟩ :=
    exists_duration_of_allFired hx ht h₀ hr hle hne hall
  obtain ⟨hmax, hmin⟩ := le_maxDuration hconv hdur hup hb
  refine not_separated hkeeps hbuild hup hreport (hhi.trans hmax.le) (fun p hp => ?_) hsep
  have hlower := (upper_of_constantDuration hkeeps hup hp).1
  exact (hmin p (hkeeps _ p hlower)).trans hlo

end Encoder

section Wedge

attribute [local instance] Callables.empty

def keptEvents : List (Timing × Event) := (keepEncoder.buildEvents (.durative keeping) ⟨0⟩).getD []

theorem separation_check_keep : (keepEncoder.eventSeparationProblem (1 / 100) keeping keptEvents = none ↔
    ∃ d ≤ 2, Separated (1 / 100) d keptEvents) ↔ CheckExact (1 / 100) 2 keptEvents 2 :=
  (Encoder.separation_check (q := 2) (fun _ _ h => h)
    (show keepEncoder.buildEvents (.durative keeping) ⟨0⟩ = some keptEvents by decide +kernel) rfl
    (show keepSpace.events ⟨0⟩ = some keptEvents by decide +kernel) rfl rfl).1

/-- Ten units long, with a condition five units before the end in between two
from the start. -/
def wedged : DurativeAction where
  name := "wedge"
  duration := lasting 10
  conditions := [⟨.start, 499 / 100⟩, ⟨.stop, -5⟩, ⟨.start, 1001 / 200⟩].map fun t =>
    (⟨t, t, false, false⟩, [fluentF])
  effects := []

def wedgeEncoder : Encoder where
  actions := [.durative wedged]
  conj := FNode.conj
  plus := FNode.sum
  normalizeExpression e := e
  converter := twoFluents
  names_nodup := by decide

def wedgeEvents : List (Timing × Event) := (wedgeEncoder.buildEvents (.durative wedged) ⟨0⟩).getD []

/-- The check misses that what comes from the end has no room. -/
theorem wedge_unreported : wedgeEncoder.buildEvents (.durative wedged) ⟨0⟩ = some wedgeEvents ∧
    wedgeEncoder.eventSeparationProblem (1 / 100) wedged wedgeEvents = none ∧
    ¬ ∃ d ≤ 10, Separated (1 / 100) d wedgeEvents := by
  refine ⟨by decide +kernel, by decide +kernel, ?_⟩
  rw [exists_separated_iff]
  decide +kernel

end Wedge

end TamerLite
