import TamerLite.EventSeparation
import TamerLite.TimedBuckets

/-! The search space of an encoding: the rows of its tables, and that they are what a search
space asks for. -/

namespace TamerLite

/-! ### Opened and closed in pairs, the first one at the start -/

namespace DurativeAction

variable {conj : List FNode → FNode} {a : DurativeAction} {bs : List (UPTiming × Contents)}

theorem collected_pairs {f : UPTiming → Bool} (hf : ∀ t, f t = true) :
    collected f Contents.startConditions (a.actionEvents conj) =
      collected f Contents.endConditions (a.actionEvents conj) := by
  rw [actionEvents, collected_append, collected_append, collected_effects fun _ => rfl,
    collected_effects fun _ => rfl, collected_flatMap, collected_flatMap]
  simp only [collected_startConditions, collected_endConditions, hf]

theorem contentsOf_orderedBuckets (h : a.orderedBuckets conj = some bs) :
    contentsOf Contents.startConditions bs = contentsOf Contents.endConditions bs := by
  obtain ⟨start, stop, hcase, -, rfl⟩ := orderedBuckets_cases h
  have hends : ∀ x y : Contents, (x.append y).endConditions = x.endConditions ++ y.endConditions :=
    fun _ _ => rfl
  have hstarts : ∀ x y : Contents,
      (x.append y).startConditions = x.startConditions ++ y.startConditions := fun _ _ => rfl
  rw [contentsOf_append, contentsOf_append, contentsOf_sortBuckets, contentsOf_sortBuckets,
    contentsOf_sortBuckets, contentsOf_sortBuckets, Buckets.gather_withStart rfl,
    Buckets.gather_withStart rfl]
  rcases hcase with ⟨-, rfl, rfl⟩ | ⟨q, -, rfl, rfl⟩
  · rw [gather_fromStart hends, gather_fromStart hstarts, gather_fromEnd hends,
      gather_fromEnd hstarts, collected_add _ _ fun p _ hp => by simp_all,
      collected_add _ _ fun p _ hp => by simp_all]
    exact collected_pairs fun t => by cases ht : t.isFromStart <;> simp
  · rw [gather_folded hends, gather_folded hstarts]
    exact congrArg₂ (· + ·) (collected_pairs fun _ => rfl) rfl

/-- The first bucket is at the start, or was folded there by the duration. -/
theorem orderedBuckets_first (h : a.orderedBuckets conj = some bs) : ∃ b, bs[0]? = some b ∧
    (b.1.isFromStart = true ∧ b.1.delay = 0 ∨
      ∃ q, a.constantDuration = some q ∧ b.1.isFromStart = false ∧ b.1.delay = -q) := by
  obtain ⟨start, stop, hcase, hnn, rfl⟩ := orderedBuckets_cases h
  obtain ⟨v, hv⟩ := Buckets.sorted_withStart hnn
  have hfirst := Buckets.sortBuckets_eq_some.mpr ⟨0, hv⟩
  have hlook := Buckets.mem_sorted.mp (List.mem_of_getElem? hv)
  refine ⟨v, ?_, ?_⟩
  · rw [List.getElem?_append_left (List.getElem?_eq_some_iff.mp hfirst).1, hfirst]
  · rcases hcase with ⟨-, rfl, -⟩ | ⟨q, hq, rfl, -⟩
    · obtain ⟨hs, hd⟩ := fromStart_timing hlook
      exact .inl ⟨hs, hd⟩
    · have hkey := key_folded hlook
      rw [foldedBy] at hq
      split_ifs at hq
      cases hs : v.1.isFromStart with
      | true =>
        rw [hs, if_pos rfl] at hkey
        exact .inl ⟨rfl, hkey.symm⟩
      | false =>
        rw [hs, if_neg Bool.false_ne_true] at hkey
        exact .inr ⟨q, hq, rfl, by linarith⟩

end DurativeAction

/-- What a search space asks of an action's duration and events. -/
structure WellFormedRow (a : Action) (row : Option Duration × List (Timing × Event)) : Prop where
  numbered : row.2 ≠ [] ∧ ∀ {k : ℕ} {te : Timing × Event}, row.2[k]? = some te →
    te.2.action = a ∧ te.2.pos = k
  instantaneous : row.1 = none → row.2.length = 1
  opening : ∀ {te : Timing × Event}, row.2[0]? = some te → te.1 = ⟨true, 0⟩ ∨
    ∃ q l r, te.1 = ⟨false, -q⟩ ∧ row.1 = some ⟨[.constant (.num q)], [.constant (.num q)], l, r⟩

namespace Encoder

variable {E : Encoder} {a : Action} {u : UPAction} {v : DurativeAction} {D : Duration}
  {le : List (Timing × Event)} {te : Timing × Event} {bs : List (UPTiming × Contents)}

theorem convertBucket_event {pos : ℕ} {b : UPTiming × Contents}
    (h : E.convertBucket a pos b = some te) :
    te.1 = convertTiming b.1 ∧ te.2.action = a ∧ te.2.pos = pos := by
  simp only [convertBucket, Option.bind_eq_bind, Option.bind_eq_some_iff] at h
  obtain ⟨c, -, sc, -, ec, -, ef, -, h⟩ := h
  obtain rfl := Option.some.inj h
  exact ⟨rfl, rfl, rfl⟩

theorem convertBucket_effects {pos : ℕ} {b : UPTiming × Contents}
    (h : E.convertBucket a pos b = some te) : E.convertEffects b.2.effects = some te.2.effects := by
  simp only [convertBucket, Option.bind_eq_bind, Option.bind_eq_some_iff] at h
  obtain ⟨c, -, sc, -, ec, -, ef, hef, h⟩ := h
  obtain rfl := Option.some.inj h
  exact hef

theorem eventsFromBuckets_numbered (h : E.eventsFromBuckets a bs = some le) (hbs : bs ≠ []) :
    le ≠ [] ∧ ∀ {k : ℕ} {te : Timing × Event}, le[k]? = some te →
      te.2.action = a ∧ te.2.pos = k := by
  obtain ⟨hlen, hget⟩ := eventsFromBuckets_getElem h
  refine ⟨fun hnil => hbs (List.length_eq_zero_iff.mp (by rw [← hlen, hnil]; rfl)), fun hk => ?_⟩
  obtain ⟨b, -, hb⟩ := hget hk
  exact (convertBucket_event hb).2

/-- The events that the encoder builds open and close every interval condition in pairs. -/
theorem opened_buildEvents (h : E.buildEvents u a = some le) : opened le = closed le := by
  cases u with
  | instantaneous u =>
    simp only [buildEvents, Option.bind_eq_bind, Option.bind_eq_some_iff] at h
    obtain ⟨te, hte, h⟩ := h
    obtain rfl := Option.some.inj h
    obtain ⟨-, hstarts, hends⟩ := convertBucket_eq_some hte
    have hs : te.2.startConditions = [] := (Option.some.inj hstarts).symm
    have he : te.2.endConditions = [] := (Option.some.inj hends).symm
    simp [opened, closed, hs, he]
  | durative v =>
    simp only [buildEvents, Option.bind_eq_bind, Option.bind_eq_some_iff] at h
    obtain ⟨bs, hbs, hle⟩ := h
    have hlen := (eventsFromBuckets_getElem hle).1
    have hopened := opened_take hle le.length
    have hclosed := closed_take hle le.length
    rw [List.take_length, hlen, List.take_length] at hopened hclosed
    rw [hopened, hclosed, DurativeAction.contentsOf_orderedBuckets hbs]

/-- The first event that the encoder builds is at the start, or where the constant duration
puts the start, counted from the end. -/
theorem timing_buildEvents (hkeeps : E.KeepsConstants)
    (h : E.buildEvents (.durative v) a = some le) (hD : E.convertDuration v.duration = some D)
    (hte : le[0]? = some te) : te.1 = ⟨true, 0⟩ ∨
      ∃ q l r, te.1 = ⟨false, -q⟩ ∧ D = ⟨[.constant (.num q)], [.constant (.num q)], l, r⟩ := by
  obtain ⟨bs, hbs, hget⟩ := timing_of_buildEvents h
  obtain ⟨b, hb, hbt⟩ := hget hte
  obtain ⟨b', hb', hcase⟩ := DurativeAction.orderedBuckets_first hbs
  obtain rfl := Option.some.inj (hb'.symm.trans hb)
  rw [hbt, convertTiming]
  rcases hcase with ⟨hs, hd⟩ | ⟨q, hq, hs, hd⟩
  · exact .inl (by rw [hs, hd])
  · simp only [DurativeAction.constantDuration, Option.bind_eq_bind, Option.bind_eq_some_iff] at hq
    obtain ⟨lower, hlower, upper, hupper, hq⟩ := hq
    split_ifs at hq with heq
    obtain rfl := Option.some.inj hq
    rw [← heq] at hupper
    simp only [convertDuration, convertExpression_constant (hkeeps _ _ hlower),
      convertExpression_constant (hkeeps _ _ hupper), Option.bind_eq_bind, Option.bind_some] at hD
    exact .inr ⟨lower, _, _, by rw [hs, hd], (Option.some.inj hD).symm⟩

variable (E) in
/-- The duration and the events of an action, `none` where the source rejects it. -/
def encodeAction (u : UPAction) (a : Action) : Option (Option Duration × List (Timing × Event)) :=
  match u with
  | .instantaneous u => do return (none, ← E.buildEvents (.instantaneous u) a)
  | .durative u => do
    let duration ← E.convertDuration u.duration
    return (some duration, ← E.buildEvents (.durative u) a)

theorem buildEvents_of_encodeAction {row : Option Duration × List (Timing × Event)}
    (h : E.encodeAction u a = some row) : E.buildEvents u a = some row.2 := by
  cases u with
  | instantaneous u =>
    simp only [encodeAction, Option.bind_eq_bind, Option.bind_eq_some_iff] at h
    obtain ⟨le, hle, h⟩ := h
    obtain rfl := Option.some.inj h
    exact hle
  | durative v =>
    simp only [encodeAction, Option.bind_eq_bind, Option.bind_eq_some_iff] at h
    obtain ⟨D, -, le, hle, h⟩ := h
    obtain rfl := Option.some.inj h
    exact hle

theorem encodeAction_wellFormed {row : Option Duration × List (Timing × Event)}
    (hkeeps : E.KeepsConstants) (h : E.encodeAction u a = some row) : WellFormedRow a row := by
  cases u with
  | instantaneous u =>
    simp only [encodeAction, Option.bind_eq_bind, Option.bind_eq_some_iff] at h
    obtain ⟨le, hle, h⟩ := h
    obtain rfl := Option.some.inj h
    simp only [buildEvents, Option.bind_eq_bind, Option.bind_eq_some_iff] at hle
    obtain ⟨te, hte, hle⟩ := hle
    obtain rfl := Option.some.inj hle
    obtain ⟨htiming, hact, hpos⟩ := convertBucket_event hte
    have hfirst : ∀ {k : ℕ} {te' : Timing × Event}, [te][k]? = some te' → k = 0 ∧ te' = te := by
      intro k te' hk
      cases k with
      | zero => exact ⟨rfl, (Option.some.inj hk).symm⟩
      | succ k => cases hk
    refine ⟨⟨List.cons_ne_nil _ _, fun hk => ?_⟩, fun _ => rfl, fun hk => ?_⟩
    · obtain ⟨rfl, rfl⟩ := hfirst hk
      exact ⟨hact, hpos⟩
    · obtain ⟨-, rfl⟩ := hfirst hk
      exact .inl htiming
  | durative v =>
    simp only [encodeAction, Option.bind_eq_bind, Option.bind_eq_some_iff] at h
    obtain ⟨D, hD, le, hle, h⟩ := h
    obtain rfl := Option.some.inj h
    refine ⟨?_, fun hnone => ?_, fun hte => ?_⟩
    · simp only [buildEvents, Option.bind_eq_bind, Option.bind_eq_some_iff] at hle
      obtain ⟨bs, hbs, hle⟩ := hle
      obtain ⟨b, hb, -⟩ := DurativeAction.orderedBuckets_first hbs
      exact eventsFromBuckets_numbered hle fun hnil => by simp [hnil] at hb
    · cases hnone
    · rcases timing_buildEvents hkeeps hle hD hte with hstart | ⟨q, l, r, hend, rfl⟩
      · exact .inl hstart
      · exact .inr ⟨q, l, r, hend, rfl⟩

variable (E) in
/-- The action of an index, which counts the names in order. -/
def actionOf (a : Action) : Option UPAction :=
  E.actionNames[a.idx]?.bind fun name => E.actions.find? fun u => u.name = name

theorem actionOf_eq_some (h : E.actionOf a = some u) :
    u ∈ E.actions ∧ E.actionByName u.name = a ∧ a.idx < E.actionNames.length := by
  obtain ⟨name, hname, hu⟩ := Option.bind_eq_some_iff.mp h
  obtain ⟨hlt, hget⟩ := List.getElem?_eq_some_iff.mp hname
  have hnodup : E.actionNames.Nodup :=
    (List.perm_insertionSort _ _).nodup_iff.mpr E.names_nodup
  refine ⟨List.mem_of_find?_eq_some hu, ?_, hlt⟩
  have heq : u.name = name := by simpa using List.find?_some hu
  rw [actionByName, heq, ← hget, List.Nodup.idxOf_getElem hnodup]

end Encoder

/-! ### The timed action -/

namespace TimedProblem

variable {conj : List FNode → FNode} {P : TimedProblem} {ε : ℚ} {b : Buckets} {d : ℚ}

theorem delay_nonneg (h : P.groupTimedEvents conj ε = some b) (hd : d ∈ b) : 0 ≤ d := by
  obtain ⟨l, hl, hb⟩ := groupTimedEvents_eq_some h
  obtain ⟨rfl, hnn, -⟩ := entries_eq_some hl
  rcases hb with ⟨-, rfl⟩ | ⟨-, rfl⟩
  · exact absurd hd (AList.notMem_empty d)
  · rcases (Buckets.mem_foldl _).mp hd with hd | ⟨p, hp, rfl⟩
    · exact absurd hd (AList.notMem_empty d)
    · rcases List.mem_append.mp hp with hp | hp
      · obtain ⟨q, hq, rfl⟩ := List.mem_map.mp hp
        exact (hnn q hq).2
      · rw [List.mem_singleton.mp hp]

/-- There is a bucket at the start, if there are any. -/
theorem zero_mem (h : P.groupTimedEvents conj ε = some b) (hb : b ≠ ∅) : 0 ∈ b := by
  obtain ⟨l, -, ⟨-, rfl⟩ | ⟨-, rfl⟩⟩ := groupTimedEvents_eq_some h
  · contradiction
  · refine (Buckets.mem_foldl _).mpr (.inr ⟨_, List.mem_append_right _ List.mem_cons_self, rfl⟩)

end TimedProblem

/-- `max(self._timed_buckets)`. -/
def Buckets.lastInstant (b : Buckets) : ℚ := b.keys.max?.getD 0

theorem Buckets.le_lastInstant {b : Buckets} {d : ℚ} (hd : d ∈ b) : d ≤ b.lastInstant := by
  have hmem : d ∈ b.keys := AList.mem_keys.mp hd
  cases hmax : b.keys.max? with
  | none =>
    rw [List.max?_eq_none_iff.mp hmax] at hmem
    cases hmem
  | some q =>
    rw [lastInstant, hmax]
    exact (List.max?_eq_some_iff.mp hmax).2 d hmem

namespace Encoder

variable {E : Encoder}

def instantNode (q : ℚ) : FNode := .node (.realConstant q) []

variable (E) in
/-- The timed action lasts until its last event. -/
def timedDuration (b : Buckets) : Option Duration :=
  E.convertDuration ⟨instantNode b.lastInstant, instantNode b.lastInstant, false, false⟩

theorem timedDuration_eq (hkeeps : E.KeepsConstants) (b : Buckets) : E.timedDuration b =
    some ⟨[.constant (.num b.lastInstant)], [.constant (.num b.lastInstant)], false, false⟩ := by
  have hnode : E.convertExpression (instantNode b.lastInstant) =
      some [.constant (.num b.lastInstant)] := convertExpression_constant (hkeeps _ _ rfl)
  rw [timedDuration, convertDuration, hnode]
  rfl

end Encoder

/-! ### The search space -/

/-- What the encoder makes a search space from, once the timed events are grouped and the goal
is converted. -/
structure ProblemEncoding where
  encoder : Encoder
  problem : TimedProblem
  initialState : Assignments
  actionObjects : Option (List (List Object))
  objToPrevActionsMap : Option (List (List Action))
  compression : Bool
  deadline : Option ℚ
  epsilon : ℚ
  buckets : Buckets
  goal : Expression
  keepsConstants : encoder.KeepsConstants
  epsilon_nonneg : 0 ≤ epsilon
  groups : problem.groupTimedEvents encoder.conj epsilon = some buckets
  converts : encoder.convertExpression (encoder.conj (problem.goals ++ problem.finalGoals)) = some goal

namespace ProblemEncoding

variable (P : ProblemEncoding)

/-- The timed action comes after every action of the problem. -/
def timedAction : Option Action :=
  if P.buckets.entries.isEmpty then none else some ⟨P.encoder.actionNames.length⟩

def rowOf (a : Action) : Option (Option Duration × List (Timing × Event)) :=
  (P.encoder.actionOf a).bind fun u => P.encoder.encodeAction u a

/-- `_actions_duration`. -/
def actionsDuration : List (Option Duration) :=
  (List.range P.encoder.actionNames.length).map (fun i => (P.rowOf ⟨i⟩).bind Prod.fst) ++
    if P.buckets.entries.isEmpty then [] else [P.encoder.timedDuration P.buckets]

/-- `_events`. -/
def events (a : Action) : Option (List (Timing × Event)) :=
  if P.timedAction = some a then P.encoder.eventsFromBuckets a (sortBuckets P.buckets)
  else (P.rowOf a).map Prod.snd

/-- Nothing is compressed beside timed effects and timed goals. -/
def compressionSafeActions : Option (List Bool) :=
  if P.compression && P.buckets.entries.isEmpty && P.encoder.computeCompressionSafeActions.any id then
    some P.encoder.computeCompressionSafeActions
  else none

variable {P} {a : Action} {le : List (Timing × Event)}

theorem timedAction_eq_some (h : P.timedAction = some a) :
    P.buckets ≠ ∅ ∧ a.idx = P.encoder.actionNames.length := by
  rw [timedAction] at h
  split_ifs at h with hb
  obtain rfl := Option.some.inj h
  refine ⟨fun hnil => hb ?_, rfl⟩
  rw [hnil]
  rfl

theorem duration_timed (h : P.timedAction = some a) : P.actionsDuration[a.idx]?.join =
    some ⟨[.constant (.num P.buckets.lastInstant)], [.constant (.num P.buckets.lastInstant)],
      false, false⟩ := by
  rw [(timedAction_eq_some h).2, actionsDuration,
    List.getElem?_append_right (by simp), List.length_map, List.length_range, Nat.sub_self]
  rw [timedAction] at h
  split_ifs at h with hb
  rw [if_neg hb, Encoder.timedDuration_eq P.keepsConstants]
  rfl

/-- An action with events, other than the timed action, is one of the problem's. -/
theorem action_of_events (ht : P.timedAction ≠ some a) (h : P.events a = some le) :
    ∃ u ∈ P.encoder.actions, P.encoder.actionByName u.name = a ∧
      P.encoder.encodeAction u a = some (P.actionsDuration[a.idx]?.join, le) := by
  rw [events, if_neg ht] at h
  obtain ⟨row, hrow, rfl⟩ := Option.map_eq_some_iff.mp h
  obtain ⟨u, hu, henc⟩ := Option.bind_eq_some_iff.mp hrow
  obtain ⟨hmem, hname, hlt⟩ := Encoder.actionOf_eq_some hu
  refine ⟨u, hmem, hname, ?_⟩
  have hdur : P.actionsDuration[a.idx]?.join = row.1 := by
    rw [actionsDuration, List.getElem?_append_left (by simpa using hlt), List.getElem?_map,
      List.getElem?_range hlt, Option.map_some, hrow]
    rfl
  rw [henc, hdur]

theorem wellFormedRow (h : P.events a = some le) :
    WellFormedRow a (P.actionsDuration[a.idx]?.join, le) := by
  by_cases ht : P.timedAction = some a
  · rw [events, if_pos ht] at h
    have hne := (timedAction_eq_some ht).1
    obtain ⟨v, hv⟩ := Option.isSome_iff_exists.mp
      (AList.lookup_isSome.mpr (TimedProblem.zero_mem P.groups hne))
    have hfirst := Buckets.sortBuckets_eq_some.mpr ⟨0, Buckets.sorted_zero hv fun d w hw =>
      TimedProblem.delay_nonneg P.groups (AList.lookup_isSome.mp (by rw [hw]; rfl))⟩
    refine ⟨Encoder.eventsFromBuckets_numbered h fun hnil => ?_, fun hnone => ?_, fun hte => ?_⟩
    · rw [hnil] at hfirst
      cases hfirst
    · rw [duration_timed ht] at hnone
      cases hnone
    · obtain ⟨b, hb, hconv⟩ := (Encoder.eventsFromBuckets_getElem h).2 hte
      obtain rfl := Option.some.inj (hfirst.symm.trans hb)
      rw [(Encoder.convertBucket_event hconv).1, TimedProblem.timing_eq P.groups hv]
      exact .inl rfl
  · obtain ⟨u, -, -, henc⟩ := action_of_events ht h
    exact Encoder.encodeAction_wellFormed P.keepsConstants henc

theorem opened_events (ht : P.timedAction ≠ some a) (h : P.events a = some le) :
    opened le = closed le := by
  obtain ⟨u, -, -, henc⟩ := action_of_events ht h
  exact Encoder.opened_buildEvents (Encoder.buildEvents_of_encodeAction henc)

theorem start_timed (ht : P.timedAction = some a) (h : P.events a = some le) :
    ∀ te ∈ le, te.1.start = true := by
  intro te hte
  rw [events, if_pos ht] at h
  obtain ⟨k, hk⟩ := List.mem_iff_getElem?.mp hte
  obtain ⟨b, hb, hconv⟩ := (Encoder.eventsFromBuckets_getElem h).2 hk
  obtain ⟨d, hd⟩ := Buckets.sortBuckets_eq_some.mp hb
  have hlook := Buckets.mem_sorted.mp (List.mem_of_getElem? hd)
  rw [(Encoder.convertBucket_event hconv).1, TimedProblem.timing_eq P.groups hlook]
  rfl

theorem exists_duration_timed (h : P.timedAction = some a) : ∃ q : ℚ, 0 ≤ q ∧
    P.actionsDuration[a.idx]?.join =
      some ⟨[.constant (.num q)], [.constant (.num q)], false, false⟩ :=
  ⟨P.buckets.lastInstant, Buckets.le_lastInstant
    (TimedProblem.zero_mem P.groups (timedAction_eq_some h).1), duration_timed h⟩

variable (P) in
/-- The search space that the encoder builds. -/
def searchSpace : SearchSpace where
  actionsDuration := P.actionsDuration
  events := P.events
  compressionSafeActions := P.compressionSafeActions
  actionObjects := P.actionObjects
  objToPrevActionsMap := P.objToPrevActionsMap
  initialState := P.initialState
  goal := P.goal
  deadline := P.deadline
  epsilon := P.epsilon
  timedAction := P.timedAction
  epsilon_nonneg := P.epsilon_nonneg
  events_numbered := fun h => (wellFormedRow h).numbered
  events_instantaneous := fun h => (wellFormedRow h).instantaneous
  events_opening := fun h => (wellFormedRow h).opening
  events_balanced := opened_events
  timed_absolute := start_timed
  timed_duration := exists_duration_timed

theorem encodes_searchSpace : P.encoder.Encodes P.searchSpace := by
  constructor
  · intro a le hle ht
    obtain ⟨u, hu, hname, henc⟩ := action_of_events ht hle
    exact ⟨u, hu, hname, Encoder.buildEvents_of_encodeAction henc⟩
  · show P.compressionSafeActions = none ∨
      P.timedAction = none ∧ P.compressionSafeActions = some P.encoder.computeCompressionSafeActions
    rw [compressionSafeActions]
    split_ifs with hc
    · simp only [Bool.and_eq_true] at hc
      exact .inr ⟨if_pos hc.1.2, rfl⟩
    · exact .inl rfl

/-- Where the source accepts the timed events, the search space is the problem's. -/
theorem encodesTimed_searchSpace
    (haccepts : ∀ a, P.timedAction = some a → (P.events a).isSome) :
    P.encoder.EncodesTimed P.problem P.searchSpace := by
  have hempty : P.buckets.entries.isEmpty = true ↔ P.buckets = ∅ := by
    rw [List.isEmpty_iff]
    exact ⟨fun h => AList.ext h, fun h => by rw [h]; rfl⟩
  refine ⟨⟨P.buckets, P.groups, ?_⟩, ?_, P.converts⟩
  · by_cases hb : P.buckets.entries.isEmpty = true
    · exact .inl ⟨hempty.mp hb, if_pos hb⟩
    · have ht : P.timedAction = some ⟨P.encoder.actionNames.length⟩ := if_neg hb
      obtain ⟨le, hle⟩ := Option.isSome_iff_exists.mp (haccepts _ ht)
      refine .inr ⟨fun h => hb (hempty.mpr h), _, le, ht, hle, ?_⟩
      rw [events, if_pos ht] at hle
      exact hle
  · show P.timedAction = none ∨ P.compressionSafeActions = none
    by_cases hb : P.buckets.entries.isEmpty = true
    · exact .inl (if_pos hb)
    · rw [compressionSafeActions]
      exact .inr (if_neg (by simp [hb]))

end ProblemEncoding

end TamerLite
