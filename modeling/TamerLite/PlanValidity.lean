import TamerLite.Linearisation
import TamerLite.Makespan

/-! A rebuilt plan is valid in every order of its events' times, as long as
the events that touch an open interval condition are mutex. -/

namespace TamerLite

open Difference SearchSpace

/-! ### Executing a plan -/

section Execution

variable (ss : SearchSpace)

/-- Event `k` of a plan's entry is at its delay from the entry's start or end. -/
def PlanEntry.time (e : PlanEntry) (k : ℕ) : ℚ :=
  match ss.event e.action k with
  | none => e.start.getD 0
  | some te =>
    (if te.1.start then e.start.getD 0 else e.start.getD 0 + e.duration.getD 0) + te.1.delay

def PlanEntry.events (e : PlanEntry) : List (PlanEntry × ℕ) :=
  (List.range ((ss.events e.action).getD []).length).map fun k => (e, k)

/-- The entries of a plan and the timed action, which starts with the plan. -/
def withTimedAction (plan : List PlanEntry) : List PlanEntry :=
  match ss.timedAction with
  | none => plan
  | some a => ⟨some 0, a, none⟩ :: plan

def eventTime (x : PlanEntry × ℕ) : ℚ := x.1.time ss x.2

/-- The events of a plan in some order of non-decreasing times; a plan without
times is a sequence. -/
def Linearises (plan : List PlanEntry) (l : List (PlanEntry × ℕ)) : Prop :=
  if ss.isTemporal then
    l.Perm ((withTimedAction ss plan).flatMap (PlanEntry.events ss)) ∧
      l.Pairwise fun x y => eventTime ss x ≤ eventTime ss y
  else l = plan.flatMap (PlanEntry.events ss)

variable [Callables]

/-- Every event is applicable in turn, every interval condition holds between
its start and its end, and the goal holds at the end. -/
def ValidExecution (plan : List PlanEntry) (l : List (PlanEntry × ℕ)) : Prop :=
  ∀ p r, l = p ++ r → ∃ a, execute ss (p.map fun x => (x.1.action, x.2)) = some a ∧
    (∀ e ∈ withTimedAction ss plan, ∀ x,
      closedBy ss x e.action (e.time ss) (p.getLast?.map (eventTime ss)) <
        openedBy ss x e.action (e.time ss) (r.head?.map (eventTime ss)) → holds x a = true) ∧
    (r = [] → holds ss.goal a = true)

end Execution

section Validity

variable {ss : SearchSpace} {tn : DeltaSimpleTemporalNetwork} {c c₀ : Config}
  {ids : List ℕ} {p : PlanState}

/-- The entry of instance `j` in the plan a placement amounts to. -/
def entryOf (ss : SearchSpace) (c : Config) (ids : List ℕ) (τ : Timepoint → ℚ) (j : ℕ) : PlanEntry :=
  let origin := if ss.timedAction.isSome then τ .startPlan else 0
  let start := τ (anchor c ids true j) - origin
  let stop := τ (anchor c ids false j) - origin
  if ss.timedAction = some (c.actionOf j) then ⟨some 0, c.actionOf j, none⟩
  else ⟨some start, c.actionOf j, if stop - start = 0 then none else some (stop - start)⟩

theorem entryOf_action {τ : Timepoint → ℚ} (j : ℕ) : (entryOf ss c ids τ j).action = c.actionOf j := by
  unfold entryOf
  simp only
  split_ifs <;> rfl

theorem opened_eq (h : Rebuilds ss p c ids) :
    p.opened = (List.range c.instances.length).map fun j => (c.actionOf j, ids.getD j 0) := by
  rw [h.opened]
  apply List.ext_getElem
  · simp [h.length]
  · intro j hj hj'
    have hjc : j < c.instances.length := by simpa using hj'
    have hji : j < ids.length := by rw [h.length]; exact hjc
    simp [Config.actionOf, List.getD_eq_getElem?_getD, List.getElem?_eq_getElem hjc,
      List.getElem?_eq_getElem hji]

/-- The plan has one entry for each instance, the timed action's added back. -/
theorem withTimedAction_perm {τ : Timepoint → ℚ} {plan : List PlanEntry}
    (hlen : ∀ a, ss.timedAction = some a → 0 < c.instances.length)
    (hfirst : ∀ a, ss.timedAction = some a →
      ∀ j < c.instances.length, c.actionOf j = a ↔ j = 0)
    (hplan : plan.Perm (((List.range c.instances.length).filter fun j =>
      ss.timedAction ≠ some (c.actionOf j)).map (entryOf ss c ids τ))) :
    (withTimedAction ss plan).Perm ((List.range c.instances.length).map (entryOf ss c ids τ)) := by
  unfold withTimedAction
  cases ht : ss.timedAction with
  | none =>
    have hall : (List.range c.instances.length).filter
        (fun j => decide (ss.timedAction ≠ some (c.actionOf j))) = List.range c.instances.length :=
      List.filter_eq_self.mpr fun j _ => by simp [ht]
    rwa [hall] at hplan
  | some a =>
    obtain ⟨n, hn⟩ := Nat.exists_eq_succ_of_ne_zero (Nat.pos_iff_ne_zero.mp (hlen a ht))
    have h0 : c.actionOf 0 = a := (hfirst a ht 0 (hlen a ht)).mpr rfl
    have hrest : (List.range c.instances.length).filter
        (fun j => decide (ss.timedAction ≠ some (c.actionOf j))) = (List.range n).map Nat.succ := by
      rw [hn, List.range_succ_eq_map, List.filter_cons_of_neg (by simp [ht, h0])]
      apply List.filter_eq_self.mpr
      intro j hj
      obtain ⟨i, hi, rfl⟩ := List.mem_map.mp hj
      have hlt : i.succ < c.instances.length := by
        rw [hn]
        have := List.mem_range.mp hi
        omega
      have hne : a ≠ c.actionOf i.succ :=
        fun he => absurd ((hfirst a ht _ hlt).mp he.symm) (Nat.succ_ne_zero i)
      simp [ht, hne]
    have he0 : entryOf ss c ids τ 0 = ⟨some 0, a, none⟩ := by simp [entryOf, ht, h0]
    rw [hrest] at hplan
    rw [hn, List.range_succ_eq_map, List.map_cons, he0]
    exact hplan.cons _

theorem exists_perm_map {α β : Type*} {f : α → β} {l : List β} {m : List α}
    (h : l.Perm (m.map f)) : ∃ l' : List α, l'.Perm m ∧ l = l'.map f := by
  induction l generalizing m with
  | nil =>
    have hm : m = [] := by simpa using h.nil_eq.symm
    exact ⟨[], by rw [hm], rfl⟩
  | cons x l ih =>
    obtain ⟨y, hy, rfl⟩ := List.mem_map.mp (h.mem_iff.mp List.mem_cons_self)
    obtain ⟨a, b, rfl⟩ := List.append_of_mem hy
    rw [List.map_append, List.map_cons] at h
    have hl : l.Perm ((a ++ b).map f) := by
      rw [List.map_append]
      exact (h.trans List.perm_middle).cons_inv
    obtain ⟨l', hp, rfl⟩ := ih hl
    exact ⟨y :: l', (hp.cons y).trans List.perm_middle.symm, rfl⟩

/-- An action with a single event has no interval condition. -/
theorem opens_eq_zero {a : Action} {le : List (Timing × Event)} (hnest : Nested ss)
    (hle : ss.events a = some le) (hlen : le.length = 1) (ht : ss.timedAction ≠ some a)
    (x : Expression) (k : ℕ) : opens ss x (a, k) = 0 := by
  obtain ⟨te, rfl⟩ := List.length_eq_one_iff.mp hlen
  have hclosed : closed [te] = 0 := by
    have hn : closed ([te].take 1) ≤ opened ([te].take 0) := hnest hle 0
    exact Multiset.le_zero.mp hn
  have hopened : opened [te] = 0 := (ss.events_balanced ht hle).trans hclosed
  have hstart : te.2.startConditions = [] := by simpa [opened] using hopened
  rw [opens, occurs, Config.event_eq hle]
  cases k with
  | zero => simp [hstart]
  | succ k => simp

/-- It is enough that the path's events touching a condition are all mutex. -/
theorem writersOrdered_of_pairwise (h : ∀ q ∈ c.fired, ∀ te ∈ ss.event (c.label q).1 (c.label q).2,
    ∀ x ∈ te.2.startConditions, (c.fired.filter fun r => c.Touches ss x r).Pairwise fun p r =>
      ss.mutex (c.label p) (c.label r) = true) : c.WritersOrdered ss := by
  intro j x l₁ p l₂ q l₃ hs hopen hp hq
  have hpos := Nat.zero_lt_of_lt (hopen l₁ (List.prefix_refl _) (List.prefix_append _ _))
  obtain ⟨i, hi, hne⟩ := List.exists_mem_ne_zero_of_sum_ne_zero (Nat.pos_iff_ne_zero.mp hpos)
  obtain ⟨o, ho, rfl⟩ := List.mem_map.mp hi
  unfold opens occurs at hne
  split at hne
  · exact absurd rfl hne
  · next te hev =>
    have hx : x ∈ te.2.startConditions :=
      Multiset.mem_coe.mp (Multiset.count_pos.mp (Nat.pos_iff_ne_zero.mpr hne))
    have hof : o ∈ c.fired := by
      rw [hs]
      exact List.mem_append_left _ (List.mem_of_mem_filter ho)
    have hpair := h o hof te hev x hx
    rw [hs, List.filter_append, List.filter_cons_of_pos (by simpa using hp), List.filter_append,
      List.filter_cons_of_pos (by simpa using hq), List.pairwise_append] at hpair
    exact (List.pairwise_cons.mp hpair.2.1).1 q (by simp)

theorem planEntries_eq (h : Rebuilds ss p c ids) (δ : Timepoint → ℚ) :
    ss.planEntries δ p.opened = ((List.range c.instances.length).filter fun j =>
      ss.timedAction ≠ some (c.actionOf j)).map (entryOf ss c ids fun v => -δ v) := by
  rw [SearchSpace.planEntries, opened_eq h, List.filter_map, List.map_map]
  apply List.map_congr_left
  intro j hj
  have hne : ss.timedAction ≠ some (c.actionOf j) := by simpa using (List.mem_filter.mp hj).2
  simp only [Function.comp_apply, entryOf, if_neg hne, anchor]

/-- A plan's event is where the placement puts it, relative to the plan's start. -/
theorem entryOf_time {τ : Timepoint → ℚ} (h : PlanPlaced ss c ids τ)
    (hfirst : ∀ a, ss.timedAction = some a → ∀ j < c.instances.length, c.actionOf j = a ↔ j = 0)
    {j k : ℕ} (hj : j < c.instances.length) (hs : (ss.event (c.actionOf j) k).isSome) :
    (entryOf ss c ids τ j).time ss k =
      τ (point c ids (j, k)) - if ss.timedAction.isSome then τ .startPlan else 0 := by
  obtain ⟨te, hte⟩ := Option.isSome_iff_exists.mp hs
  have hr := h.rigid j hj hte
  rw [PlanEntry.time, entryOf_action, hte]
  by_cases ht : ss.timedAction = some (c.actionOf j)
  · obtain rfl := (hfirst _ ht j hj).mp rfl
    have hpin := (h.pinned _ ht).2
    obtain ⟨le, hle, hk⟩ := Option.bind_eq_some_iff.mp hte
    have hstart : te.1.start = true := ss.timed_absolute ht hle te (List.mem_of_getElem? hk)
    rw [hr, hstart, hpin]
    simp [entryOf, ht]
  · rw [hr]
    generalize ho : (if ss.timedAction.isSome then τ .startPlan else 0) = origin
    have he : entryOf ss c ids τ j = ⟨some (τ (anchor c ids true j) - origin), c.actionOf j,
        if τ (anchor c ids false j) - origin - (τ (anchor c ids true j) - origin) = 0 then none
        else some (τ (anchor c ids false j) - origin - (τ (anchor c ids true j) - origin))⟩ := by
      rw [entryOf, ho, if_neg ht]
    rw [he]
    cases hst : te.1.start with
    | true =>
      simp only [hst, if_true, Option.getD_some]
      ring
    | false =>
      simp only [hst, Bool.false_eq_true, if_false, Option.getD_some]
      split_ifs with hz
      · simp only [Option.getD_none]
        linarith
      · simp only [Option.getD_some]
        ring

variable [Callables]

/-- The events of a path to a goal are all events of its instances. -/
theorem fired_perm (hp : Config.Progress ss c) (hwf : c.WellFormed ss)
    (hidle : ∀ a, c.todo.lookup a = none) :
    c.fired.Perm ((List.range c.instances.length).flatMap fun j =>
      (List.range ((ss.events (c.actionOf j)).getD []).length).map fun k => (j, k)) := by
  have hn : ((List.range c.instances.length).flatMap fun j =>
      (List.range ((ss.events (c.actionOf j)).getD []).length).map fun k => (j, k)).Nodup := by
    apply List.nodup_flatMap.mpr
    refine ⟨fun j _ => List.nodup_range.map fun _ _ h => (Prod.ext_iff.mp h).2, ?_⟩
    refine List.nodup_range.imp fun {i j} hij => ?_
    intro x hx hx'
    obtain ⟨k, -, rfl⟩ := List.mem_map.mp hx
    obtain ⟨k', -, he⟩ := List.mem_map.mp hx'
    exact hij (Prod.ext_iff.mp he).1.symm
  apply (List.perm_ext_iff_of_nodup (nodup_fired hp) hn).mpr
  intro q
  have hlen : ∀ j k, (ss.event (c.actionOf j) k).isSome ↔
      k < ((ss.events (c.actionOf j)).getD []).length := by
    intro j k
    cases hev : ss.events (c.actionOf j) with
    | none => simp [SearchSpace.event, hev]
    | some le => rw [Config.event_isSome hev, Option.getD_some]
  have hrun : ∀ j, ¬ c.Running j := by
    intro j hr
    obtain ⟨k, hl⟩ := hr
    rw [hidle] at hl
    contradiction
  simp only [List.mem_flatMap, List.mem_range, List.mem_map]
  constructor
  · intro hq
    have hf := hwf.fired q hq
    exact ⟨q.1, hf.1, q.2, (hlen _ _).mp hf.2, rfl⟩
  · intro hq
    obtain ⟨j, hj, k, hk, rfl⟩ := hq
    exact (hp.done j hj (hrun j) k).mpr ((hlen j k).mpr hk)

theorem timed_iff {a : Action} {j : ℕ} (hr : Config.Reachable ss false c)
    (ht : ss.timedAction = some a) (hj : j < c.instances.length) :
    c.actionOf j = a ↔ j = 0 := by
  have hi := List.getElem?_eq_getElem hj
  constructor
  · intro ha
    exact hr.timed_first ht hi (by rw [← ha, Config.actionOf_eq hi])
  · rintro rfl
    obtain ⟨c₀, as, h₀, hr⟩ := hr
    obtain ⟨is, his, -⟩ := new_of_runWith hr
    rcases instances_initial h₀ with ⟨hn, -⟩ | ⟨b, q, hb, -, h₀⟩
    · rw [ht] at hn
      contradiction
    · obtain rfl := Option.some.inj (ht.symm.trans hb)
      simp [Config.actionOf, his, h₀]

/-- The events of the plan are those of the path. -/
theorem events_perm {τ : Timepoint → ℚ} {plan : List PlanEntry} (hr : Config.Reachable ss false c)
    (hg : c.goalReached ss = true)
    (hlen : ∀ a, ss.timedAction = some a → 0 < c.instances.length)
    (hplan : plan.Perm (((List.range c.instances.length).filter fun j =>
      ss.timedAction ≠ some (c.actionOf j)).map (entryOf ss c ids τ))) :
    ((withTimedAction ss plan).flatMap (PlanEntry.events ss)).Perm
      (c.fired.map fun q => (entryOf ss c ids τ q.1, q.2)) := by
  have hidle := isEmpty_entries_iff.mp (Bool.and_eq_true_iff.mp hg).1
  have hentries := withTimedAction_perm hlen (fun a ha j hj => timed_iff hr ha hj) hplan
  refine (hentries.flatMap_right _).trans ?_
  refine List.Perm.trans (List.Perm.of_eq ?_)
    ((fired_perm hr.progress hr.wellFormed hidle).symm.map _)
  rw [List.flatMap_map, List.map_flatMap]
  congr 1
  funext j
  rw [PlanEntry.events, entryOf_action, List.map_map]
  rfl

/-- A plan read off a placement of the path is valid in every order. -/
theorem validExecution_of_placed {τ : Timepoint → ℚ} {plan : List PlanEntry}
    {l : List (PlanEntry × ℕ)} (hr : Config.Reachable ss false c)
    (htr : Trace ss (c.fired.map c.label) c.assignments c.active) (hg : c.goalReached ss = true)
    (h : PlanPlaced ss c ids τ) (hlen : ∀ a, ss.timedAction = some a → 0 < c.instances.length)
    (hε : 0 < ss.epsilon) (hnest : Nested ss) (hw : c.WritersOrdered ss)
    (hplan : plan.Perm (((List.range c.instances.length).filter fun j =>
      ss.timedAction ≠ some (c.actionOf j)).map (entryOf ss c ids τ)))
    (hperm : l.Perm ((withTimedAction ss plan).flatMap (PlanEntry.events ss)))
    (hsort : l.Pairwise fun x y => eventTime ss x ≤ eventTime ss y) : ValidExecution ss plan l := by
  have hwf := hr.wellFormed
  have hp := hr.progress
  obtain ⟨hempty, hgoal⟩ := Bool.and_eq_true_iff.mp hg
  have hidle := isEmpty_entries_iff.mp hempty
  have hfirst : ∀ a, ss.timedAction = some a →
      ∀ j < c.instances.length, c.actionOf j = a ↔ j = 0 := fun a ha j hj => timed_iff hr ha hj
  have hentries := withTimedAction_perm hlen hfirst hplan
  have hitems := hperm.trans (events_perm hr hg hlen hplan)
  obtain ⟨m, hm, rfl⟩ := exists_perm_map hitems
  have htime : ∀ q : ℕ × ℕ, q.1 < c.instances.length → (ss.event (c.actionOf q.1) q.2).isSome →
      eventTime ss (entryOf ss c ids τ q.1, q.2) =
        τ (point c ids q) - if ss.timedAction.isSome then τ .startPlan else 0 :=
    fun q hj hs => entryOf_time h hfirst hj hs
  have hre : Reordered ss c (fun q => eventTime ss (entryOf ss c ids τ q.1, q.2)) m := by
    rw [List.pairwise_map] at hsort
    refine ⟨hε, h.ordered.imp_of_mem fun {q r} hq hr hf => ?_, hm, hsort⟩
    have hfq := hwf.fired q hq
    have hfr := hwf.fired r hr
    simp only [PlanFollows, htime q hfq.1 hfq.2, htime r hfr.1 hfr.2]
    exact ⟨fun hm => by linarith [hf.1 hm], fun hp => by linarith [hf.2 hp]⟩
  have hlabel : ∀ q : List (ℕ × ℕ), (q.map fun q => (entryOf ss c ids τ q.1, q.2)).map
      (fun x : PlanEntry × ℕ => (x.1.action, x.2)) = q.map c.label := by
    intro q
    rw [List.map_map]
    apply List.map_congr_left
    intro x _
    simp only [Function.comp_apply, entryOf_action, Config.label]
  intro p r hsplit
  obtain ⟨p', r', rfl, rfl, rfl⟩ := List.map_eq_append_iff.mp hsplit
  obtain ⟨a, ha, -⟩ := hre.execute hp htr
  refine ⟨a, by rw [hlabel]; exact ha, fun e he x hreq => ?_, fun hr' => ?_⟩
  · obtain ⟨j, hj, rfl⟩ := List.mem_map.mp (hentries.mem_iff.mp he)
    rw [entryOf_action, List.getLast?_map, List.head?_map, Option.map_map, Option.map_map] at hreq
    have hrun : ¬ c.Running j := by
      intro hrun
      obtain ⟨k, hl⟩ := hrun
      rw [hidle] at hl
      contradiction
    exact hre.holds_interval hp hwf htr hnest hw
      (fun k hs => (hp.done j (List.mem_range.mp hj) hrun k).mpr hs) (List.mem_range.mp hj) hreq ha
  · obtain rfl : r' = [] := List.map_eq_nil_iff.mp hr'
    have hre' : Reordered ss c (fun q => eventTime ss (entryOf ss c ids τ q.1, q.2)) p' := by
      simpa using hre
    rw [holds_congr fun f _ => hre'.getValue_final hp htr ha f]
    exact hgoal

/-- In a problem without durations the plan is the path itself. -/
theorem validExecution_of_sequence {path : List Action} {l : List (PlanEntry × ℕ)}
    (ht : ¬ ss.isTemporal = true) (htr : Trace ss (c.fired.map c.label) c.assignments c.active)
    (hg : c.goalReached ss = true) (hnest : Nested ss)
    (hpath : c.fired.map c.label = path.map fun a => (a, 0))
    (hev : ∀ a ∈ path, ∃ le, ss.events a = some le)
    (hl : l = (path.map fun a => (⟨none, a, none⟩ : PlanEntry)).flatMap (PlanEntry.events ss)) :
    ValidExecution ss (path.map fun a => ⟨none, a, none⟩) l := by
  have hitems : l = path.map fun a => (⟨none, a, none⟩, 0) := by
    rw [hl, List.flatMap_map, List.map_eq_flatMap]
    apply List.flatMap_congr
    intro a ha
    obtain ⟨le, hle⟩ := hev a ha
    simp [PlanEntry.events, hle, length_eq_one_of_not_temporal ht hle]
  intro p r hsplit
  rw [hitems] at hsplit
  obtain ⟨p', r', hpr, rfl, rfl⟩ := List.map_eq_append_iff.mp hsplit
  have hlabels : c.fired.map c.label = p'.map (fun a => (a, 0)) ++ r'.map fun a => (a, 0) := by
    rw [hpath, hpr, List.map_append]
  rw [hlabels] at htr
  obtain ⟨a, active, hp'⟩ := htr.of_append
  refine ⟨a, ?_, fun e he x hreq => ?_, fun hr => ?_⟩
  · rw [List.map_map]
    exact hp'.execute_eq
  · rw [withTimedAction, timedAction_of_not_temporal ht] at he
    obtain ⟨b, hb, rfl⟩ := List.mem_map.mp he
    obtain ⟨le, hle⟩ := hev b hb
    have hta : ss.timedAction ≠ some b := by simp [timedAction_of_not_temporal ht]
    have hzero : ∀ next, openedBy ss x b (PlanEntry.time ss ⟨none, b, none⟩) next = 0 :=
      fun next => Finset.sum_eq_zero fun k _ =>
        opens_eq_zero hnest hle (length_eq_one_of_not_temporal ht hle) hta x k
    rw [hzero] at hreq
    exact absurd hreq (Nat.not_lt_zero _)
  · obtain rfl : r' = [] := List.map_eq_nil_iff.mp hr
    rw [List.map_nil, List.append_nil] at htr
    have heq := htr.execute_eq
    obtain rfl := Option.some.inj (hp'.execute_eq.symm.trans heq)
    exact (Bool.and_eq_true_iff.mp hg).2

/-- Rebuilding a plan replays the path, and every schedule of the path solves
its network. -/
theorem exists_planState {as : List Action} (hx : tn.Exact) (ht : ss.isTemporal = true)
    (hc₀ : Config.initial ss = some c₀) (hrun : c₀.run ss as = some c) (hsch : Schedulable ss c)
    (counter : ℕ) : ∃ p ids, ss.planState tn counter c.actions = some p ∧ Rebuilds ss p c ids ∧
      Consistent p.network := by
  have hwf₀ := Config.wellFormed_initial hc₀
  have hc : c₀.runWith ss false as = some c := by rw [Config.runWith_false]; exact hrun
  obtain ⟨s₁, ids₁, hs₁, -⟩ := initial_of_config counter hc₀
    ((hsch.of_runWith hwf₀ hc).acceptable hx hwf₀)
  obtain ⟨p₀, ids₂, hp₀, hreb₀⟩ := rebuilds_initial as hs₁ hc₀
  obtain ⟨p, ids, hp, hreb⟩ := hreb₀.run hx hwf₀ hrun hsch
  refine ⟨p, ids, ?_, hreb, ?_⟩
  · rw [SearchSpace.planState, actions_run hwf₀ hrun, hp₀]
    exact hp
  · obtain ⟨τ, hτ⟩ := (exists_placed_iff (hwf₀.run hrun) hreb.nodup hreb.length).mpr (hsch ht)
    exact ⟨τ, hreb.complete τ hτ⟩

theorem buildPlan_of_planState {counter : ℕ} {path : List Action} (ht : ss.isTemporal = true)
    (h : ss.planState tn counter path = some p) (hreb : Rebuilds ss p c ids) :
    ∃ plan, ss.buildPlan tn counter path = some plan ∧
      plan.Perm (((List.range c.instances.length).filter fun j =>
        ss.timedAction ≠ some (c.actionOf j)).map
          (entryOf ss c ids fun v => -tn.distances p.network v)) := by
  refine ⟨(ss.planEntries (tn.distances p.network) p.opened).mergeSort fun e e' =>
    e.start.getD 0 < e'.start.getD 0 || (e.start.getD 0 = e'.start.getD 0 &&
      e.action.idx ≤ e'.action.idx), ?_, ?_⟩
  · obtain ⟨q, hq, hp⟩ := Option.bind_eq_some_iff.mp h
    rw [SearchSpace.buildPlan, if_pos ht, hq]
    simp only [Option.bind_eq_bind, Option.bind_some, hp]
    rfl
  · rw [← planEntries_eq hreb]
    exact List.mergeSort_perm _ _

theorem exists_buildPlan {as : List Action} (hx : tn.Exact) (ht : ss.isTemporal = true)
    (hc₀ : Config.initial ss = some c₀) (hrun : c₀.run ss as = some c) (hsch : Schedulable ss c)
    (counter : ℕ) : ∃ p ids, Rebuilds ss p c ids ∧ Consistent p.network ∧
      ∃ plan, ss.buildPlan tn counter c.actions = some plan ∧
        plan.Perm (((List.range c.instances.length).filter fun j =>
          ss.timedAction ≠ some (c.actionOf j)).map
            (entryOf ss c ids fun v => -tn.distances p.network v)) := by
  obtain ⟨p, ids, hp, hreb, hcons⟩ := exists_planState hx ht hc₀ hrun hsch counter
  exact ⟨p, ids, hreb, hcons, buildPlan_of_planState ht hp hreb⟩

/-- The plan rebuilt from an accepted path is valid in every order of its
events' times, if events that touch an interval condition while it is open are
mutex. -/
theorem build_plan_valid (hx : tn.Exact) {n m : ℕ} {s₀ s : State} {as : List Action}
    (h₀ : ss.initial tn n = some s₀) (hr : Run ss tn false s₀ (initialCounter ss n) as s m)
    (hg : ss.goalReached s = true) (hε : 0 < ss.epsilon) (hnest : Nested ss)
    (hw : ∀ c₀ c, Config.initial ss = some c₀ → c₀.run ss as = some c → c.WritersOrdered ss)
    (counter : ℕ) : ∃ plan, ss.buildPlan tn counter (s.path.map Prod.fst) = some plan ∧
      ∀ l, Linearises ss plan l → ValidExecution ss plan l := by
  obtain ⟨c₀, c, ids, hc₀, hc, href, hsch⟩ := config_of_run hx h₀ hr
  have hreach : Config.Reachable ss false c := ⟨c₀, as, hc₀, hc⟩
  have hwf := hreach.wellFormed
  have hrun : c₀.run ss as = some c := by rwa [Config.runWith_false] at hc
  have htr := trace_run hc₀ hrun
  have hgc : c.goalReached ss = true := href.goalReached_eq ▸ hg
  by_cases ht : ss.isTemporal = true
  · obtain ⟨p, ids₃, hreb, hcons, plan, hplan, hperm⟩ :=
      exists_buildPlan hx ht hc₀ hrun hsch counter
    have hplaced := hreb.sound _ (hx.solves _ hcons)
    refine ⟨plan, by rw [href.path]; exact hplan, fun l hl => ?_⟩
    rw [Linearises, if_pos ht] at hl
    exact validExecution_of_placed hreach htr hgc hplaced hreb.timed hε hnest
      (hw c₀ c hc₀ hrun) hperm hl.1 hl.2
  · refine ⟨_, by rw [SearchSpace.buildPlan, if_neg ht], fun l hl => ?_⟩
    rw [Linearises, if_neg ht] at hl
    have hzero : ∀ p ∈ c.fired, p.2 = 0 ∧ ∃ le, ss.events (c.actionOf p.1) = some le := by
      intro p hp
      obtain ⟨te, hte⟩ := Option.isSome_iff_exists.mp (hwf.fired p hp).2
      obtain ⟨le, hle, hk⟩ := Option.bind_eq_some_iff.mp hte
      have hlen := length_eq_one_of_not_temporal ht hle
      have hlt := (List.getElem?_eq_some_iff.mp hk).1
      exact ⟨by omega, le, hle⟩
    refine validExecution_of_sequence ht htr hgc hnest ?_ ?_ hl
    · rw [href.path, Config.actions, List.map_map]
      apply List.map_congr_left
      intro p hp
      simp only [Config.label, Function.comp_apply, (hzero p hp).1]
    · intro a ha
      rw [href.path] at ha
      obtain ⟨p, hp, rfl⟩ := List.mem_map.mp ha
      exact (hzero p hp).2

end Validity

section Relay

attribute [local instance] Callables.empty

def eitherTrue : Expression := [.fluent ⟨0⟩, .fluent ⟨1⟩, .operator .or [0, 1]]

/-- An action that lasts 1 and needs one of two fluents to be true throughout,
and three actions by which the second fluent takes over from the first. -/
def relay : SearchSpace :=
  .ofTable [(some ⟨[.constant (.num 1)], [.constant (.num 1)], false, false⟩,
      [(⟨true, 0⟩, ⟨⟨0⟩, 0, [.constant (.bool true)], [eitherTrue], [], []⟩),
        (⟨false, 0⟩, ⟨⟨0⟩, 1, [.constant (.bool true)], [], [eitherTrue], []⟩)]),
    (none, [(⟨true, 0⟩, ⟨⟨1⟩, 0, [.constant (.bool true)], [], [], [⟨⟨2⟩, [.constant (.bool true)]⟩]⟩)]),
    (none, [(⟨true, 0⟩, ⟨⟨2⟩, 0, [.fluent ⟨2⟩], [], [], [⟨⟨1⟩, [.constant (.bool true)]⟩]⟩)]),
    (none, [(⟨true, 0⟩, ⟨⟨3⟩, 0, [.constant (.bool true)], [], [], [⟨⟨0⟩, [.constant (.bool false)]⟩]⟩)])]
    [.bool true, .bool false, .bool false] [.fluent ⟨1⟩]

def relayStart : Config := ⟨[.bool true, .bool false, .bool false], ∅, 0, [], []⟩

/-- The second fluent is true before the first one stops to be. -/
def relayRun : Config :=
  ⟨[.bool false, .bool true, .bool true], ∅, 0,
    [⟨⟨0⟩, 1, 1, false⟩, ⟨⟨1⟩, 0, 0, false⟩, ⟨⟨2⟩, 0, 0, false⟩, ⟨⟨3⟩, 0, 0, false⟩],
    [(0, 0), (1, 0), (2, 0), (3, 0), (0, 1)]⟩

theorem relay_run : relayStart.run relay [⟨0⟩, ⟨1⟩, ⟨2⟩, ⟨3⟩, ⟨0⟩] = some relayRun := rfl

theorem relayRun_reachable : Config.Reachable relay false relayRun :=
  ⟨relayStart, [⟨0⟩, ⟨1⟩, ⟨2⟩, ⟨3⟩, ⟨0⟩], rfl, rfl⟩

def relaySchedule : Schedule := fun j => if j = 0 then (0, 1) else if j = 1 then (0, 0)
  else (1 / 100, 1 / 100)

theorem relaySchedule_valid :
    Schedule.Valid relay relayRun relaySchedule ∧ Schedule.MeetsDeadline relay relayRun relaySchedule := by
  decide +kernel

/-- The run without its last event but one. -/
def relayShort : Config :=
  ⟨[.bool true, .bool true, .bool true], ∅, 0,
    [⟨⟨0⟩, 1, 1, false⟩, ⟨⟨1⟩, 0, 0, false⟩, ⟨⟨2⟩, 0, 0, false⟩],
    [(0, 0), (1, 0), (2, 0), (0, 1)]⟩

theorem relay_short : relayStart.run relay [⟨0⟩, ⟨1⟩, ⟨2⟩, ⟨0⟩] = some relayShort := rfl

theorem relay_nested : Nested relay := by
  intro a le hle k
  obtain ⟨i⟩ := a
  have hk : k = 0 ∨ k = 1 ∨ ∃ n, k = n + 2 := by
    rcases k with _ | _ | n
    · exact .inl rfl
    · exact .inr (.inl rfl)
    · exact .inr (.inr ⟨n, rfl⟩)
  match i with
  | 0 | 1 | 2 | 3 =>
    obtain rfl := Option.some.inj hle
    obtain rfl | rfl | ⟨n, rfl⟩ := hk
    · decide
    · decide
    · simp only [numbered, List.mapIdx_cons, List.take_succ_cons, List.mapIdx_nil, List.take_nil]
      decide
  | n + 4 => simp [relay, SearchSpace.ofTable] at hle

theorem build_plan_valid_relay : ∃ s₀ s m, relay.initial .earliest 0 = some s₀ ∧
    Run relay .earliest false s₀ (initialCounter relay 0) [⟨0⟩, ⟨1⟩, ⟨2⟩, ⟨0⟩] s m ∧
    ∀ counter, ∃ plan, relay.buildPlan .earliest counter (s.path.map Prod.fst) = some plan ∧
      ∀ l, Linearises relay plan l → ValidExecution relay plan l := by
  have hx := DeltaSimpleTemporalNetwork.earliest_exact
  have hsch : Schedulable relay relayShort := fun _ => ⟨relaySchedule, by decide +kernel⟩
  have hr : relayStart.runWith relay false [⟨0⟩, ⟨1⟩, ⟨2⟩, ⟨0⟩] = some relayShort := rfl
  obtain ⟨s₀, s, m, ids, h₀, hrun, href⟩ := exists_run hx rfl hr hsch 0
  have hg : relay.goalReached s = true := href.goalReached_eq.trans (by decide)
  have hw : relayShort.WritersOrdered relay := writersOrdered_of_pairwise (by decide +kernel)
  refine ⟨s₀, s, m, h₀, hrun, build_plan_valid hx h₀ hrun hg (by decide +kernel) relay_nested ?_⟩
  intro c₀ c hc₀ hc
  obtain rfl := Option.some.inj (hc₀.symm.trans (b := some relayStart) rfl)
  obtain rfl := Option.some.inj (hc.symm.trans relay_short)
  exact hw

/-- When the plan of the whole run puts its events. -/
theorem relay_times {p : PlanState} {ids : List ℕ} {τ : Timepoint → ℚ} {t : ℕ × ℕ → ℚ}
    (hτ : τ = fun v => -DeltaSimpleTemporalNetwork.earliest.distances p.network v)
    (hreb : Rebuilds relay p relayRun ids) (hcons : Consistent p.network)
    (htq : ∀ q, t q = eventTime relay (entryOf relay relayRun ids τ q.1, q.2)) :
    t (0, 0) = 0 ∧ t (1, 0) = 0 ∧ t (2, 0) = 1 / 100 ∧ 0 ≤ t (3, 0) ∧ t (3, 0) ≤ 1 / 100 ∧
      t (0, 1) = 1 := by
  have hx := DeltaSimpleTemporalNetwork.earliest_exact
  have hreach := relayRun_reachable
  have hwf := hreach.wellFormed
  obtain ⟨hv, hm⟩ := relaySchedule_valid
  obtain ⟨ρ, hρ, h0, -, htime⟩ := exists_placed_nonneg hwf hreach.progress hreb.nodup hreb.length
    (by decide +kernel) hv hm (by simp [relay, SearchSpace.ofTable])
  have hplaced := hreb.sound τ (hτ ▸ hx.solves _ hcons)
  have ht : ∀ q ∈ relayRun.fired, t q = τ (point relayRun ids q) := by
    intro q hq
    have hf := hwf.fired q hq
    rw [htq]
    exact (entryOf_time hplaced (fun a ha => by contradiction) hf.1 hf.2).trans (sub_zero _)
  have hbetween : ∀ q ∈ relayRun.fired, 0 ≤ t q ∧ t q ≤ Schedule.time relay relayRun relaySchedule q := by
    intro q hq
    have hf := hwf.fired q hq
    have hleast := hx.least p.network ρ (hreb.complete ρ hρ) h0 (point relayRun ids q)
    have hnonneg := hx.nonneg p.network (point relayRun ids q) hcons
    rw [htime q hf.1 hf.2] at hleast
    rw [ht q hq, hτ]
    exact ⟨hnonneg, hleast⟩
  obtain ⟨hA, hA'⟩ := hbetween (0, 0) (by decide)
  obtain ⟨hD, hD'⟩ := hbetween (1, 0) (by decide)
  obtain ⟨hB, hB'⟩ := hbetween (2, 0) (by decide)
  obtain ⟨hC, hC'⟩ := hbetween (3, 0) (by decide)
  obtain ⟨hE, hE'⟩ := hbetween (0, 1) (by decide)
  have htA : Schedule.time relay relayRun relaySchedule (0, 0) = 0 := by decide +kernel
  have htD : Schedule.time relay relayRun relaySchedule (1, 0) = 0 := by decide +kernel
  have htB : Schedule.time relay relayRun relaySchedule (2, 0) = 1 / 100 := by decide +kernel
  have htC : Schedule.time relay relayRun relaySchedule (3, 0) = 1 / 100 := by decide +kernel
  have htE : Schedule.time relay relayRun relaySchedule (0, 1) = 1 := by decide +kernel
  have hgap : t (1, 0) + 1 / 100 ≤ t (2, 0) := by
    rw [ht (1, 0) (by decide), ht (2, 0) (by decide)]
    have hord := hplaced.ordered
    simp only [relayRun, List.pairwise_cons] at hord
    exact (hord.2.1 (2, 0) (by simp)).1 (by decide)
  have hlast : t (0, 0) + 1 ≤ t (0, 1) := by
    rw [ht (0, 0) (by decide), ht (0, 1) (by decide), hplaced.rigid 0 (by decide) (k := 0) rfl,
      hplaced.rigid 0 (by decide) (k := 1) rfl]
    have hb := (hplaced.bounds 0 _ rfl).1
    simp only [add_zero]
    linarith
  rw [htA] at hA'
  rw [htD] at hD'
  rw [htB] at hB'
  rw [htC] at hC'
  rw [htE] at hE'
  exact ⟨le_antisymm hA' hA, le_antisymm hD' hD, by linarith, hC, hC', by linarith⟩

theorem relay_openedBy (time : ℕ → ℚ) (u : ℚ) :
    openedBy relay eitherTrue ⟨0⟩ time (some u) = if time 0 < u then 1 else 0 := by
  have hlen : ((relay.events ⟨0⟩).getD []).length = 2 := rfl
  have h0 : opens relay eitherTrue (⟨0⟩, 0) = 1 := by decide
  have h1 : opens relay eitherTrue (⟨0⟩, 1) = 0 := by decide
  simp [openedBy, hlen, Finset.sum_filter, Finset.sum_range_succ, h0, h1]

theorem relay_closedBy (time : ℕ → ℚ) (u : ℚ) :
    closedBy relay eitherTrue ⟨0⟩ time (some u) = if time 1 ≤ u then 1 else 0 := by
  have hlen : ((relay.events ⟨0⟩).getD []).length = 2 := rfl
  have h0 : closes relay eitherTrue (⟨0⟩, 0) = 0 := by decide
  have h1 : closes relay eitherTrue (⟨0⟩, 1) = 1 := by decide
  simp [closedBy, hlen, Finset.sum_filter, Finset.sum_range_succ, h0, h1]

/-- The plan lets the first fluent turn false before the second turns true. -/
theorem build_plan_not_valid : ¬ ∀ n s₀ as s m, relay.initial .earliest n = some s₀ →
    Run relay .earliest false s₀ (initialCounter relay n) as s m → relay.goalReached s = true →
    ∀ counter, ∃ plan, relay.buildPlan .earliest counter (s.path.map Prod.fst) = some plan ∧
      ∀ l, Linearises relay plan l → ValidExecution relay plan l := by
  intro h
  have hx := DeltaSimpleTemporalNetwork.earliest_exact
  have hsch : Schedulable relay relayRun := fun _ => ⟨_, relaySchedule_valid⟩
  have hr : relayStart.runWith relay false [⟨0⟩, ⟨1⟩, ⟨2⟩, ⟨3⟩, ⟨0⟩] = some relayRun := rfl
  have hreach := relayRun_reachable
  obtain ⟨s₀, s, m, ids, h₀, hrun, href⟩ := exists_run hx rfl hr hsch 0
  have hg : relay.goalReached s = true := href.goalReached_eq.trans (by decide)
  obtain ⟨plan, hplan, hvalid⟩ := h 0 s₀ _ s m h₀ hrun hg 0
  obtain ⟨p, ids', hreb, hcons, plan', hplan', hperm⟩ :=
    exists_buildPlan hx (by decide) rfl relay_run hsch 0
  have hpath : s.path.map Prod.fst = relayRun.actions := href.path
  rw [hpath] at hplan
  obtain rfl := Option.some.inj (hplan.symm.trans hplan')
  obtain ⟨item, hitem⟩ : ∃ item, item = fun q : ℕ × ℕ => (entryOf relay relayRun ids'
    (fun v => -DeltaSimpleTemporalNetwork.earliest.distances p.network v) q.1, q.2) := ⟨_, rfl⟩
  have hlabel : (fun x : PlanEntry × ℕ => (x.1.action, x.2)) ∘ item = relayRun.label := by
    funext q
    simp only [Function.comp_apply, hitem, entryOf_action, Config.label]
  obtain ⟨hA, hD, hB, hC, hC', hE⟩ := relay_times (t := fun q => eventTime relay (item q)) rfl hreb
    hcons fun q => by rw [hitem]
  have hlen : ∀ a, relay.timedAction = some a → 0 < relayRun.instances.length := fun _ _ => by decide
  have hnone : ∀ a, relay.timedAction = some a →
      ∀ j < relayRun.instances.length, relayRun.actionOf j = a ↔ j = 0 := fun a ha => by contradiction
  have hlin : Linearises relay plan ([(0, 0), (1, 0), (3, 0), (2, 0), (0, 1)].map item) := by
    rw [Linearises, if_pos (by decide)]
    constructor
    · refine List.Perm.trans ?_ (events_perm hreach (by decide) hlen hperm).symm
      rw [hitem]
      apply List.Perm.map
      decide
    · simp only [List.map_cons, List.map_nil, List.pairwise_cons, List.mem_cons, List.not_mem_nil,
        or_false, forall_eq_or_imp, forall_eq, hA, hD, hB, hE, false_implies, implies_true,
        List.Pairwise.nil, and_true]
      and_intros <;> linarith
  obtain ⟨a, ha, hint, -⟩ := hvalid _ hlin ([(0, 0), (1, 0), (3, 0)].map item)
    ([(2, 0), (0, 1)].map item) rfl
  have hmem : (item (0, 0)).1 ∈ withTimedAction relay plan := by
    rw [(withTimedAction_perm hlen hnone hperm).mem_iff, hitem]
    exact List.mem_map_of_mem (by decide)
  have haction : (item (0, 0)).1.action = ⟨0⟩ := congrArg Prod.fst (congrFun hlabel (0, 0))
  have hstart : (item (0, 0)).1.time relay 0 = 0 := by
    rw [← hA, hitem]
    rfl
  have hend : (item (0, 0)).1.time relay 1 = 1 := by
    rw [← hE, hitem]
    rfl
  have hrequired := hint _ hmem eitherTrue
  rw [haction, List.map_cons, List.map_cons, List.map_cons, List.map_nil, List.map_cons,
    List.getLast?_cons_cons, List.getLast?_cons_cons, List.getLast?_singleton, List.head?_cons,
    Option.map_some, Option.map_some, relay_openedBy, relay_closedBy, hstart, hend, hB,
    if_neg (by linarith), if_pos (by norm_num)] at hrequired
  have hfalse : execute relay [(⟨0⟩, 0), (⟨1⟩, 0), (⟨3⟩, 0)] =
    some [.bool false, .bool false, .bool true] := rfl
  rw [List.map_map, hlabel] at ha
  obtain rfl := Option.some.inj (ha.symm.trans hfalse)
  exact absurd (hrequired Nat.one_pos) (by decide)

end Relay

end TamerLite
