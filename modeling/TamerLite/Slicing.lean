import TamerLite.ClosedConditions

/-! Leaving actions out of a sequence of events: where those left out write nothing
that the others read, the rest runs and has a schedule as before. -/

namespace TamerLite

open Difference SearchSpace

/-- What it takes to leave out the actions of `as` that are not kept: `F` holds what the others and the
goal read, and nothing that is left out writes to it. A kept effect may read more if it writes outside of
`F` and has a value in every state. -/
structure Sliceable [Callables] (ss : SearchSpace) (F : Set Fluent) (keep : Action → Bool)
    (P : Assignments → Prop) (as : List Action) : Prop where
  timed : ∀ a, ss.timedAction = some a → keep a = true
  nested : ∀ a le, ss.events a = some le → NestedEvents le
  symmetry : ∀ done a, ss.symmetryAllowsOpening done a = true
  conditions : ∀ a le, keep a = true → ss.events a = some le → ∀ te ∈ le,
    ∀ x ∈ te.2.conditions :: te.2.startConditions, ∀ f ∈ getFluents x, f ∈ F
  duration : ∀ a d, keep a = true → ss.duration a = some d →
    ∀ x ∈ [d.lower, d.upper], ∀ f ∈ getFluents x, f ∈ F
  effects : ∀ a ∈ as, keep a = true → ∀ le, ss.events a = some le → ∀ te ∈ le, ∀ eff ∈ te.2.effects,
    (∀ f ∈ getFluents eff.value, f ∈ F) ∨
      eff.fluent ∉ F ∧ ∀ assignments, P assignments → ∃ v, evaluate eff.value assignments = some v
  left : ∀ a ∈ as, keep a = false → ∀ le, ss.events a = some le →
    ∀ te ∈ le, ∀ eff ∈ te.2.effects, eff.fluent ∉ F
  goal : ∀ f ∈ getFluents ss.goal, f ∈ F

/-- The configuration `c'` is `c` without the actions left out; `ρ` gives an instance of `c'` its
place in `c`. -/
structure Slice (F : Set Fluent) (keep : Action → Bool) (ρ : ℕ → ℕ) (c c' : Config) : Prop where
  agree : ∀ f ∈ F, getValue c'.assignments f = getValue c.assignments f
  running : ∀ {a k j}, c'.todo.lookup a = some (k, j) → keep a = true ∧ c.todo.lookup a = some (k, ρ j)
  idle : ∀ {a}, keep a = true → c'.todo.lookup a = none → c.todo.lookup a = none
  instances : ∀ {j i}, c'.instances[j]? = some i → c.instances[ρ j]? = some i
  fired : (c'.fired.map fun p => (ρ p.1, p.2)).Sublist c.fired
  active : ∀ x ∈ c'.active, ∀ f ∈ getFluents x, f ∈ F

variable {ss : SearchSpace} {F : Set Fluent} {keep : Action → Bool} {ρ : ℕ → ℕ} {c c' d : Config}
  {a : Action}

theorem Slice.actionOf_eq (hs : Slice F keep ρ c c') {j : ℕ} (hj : j < c'.instances.length) :
    c.actionOf (ρ j) = c'.actionOf j := by
  have hi := List.getElem?_eq_getElem hj
  rw [Config.actionOf_eq hi, Config.actionOf_eq (hs.instances hi)]

section Active

/-- The events that running actions have fired, by action and next event. -/
def runningEvents (todo : AList (fun _ : Action => ℕ × ℕ)) : Multiset (Action × ℕ) :=
  Multiset.ofList (todo.entries.map fun p => (p.1, p.2.1))

theorem firedConditions_eq_sum {g : Event → List Expression} {todo : AList (fun _ : Action => ℕ × ℕ)} :
    firedConditions ss g todo = ((runningEvents todo).map fun q => conditionsBefore ss g q.1 q.2).sum := by
  rw [firedConditions, runningEvents, Multiset.map_coe, Multiset.sum_coe, List.map_map]
  rfl

theorem mem_runningEvents {todo : AList (fun _ : Action => ℕ × ℕ)} {a : Action} {k : ℕ} :
    (a, k) ∈ runningEvents todo ↔ ∃ j, todo.lookup a = some (k, j) := by
  rw [runningEvents, Multiset.mem_coe, List.mem_map]
  constructor
  · rintro ⟨⟨b, k', j⟩, hmem, heq⟩
    obtain ⟨rfl, rfl⟩ := Prod.mk.inj heq
    exact ⟨j, AList.mem_lookup_iff.mpr hmem⟩
  · rintro ⟨j, hl⟩
    exact ⟨⟨a, k, j⟩, AList.mem_lookup_iff.mp hl, rfl⟩

theorem nodup_runningEvents (todo : AList (fun _ : Action => ℕ × ℕ)) : (runningEvents todo).Nodup := by
  rw [runningEvents, Multiset.coe_nodup]
  refine List.Nodup.of_map Prod.fst ?_
  rw [List.map_map]
  exact todo.nodupKeys

/-- Nothing is active without an action that is not active with it. -/
theorem Slice.active_le (hs : Slice F keep ρ c c') (hb : Balanced ss c) (hb' : Balanced ss c')
    (hn : ∀ a le, ss.events a = some le → NestedEvents le)
    (ht : ∀ a, ss.timedAction = some a → keep a = true) : c'.active ≤ c.active := by
  have hle : runningEvents c'.todo ≤ runningEvents c.todo := by
    refine (Multiset.le_iff_subset (nodup_runningEvents _)).mpr ?_
    rintro ⟨b, k⟩ hmem
    obtain ⟨j, hl⟩ := mem_runningEvents.mp hmem
    exact mem_runningEvents.mpr ⟨ρ j, (hs.running hl).2⟩
  obtain ⟨left, hleft⟩ := Multiset.le_iff_exists_add.mp hle
  have hclosed : (left.map fun q => conditionsBefore ss Event.endConditions q.1 q.2).sum ≤
      (left.map fun q => conditionsBefore ss Event.startConditions q.1 q.2).sum := by
    refine Multiset.sum_map_le_sum_map _ _ fun q _ => ?_
    cases hle : ss.events q.1 with
    | none => simp [conditionsBefore, hle]
    | some le =>
      have := (hn q.1 le hle).closed_le q.2
      simpa [conditionsBefore, hle, opened, closed] using this
  have htimed : ∀ g, timedFired ss g c'.todo = timedFired ss g c.todo := by
    intro g
    rw [timedFired, timedFired]
    cases hta : ss.timedAction with
    | none => rfl
    | some b =>
      have hnone : (c'.todo.lookup b).isNone = (c.todo.lookup b).isNone := by
        cases hl : c'.todo.lookup b with
        | none => rw [hs.idle (ht b hta) hl]
        | some p => rw [(hs.running hl).2]; rfl
      simp only [hnone]
  have hacc := hb.active_add_fired
  have hacc' := hb'.active_add_fired
  simp only [htimed, firedConditions_eq_sum, hleft, Multiset.map_add, Multiset.sum_add] at hacc hacc'
  refine Multiset.le_iff_count.mpr fun x => ?_
  have hx := congrArg (Multiset.count x) hacc
  have hx' := congrArg (Multiset.count x) hacc'
  have hcount := Multiset.le_iff_count.mp hclosed x
  simp only [Multiset.count_add] at hx hx'
  omega

end Active

/-! ### Schedules -/

/-- The schedule that the rest takes over. -/
theorem Slice.valid [Callables] (hs : Slice F keep ρ c c') (hwf : c'.WellFormed ss) {σ : Schedule}
    (hv : Schedule.Valid ss c σ) : Schedule.Valid ss c' (fun j => σ (ρ j)) := by
  have htime : ∀ {p : ℕ × ℕ}, p.1 < c'.instances.length →
      Schedule.time ss c' (fun j => σ (ρ j)) p = Schedule.time ss c σ (ρ p.1, p.2) := by
    intro p hp
    simp only [Schedule.time, hs.actionOf_eq hp]
  have hfollows : ∀ {p q : ℕ × ℕ}, p.1 < c'.instances.length → q.1 < c'.instances.length →
      Follows (Schedule.mutex ss c) ss.epsilon (Schedule.time ss c σ) (ρ p.1, p.2) (ρ q.1, q.2) →
      Follows (Schedule.mutex ss c') ss.epsilon (Schedule.time ss c' fun j => σ (ρ j)) p q := by
    intro p q hp hq hfol
    simp only [Follows, Schedule.mutex, htime hp, htime hq, hs.actionOf_eq hp, hs.actionOf_eq hq] at hfol ⊢
    exact hfol
  refine ⟨fun j i hi => hv.bounds (ρ j) i (hs.instances hi),
    fun j i hi => hv.origin (ρ j) i (hs.instances hi),
    ?_, fun p hp q hq => ?_⟩
  · have hordered := List.pairwise_map.mp (hv.ordered.sublist hs.fired)
    exact hordered.imp_of_mem fun hp hq => hfollows (hwf.fired _ hp).1 (hwf.fired _ hq).1
  · refine hfollows (hwf.fired p hp).1 (Schedule.actionOf_pending hwf hq).1 (hv.pending _ ?_ _ ?_)
    · exact hs.fired.subset (List.mem_map_of_mem (f := fun p : ℕ × ℕ => (ρ p.1, p.2)) hp)
    · obtain ⟨b, k, i, hl, hk, hev⟩ := Schedule.mem_pending.mp hq
      exact Schedule.mem_pending.mpr ⟨b, k, i, (hs.running hl).2, hk, hev⟩

theorem Slice.schedulable [Callables] (hs : Slice F keep ρ c c') (hwf : c'.WellFormed ss)
    (h : Schedulable ss c) : Schedulable ss c' := by
  intro htemp
  obtain ⟨σ, hv, hdead⟩ := h htemp
  refine ⟨fun j => σ (ρ j), hs.valid hwf hv, fun dl hdl j hj => hdead dl hdl (ρ j) ?_⟩
  exact (List.getElem?_eq_some_iff.mp (hs.instances (List.getElem?_eq_getElem hj))).1

/-! ### Steps -/

section Steps

variable [Callables] {P : Assignments → Prop} {as : List Action}

/-- Effects keep two lists of values alike on `F`, if they read alike what they write there. -/
theorem applyEffects_agree {effs : List Effect} {old old' new new' values : Assignments}
    (happ : applyEffects effs old new = some values) (hagree : ∀ f ∈ F, getValue new' f = getValue new f)
    (heff : ∀ eff ∈ effs, evaluate eff.value old' = evaluate eff.value old ∨
      eff.fluent ∉ F ∧ ∃ v, evaluate eff.value old' = some v) :
    ∃ values', applyEffects effs old' new' = some values' ∧
      ∀ f ∈ F, getValue values' f = getValue values f := by
  induction effs generalizing new new' with
  | nil =>
    obtain rfl := Option.some.inj happ
    exact ⟨new', rfl, hagree⟩
  | cons eff effs ih =>
    obtain ⟨v, hv, happ⟩ := applyEffects_cons.mp happ
    obtain ⟨v', hv', hsame⟩ : ∃ v', evaluate eff.value old' = some v' ∧ (eff.fluent ∈ F → v' = v) := by
      rcases heff eff List.mem_cons_self with heq | ⟨hnot, v', hv'⟩
      · exact ⟨v, heq.trans hv, fun _ => rfl⟩
      · exact ⟨v', hv', fun hmem => absurd hmem hnot⟩
    have hset : ∀ f ∈ F, getValue (new'.set eff.fluent.idx v') f = getValue (new.set eff.fluent.idx v) f := by
      intro f hf
      rw [getValue_set, getValue_set, hagree f hf]
      split_ifs with heq
      · rw [hsame (heq ▸ hf)]
      · rfl
    obtain ⟨values', happ', hagree'⟩ := ih happ hset fun e he => heff e (List.mem_cons_of_mem eff he)
    exact ⟨values', applyEffects_cons.mpr ⟨v', hv', happ'⟩, hagree'⟩

/-- An event of a kept action fires as before. -/
theorem Slice.fire (hs : Slice F keep ρ c c') (hsl : Sliceable ss F keep P as) (hle : c'.active ≤ c.active)
    (hP : P c'.assignments) (ha : a ∈ as) (hkeep : keep a = true) {le : List (Timing × Event)}
    {te : Timing × Event}
    (hev : ss.events a = some le) (hte : te ∈ le) (hends : Multiset.ofList te.2.endConditions ≤ c'.active)
    {p : ℕ × ℕ} {todo : AList (fun _ : Action => ℕ × ℕ)} {instances : List Instance}
    (hf : c.fire te.2 p todo instances = some d) (p' : ℕ × ℕ) (todo' : AList (fun _ : Action => ℕ × ℕ))
    (instances' : List Instance) :
    ∃ values active, c'.fire te.2 p' todo' instances' =
        some ⟨values, todo', active, instances', c'.fired ++ [p']⟩ ∧
      (∀ f ∈ F, getValue values f = getValue d.assignments f) ∧
      ∀ x ∈ active, ∀ f ∈ getFluents x, f ∈ F := by
  obtain ⟨removed, values, hr, happ, hholds, rfl⟩ := Config.fire_eq_some.mp hf
  have hr' := removeAll_of_le hends
  have hremoved : removePresent te.2.endConditions c'.active ≤ removed := by
    have hadd := removeAll_add hr
    have hadd' := removeAll_add hr'
    rw [← hadd, ← hadd'] at hle
    exact le_of_add_le_add_right hle
  have heff : ∀ eff ∈ te.2.effects, evaluate eff.value c'.assignments = evaluate eff.value c.assignments ∨
      eff.fluent ∉ F ∧ ∃ v, evaluate eff.value c'.assignments = some v := by
    intro eff he
    rcases hsl.effects a ha hkeep le hev te hte eff he with hreads | ⟨hnot, hdef⟩
    · exact .inl (evaluate_congr fun f hf => hs.agree f (hreads f hf))
    · exact .inr ⟨hnot, hdef _ hP⟩
  obtain ⟨values', happ', hagree⟩ := applyEffects_agree happ hs.agree heff
  have hactive : ∀ x ∈ removePresent te.2.endConditions c'.active + ↑te.2.startConditions,
      ∀ f ∈ getFluents x, f ∈ F := by
    intro x hx
    rcases Multiset.mem_add.mp hx with hx | hx
    · exact hs.active x (Multiset.mem_of_le (removeAll_le hr') hx)
    · exact hsl.conditions a le hkeep hev te hte x (List.mem_cons_of_mem _ hx)
  refine ⟨values', _, Config.fire_eq_some.mpr ⟨_, values', hr', happ', fun x hx => ?_, rfl⟩, hagree, hactive⟩
  rw [holds_congr fun f hf => hagree f (hactive x hx f hf)]
  refine hholds x ?_
  rcases Multiset.mem_add.mp hx with hx | hx
  · exact Multiset.mem_add.mpr (.inl (Multiset.mem_of_le hremoved hx))
  · exact Multiset.mem_add.mpr (.inr hx)

/-- The step of a kept action. -/
theorem Slice.step (hs : Slice F keep ρ c c') (hsl : Sliceable ss F keep P as)
    (hwf' : c'.WellFormed ss) (hb : Balanced ss c) (hb' : Balanced ss c') (hP : P c'.assignments)
    (ha : a ∈ as) (hkeep : keep a = true) (hstep : c.step ss a = some d) :
    ∃ d' ρ', c'.step ss a = some d' ∧ Slice F keep ρ' d d' := by
  have hle := hs.active_le hb hb' hsl.nested hsl.timed
  have hcond : ∀ {le te}, ss.events a = some le → te ∈ le → holds te.2.conditions c.assignments = true →
      holds te.2.conditions c'.assignments = true := by
    intro le te hev hte hh
    rwa [holds_congr fun f hf => hs.agree f
      (hsl.conditions a le hkeep hev te hte _ List.mem_cons_self f hf)]
  rcases Config.step_eq_some.mp hstep with ⟨le, k, j, te, hev, hl, hte, hh, hf⟩ |
    ⟨le, te, b, hev, hl, ht, -, hte, hh, hdur, hf⟩
  · -- the next event of a running action
    obtain ⟨j', hl', rfl⟩ : ∃ j', c'.todo.lookup a = some (k, j') ∧ ρ j' = j := by
      cases hl' : c'.todo.lookup a with
      | none => cases (hs.idle hkeep hl').symm.trans hl
      | some p =>
        have hp := (hs.running hl').2.symm.trans hl
        obtain ⟨rfl, rfl⟩ := Prod.mk.inj (Option.some.inj hp)
        exact ⟨p.2, rfl, rfl⟩
    have hmem := List.mem_of_getElem? hte
    have hends : Multiset.ofList te.2.endConditions ≤ c'.active :=
      ((hsl.nested a le hev).ends_le hte).trans (hb'.openAt_le (fun a le _ hle => hsl.nested a le hle)
        (fun p _ le hle => hsl.nested p.1 le hle) hev hl')
    obtain ⟨values, active, hf', hagree, hactive⟩ := hs.fire hsl hle hP ha hkeep hev hmem hends hf (j', k)
      (Config.nextTodo c'.todo a le.length k j') c'.instances
    obtain ⟨removed, values₀, -, -, -, rfl⟩ := Config.fire_eq_some.mp hf
    refine ⟨_, ρ, Config.step_eq_some.mpr (.inl ⟨le, k, j', te, hev, hl', hte, hcond hev hmem hh, hf'⟩),
      ⟨hagree, fun {b k' i} hb => ?_, fun {b} hkb hb => ?_, hs.instances, ?_, hactive⟩⟩
    · rw [Config.lookup_nextTodo] at hb ⊢
      split_ifs at hb ⊢ with hba
      · obtain ⟨rfl, rfl⟩ := Prod.mk.inj (Option.some.inj hb)
        exact ⟨hba ▸ hkeep, rfl⟩
      · exact hs.running hb
    · rw [Config.lookup_nextTodo] at hb ⊢
      split_ifs at hb ⊢ with hba
      · rfl
      · exact hs.idle hkb hb
    · rw [List.map_append]
      exact hs.fired.append (List.Sublist.refl _)
  · -- a new instance
    have hl' : c'.todo.lookup a = none := by
      cases hl' : c'.todo.lookup a with
      | none => rfl
      | some p => cases (hs.running hl').2.symm.trans hl
    have hmem := List.mem_of_getElem? hte
    have hends : Multiset.ofList te.2.endConditions ≤ c'.active := by
      rw [(hsl.nested a le hev).first hte]
      exact Multiset.zero_le _
    have hdur' : ss.durationBounds a c'.assignments = some b := by
      rw [← hdur]
      cases hd : ss.duration a with
      | none => simp only [durationBounds, hd]
      | some dur =>
        have hread := hsl.duration a dur hkeep hd
        have hlower : evaluate dur.lower c'.assignments = evaluate dur.lower c.assignments :=
          evaluate_congr fun f hf => hs.agree f (hread _ List.mem_cons_self f hf)
        have hupper : evaluate dur.upper c'.assignments = evaluate dur.upper c.assignments :=
          evaluate_congr fun f hf => hs.agree f
            (hread _ (List.mem_cons_of_mem _ List.mem_cons_self) f hf)
        simp only [durationBounds, hd, evaluateBound, hlower, hupper]
    obtain ⟨values, active, hf', hagree, hactive⟩ := hs.fire hsl hle hP ha hkeep hev hmem hends hf
      (c'.instances.length, 0)
      (if 1 < le.length then c'.todo.insert a (1, c'.instances.length) else c'.todo)
      (c'.instances ++ [⟨a, b.1, b.2, false⟩])
    obtain ⟨removed, values₀, -, -, -, rfl⟩ := Config.fire_eq_some.mp hf
    let ρ' := Function.update ρ c'.instances.length c.instances.length
    have hnew : ρ' c'.instances.length = c.instances.length := Function.update_self ..
    have hold : ∀ {i}, i < c'.instances.length → ρ' i = ρ i := fun hi => Function.update_of_ne hi.ne ..
    refine ⟨_, ρ', Config.step_eq_some.mpr (.inr ⟨le, te, b, hev, hl', ht, hsl.symmetry _ a, hte,
      hcond hev hmem hh, hdur', hf'⟩), ⟨hagree, fun {b k' i} hb => ?_, fun {b} hkb hb => ?_,
      fun {i inst} hi => ?_, ?_, hactive⟩⟩
    · have hother : c'.todo.lookup b = some (k', i) →
          keep b = true ∧ c.todo.lookup b = some (k', ρ' i) := by
        intro hb
        rw [hold (hwf'.todo hb).1]
        exact hs.running hb
      rcases eq_or_ne b a with rfl | hne
      · split_ifs at hb ⊢ with hlen
        · rw [AList.lookup_insert] at hb ⊢
          obtain ⟨rfl, rfl⟩ := Prod.mk.inj (Option.some.inj hb)
          exact ⟨hkeep, by rw [hnew]⟩
        · exact hother hb
      · split_ifs at hb ⊢ with hlen
        · rw [AList.lookup_insert_ne hne] at hb ⊢
          exact hother hb
        · exact hother hb
    · split_ifs at hb ⊢ with hlen
      · rcases eq_or_ne b a with rfl | hne
        · rw [AList.lookup_insert] at hb
          cases hb
        · rw [AList.lookup_insert_ne hne] at hb ⊢
          exact hs.idle hkb hb
      · exact hs.idle hkb hb
    · rcases lt_or_ge i c'.instances.length with hlt | hge
      · rw [List.getElem?_append_left hlt] at hi
        rw [hold hlt]
        have hi' := hs.instances hi
        rw [List.getElem?_append_left (List.getElem?_eq_some_iff.mp hi').1]
        exact hi'
      · rw [List.getElem?_append_right hge] at hi
        obtain ⟨hzero, rfl⟩ := List.getElem?_eq_some_iff.mp hi
        obtain rfl : i = c'.instances.length := by
          rw [List.length_singleton] at hzero
          omega
        rw [hnew, List.getElem?_append_right le_rfl]
        simp
    · rw [List.map_append]
      refine List.Sublist.append ?_ ?_
      · have hmap : c'.fired.map (fun p => (ρ' p.1, p.2)) = c'.fired.map fun p => (ρ p.1, p.2) :=
          List.map_congr_left fun p hp => by rw [hold (hwf'.fired p hp).1]
        rw [hmap]
        exact hs.fired
      · simp only [List.map_cons, List.map_nil, hnew]
        exact List.Sublist.refl _

/-- The step of an action that is left out. -/
theorem Slice.skip (hs : Slice F keep ρ c c') (hsl : Sliceable ss F keep P as) (ha : a ∈ as)
    (hkeep : keep a = false) (hstep : c.step ss a = some d) : Slice F keep ρ d c' := by
  have hother : ∀ {b}, keep b = true → b ≠ a := by
    rintro b hb rfl
    cases hb.symm.trans hkeep
  have hwrites : ∀ {le : List (Timing × Event)} {k : ℕ} {te : Timing × Event} {values : Assignments},
      ss.events a = some le → le[k]? = some te →
      applyEffects te.2.effects c.assignments c.assignments = some values →
      ∀ f ∈ F, getValue c'.assignments f = getValue values f := by
    intro le k te values hev hte happ f hf
    rw [applyEffects_frame happ, hs.agree f hf]
    intro hmem
    obtain ⟨eff, he, rfl⟩ := List.mem_map.mp hmem
    exact hsl.left a ha hkeep le hev te (List.mem_of_getElem? hte) eff he hf
  rcases Config.step_eq_some.mp hstep with ⟨le, k, j, te, hev, hl, hte, -, hf⟩ |
    ⟨le, te, b, hev, hl, -, -, hte, -, -, hf⟩
  · obtain ⟨removed, values, -, happ, -, rfl⟩ := Config.fire_eq_some.mp hf
    refine ⟨hwrites hev hte happ, fun {b k' i} hb => ?_, fun {b} hkb hb => ?_, hs.instances,
      hs.fired.trans (List.sublist_append_left _ _), hs.active⟩
    · rw [Config.lookup_nextTodo, if_neg (hother (hs.running hb).1)]
      exact hs.running hb
    · rw [Config.lookup_nextTodo, if_neg (hother hkb)]
      exact hs.idle hkb hb
  · obtain ⟨removed, values, -, happ, -, rfl⟩ := Config.fire_eq_some.mp hf
    have hlookup : ∀ {b}, keep b = true → (if 1 < le.length then
        c.todo.insert a (1, c.instances.length) else c.todo).lookup b = c.todo.lookup b := by
      intro b hb
      split_ifs
      · exact AList.lookup_insert_ne (hother hb)
      · rfl
    refine ⟨hwrites hev hte happ, fun {b k' i} hb => ?_, fun {b} hkb hb => ?_, fun {j i} hi => ?_,
      hs.fired.trans (List.sublist_append_left _ _), hs.active⟩
    · rw [hlookup (hs.running hb).1]
      exact hs.running hb
    · rw [hlookup hkb]
      exact hs.idle hkb hb
    · have hi' := hs.instances hi
      rw [List.getElem?_append_left (List.getElem?_eq_some_iff.mp hi').1]
      exact hi'

/-- The initial configuration, whose timed action is kept. -/
theorem slice_initial (hsl : Sliceable ss F keep P as) (hc : Config.initial ss = some c) :
    Slice F keep id c c := by
  rcases Config.initial_eq_some.mp hc with ⟨-, rfl⟩ | ⟨b, le, te, bounds, ht, hev, hte, -, -, hf⟩
  · exact ⟨fun _ _ => rfl, fun hl => (by cases hl), fun _ h => h, fun h => h, by simp, by simp⟩
  · obtain ⟨removed, values, hr, -, -, rfl⟩ := Config.fire_eq_some.mp hf
    refine ⟨fun _ _ => rfl, fun {a k j} hl => ⟨?_, hl⟩, fun _ h => h, fun h => h, by simp, fun x hx => ?_⟩
    · rcases eq_or_ne a b with rfl | hne
      · exact hsl.timed a ht
      · simp only at hl
        split_ifs at hl
        · rw [AList.lookup_insert_ne hne] at hl
          cases hl
        · cases hl
    · rcases Multiset.mem_add.mp hx with hx | hx
      · exact absurd (Multiset.mem_of_le (removeAll_le hr) hx) (Multiset.notMem_zero x)
      · exact hsl.conditions b le (hsl.timed b ht) hev te (List.mem_of_getElem? hte) x
          (List.mem_cons_of_mem _ hx)

/-- Without the actions left out the sequence runs, to a configuration that agrees on what is read. -/
theorem Slice.run {bs : List Action} (hsl : Sliceable ss F keep P as)
    (hP : ∀ c, Config.Reachable ss false c → P c.assignments) (hs : Slice F keep ρ c c')
    (hr : Config.Reachable ss false c) (hr' : Config.Reachable ss false c') (hbs : ∀ a ∈ bs, a ∈ as)
    (hrun : c.run ss bs = some d) :
    ∃ d' ρ', c'.run ss (bs.filter keep) = some d' ∧ Slice F keep ρ' d d' := by
  have hreach : ∀ {c e : Config} {a : Action}, Config.Reachable ss false c → c.step ss a = some e →
      Config.Reachable ss false e := by
    rintro c e a ⟨c₀, cs, h₀, hcs⟩ hstep
    refine ⟨c₀, cs ++ [a], h₀, ?_⟩
    rw [Config.runWith_false] at hcs ⊢
    exact Config.run_concat.mpr ⟨c, hcs, hstep⟩
  induction bs generalizing c c' ρ with
  | nil =>
    obtain rfl := Option.some.inj hrun
    exact ⟨c', ρ, rfl, hs⟩
  | cons a bs ih =>
    obtain ⟨e, he, hrun⟩ := Config.run_cons.mp hrun
    have hrest : ∀ b ∈ bs, b ∈ as := fun b hb => hbs b (List.mem_cons_of_mem a hb)
    cases hkeep : keep a with
    | false =>
      rw [List.filter_cons_of_neg (by rw [hkeep]; exact Bool.false_ne_true)]
      exact ih (hs.skip hsl (hbs a List.mem_cons_self) hkeep he) (hreach hr he) hr' hrest hrun
    | true =>
      rw [List.filter_cons_of_pos hkeep]
      obtain ⟨e', ρ', he', hs'⟩ := hs.step hsl hr'.wellFormed hr.balanced hr'.balanced
        (hP c' hr') (hbs a List.mem_cons_self) hkeep he
      obtain ⟨d', ρ'', hd', hs''⟩ := ih hs' (hreach hr he) (hreach hr' he') hrest hrun
      exact ⟨d', ρ'', Config.run_cons.mpr ⟨e', he', hd'⟩, hs''⟩

/-- What is accepted is accepted without the actions left out. -/
theorem accepted_filter {tn : DeltaSimpleTemporalNetwork} (hx : tn.Exact) (hsl : Sliceable ss F keep P as)
    (hP : ∀ c, Config.Reachable ss false c → P c.assignments) (h : Accepted ss tn false as) :
    Accepted ss tn false (as.filter keep) := by
  obtain ⟨c₀, c, hc₀, hrun, hg, hsch⟩ := (accepted_iff hx).mp h
  have hr₀ : Config.Reachable ss false c₀ := ⟨c₀, [], hc₀, rfl⟩
  obtain ⟨c', ρ, hrun', hs⟩ := (slice_initial hsl hc₀).run hsl hP hr₀ hr₀ (fun _ => id) hrun
  refine (accepted_iff hx).mpr ⟨c₀, c', hc₀, hrun', ?_,
    hs.schedulable ((Config.wellFormed_initial hc₀).run hrun') hsch⟩
  obtain ⟨hempty, hgoal⟩ := Bool.and_eq_true_iff.mp hg
  refine Bool.and_eq_true_iff.mpr ⟨?_, ?_⟩
  · rw [isEmpty_entries_iff] at hempty ⊢
    intro a
    cases hl : c'.todo.lookup a with
    | none => rfl
    | some p => cases (hs.running hl).2.symm.trans (hempty a)
  · rwa [holds_congr fun f hf => hs.agree f (hsl.goal f hf)]

end Steps

end TamerLite
