import TamerLite.Intervals
import TamerLite.Linearisation

/-! The timed action beside the other ones: a run without its checks is a run
with them if each of them passes on the states of the run. -/

namespace TamerLite

open SearchSpace

/-! ### Without the timed goals -/

/-- The event with its effects only. -/
def Event.withoutChecks (e : Event) : Event :=
  { e with conditions := [.constant (.bool true)], startConditions := [], endConditions := [] }

def withoutChecks (te : Timing × Event) : Timing × Event := (te.1, te.2.withoutChecks)

/-- The search space with another goal and a timed action that checks nothing. -/
def SearchSpace.withoutTimedGoals (ss : SearchSpace) (goal : Expression) : SearchSpace :=
  { ss with
    goal := goal
    events := fun a => if ss.timedAction = some a then (ss.events a).map (List.map withoutChecks)
      else ss.events a
    events_numbered := by
      intro a le h
      split_ifs at h
      · obtain ⟨le', hle, rfl⟩ := Option.map_eq_some_iff.mp h
        obtain ⟨hne, hnum⟩ := ss.events_numbered hle
        refine ⟨by simpa using hne, fun hk => ?_⟩
        rw [List.getElem?_map] at hk
        obtain ⟨te, hte, rfl⟩ := Option.map_eq_some_iff.mp hk
        have := hnum hte
        exact this
      · exact ss.events_numbered h
    events_instantaneous := by
      intro a le h hd
      split_ifs at h
      · obtain ⟨le', hle, rfl⟩ := Option.map_eq_some_iff.mp h
        rw [List.length_map]
        exact ss.events_instantaneous hle hd
      · exact ss.events_instantaneous h hd
    events_opening := by
      intro a le h te hte
      split_ifs at h
      · obtain ⟨le', hle, rfl⟩ := Option.map_eq_some_iff.mp h
        rw [List.getElem?_map] at hte
        obtain ⟨te', hte', rfl⟩ := Option.map_eq_some_iff.mp hte
        have := ss.events_opening hle hte'
        exact this
      · exact ss.events_opening h hte
    events_balanced := by
      intro a le ht h
      rw [if_neg ht] at h
      exact ss.events_balanced ht h
    timed_absolute := by
      intro a le ht h te hte
      rw [if_pos ht] at h
      obtain ⟨le', hle, rfl⟩ := Option.map_eq_some_iff.mp h
      obtain ⟨te', hte', rfl⟩ := List.mem_map.mp hte
      exact ss.timed_absolute ht hle te' hte' }

section

variable {ss : SearchSpace} {goal : Expression} {a : Action}

theorem withoutTimedGoals_timed (h : ss.timedAction = some a) :
    (ss.withoutTimedGoals goal).events a = (ss.events a).map (List.map withoutChecks) := if_pos h

theorem withoutTimedGoals_other (goal : Expression) (h : ss.timedAction ≠ some a) :
    (ss.withoutTimedGoals goal).events a = ss.events a := if_neg h

end

/-! ### One event -/

namespace Config

/-- The configuration with more conditions active. -/
def beside (c : Config) (m : Multiset Expression) : Config := { c with active := c.active + m }

variable {c d d' : Config} {e : Event} {p : ℕ × ℕ}
  {todo : AList (fun _ : Action => ℕ × ℕ)} {is : List Instance} {m : Multiset Expression}

theorem removeAll_beside {cs : List Expression} {removed : Multiset Expression}
    (m' : Multiset Expression) (h : removeAll cs m = some removed) :
    removeAll cs (m + m') = some (removed + m') := by
  induction cs generalizing m with
  | nil =>
    obtain rfl := Option.some.inj h
    rfl
  | cons x cs ih =>
    rw [removeAll] at h ⊢
    split_ifs at h with hx
    rw [if_pos (Multiset.mem_add.mpr (.inl hx)), Multiset.erase_add_left_pos _ hx]
    exact ih h

theorem removeAll_eq_sub {cs : List Expression} (h : Multiset.ofList cs ≤ m) :
    removeAll cs m = some (m - Multiset.ofList cs) := by
  have hcancel := tsub_add_cancel_of_le h
  cases hr : removeAll cs m with
  | none =>
    have hzero : removeAll cs (Multiset.ofList cs) = some 0 := by
      clear h hcancel hr
      induction cs with
      | nil => rfl
      | cons x cs ih => simp [removeAll, ih]
    have := removeAll_beside (m - Multiset.ofList cs) hzero
    rw [add_comm, hcancel, hr] at this
    contradiction
  | some removed =>
    have hadd := removeAll_add hr
    rw [← hadd, add_tsub_cancel_right]

variable [Callables]

/-- An event fires beside conditions it does not close if they hold after it. -/
theorem fire_beside (hf : c.fire e p todo is = some d) :
    (c.beside m).fire e p todo is = some d' ↔
      d' = d.beside m ∧ ∀ x ∈ m, holds x d.assignments = true := by
  obtain ⟨removed, as, hr, ha, hc, rfl⟩ := fire_eq_some.mp hf
  have hr' := removeAll_beside m hr
  have hact : removed + m + (e.startConditions : Multiset Expression) =
      removed + e.startConditions + m := by abel
  rw [fire_eq_some]
  constructor
  · intro h
    obtain ⟨removed', as', hr'', ha', hc', rfl⟩ := h
    obtain rfl := Option.some.inj (hr'.symm.trans hr'')
    obtain rfl := Option.some.inj (ha.symm.trans ha')
    rw [hact] at hc' ⊢
    exact ⟨rfl, fun x hx => hc' x (Multiset.mem_add.mpr (.inr hx))⟩
  · intro h
    obtain ⟨rfl, hm⟩ := h
    refine ⟨removed + m, as, hr', ha, fun x hx => ?_, by rw [hact]; rfl⟩
    rw [hact] at hx
    rcases Multiset.mem_add.mp hx with hx | hx
    · exact hc x hx
    · exact hm x hx

/-- An event that checks nothing, beside what it would close, fires with its
checks if what is open after it holds. -/
theorem fire_withoutChecks (d' : Config) (hends : Multiset.ofList e.endConditions ≤ m)
    (hf : c.fire e.withoutChecks p todo is = some d) :
    (c.beside m).fire e p todo is = some d' ↔
      d' = d.beside (m - Multiset.ofList e.endConditions + Multiset.ofList e.startConditions) ∧
        ∀ x ∈ m - Multiset.ofList e.endConditions + Multiset.ofList e.startConditions,
          holds x d.assignments = true := by
  obtain ⟨removed, as, hr, ha, hc, rfl⟩ := fire_eq_some.mp hf
  obtain rfl : c.active = removed := Option.some.inj hr
  have hr' : removeAll e.endConditions (c.active + m) =
      some (c.active + (m - Multiset.ofList e.endConditions)) := by
    rw [removeAll_eq_sub (hends.trans (le_add_of_nonneg_left (Multiset.zero_le _))),
      add_tsub_assoc_of_le hends]
  rw [fire_eq_some]
  constructor
  · intro h
    obtain ⟨removed', as', hr'', ha', hc', rfl⟩ := h
    obtain rfl := Option.some.inj (hr'.symm.trans hr'')
    obtain rfl := Option.some.inj (ha.symm.trans ha')
    rw [add_assoc] at hc' ⊢
    refine ⟨?_, fun x hx => hc' x (Multiset.mem_add.mpr (.inr hx))⟩
    simp [beside, Event.withoutChecks]
  · intro h
    obtain ⟨rfl, hm⟩ := h
    refine ⟨_, as, hr', ha, fun x hx => ?_, ?_⟩
    · rw [add_assoc] at hx
      rcases Multiset.mem_add.mp hx with hx | hx
      · exact hc x (Multiset.mem_add.mpr (.inl hx))
      · exact hm x hx
    · simp [beside, Event.withoutChecks, add_assoc]

end Config

/-! ### Paths -/

/-- What the timed action has open after the events `l`. -/
def openTimed (ss : SearchSpace) (l : List (Action × ℕ)) : Multiset Expression :=
  match ss.timedAction with
  | none => 0
  | some a => openAt ((ss.events a).getD []) (l.countP (·.1 = a))

section

section

variable [Callables]

/-- The checks of the timed action at event `q` after the events `l`, from
assignments `s` to `s'`. -/
def Passes (ss : SearchSpace) (l : List (Action × ℕ)) (q : Action × ℕ) (s s' : Assignments) : Prop :=
  (ss.timedAction = some q.1 → ∀ te, ss.event q.1 q.2 = some te →
    holds te.2.conditions s = true) ∧
  ∀ x ∈ openTimed ss (l ++ [q]), holds x s' = true

/-- Every event of `l` passes them, on the states that `ss'` goes through. -/
def PassesAll (ss ss' : SearchSpace) (l : List (Action × ℕ)) : Prop :=
  ∀ j q s s', l[j]? = some q → execute ss' (l.take j) = some s →
    execute ss' (l.take (j + 1)) = some s' → Passes ss (l.take j) q s s'

/-- The events of the timed action that have fired are the first ones. -/
def TimedInOrder (ss : SearchSpace) (c : Config) : Prop :=
  ∀ a le, ss.timedAction = some a → ss.events a = some le →
    (c.fired.map c.label).filter (·.1 = a) =
      (List.range (((c.todo.lookup a).map Prod.fst).getD le.length)).map fun k => (a, k)

end

variable {ss : SearchSpace} {c c' : Config} {a : Action}

theorem TimedInOrder.count (h : TimedInOrder ss c) {le : List (Timing × Event)} {k j : ℕ}
    (ht : ss.timedAction = some a) (hle : ss.events a = some le)
    (hl : c.todo.lookup a = some (k, j)) : (c.fired.map c.label).countP (·.1 = a) = k := by
  rw [List.countP_eq_length_filter, h a le ht hle, hl]
  simp

variable [Callables]

theorem labels_step (hwf : c.WellFormed ss) (hs : c.step ss a = some c') :
    c'.fired.map c'.label =
      c.fired.map c.label ++ [(a, ((c.todo.lookup a).map Prod.fst).getD 0)] := by
  have hlt : ∀ p ∈ c.fired, p.1 < c.instances.length := fun p hp => (hwf.fired p hp).1
  rcases Config.step_eq_some.mp hs with ⟨le, k, j, te, -, hl, -, -, hf⟩ |
    ⟨le, te, b, -, hl, -, -, -, -, -, hf⟩
  · have hi : c'.instances = c.instances := by
      obtain ⟨_, _, -, -, -, rfl⟩ := Config.fire_eq_some.mp hf
      rfl
    rw [← List.append_nil c.instances] at hf
    rw [hl]
    apply labels_fire hf hlt
    rw [Config.actionOf, hi]
    exact (hwf.todo hl).2.1
  · have hi : c'.instances = c.instances ++ [⟨a, b.1, b.2, false⟩] := by
      obtain ⟨_, _, -, -, -, rfl⟩ := Config.fire_eq_some.mp hf
      rfl
    rw [hl]
    apply labels_fire hf hlt
    simp [Config.actionOf, hi]

theorem TimedInOrder.step (h : TimedInOrder ss c) (hwf : c.WellFormed ss)
    (hs : c.step ss a = some c') : TimedInOrder ss c' := by
  intro t lt ht hlt
  rw [labels_step hwf hs, List.filter_append, h t lt ht hlt]
  rcases Config.step_eq_some.mp hs with ⟨le, k, j, te, hle, hl, hte, -, hf⟩ |
    ⟨le, te, b, -, hl, hne, -, -, -, -, hf⟩
  · obtain ⟨_, _, -, -, -, rfl⟩ := Config.fire_eq_some.mp hf
    rw [Config.lookup_nextTodo]
    by_cases ha : t = a
    · subst ha
      obtain rfl := Option.some.inj (hlt.symm.trans hle)
      have hk := (List.getElem?_eq_some_iff.mp hte).1
      simp only [hl, if_true, Option.map_some, Option.getD_some, decide_true, List.filter_cons_of_pos,
        List.filter_nil]
      split_ifs with hlen
      · rw [Option.map_none, Option.getD_none, show lt.length = k + 1 by omega, List.range_succ,
          List.map_append, List.map_singleton]
      · rw [Option.map_some, Option.getD_some, List.range_succ, List.map_append, List.map_singleton]
    · rw [if_neg ha]
      simp [Ne.symm ha]
  · obtain ⟨_, _, -, -, -, rfl⟩ := Config.fire_eq_some.mp hf
    have ha : t ≠ a := fun ha => hne (ha ▸ ht)
    have hlook : (if 1 < le.length then c.todo.insert a (1, c.instances.length)
        else c.todo).lookup t = c.todo.lookup t := by
      split_ifs
      · exact AList.lookup_insert_ne ha
      · rfl
    simp [hlook, Ne.symm ha]

end

namespace Config

variable [Callables] {ss : SearchSpace} {c c' : Config} {a : Action} {le : List (Timing × Event)}
  {te : Timing × Event}

theorem step_running {k j : ℕ} (hle : ss.events a = some le) (hl : c.todo.lookup a = some (k, j))
    (hte : le[k]? = some te) : c.step ss a = some c' ↔ holds te.2.conditions c.assignments = true ∧
      c.fire te.2 (j, k) (nextTodo c.todo a le.length k j) c.instances = some c' := by
  rw [step_eq_some]
  constructor
  · intro h
    rcases h with ⟨le', k', j', te', hle', hl', hte', hc, hf⟩ | ⟨le', te', b, -, hl', -⟩
    · obtain rfl := Option.some.inj (hle.symm.trans hle')
      obtain ⟨rfl, rfl⟩ : k = k' ∧ j = j' := by simpa [hl] using hl'
      obtain rfl := Option.some.inj (hte.symm.trans hte')
      exact ⟨hc, hf⟩
    · rw [hl] at hl'
      contradiction
  · intro h
    exact .inl ⟨le, k, j, te, hle, hl, hte, h.1, h.2⟩

theorem step_opening {b : ℚ × ℚ} (hle : ss.events a = some le) (hl : c.todo.lookup a = none)
    (ht : ss.timedAction ≠ some a) (hs : ss.symmetryAllowsOpening c.actions a = true)
    (hte : le[0]? = some te) (hc : holds te.2.conditions c.assignments = true)
    (hb : ss.durationBounds a c.assignments = some b) : c.step ss a = some c' ↔
      c.fire te.2 (c.instances.length, 0)
        (if 1 < le.length then c.todo.insert a (1, c.instances.length) else c.todo)
        (c.instances ++ [⟨a, b.1, b.2, false⟩]) = some c' := by
  rw [step_eq_some]
  constructor
  · intro h
    rcases h with ⟨le', k', j', te', -, hl', -⟩ | ⟨le', te', b', hle', -, -, -, hte', -, hb', hf⟩
    · rw [hl] at hl'
      contradiction
    · obtain rfl := Option.some.inj (hle.symm.trans hle')
      obtain rfl := Option.some.inj (hte.symm.trans hte')
      obtain rfl := Option.some.inj (hb.symm.trans hb')
      exact hf
  · exact fun hf => .inr ⟨le, te, b, hle, hl, ht, hs, hte, hc, hb, hf⟩

end Config

section

variable {ss : SearchSpace} {goal : Expression} {c c' d : Config} {a : Action}

theorem openTimed_append_other {l : List (Action × ℕ)} {k : ℕ} (h : ss.timedAction ≠ some a) :
    openTimed ss (l ++ [(a, k)]) = openTimed ss l := by
  unfold openTimed
  cases ht : ss.timedAction with
  | none => rfl
  | some t =>
    have hta : a ≠ t := fun ha => h (ha ▸ ht)
    simp [hta]

theorem openTimed_eq {l : List (Action × ℕ)} {le : List (Timing × Event)}
    (ht : ss.timedAction = some a) (hle : ss.events a = some le) :
    openTimed ss l = openAt le (l.countP (·.1 = a)) := by
  simp [openTimed, ht, hle]

variable [Callables]

/-- A step without the timed goals is one with them if the checks at its event pass. -/
theorem step_iff_passes (hn : ∀ a le, ss.timedAction = some a → ss.events a = some le →
      NestedEvents le)
    (hord : TimedInOrder (ss.withoutTimedGoals goal) c)
    (hs : c.step (ss.withoutTimedGoals goal) a = some d) :
    (c.beside (openTimed ss (c.fired.map c.label))).step ss a = some c' ↔
      c' = d.beside (openTimed ss
        (c.fired.map c.label ++ [(a, ((c.todo.lookup a).map Prod.fst).getD 0)])) ∧
      Passes ss (c.fired.map c.label) (a, ((c.todo.lookup a).map Prod.fst).getD 0) c.assignments
        d.assignments := by
  rcases Config.step_eq_some.mp hs with ⟨le', k, j, te', hle', hl, hte', hc, hf⟩ |
    ⟨le, te, b, hle, hl, hne, hsym, hte, hc, hb, hf⟩
  · by_cases ht : ss.timedAction = some a
    · have hcount := hord.count ht hle' hl
      rw [withoutTimedGoals_timed ht] at hle'
      obtain ⟨le, hle, rfl⟩ := Option.map_eq_some_iff.mp hle'
      rw [List.getElem?_map] at hte'
      obtain ⟨te, hte, rfl⟩ := Option.map_eq_some_iff.mp hte'
      have hopen : openTimed ss (c.fired.map c.label ++ [(a, k)]) = openAt le (k + 1) := by
        rw [openTimed_eq ht hle, List.countP_append, hcount]
        simp
      rw [List.length_map] at hf
      simp only [hl, Option.map_some, Option.getD_some, hopen, Passes, openTimed_eq ht hle, hcount]
      have hbeside : (c.beside (openAt le k)).step ss a = some c' ↔
          holds te.2.conditions c.assignments = true ∧
            (c.beside (openAt le k)).fire te.2 (j, k) (Config.nextTodo c.todo a le.length k j)
              c.instances = some c' := Config.step_running hle hl hte
      rw [hbeside, Config.fire_withoutChecks _ ((hn a le ht hle).ends_le hte) hf, openAt_succ hte]
      have hev : ss.event a k = some te := (Config.event_eq hle).trans hte
      constructor
      · intro h
        refine ⟨h.2.1, fun _ te' hte' => ?_, h.2.2⟩
        obtain rfl := Option.some.inj (hev.symm.trans hte')
        exact h.1
      · intro h
        exact ⟨h.2.1 ht te hev, h.1, h.2.2⟩
    · have hle := (withoutTimedGoals_other goal ht).symm.trans hle'
      have hbeside : ∀ m, (c.beside m).step ss a = some c' ↔
          holds te'.2.conditions c.assignments = true ∧
            (c.beside m).fire te'.2 (j, k) (Config.nextTodo c.todo a le'.length k j)
              c.instances = some c' := fun m => Config.step_running hle hl hte'
      simp only [hl, Option.map_some, Option.getD_some, Passes, openTimed_append_other ht]
      rw [hbeside, Config.fire_beside hf]
      simp [ht, hc]
  · have ht : ss.timedAction ≠ some a := hne
    rw [withoutTimedGoals_other goal ht] at hle
    have hbeside : ∀ m, (c.beside m).step ss a = some c' ↔
        (c.beside m).fire te.2 (c.instances.length, 0)
          (if 1 < le.length then c.todo.insert a (1, c.instances.length) else c.todo)
          (c.instances ++ [⟨a, b.1, b.2, false⟩]) = some c' :=
      fun m => Config.step_opening hle hl ht hsym hte hc hb
    simp only [hl, Option.map_none, Option.getD_none, Passes, openTimed_append_other ht]
    rw [hbeside, Config.fire_beside hf]
    simp [ht]

theorem passesAll_concat {ss ss' : SearchSpace} {l : List (Action × ℕ)} {q : Action × ℕ}
    {s s' : Assignments} (hs : execute ss' l = some s) (hs' : execute ss' (l ++ [q]) = some s') :
    PassesAll ss ss' (l ++ [q]) ↔ PassesAll ss ss' l ∧ Passes ss l q s s' := by
  have htake : ∀ j ≤ l.length, (l ++ [q]).take j = l.take j := fun j hj =>
    List.take_append_of_le_length hj
  have hlast : (l ++ [q]).take (l.length + 1) = l ++ [q] := List.take_of_length_le (by simp)
  constructor
  · intro h
    refine ⟨fun j q' t t' hj ht ht' => ?_, ?_⟩
    · have hlt := (List.getElem?_eq_some_iff.mp hj).1
      rw [← htake j (by omega)] at ht ⊢
      rw [← htake (j + 1) (by omega)] at ht'
      exact h j q' t t' (by rwa [List.getElem?_append_left hlt]) ht ht'
    · have hq : (l ++ [q])[l.length]? = some q := by simp
      have hpass := h l.length q s s' hq (by rw [htake _ le_rfl, List.take_length, hs])
        (by rw [hlast, hs'])
      rwa [htake _ le_rfl, List.take_length] at hpass
  · intro h j q' t t' hj ht ht'
    rcases Nat.lt_or_ge j l.length with hlt | hge
    · rw [htake j (by omega)] at ht ⊢
      rw [htake (j + 1) (by omega)] at ht'
      rw [List.getElem?_append_left hlt] at hj
      exact h.1 j q' t t' hj ht ht'
    · have hlen := (List.getElem?_eq_some_iff.mp hj).1
      obtain rfl : j = l.length := by simp at hlen; omega
      obtain rfl : q = q' := by simpa using hj
      rw [htake _ le_rfl, List.take_length] at ht ⊢
      rw [hlast] at ht'
      obtain rfl := Option.some.inj (hs.symm.trans ht)
      obtain rfl := Option.some.inj (hs'.symm.trans ht')
      exact h.2

theorem timedInOrder_initial (h : Config.initial ss = some c) : TimedInOrder ss c := by
  intro t lt ht hlt
  rcases Config.initial_eq_some.mp h with ⟨hnone, -⟩ | ⟨a, le, te, b, ha, hle, hte, -, -, hf⟩
  · rw [ht] at hnone
    contradiction
  · obtain rfl := Option.some.inj (ht.symm.trans ha)
    obtain rfl := Option.some.inj (hlt.symm.trans hle)
    have hpos := (List.getElem?_eq_some_iff.mp hte).1
    obtain ⟨_, _, -, -, -, rfl⟩ := Config.fire_eq_some.mp hf
    dsimp only
    split_ifs with hlen
    · rw [AList.lookup_insert]
      simp [Config.label, Config.actionOf]
    · obtain hlen : lt.length = 1 := by omega
      simp [Config.label, Config.actionOf, hlen]

theorem TimedInOrder.run {c₀ : Config} {as : List Action} (h₀ : Config.initial ss = some c₀)
    (hr : c₀.run ss as = some c) : TimedInOrder ss c := by
  induction as using List.reverseRecOn generalizing c with
  | nil =>
    obtain rfl := Option.some.inj hr
    exact timedInOrder_initial h₀
  | append_singleton as a ih =>
    obtain ⟨d, hd, hs⟩ := Config.run_concat.mp hr
    exact (ih hd).step ((Config.wellFormed_initial h₀).run hd) hs

theorem initial_iff_passes (hn : ∀ a le, ss.timedAction = some a → ss.events a = some le →
      NestedEvents le) (h : Config.initial (ss.withoutTimedGoals goal) = some c) :
    Config.initial ss = some c' ↔ c' = c.beside (openTimed ss (c.fired.map c.label)) ∧
      PassesAll ss (ss.withoutTimedGoals goal) (c.fired.map c.label) := by
  have hexec := (trace_initial h).execute_eq
  rcases Config.initial_eq_some.mp h with ⟨hnone, rfl⟩ | ⟨a, le', te', b, ht, hle', hte', hc, hb, hf⟩
  · have hnone' : ss.timedAction = none := hnone
    have hzero : openTimed ss [] = 0 := by simp [openTimed, hnone']
    have hinit : Config.initial ss = some ⟨ss.initialState, ∅, 0, [], []⟩ := by
      simp [Config.initial, hnone']
    rw [hinit]
    simp only [List.map_nil, hzero, Option.some.injEq]
    constructor
    · intro h
      exact ⟨h.symm, fun j q s s' hj => by simp at hj⟩
    · exact fun h => h.1.symm
  · have ht' : ss.timedAction = some a := ht
    rw [withoutTimedGoals_timed ht'] at hle'
    obtain ⟨le, hle, rfl⟩ := Option.map_eq_some_iff.mp hle'
    rw [List.getElem?_map] at hte'
    obtain ⟨te, hte, rfl⟩ := Option.map_eq_some_iff.mp hte'
    rw [List.length_map] at hf
    have hlabels : c.fired.map c.label = [(a, 0)] := by
      obtain ⟨_, _, -, -, -, rfl⟩ := Config.fire_eq_some.mp hf
      rfl
    have hopen : openTimed ss [(a, 0)] = openAt le 1 := by
      rw [openTimed_eq ht' hle]
      simp
    have hfire := Config.fire_withoutChecks c' ((hn a le ht' hle).ends_le hte) hf
    have hev : ss.event a 0 = some te := (Config.event_eq hle).trans hte
    rw [hlabels] at hexec ⊢
    rw [← List.nil_append [(a, 0)], passesAll_concat rfl (by exact hexec), List.nil_append, hopen,
      openAt_succ hte, Config.initial_eq_some]
    constructor
    · intro h
      rcases h with ⟨hnone, -⟩ | ⟨a', le', te', b', ha', hle', hte', hc', hb', hf'⟩
      · rw [ht'] at hnone
        contradiction
      · obtain rfl := Option.some.inj (ht'.symm.trans ha')
        obtain rfl := Option.some.inj (hle.symm.trans hle')
        obtain rfl := Option.some.inj (hte.symm.trans hte')
        obtain rfl := Option.some.inj (hb.symm.trans hb')
        obtain ⟨hd, hopens⟩ := hfire.mp hf'
        refine ⟨hd, fun j q s s' hj => by simp at hj, fun _ te' hte'' => ?_, ?_⟩
        · obtain rfl := Option.some.inj (hev.symm.trans hte'')
          exact hc'
        · rw [List.nil_append, hopen, openAt_succ hte]
          exact hopens
    · intro h
      obtain ⟨hd, -, hpass, hopens⟩ := h
      rw [List.nil_append, hopen, openAt_succ hte] at hopens
      exact .inr ⟨a, le, te, b, ht', hle, hte, hpass ht' te hev, hb, hfire.mpr ⟨hd, hopens⟩⟩

/-- A run without the timed goals is one with them if every check passes. -/
theorem run_iff_passes (hn : ∀ a le, ss.timedAction = some a → ss.events a = some le →
      NestedEvents le) {c₀ : Config} {as : List Action}
    (h₀ : Config.initial (ss.withoutTimedGoals goal) = some c₀)
    (hr : c₀.run (ss.withoutTimedGoals goal) as = some c) :
    (∃ c₁, Config.initial ss = some c₁ ∧ c₁.run ss as = some c') ↔
      c' = c.beside (openTimed ss (c.fired.map c.label)) ∧
      PassesAll ss (ss.withoutTimedGoals goal) (c.fired.map c.label) := by
  induction as using List.reverseRecOn generalizing c c' with
  | nil =>
    obtain rfl := Option.some.inj hr
    rw [← initial_iff_passes hn h₀]
    constructor
    · intro h
      obtain ⟨c₁, h₁, hrun⟩ := h
      obtain rfl := Option.some.inj hrun
      exact h₁
    · exact fun h => ⟨c', h, rfl⟩
  | append_singleton as a ih =>
    obtain ⟨d, hd, hs⟩ := Config.run_concat.mp hr
    have hwf := (Config.wellFormed_initial h₀).run hd
    have hexec := (trace_run h₀ hd).execute_eq
    have hexec' := (trace_run h₀ hr).execute_eq
    have hord := TimedInOrder.run h₀ hd
    rw [labels_step hwf hs] at hexec' ⊢
    rw [passesAll_concat hexec hexec']
    have hsplit : (∃ c₁, Config.initial ss = some c₁ ∧ c₁.run ss (as ++ [a]) = some c') ↔
        ∃ e, (∃ c₁, Config.initial ss = some c₁ ∧ c₁.run ss as = some e) ∧
          e.step ss a = some c' := by
      simp only [Config.run_concat]
      constructor
      · intro h
        obtain ⟨c₁, h₁, e, he, hs⟩ := h
        exact ⟨e, ⟨c₁, h₁, he⟩, hs⟩
      · intro h
        obtain ⟨e, ⟨c₁, h₁, he⟩, hs⟩ := h
        exact ⟨c₁, h₁, e, he, hs⟩
    rw [hsplit]
    simp only [ih hd]
    constructor
    · intro h
      obtain ⟨e, ⟨rfl, hall⟩, hstep⟩ := h
      obtain ⟨hc', hpass⟩ := (step_iff_passes hn hord hs).mp hstep
      exact ⟨hc', hall, hpass⟩
    · intro h
      obtain ⟨hc', hall, hpass⟩ := h
      exact ⟨_, ⟨rfl, hall⟩, (step_iff_passes hn hord hs).mpr ⟨hc', hpass⟩⟩

end

end TamerLite
